import Mathlib.Data.List.Chain
import Mathlib.Data.List.Nodup
import Mathlib.Data.List.Perm.Subperm
import Mathlib.Logic.Relation
import Mathlib.Logic.Function.Basic

/-!
# Depth-first path search

A recursive depth-first search with visited marks and parent pointers, over any
finite list of nodes, and the walk back along the parents.

* `findPath_iff`: with as much fuel as there are nodes the search succeeds
  exactly when the target is reachable;
* `chainFrom_findPath`: after a success the parents lead back along a simple path
  from the start to the target;
* `findPathOpt_eq`: the recursion is never deeper than the number of nodes;
* `findPath_congr`: edges into the start take no part in the search.
-/

namespace ScaleLockDep.PathSearch

open Relation

variable {α : Type} [DecidableEq α]

structure Search (α : Type) where
  visited : α → Bool
  parent : α → Option α

def Search.initial : Search α := ⟨fun _ => false, fun _ => none⟩

def Search.visit (st : Search α) (x : α) : Search α :=
  { st with visited := Function.update st.visited x true }

def Search.setParent (st : Search α) (x p : α) : Search α :=
  { st with parent := Function.update st.parent x (some p) }

/-- The loop over the successors of `cur`; `find` is the recursive call. -/
def scan (find : α → Search α → Bool × Search α) (adj : α → α → Bool) (cur : α) :
    List α → Search α → Bool × Search α
  | [], st => (false, st)
  | n :: ns, st =>
      if adj cur n && !st.visited n then
        match find n (st.setParent n cur) with
        | (true, st') => (true, st')
        | (false, st') => scan find adj cur ns st'
      else scan find adj cur ns st

/-- The search itself; the fuel bounds the depth of the recursion. -/
def findPath (adj : α → α → Bool) (nodes : List α) (target : α) :
    Nat → α → Search α → Bool × Search α
  | 0, _, st => (false, st)
  | fuel + 1, cur, st =>
      if cur = target then (true, st)
      else scan (findPath adj nodes target fuel) adj cur nodes (st.visit cur)

/-- The chain of parents from `cur` up to `stop`, at most `fuel` long. -/
def backtrack (parent : α → Option α) (stop : α) : Nat → Option α → List α
  | 0, _ => []
  | _ + 1, none => []
  | fuel + 1, some cur =>
      if cur = stop then [cur] else cur :: backtrack parent stop fuel (parent cur)

/-! ## One call -/

variable {adj : α → α → Bool} {nodes : List α} {target : α}

/-- How many nodes can still be visited. -/
def unvisited (nodes : List α) (st : Search α) : Nat := (nodes.filter fun n => !st.visited n).length

/-- A simple path of nodes that were unvisited in `st`, along the parents of `st'`. -/
structure Route (adj : α → α → Bool) (nodes : List α) (st st' : Search α) (p : List α) : Prop where
  chain : p.IsChain fun x y => adj x y = true ∧ st'.parent y = some x
  nodup : p.Nodup
  fresh : ∀ x, x ∈ p → st.visited x = false
  nodes : ∀ x, x ∈ p → x ∈ nodes

/-- Every node marked between `st` and `st'` has all its successors marked. -/
def Explored (adj : α → α → Bool) (nodes : List α) (st st' : Search α) : Prop :=
  ∀ x, st'.visited x = true → st.visited x = false → ∀ y, y ∈ nodes → adj x y = true →
    st'.visited y = true

/-- What a call on `cur` gives. -/
structure Found (adj : α → α → Bool) (nodes : List α) (target cur : α) (st : Search α)
    (r : Bool × Search α) : Prop where
  frame : ∀ x, st.visited x = true ∨ x = cur → r.2.parent x = st.parent x
  grow : ∀ x, st.visited x = true → r.2.visited x = true
  path : r.1 = true → ∃ p, Route adj nodes st r.2 p ∧ p.head? = some cur ∧
    p.getLast? = some target
  marked : r.1 = false → r.2.visited cur = true
  missed : r.1 = false → st.visited target = false → r.2.visited target = false
  explored : r.1 = false → Explored adj nodes st r.2

/-- What the loop over the successors `ns` of `cur` gives. -/
structure Scanned (adj : α → α → Bool) (nodes : List α) (target cur : α) (ns : List α)
    (st : Search α) (r : Bool × Search α) : Prop where
  frame : ∀ x, st.visited x = true → r.2.parent x = st.parent x
  grow : ∀ x, st.visited x = true → r.2.visited x = true
  path : r.1 = true → ∃ p n, Route adj nodes st r.2 p ∧ p.head? = some n ∧
    p.getLast? = some target ∧ adj cur n = true ∧ r.2.parent n = some cur
  marked : r.1 = false → ∀ n, n ∈ ns → adj cur n = true → r.2.visited n = true
  missed : r.1 = false → st.visited target = false → r.2.visited target = false
  explored : r.1 = false → Explored adj nodes st r.2

omit [DecidableEq α] in
theorem unvisited_mono {st st' : Search α} (h : ∀ x, st.visited x = true → st'.visited x = true) :
    unvisited nodes st' ≤ unvisited nodes st := by
  unfold unvisited
  apply List.Sublist.length_le
  apply List.monotone_filter_right
  intro x hx
  simp only [Bool.not_eq_true'] at hx ⊢
  by_contra hv
  rw [h x (by simpa using hv)] at hx
  cases hx

theorem unvisited_visit {st : Search α} {x : α} (hx : x ∈ nodes) (hv : st.visited x = false) :
    unvisited nodes (st.visit x) < unvisited nodes st := by
  unfold unvisited
  have hsub : (nodes.filter fun n => !(st.visit x).visited n) =
      (nodes.filter fun n => !st.visited n).filter (· ≠ x) := by
    rw [List.filter_filter]
    apply List.filter_congr
    intro n _
    by_cases hn : n = x <;> simp [Search.visit, hn]
  rw [hsub]
  apply List.length_filter_lt_length_iff_exists.mpr
  exact ⟨x, by simp [hx, hv], by simp⟩

omit [DecidableEq α] in
theorem Explored.trans {st st' st'' : Search α} (h : Explored adj nodes st st')
    (h' : Explored adj nodes st' st'')
    (hg : ∀ x, st'.visited x = true → st''.visited x = true) : Explored adj nodes st st'' := by
  intro x hx hx0 y hy ha
  by_cases hx' : st'.visited x = true
  · exact hg y (h x hx' hx0 y hy ha)
  · exact h' x hx (by simpa using hx') y hy ha

/-- **The loop**, given that the recursive calls are right. -/
theorem scan_spec {find : α → Search α → Bool × Search α} {k : Nat} {cur : α}
    (hf : ∀ n st, st.visited n = false → n ∈ nodes → unvisited nodes st ≤ k →
      Found adj nodes target n st (find n st))
    {ns : List α} (hns : ∀ n, n ∈ ns → n ∈ nodes) {st : Search α}
    (hk : unvisited nodes st ≤ k) :
    Scanned adj nodes target cur ns st (scan find adj cur ns st) := by
  induction ns generalizing st with
  | nil =>
    refine ⟨fun _ _ => rfl, fun _ h => h, (nomatch ·), fun _ _ hn => (nomatch hn),
      fun _ h => h, fun _ x hx hx0 => ?_⟩
    simp [scan, hx0] at hx
  | cons n ns ih =>
    have hns' : ∀ m, m ∈ ns → m ∈ nodes := fun m hm => hns m (List.mem_cons_of_mem _ hm)
    unfold scan
    split
    · rename_i hgo
      simp only [Bool.and_eq_true, Bool.not_eq_true'] at hgo
      obtain ⟨hadj, hfresh⟩ := hgo
      have F := hf n (st.setParent n cur) hfresh (hns n List.mem_cons_self) hk
      generalize hr : find n (st.setParent n cur) = r at F
      obtain ⟨found, st'⟩ := r
      have hparent : ∀ x, st.visited x = true → st'.parent x = st.parent x := by
        intro x hx
        rw [F.frame x (Or.inl hx)]
        have : x ≠ n := fun e => by simp [e, hfresh] at hx
        simp [Search.setParent, this]
      cases found with
      | true =>
        refine ⟨hparent, F.grow, fun _ => ?_, (nomatch ·), (nomatch ·),
          (nomatch ·)⟩
        obtain ⟨p, R, hhead, hlast⟩ := F.path rfl
        exact ⟨p, n, ⟨R.chain, R.nodup, R.fresh, R.nodes⟩, hhead, hlast, hadj, by
          rw [F.frame n (Or.inr rfl)]
          simp [Search.setParent]⟩
      | false =>
        have S := ih hns' ((unvisited_mono F.grow).trans hk)
        refine ⟨fun x hx => (S.frame x (F.grow x hx)).trans (hparent x hx),
          fun x hx => S.grow x (F.grow x hx), fun h => ?_, fun h m hm ha => ?_,
          fun h ht => S.missed h (F.missed rfl ht), fun h => ?_⟩
        · obtain ⟨p, m, R, hrest⟩ := S.path h
          refine ⟨p, m, ⟨R.chain, R.nodup, fun x hx => ?_, R.nodes⟩, hrest⟩
          by_contra hv
          have hv : st.visited x = true := by simpa using hv
          have := F.grow x hv
          rw [R.fresh x hx] at this
          cases this
        · rcases List.mem_cons.mp hm with rfl | hm
          · exact S.grow m (F.marked rfl)
          · exact S.marked h m hm ha
        · exact Explored.trans (F.explored rfl) (S.explored h) S.grow
    · rename_i hskip
      have S := ih hns' hk
      refine ⟨S.frame, S.grow, S.path, fun h m hm ha => ?_, S.missed, S.explored⟩
      rcases List.mem_cons.mp hm with rfl | hm
      · exact S.grow m (by simpa [ha] using hskip)
      · exact S.marked h m hm ha

/-- **One call**, with fuel for every node that can still be visited. -/
theorem findPath_spec (fuel : Nat) (cur : α) (st : Search α) (hcur : st.visited cur = false)
    (hmem : cur ∈ nodes) (hfuel : unvisited nodes st ≤ fuel) :
    Found adj nodes target cur st (findPath adj nodes target fuel cur st) := by
  induction fuel generalizing cur st with
  | zero =>
    have := unvisited_visit hmem hcur
    omega
  | succ fuel ih =>
    unfold findPath
    split
    · rename_i ht
      refine ⟨fun _ _ => rfl, fun _ h => h, fun _ => ⟨[cur], ⟨?_, ?_, ?_, ?_⟩, rfl, by simp [ht]⟩,
        (nomatch ·), (nomatch ·), (nomatch ·)⟩
      · exact .singleton _
      · simp
      · simpa using hcur
      · simpa using hmem
    · rename_i ht
      have hlt := unvisited_visit hmem hcur
      have hkeep : ∀ x, x = cur ∨ st.visited x = true → (st.visit cur).visited x = true := by
        rintro x (rfl | hx)
        · simp [Search.visit]
        · by_cases hx' : x = cur <;> simp [Search.visit, hx', hx]
      have S : Scanned adj nodes target cur nodes (st.visit cur)
          (scan (findPath adj nodes target fuel) adj cur nodes (st.visit cur)) :=
        scan_spec ih (fun _ h => h) (by omega)
      generalize scan (findPath adj nodes target fuel) adj cur nodes (st.visit cur) = r at S
      refine ⟨fun x hx => S.frame x (hkeep x hx.symm), fun x hx => S.grow x (hkeep x (Or.inr hx)),
        fun h => ?_, fun _ => S.grow cur (hkeep cur (Or.inl rfl)), fun h htv => S.missed h ?_,
        fun h => ?_⟩
      · obtain ⟨p, n, R, hhead, hlast, hadj, hpar⟩ := S.path h
        have hfresh : ∀ x, x ∈ p → x ≠ cur ∧ st.visited x = false := by
          intro x hx
          have := R.fresh x hx
          constructor
          · rintro rfl
            rw [hkeep x (Or.inl rfl)] at this
            cases this
          · by_contra hv
            rw [hkeep x (Or.inr (by simpa using hv))] at this
            cases this
        refine ⟨cur :: p, ⟨?_, ?_, ?_, ?_⟩, rfl, ?_⟩
        · cases p with
          | nil => cases hhead
          | cons m p =>
            obtain rfl : m = n := by simpa using hhead
            exact .cons_cons ⟨hadj, hpar⟩ R.chain
        · exact List.nodup_cons.mpr ⟨fun hc => (hfresh cur hc).1 rfl, R.nodup⟩
        · intro x hx
          rcases List.mem_cons.mp hx with rfl | hx
          · exact hcur
          · exact (hfresh x hx).2
        · intro x hx
          rcases List.mem_cons.mp hx with rfl | hx
          · exact hmem
          · exact R.nodes x hx
        · cases p with
          | nil => cases hhead
          | cons m p => simpa using hlast
      · simp [Search.visit, Function.update_of_ne (Ne.symm ht), htv]
      · intro x hx hx0 y hy ha
        by_cases hxc : x = cur
        · subst hxc
          exact S.marked h y hy ha
        · exact S.explored h x hx (by simp [Search.visit, hxc, hx0]) y hy ha

/-! ## The whole search -/

omit [DecidableEq α] in
theorem reflTransGen_of_chain {p : List α} {r : α → α → Prop} {x y : α} (h : p.IsChain r)
    (hx : p.head? = some x) (hy : p.getLast? = some y) : ReflTransGen r x y := by
  induction p generalizing x with
  | nil => cases hx
  | cons a p ih =>
    obtain rfl : a = x := by simpa using hx
    cases p with
    | nil =>
      obtain rfl : a = y := by simpa using hy
      exact .refl
    | cons b p =>
      rw [List.isChain_cons_cons] at h
      exact .head h.1 (ih h.2 rfl (by simpa using hy))

omit [DecidableEq α] in
theorem unvisited_initial : unvisited nodes (Search.initial : Search α) = nodes.length := by
  simp [unvisited, Search.initial]

theorem findPath_initial {start : α} {fuel : Nat} (hs : start ∈ nodes)
    (hfuel : nodes.length ≤ fuel) : Found adj nodes target start Search.initial
      (findPath adj nodes target fuel start Search.initial) :=
  findPath_spec fuel start _ rfl hs (by rw [unvisited_initial]; exact hfuel)

/-- **The search decides reachability.** -/
theorem findPath_iff {start : α} {fuel : Nat} (hs : start ∈ nodes) (hfuel : nodes.length ≤ fuel) :
    (findPath adj nodes target fuel start Search.initial).1 = true ↔
      ReflTransGen (fun x y => adj x y = true ∧ y ∈ nodes) start target := by
  have F : Found adj nodes target start Search.initial
      (findPath adj nodes target fuel start Search.initial) := findPath_initial hs hfuel
  constructor
  · intro h
    obtain ⟨p, R, hhead, hlast⟩ := F.path h
    have hp : p.IsChain fun x y => adj x y = true ∧ y ∈ nodes := by
      refine List.IsChain.imp_of_mem_imp (fun x y _ hy hxy => ⟨hxy.1, R.nodes y hy⟩) R.chain
    exact reflTransGen_of_chain hp hhead hlast
  · intro h
    by_contra hno
    have hno : (findPath adj nodes target fuel start Search.initial).1 = false := by simpa using hno
    -- the marked nodes are closed under successors and leave the target out
    have hmark : ∀ y, ReflTransGen (fun x y => adj x y = true ∧ y ∈ nodes) start y →
        (findPath adj nodes target fuel start Search.initial).2.visited y = true := by
      intro y hy
      induction hy with
      | refl => exact F.marked hno
      | tail _ hxy ih => exact F.explored hno _ ih rfl _ hxy.2 hxy.1
    have := F.missed hno rfl
    rw [hmark target h] at this
    cases this

/-- The parents along a route lead back to its start. -/
theorem backtrack_eq {parent : α → Option α} {start target : α} {p : List α} {fuel : Nat}
    (hchain : p.IsChain fun x y => parent y = some x) (hnd : p.Nodup)
    (hhead : p.head? = some start) (hlast : p.getLast? = some target) (hlen : p.length ≤ fuel) :
    backtrack parent start fuel (some target) = p.reverse := by
  induction p using List.reverseRecOn generalizing target fuel with
  | nil => cases hhead
  | append_singleton q x ih =>
    obtain rfl : x = target := by simpa using hlast
    rw [List.length_append, List.length_singleton] at hlen
    obtain ⟨fuel, rfl⟩ : ∃ k, fuel = k + 1 := ⟨fuel - 1, by omega⟩
    rw [List.reverse_concat, backtrack]
    cases hq : q.getLast? with
    | none =>
      rw [List.getLast?_eq_none_iff] at hq
      subst hq
      obtain rfl : x = start := by simpa using hhead
      simp
    | some y =>
      have hne : q ≠ [] := by
        rintro rfl
        cases hq
      have hhead' : q.head? = some start := by
        rwa [List.head?_append_of_ne_nil _ hne] at hhead
      have hxs : x ≠ start := by
        rintro rfl
        have hmem : x ∈ q := List.mem_of_head? hhead'
        rw [List.nodup_append] at hnd
        exact hnd.2.2 x hmem x (by simp) rfl
      rw [List.isChain_append] at hchain
      rw [if_neg hxs, hchain.2.2 y hq x rfl,
        ih hchain.1 (List.Nodup.of_append_left hnd) hhead' hq (by omega)]

/-- The chain of nodes from `start` to `target`, oldest first; empty when the
parents do not lead back. -/
def chainFrom (parent : α → Option α) (start target : α) (maxLen : Nat) : List α :=
  let rev := backtrack parent start maxLen (some target)
  if rev.getLast? = some start then rev.reverse else []

/-- After a success the walk back gives a simple path through the nodes. -/
theorem backtrack_findPath {start : α} {fuel maxLen : Nat} (hs : start ∈ nodes)
    (hfuel : nodes.length ≤ fuel) (hlen : nodes.length ≤ maxLen)
    (h : (findPath adj nodes target fuel start Search.initial).1 = true) :
    ∃ p, Route adj nodes Search.initial
        (findPath adj nodes target fuel start Search.initial).2 p ∧
      p.head? = some start ∧ p.getLast? = some target ∧ p.length ≤ nodes.length ∧
      backtrack (findPath adj nodes target fuel start Search.initial).2.parent start maxLen
        (some target) = p.reverse := by
  have F : Found adj nodes target start Search.initial
      (findPath adj nodes target fuel start Search.initial) := findPath_initial hs hfuel
  obtain ⟨p, R, hhead, hlast⟩ := F.path h
  have hplen : p.length ≤ nodes.length :=
    (List.Nodup.subperm R.nodup fun x hx => R.nodes x hx).length_le
  exact ⟨p, R, hhead, hlast, hplen,
    backtrack_eq (R.chain.imp fun _ _ h => h.2) R.nodup hhead hlast (hplen.trans hlen)⟩

theorem chainFrom_eq {parent : α → Option α} {start : α} {maxLen : Nat} {p : List α}
    (hb : backtrack parent start maxLen (some target) = p.reverse)
    (hhead : p.head? = some start) : chainFrom parent start target maxLen = p := by
  simp only [chainFrom, hb, List.getLast?_reverse, hhead, if_true, List.reverse_reverse]

/-- **The chain found is a simple path** from the start to the target. -/
theorem chainFrom_findPath {start : α} {fuel maxLen : Nat} (hs : start ∈ nodes)
    (hfuel : nodes.length ≤ fuel) (hlen : nodes.length ≤ maxLen)
    (h : (findPath adj nodes target fuel start Search.initial).1 = true) :
    let p := chainFrom (findPath adj nodes target fuel start Search.initial).2.parent start target
      maxLen
    p.head? = some start ∧ p.getLast? = some target ∧ p.Nodup ∧
      p.IsChain fun x y => adj x y = true := by
  obtain ⟨p, R, hhead, hlast, -, hb⟩ := backtrack_findPath hs hfuel hlen h
  simp only [chainFrom_eq hb hhead]
  exact ⟨hhead, hlast, R.nodup, R.chain.imp fun _ _ h => h.1⟩

/-! ## Termination -/

/-- The loop of a search that may not return. -/
def scanOpt (find : α → Search α → Option (Bool × Search α)) (adj : α → α → Bool) (cur : α) :
    List α → Search α → Option (Bool × Search α)
  | [], st => some (false, st)
  | n :: ns, st =>
      if adj cur n && !st.visited n then
        (find n (st.setParent n cur)).bind fun r =>
          if r.1 then some (true, r.2) else scanOpt find adj cur ns r.2
      else scanOpt find adj cur ns st

/-- The search cut off at a depth: `none` when the recursion goes deeper. -/
def findPathOpt (adj : α → α → Bool) (nodes : List α) (target : α) :
    Nat → α → Search α → Option (Bool × Search α)
  | 0, _, _ => none
  | depth + 1, cur, st =>
      if cur = target then some (true, st)
      else scanOpt (findPathOpt adj nodes target depth) adj cur nodes (st.visit cur)

theorem scanOpt_eq {find : α → Search α → Bool × Search α}
    {findOpt : α → Search α → Option (Bool × Search α)} {k : Nat} {cur : α}
    (heq : ∀ n st, st.visited n = false → n ∈ nodes → unvisited nodes st ≤ k →
      findOpt n st = some (find n st))
    (hgrow : ∀ n st, st.visited n = false → n ∈ nodes → unvisited nodes st ≤ k →
      ∀ x, st.visited x = true → (find n st).2.visited x = true)
    {ns : List α} (hns : ∀ n, n ∈ ns → n ∈ nodes) {st : Search α} (hk : unvisited nodes st ≤ k) :
    scanOpt findOpt adj cur ns st = some (scan find adj cur ns st) := by
  induction ns generalizing st with
  | nil => rfl
  | cons n ns ih =>
    have hns' : ∀ m, m ∈ ns → m ∈ nodes := fun m hm => hns m (List.mem_cons_of_mem _ hm)
    unfold scanOpt scan
    split
    · rename_i hgo
      simp only [Bool.and_eq_true, Bool.not_eq_true'] at hgo
      have hg := hgrow n (st.setParent n cur) hgo.2 (hns n List.mem_cons_self) hk
      rw [heq n (st.setParent n cur) hgo.2 (hns n List.mem_cons_self) hk, Option.bind_some]
      generalize find n (st.setParent n cur) = r at hg
      obtain ⟨found, st'⟩ := r
      cases found with
      | true => rfl
      | false => exact ih hns' ((unvisited_mono hg).trans hk)
    · exact ih hns' hk

/-- **The recursion is never deeper than the nodes left to visit.** -/
theorem findPathOpt_eq (depth fuel : Nat) (cur : α) (st : Search α)
    (hcur : st.visited cur = false) (hmem : cur ∈ nodes) (hdepth : unvisited nodes st ≤ depth)
    (hfuel : unvisited nodes st ≤ fuel) :
    findPathOpt adj nodes target depth cur st = some (findPath adj nodes target fuel cur st) := by
  have hlt := unvisited_visit hmem hcur
  induction depth generalizing fuel cur st with
  | zero => omega
  | succ depth ih =>
    obtain ⟨fuel, rfl⟩ : ∃ k, fuel = k + 1 := ⟨fuel - 1, by omega⟩
    unfold findPathOpt findPath
    split
    · rfl
    · -- fewer nodes are left once `cur` is marked
      refine scanOpt_eq (k := unvisited nodes (st.visit cur)) ?_ ?_ (fun _ h => h) le_rfl
      · intro n st' hn hmem' hk
        exact ih fuel n st' hn hmem' (by omega) (by omega) (unvisited_visit hmem' hn)
      · intro n st' hn hmem' hk
        exact (findPath_spec fuel n st' hn hmem' (by omega)).grow

/-! ## Edges that are never followed -/

theorem scan_visited {find : α → Search α → Bool × Search α} {cur x : α}
    (hf : ∀ n st, st.visited x = true → (find n st).2.visited x = true) {ns : List α}
    {st : Search α} (hx : st.visited x = true) :
    (scan find adj cur ns st).2.visited x = true := by
  induction ns generalizing st with
  | nil => exact hx
  | cons n ns ih =>
    unfold scan
    split
    · have hn := hf n (st.setParent n cur) hx
      split
      · rename_i h
        rwa [h] at hn
      · rename_i h
        rw [h] at hn
        exact ih hn
    · exact ih hx

/-- Marks stay. -/
theorem findPath_visited {fuel : Nat} {cur x : α} {st : Search α} (hx : st.visited x = true) :
    (findPath adj nodes target fuel cur st).2.visited x = true := by
  induction fuel generalizing cur st with
  | zero => exact hx
  | succ fuel ih =>
    unfold findPath
    split
    · exact hx
    · refine scan_visited (fun _ _ => ih) ?_
      unfold Search.visit
      by_cases hc : x = cur <;> simp [hc, hx]

theorem scan_congr {adj' : α → α → Bool} {find find' : α → Search α → Bool × Search α}
    {cur start : α}
    (hadj : ∀ x y, y ≠ start → adj x y = adj' x y)
    (hf : ∀ n st, st.visited start = true → find n st = find' n st)
    (hkeep : ∀ n st, st.visited start = true → (find n st).2.visited start = true)
    {ns : List α} {st : Search α} (hst : st.visited start = true) :
    scan find adj cur ns st = scan find' adj' cur ns st := by
  induction ns generalizing st with
  | nil => rfl
  | cons n ns ih =>
    have hgo : (adj cur n && !st.visited n) = (adj' cur n && !st.visited n) := by
      by_cases hn : n = start
      · rw [hn, hst, Bool.not_true, Bool.and_false, Bool.and_false]
      · rw [hadj cur n hn]
    unfold scan
    rw [hgo]
    split
    · rw [← hf n (st.setParent n cur) hst]
      have hn := hkeep n (st.setParent n cur) hst
      split
      · rfl
      · rename_i h
        rw [h] at hn
        exact ih hn
    · exact ih hst

/-- **Edges into the start are never followed.** -/
theorem findPath_congr {adj' : α → α → Bool} {fuel : Nat} {start cur : α} {st : Search α}
    (hadj : ∀ x y, y ≠ start → adj x y = adj' x y)
    (hst : st.visited start = true ∨ cur = start) :
    findPath adj nodes target fuel cur st = findPath adj' nodes target fuel cur st := by
  induction fuel generalizing cur st with
  | zero => rfl
  | succ fuel ih =>
    unfold findPath
    split
    · rfl
    · refine scan_congr hadj (fun n st' h => ih (Or.inl h)) (fun _ _ => findPath_visited) ?_
      unfold Search.visit
      by_cases hc : start = cur
      · simp [hc]
      · simp [hc, hst.resolve_right (Ne.symm hc)]

/-! ## Nodes without an edge to them -/

theorem scan_dead {find : α → Search α → Bool × Search α} {cur : α} {ns : List α} {st : Search α}
    (h : ∀ n, n ∈ ns → adj cur n = false) : scan find adj cur ns st = (false, st) := by
  induction ns with
  | nil => rfl
  | cons n ns ih =>
    rw [scan, h n List.mem_cons_self, Bool.false_and, if_neg Bool.false_ne_true]
    exact ih fun m hm => h m (List.mem_cons_of_mem n hm)

theorem scan_append {find : α → Search α → Bool × Search α} {cur : α} {ns more : List α}
    {st : Search α} (h : ∀ n, n ∈ more → adj cur n = false) :
    scan find adj cur (ns ++ more) st = scan find adj cur ns st := by
  induction ns generalizing st with
  | nil => exact scan_dead h
  | cons n ns ih =>
    rw [List.cons_append, scan, scan]
    split
    · split
      · rfl
      · exact ih
    · exact ih

/-- **Nodes without an edge to them** take no part in the search. -/
theorem findPath_append {more : List α} {fuel : Nat} {cur : α} {st : Search α}
    (h : ∀ x n, n ∈ more → adj x n = false) :
    findPath adj (nodes ++ more) target fuel cur st = findPath adj nodes target fuel cur st := by
  induction fuel generalizing cur st with
  | zero => rfl
  | succ fuel ih =>
    have hfind : findPath adj (nodes ++ more) target fuel = findPath adj nodes target fuel := by
      funext n st
      exact ih
    rw [findPath, findPath, hfind, scan_append (h cur)]

end ScaleLockDep.PathSearch
