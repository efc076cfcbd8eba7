import ScaleLockDep.GlobalRuns
import ScaleLockDep.RbTables

/-!
# The table of edges

What both backends keep: the edges with their infos, and the report for each edge that closes
a cycle.

* `cycleReport_congr`: what is reported for an edge into `v` does not depend on the other
  edges into `v`;
* `addAll_same`: the order in which edges into one lock are inserted does not matter;
* `DependencyGraph.globalOnAcquire_table`, `RbGraph.insertAll_table`: both backends record
  into such a table.
-/

namespace ScaleLockDep

open PathSearch Cycles

/-! ## The table of edges -/

/-- The edges recorded, with their infos. -/
structure EdgeTable where
  edge : Nat → Nat → Bool
  edgeInfo : Nat → Nat → EdgeInfo

/-- What `lockdep_report_potential_deadlock` prints of a report. -/
def Report.shown (sites : Bool) (r : Report) : Report :=
  if sites then r else { r with newEdgeInfo := ⟨none, 0⟩, existingEdgeInfos := [] }

namespace EdgeTable

def insert (T : EdgeTable) (u v : Nat) (info : EdgeInfo) : EdgeTable where
  edge x y := T.edge x y || decide (x = u ∧ y = v)
  edgeInfo x y := if x = u ∧ y = v then info else T.edgeInfo x y

/-- The report for the new edge from `u` to `v`. -/
def cycleReport (T : EdgeTable) (lockSlotCount u v : Nat) (info : EdgeInfo) : Option Report :=
  let found := findPath T.edge (List.range lockSlotCount) u maxLockSlots v Search.initial
  let chain := chainFrom found.2.parent v u maxLockSlots
  if found.1 then some ⟨u, v, chain, info, chainEdgeInfos T.edgeInfo chain⟩ else none

/-- Record the edges into `v` from those of the sources that have none. -/
def addAll (lockSlotCount v : Nat) (info : EdgeInfo) :
    EdgeTable → List Nat → EdgeTable × List Report
  | T, [] => (T, [])
  | T, u :: us =>
      if u = v ∨ T.edge u v = true then addAll lockSlotCount v info T us
      else
        let r := addAll lockSlotCount v info (T.insert u v info) us
        (r.1, (T.cycleReport lockSlotCount u v info).toList ++ r.2)

/-- The same edges, and the same infos where sites are shown. -/
structure Same (sites : Bool) (T T' : EdgeTable) : Prop where
  edge : ∀ x y, T.edge x y = T'.edge x y
  infos : sites = true → ∀ x y, T.edgeInfo x y = T'.edgeInfo x y

variable {T T' : EdgeTable} {n u v : Nat} {info info' : EdgeInfo} {sites : Bool}

theorem chainEdgeInfos_congr {f f' : Nat → Nat → EdgeInfo} {chain : List Nat}
    (hhead : chain.head? = some v) (hnd : chain.Nodup) (h : ∀ x y, y ≠ v → f x y = f' x y) :
    chainEdgeInfos f chain = chainEdgeInfos f' chain := by
  cases chain with
  | nil => rfl
  | cons a rest =>
    obtain rfl : a = v := by simpa using hhead
    have hne : ∀ y, y ∈ rest → y ≠ a := by
      rintro y hy rfl
      exact (List.nodup_cons.mp hnd).1 hy
    unfold chainEdgeInfos
    rw [List.tail_cons]
    apply List.ext_getElem (by simp)
    intro i h₁ h₂
    rw [List.getElem_zipWith, List.getElem_zipWith]
    exact h _ _ (hne _ (List.getElem_mem _))

/-- **Other edges into `v` change nothing** in the report for an edge into `v`. -/
theorem cycleReport_congr (hn : n ≤ maxLockSlots) (hv : v < n)
    (hedge : ∀ x y, y ≠ v → T.edge x y = T'.edge x y)
    (hinfo : sites = true → info = info' ∧ ∀ x y, y ≠ v → T.edgeInfo x y = T'.edgeInfo x y) :
    (T.cycleReport n u v info).map (Report.shown sites) =
      (T'.cycleReport n u v info').map (Report.shown sites) := by
  have hfind : findPath T.edge (List.range n) u maxLockSlots v Search.initial =
      findPath T'.edge (List.range n) u maxLockSlots v Search.initial :=
    findPath_congr hedge (Or.inr rfl)
  unfold cycleReport
  rw [hfind]
  by_cases hf : (findPath T'.edge (List.range n) u maxLockSlots v Search.initial).1 = true
  · simp only [hf, if_true, Option.map_some, Option.some.injEq]
    have hchain := @chainFrom_findPath _ _ T'.edge (List.range n) u v maxLockSlots maxLockSlots
      (List.mem_range.mpr hv) (by simpa using hn) (by simpa using hn) hf
    cases sites with
    | false => rfl
    | true =>
      obtain ⟨hi, he⟩ := hinfo rfl
      rw [hi, chainEdgeInfos_congr hchain.1 hchain.2.2.1 he]
  · simp only [hf, if_false, Bool.false_eq_true, Option.map_none]

/-- What `addAll` does: `us` are the sources that are new. -/
structure Adds (sites : Bool) (n v : Nat) (info : EdgeInfo) (T : EdgeTable) (us : List Nat)
    (r : EdgeTable × List Report) : Prop where
  edge : ∀ x y, r.1.edge x y = (T.edge x y || decide (y = v ∧ x ∈ us))
  infos : ∀ x y, r.1.edgeInfo x y = if y = v ∧ x ∈ us then info else T.edgeInfo x y
  reports : r.2.map (Report.shown sites) =
    us.filterMap fun u => (T.cycleReport n u v info).map (Report.shown sites)

theorem Adds.cons {r : EdgeTable × List Report} {us : List Nat} (hn : n ≤ maxLockSlots)
    (hv : v < n) (h : Adds sites n v info (T.insert u v info) us r) :
    Adds sites n v info T (u :: us) (r.1, (T.cycleReport n u v info).toList ++ r.2) where
  edge x y := by
    rw [h.edge, insert, Bool.or_assoc, ← Bool.decide_or]
    congr 2
    simp only [List.mem_cons, eq_iff_iff]
    tauto
  infos x y := by
    rw [h.infos, insert]
    by_cases hy : y = v <;> by_cases hx : x = u <;> simp [hy, hx]
  reports := by
    have hrest : ∀ w, ((T.insert u v info).cycleReport n w v info).map (Report.shown sites) =
        (T.cycleReport n w v info).map (Report.shown sites) := fun w =>
      cycleReport_congr hn hv (fun x y hy => by simp [insert, hy])
        fun _ => ⟨rfl, fun x y hy => by simp [insert, hy]⟩
    rw [List.map_append, h.reports, List.filterMap_cons]
    simp only [hrest]
    cases T.cycleReport n u v info <;> rfl

/-- **The sources that are new** are inserted once each. -/
theorem addAll_adds (sites : Bool) (info : EdgeInfo) (hn : n ≤ maxLockSlots) (hv : v < n) (us : List Nat) :
    ∃ new, new.Nodup ∧ (∀ u, u ∈ new ↔ u ∈ us ∧ u ≠ v ∧ T.edge u v = false) ∧
      Adds sites n v info T new (T.addAll n v info us) := by
  induction us generalizing T with
  | nil => exact ⟨[], List.nodup_nil, by simp, by simp [addAll], by simp [addAll], rfl⟩
  | cons u us ih =>
    unfold addAll
    split
    · rename_i hold
      obtain ⟨new, hnd, hmem, hA⟩ := ih (T := T)
      refine ⟨new, hnd, fun x => ?_, hA⟩
      rw [hmem, List.mem_cons]
      constructor
      · rintro ⟨hx, hne, he⟩
        exact ⟨Or.inr hx, hne, he⟩
      · rintro ⟨rfl | hx, hne, he⟩
        · rcases hold with rfl | hold
          · exact absurd rfl hne
          · rw [he] at hold
            cases hold
        · exact ⟨hx, hne, he⟩
    · rename_i hnew
      rw [not_or, Bool.not_eq_true] at hnew
      obtain ⟨new, hnd, hmem, hA⟩ := ih (T := T.insert u v info)
      have hins : ∀ x, (T.insert u v info).edge x v = (T.edge x v || decide (x = u)) := by
        intro x
        simp [insert]
      refine ⟨u :: new, List.nodup_cons.mpr ⟨fun hu => ?_, hnd⟩, fun x => ?_, hA.cons hn hv⟩
      · have := ((hmem u).mp hu).2.2
        simp [hins] at this
      · rw [List.mem_cons, hmem, hins, List.mem_cons]
        by_cases hx : x = u
        · subst hx
          simp [hnew]
        · simp [hx]

/-- **The order of the sources does not matter**, nor how often one comes or whether sources
with an edge are among them. -/
theorem addAll_same (us us' : List Nat) (hn : n ≤ maxLockSlots) (hv : v < n)
    (hT : Same sites T T') (hi : sites = true → info = info')
    (hus : ∀ u, u ≠ v → T.edge u v = false → (u ∈ us ↔ u ∈ us')) :
    Same sites (T.addAll n v info us).1 (T'.addAll n v info' us').1 ∧
      ((T.addAll n v info us).2.map (Report.shown sites)).Perm
        ((T'.addAll n v info' us').2.map (Report.shown sites)) := by
  obtain ⟨new, hnd, hmem, hA⟩ := addAll_adds (T := T) sites info hn hv us
  obtain ⟨new', hnd', hmem', hA'⟩ :=
    addAll_adds (T := T') sites info' hn hv us'
  have hiff : ∀ u, u ∈ new ↔ u ∈ new' := by
    intro u
    rw [hmem, hmem', ← hT.edge]
    constructor
    · rintro ⟨hu, hne, he⟩
      exact ⟨(hus u hne he).mp hu, hne, he⟩
    · rintro ⟨hu, hne, he⟩
      exact ⟨(hus u hne he).mpr hu, hne, he⟩
  refine ⟨⟨fun x y => ?_, fun hs x y => ?_⟩, ?_⟩
  · simp only [hA.edge, hA'.edge, hT.edge, hiff]
  · rw [hA.infos, hA'.infos, hT.infos hs, hi hs]
    simp only [hiff]
  · rw [hA.reports, hA'.reports]
    have hsame : ∀ u, (T.cycleReport n u v info).map (Report.shown sites) =
        (T'.cycleReport n u v info').map (Report.shown sites) := fun u =>
      cycleReport_congr hn hv (fun x y _ => hT.edge x y)
        fun hs => ⟨hi hs, fun x y _ => hT.infos hs x y⟩
    simp only [hsame]
    exact ((List.perm_ext_iff_of_nodup hnd hnd').mpr hiff).filterMap _

end EdgeTable

/-! ## The tables of the backends -/

theorem update_twice {β : Type} (f : Nat → Nat → β) (u v x y : Nat) (b : β) :
    Function.update f u (Function.update (f u) v b) x y = if x = u ∧ y = v then b else f x y := by
  rw [Function.update_apply]
  by_cases hx : x = u
  · subst hx
    simp [Function.update_apply]
  · simp [hx]

namespace DependencyGraph

def table (g : DependencyGraph) : EdgeTable := ⟨g.edge, g.edgeInfo⟩

variable {g : DependencyGraph} {n u v : Nat} {info : EdgeInfo} {held : List Nat}

theorem insert_table : (g.insert u v info).table = g.table.insert u v info := by
  unfold table EdgeTable.insert
  congr 1
  · funext x y
    exact insert_edge
  · funext x y
    exact update_twice g.edgeInfo u v x y info

/-- **The global backend records into its table.** -/
theorem globalOnAcquire_table :
    ((g.globalOnAcquire n v info held).1.table, (g.globalOnAcquire n v info held).2) =
      g.table.addAll n v info held := by
  induction held generalizing g with
  | nil => rfl
  | cons u held ih =>
    unfold globalOnAcquire EdgeTable.addAll
    by_cases hu : u = v
    · rw [if_pos hu, if_pos (Or.inl hu)]
      exact ih
    · rw [if_neg hu]
      by_cases he : g.table.edge u v = true
      · have hsame : g.addEdgeAndCheckCycle n u v info = (g, none) := if_pos he
        rw [if_pos (Or.inr he), hsame]
        exact ih
      · have hnew : g.addEdgeAndCheckCycle n u v info =
            (g.insert u v info, g.table.cycleReport n u v info) := if_neg he
        rw [if_neg (not_or.mpr ⟨hu, he⟩), hnew, ← insert_table, ← ih]

/-- `lockdep_potential_on_acquire` in `global` mode records every held lock that has no edge. -/
theorem onAcquire_table (held : List Nat) (v : Nat) (info : EdgeInfo) (h : g.WF n) : ∃ us,
    ((g.onAcquire n held v info).1.table, (g.onAcquire n held v info).2) =
      g.table.addAll n v info us ∧
    ∀ u, u ≠ v → g.edge u v = false → (u ∈ us ↔ u ∈ held) := by
  unfold onAcquire
  split
  · exact ⟨held, globalOnAcquire_table, fun _ _ _ => Iff.rfl⟩
  · rename_i hknown
    refine ⟨[], rfl, fun u hne he => ?_⟩
    constructor
    · exact fun hu => absurd hu List.not_mem_nil
    · intro hu
      have hE : ¬ g.E u v := Bool.eq_false_iff.mp he
      exact absurd ((hasUnknownPredecessor_iff h).mpr ⟨u, hu, hne, hE⟩) hknown

end DependencyGraph

namespace RbGraph

def table (g : RbGraph) : EdgeTable := ⟨g.edge, g.edgeInfo⟩

/-- The insertions of `lockdep_rb_process_edge_bits` for the sources `us`. -/
def insertAll (n v : Nat) (info : Nat → EdgeInfo) : RbGraph → List Nat → RbGraph × List Report
  | g, [] => (g, [])
  | g, u :: us =>
      let r := g.addEdgeIfNew n u v (info u)
      let r' := insertAll n v info r.1 us
      (r'.1, r.2.toList ++ r'.2)

variable {g : RbGraph} {n u v : Nat} {info : EdgeInfo}

theorem insert_table : (g.insert n u v info).table = g.table.insert u v info := by
  unfold table EdgeTable.insert
  congr 1
  · funext x y
    exact insert_edge
  · funext x y
    exact update_twice g.edgeInfo u v x y info

/-- The report of `lockdep_rb_add_edge_if_new`: the reachability check filters nothing. -/
theorem addEdgeIfNew_report (h : g.WF n) (hn : n ≤ maxLockSlots) (hv : v < n) (hne : u ≠ v)
    (he : g.edge u v = false) : g.addEdgeIfNew n u v info =
      (g.insert n u v info, g.table.cycleReport n u v info) := by
  have hreach := reach_iff_findPath h hn hv hne
  unfold addEdgeIfNew
  rw [if_neg (by rw [h.predecessors, he]; simp [hne])]
  refine Prod.ext rfl ?_
  unfold reportCycleIfAny EdgeTable.cycleReport
  by_cases hf : (g.findPath n v u).1 = true
  · have hchain := @chainFrom_findPath _ _ g.edge (List.range n) u v maxLockSlots maxLockSlots
      (List.mem_range.mpr hv) (by simpa using hn) (by simpa using hn) hf
    have hnil : chainFrom (g.findPath n v u).2.parent v u maxLockSlots ≠ [] := by
      intro hnil
      have hhead : (chainFrom (g.findPath n v u).2.parent v u maxLockSlots).head? = some v :=
        hchain.1
      rw [hnil] at hhead
      cases hhead
    rw [if_pos (hreach.mpr hf)]
    exact (if_pos ⟨hf, hnil⟩).trans (if_pos hf).symm
  · rw [if_neg (mt hreach.mp hf)]
    exact (if_neg hf).symm

/-- **The worker records into its table.** -/
theorem insertAll_table (info : EdgeInfo) (us : List Nat) (h : g.WF n) (hn : n ≤ maxLockSlots)
    (hv : v < n)
    (hus : ∀ u, u ∈ us → u < n) :
    ((g.insertAll n v (fun _ => info) us).1.table, (g.insertAll n v (fun _ => info) us).2) =
      g.table.addAll n v info us := by
  induction us generalizing g with
  | nil => rfl
  | cons u us ih =>
    have hus' : ∀ u, u ∈ us → u < n := fun u hu => hus u (List.mem_cons_of_mem _ hu)
    unfold insertAll EdgeTable.addAll
    by_cases hold : u = v ∨ g.table.edge u v = true
    · have hsame : g.addEdgeIfNew n u v info = (g, none) := by
        refine if_pos ?_
        rw [h.predecessors]
        exact hold
      rw [if_pos hold, hsame]
      exact ih h hus'
    · rw [if_neg hold]
      rw [not_or, Bool.not_eq_true] at hold
      rw [addEdgeIfNew_report h hn hv hold.1 hold.2, ← insert_table,
        ← ih (h.insert (hus u List.mem_cons_self) hv) hus']

end RbGraph

end ScaleLockDep
