import ScaleLockDep.RbPasses
import Mathlib.Algebra.Order.BigOperators.Group.Finset

/-!
# How many passes there can be

An amortised count of the passes.  An inserted edge makes events stale that their producers
had collected before: those in the rings at that time go out in one pass, and each thread is
collecting one more.  A pass that dequeues anything else inserts an edge.

* `stale`, `potential`: the passes made, those that waiting events can still cause, and
  the stale events;
* `Pays`: what a step does to the potential;
* `passes_bounded`: the passes of a run are bounded by its edges.
-/

namespace ScaleLockDep

namespace RbGraph

/-- The edges between the first `n` locks. -/
def edges (g : RbGraph) (n : Nat) : Finset (Nat × Nat) :=
  (Finset.range n ×ˢ Finset.range n).filter fun x => g.edge x.1 x.2 = true

theorem mem_edges {g : RbGraph} {n : Nat} {x : Nat × Nat} :
    x ∈ g.edges n ↔ (x.1 < n ∧ x.2 < n) ∧ g.E x.1 x.2 := by
  rw [edges, Finset.mem_filter, Finset.mem_product, Finset.mem_range, Finset.mem_range, E]

theorem card_edges_le (g : RbGraph) (n : Nat) : (g.edges n).card ≤ n * n := by
  refine (Finset.card_filter_le _ _).trans ?_
  rw [Finset.card_product, Finset.card_range]

/-- A new edge counts. -/
theorem card_edges_lt {g g' : RbGraph} {n u v : Nat} (hmono : ∀ x y, g.E x y → g'.E x y)
    (hu : u < n) (hv : v < n) (hnot : ¬ g.E u v) (hnew : g'.E u v) :
    (g.edges n).card < (g'.edges n).card := by
  have hsub : g.edges n ⊆ g'.edges n := fun x hx =>
    mem_edges.mpr ((mem_edges.mp hx).imp_right (hmono x.1 x.2))
  exact Finset.card_lt_card ((Finset.ssubset_iff_of_subset hsub).mpr
    ⟨(u, v), mem_edges.mpr ⟨⟨hu, hv⟩, hnew⟩, fun hx => hnot (mem_edges.mp hx).2⟩)

end RbGraph

namespace RbBackend

open ThreadState State RbGraph

/-! ## Stale events -/

/-- All edges of the event are in the tables. -/
def stale (g : RbGraph) (e : Event) : Bool :=
  (List.range maxLockSlots).all fun u => !e.bits.test u || g.edge u e.toLockSlot

/-- Some collected predecessor of `l` is in the tables by now. -/
def outdated (g : RbGraph) (bits : WordSet) (l : Nat) : Bool :=
  (List.range maxLockSlots).any fun u => bits.test u && g.edge u l

/-- Whether the event a thread is collecting can be stale. -/
def staleAt (g : RbGraph) : Pc → Nat
  | .collect c bits _ => (outdated g bits c.lockSlot).toNat
  | pc => (carried pc).elim 0 fun e => (stale g e).toNat

/-- The stale events of `t` that the worker has not dequeued, past the first `mark`. -/
def staleIn (s : State) (mark t : Nat) : Nat :=
  ((s.ring t).accepted.drop (max mark (s.ring t).delivered.length)).countP (stale s.graph) +
    staleAt s.graph (s.thr t).pc

variable {cfg : Config} {s s' : State} {t mark : Nat} {mv : Move} {g : RbGraph} {pc pc' : Pc}

theorem stale_eq_false {e : Event} : stale g e = false ↔
    ∃ u, u < maxLockSlots ∧ e.bits.test u = true ∧ ¬ g.E u e.toLockSlot := by
  simp [stale, E]

theorem outdated_eq_true {bits : WordSet} {l : Nat} : outdated g bits l = true ↔
    ∃ u, u < maxLockSlots ∧ bits.test u = true ∧ g.E u l := by
  simp [outdated, E]

theorem staleAt_carried {e : Event} (h : carried pc = some e) :
    staleAt g pc = (stale g e).toNat := by
  cases pc with
  | collect c bits w => cases h
  | _ => rw [staleAt, h, Option.elim_some]; nofun

theorem staleAt_le_one (g : RbGraph) (pc : Pc) : staleAt g pc ≤ 1 := by
  cases hc : carried pc with
  | some e =>
    rw [staleAt_carried hc]
    exact Bool.toNat_le _
  | none =>
    cases pc with
    | collect c bits w => exact Bool.toNat_le _
    | _ => rw [staleAt, hc]; exacts [Nat.zero_le _, nofun]

/-- A step that keeps or drops the event. -/
theorem staleAt_on (hcollect : ∀ c bits w, pc' = .collect c bits w → pc = .collect c bits w)
    (hcarried : ∀ e, carried pc' = some e → carried pc = some e) :
    staleAt g pc' ≤ staleAt g pc := by
  cases hc : carried pc' with
  | some e => rw [staleAt_carried hc, staleAt_carried (hcarried e hc)]
  | none =>
    cases pc' with
    | collect c bits w => rw [hcollect c bits w rfl]
    | _ => rw [staleAt, hc]; exacts [Nat.zero_le _, nofun]

/-- A word of the snapshot that is loaded holds all edges in the tables. -/
theorem staleAt_load {n : Nat} {c : Call} {bits held : WordSet} {w w' : Nat} (W : g.WF n) :
    staleAt g (.collect c (Function.update bits w
      (held w &&& ~~~ g.predecessorSnapshot c.lockSlot w)) w') ≤ staleAt g (.collect c bits w) := by
  refine Bool.toNat_le_toNat fun h => ?_
  obtain ⟨u, hu, hb, hE⟩ := outdated_eq_true.mp h
  rw [test_update_word] at hb
  split at hb
  · rw [W.snapshot, Bool.and_eq_true, Bool.not_eq_true'] at hb
    rw [E, hb.2] at hE
    cases hE
  · exact outdated_eq_true.mpr ⟨u, hu, hb, hE⟩

/-- If no predecessor is outdated, the event has an edge to offer. -/
theorem staleAt_unknown {c : Call} {bits : WordSet} {w : Nat} {p : EnsurePc}
    (hb : (bits.clear c.lockSlot).hasAnyBits graphWords = true) :
    staleAt g (.ensure c (eventOf t c (bits.clear c.lockSlot)) p) ≤
      staleAt g (.collect c bits w) := by
  rw [staleAt_carried rfl]
  refine Bool.toNat_le_toNat fun h => ?_
  obtain ⟨u, hu, hbit⟩ := WordSet.hasAnyBits_iff.mp hb
  by_contra hno
  have hfresh : stale g (eventOf t c (bits.clear c.lockSlot)) = false := by
    refine stale_eq_false.mpr ⟨u, hu, ?_, fun hE => hno (outdated_eq_true.mpr ⟨u, hu, ?_, hE⟩)⟩
    · rw [test_eventOf, hbit, Bool.and_true, decide_eq_true_eq]
      exact hu
    · rw [WordSet.test_clear, Bool.and_eq_true] at hbit
      exact hbit.1
  rw [h] at hfresh
  cases hfresh

/-- **A thread makes no event stale.** -/
theorem staleIn_own {n : Nat} (W : s.graph.WF n) (hmark : mark ≤ (s.ring t).accepted.length)
    (hle : (s.ring t).delivered.length ≤ (s.ring t).accepted.length)
    (hgraph : s'.graph = s.graph) (hdel : (s'.ring t).delivered = (s.ring t).delivered)
    (h : Collects s t s') : staleIn s' mark t ≤ staleIn s mark t := by
  have hsame : (s'.ring t).accepted = (s.ring t).accepted →
      staleAt s.graph (s'.thr t).pc ≤ staleAt s.graph (s.thr t).pc →
      staleIn s' mark t ≤ staleIn s mark t := fun hacc hat => by
    rw [staleIn, staleIn, hgraph, hacc, hdel]
    exact Nat.add_le_add_left hat _
  cases h with
  | start c hpc hpc' hacc =>
    refine hsame hacc ?_
    have hnone : outdated s.graph .empty c.lockSlot = false := by simp [outdated]
    rw [hpc', staleAt, hnone]
    exact Nat.zero_le _
  | load c bits w hpc hpc' hacc =>
    refine hsame hacc ?_
    rw [hpc, hpc']
    exact staleAt_load W
  | unknown c bits w hpc hb hpc' hacc =>
    refine hsame hacc ?_
    rw [hpc, hpc']
    exact staleAt_unknown hb
  | publish e hpc hpc' hacc =>
    -- the event moves into the ring
    obtain ⟨c, x, hpc'⟩ := hpc'
    have hat : staleAt s.graph (s'.thr t).pc = 0 := by rw [hpc']; rfl
    rw [staleIn, staleIn, hgraph, hacc, hdel, hat, staleAt_carried hpc,
      List.drop_append_of_le_length (Nat.max_le.mpr ⟨hmark, hle⟩), List.countP_append,
      List.countP_singleton]
    cases stale s.graph e <;> simp
  | on hcollect hcarried hacc => exact hsame hacc (staleAt_on hcollect hcarried)

/-! ## The potential -/

/-- Some event accepted before the last edge was inserted is still in its ring. -/
def behind (s : State) (mark : Nat → Nat) : Bool :=
  (List.range maxThreadSlots).any fun t => (s.ring t).delivered.length < mark t

/-- The passes that are still to come for the events behind the mark, and the one that is
going on. -/
def owed (behind : Bool) : WorkerPc → Nat
  | .drain true _ b => if b.madeProgress then 1 else behind.toNat
  | .target true b _ | .edges true b _ _ _ => b.madeProgress.toNat + behind.toNat
  | _ => behind.toNat

/-- `worker (created - 1)` is the worker that can be alive. -/
def potential (p : State × PassHistory) : Nat :=
  p.2.passes.length + owed (behind p.1 p.2.mark) (p.1.worker (p.1.created - 1)) +
    ∑ t ∈ Finset.range maxThreadSlots, staleIn p.1 (p.2.mark t) t

/-- Some batch holds a new edge. -/
def Promised (s : State) : Prop := ∃ i u v, Holds (s.worker i) u v ∧ ¬ s.graph.E u v

/-- One pass for the events behind the mark, one for the event each thread is collecting,
and the one that inserts the edge. -/
def passesPerEdge : Nat := maxThreadSlots + 2

/-- The edges pay for the passes, and a promised one pays in advance. -/
structure Paid (p : State × PassHistory) : Prop where
  promised : potential p ≤ passesPerEdge * (p.1.graph.edges maxLockSlots).card + 1
  settled : ¬ Promised p.1 → potential p ≤ passesPerEdge * (p.1.graph.edges maxLockSlots).card

/-- What a step does to the potential. -/
inductive Pays (p p' : State × PassHistory) : Prop
  | free (hle : potential p' ≤ potential p) (hgraph : p'.1.graph = p.1.graph)
      (hprom : Promised p.1 → Promised p'.1)
  | promise (hle : potential p' ≤ potential p + 1) (hgraph : p'.1.graph = p.1.graph)
      (hnot : ¬ Promised p.1) (hprom : Promised p'.1)
  | edge (hle : potential p' + 1 ≤ potential p + passesPerEdge)
      (hlt : (p.1.graph.edges maxLockSlots).card < (p'.1.graph.edges maxLockSlots).card)

variable {p p' : State × PassHistory} {G : State × PassHistory → Act → Prop}

theorem Paid.step (I : Paid p) (h : Pays p p') : Paid p' := by
  cases h with
  | free hle hgraph hprom =>
    refine ⟨?_, fun hnot => ?_⟩ <;> rw [hgraph]
    · exact hle.trans I.promised
    · exact hle.trans (I.settled (mt hprom hnot))
  | promise hle hgraph hnot hprom =>
    refine ⟨?_, fun hnot' => absurd hprom hnot'⟩
    rw [hgraph]
    exact hle.trans (Nat.succ_le_succ (I.settled hnot))
  | edge hle hlt =>
    have hmul := Nat.mul_le_mul_left passesPerEdge (Nat.succ_le_of_lt hlt)
    rw [Nat.mul_succ] at hmul
    have hpaid := I.promised
    exact ⟨by omega, fun _ => by omega⟩

theorem behind_eq_true {m : Nat → Nat} : behind s m = true ↔
    ∃ t, t < maxThreadSlots ∧ (s.ring t).delivered.length < m t := by
  simp [behind]

theorem owed_mono {b b' : Bool} (h : b = true → b' = true) (pc : WorkerPc) :
    owed b pc ≤ owed b' pc := by
  have hle : b.toNat ≤ b'.toNat := Bool.toNat_le_toNat h
  unfold owed
  split
  · split
    · exact Nat.le_refl _
    · exact hle
  · exact Nat.add_le_add_left hle _
  · exact Nat.add_le_add_left hle _
  · exact hle

/-! ## The marks -/

structure MarkInv (p : State × PassHistory) : Prop where
  marked : ∀ t, p.2.mark t ≤ (p.1.ring t).accepted.length
  /-- a drain leaves nothing behind the mark -/
  clean : ∀ i second k b, p.1.worker i = .drain second k b →
    ∀ t, t < k → p.2.mark t ≤ (p.1.ring t).delivered.length
  fresh : ∀ i second k b, p.1.worker i = .drain second k b → b.madeProgress = false →
    ∀ u v, ¬ Holds (p.1.worker i) u v

theorem markInv_initial : MarkInv (initial, .initial) where
  marked _ := Nat.le_refl _
  clean _ _ _ _ h := by cases h
  fresh _ _ _ _ h := by cases h

variable {H : PassHistory} {i : Nat}

theorem afterDrain_drain {second second' progress : Bool} {k : Nat} {b : Batch}
    (h : afterDrain second progress = .drain second' k b) : k = 0 ∧ b = .empty := by
  cases second <;> cases progress <;> cases h
  exact ⟨rfl, rfl⟩

/-- A worker in a drain has begun it, or goes on: it has taken an event out or found a ring
empty. -/
theorem drains_worker (R : ∀ t, SpscRing.RingInv (ringParams cfg) (s.ring t))
    (h : WorkerStep cfg s i s') {second : Bool} {k : Nat} {b : Batch}
    (hw : s'.worker i = .drain second k b) : (k = 0 ∧ b = .empty) ∨
      ∃ k₀ b₀, s.worker i = .drain second k₀ b₀ ∧ (b = b₀ ∨ b.madeProgress = true) ∧
        (k = k₀ ∨ k = k₀ + 1 ∧ (s.ring k₀).accepted.length ≤ (s.ring k₀).delivered.length) := by
  have hpc : ∀ {s₁ : State} {pc : WorkerPc}, (s₁.setWorker i pc).worker i = .drain second k b →
      pc = .drain second k b := fun {s₁ pc} hw => by rwa [setWorker_worker, if_pos rfl] at hw
  cases h with
  | read second t b r a h ht hr hu hp => exact Or.inr ⟨k, _, hw, Or.inl rfl, Or.inl rfl⟩
  | next second t b r head h ht hr hu hp hc hempty =>
    have hC := (R t).consumer
    simp only [SpscRing.ConsumerOk, hc] at hC
    have hnil := (waiting_nil (ringParams_lawful cfg) (R t)).mpr (hC ▸ hempty)
    cases hpc hw
    exact Or.inr ⟨t, b, h, Or.inl rfl, Or.inr ⟨rfl, List.drop_eq_nil_iff.mp hnil⟩⟩
  | pop second t b r e h ht hr hacc hdel hp =>
    cases hpc hw
    exact Or.inr ⟨k, b, h, Or.inr (add_madeProgress b e), Or.inl rfl⟩
  | processed second b h => exact Or.inl (afterDrain_drain (hpc hw))
  | storeIdle h | storeBusy h | wait h hsem =>
    cases hpc hw
    exact Or.inl ⟨rfl, rfl⟩
  | _ => cases hpc hw

theorem mark_worker (h : WorkerStep cfg s i s') :
    (H.noteWorker s i s').mark = H.mark ∨
      ((H.noteWorker s i s').mark = (fun t => (s.ring t).accepted.length) ∧
        ∃ second b v todo rest, s'.worker i = .edges second b v todo rest) := by
  cases h with
  | read second t b r a h ht hr hu hp | next second t b r head h ht hr hu hp hc hempty
  | pop second t b r e h ht hr hacc hdel hp | drained second t b h ht =>
    left
    rw [noteWorker_drain h]
    cases second <;> rfl
  | processed second b h =>
    left
    simp only [PassHistory.noteWorker, h]
    cases second
    · rfl
    · simp only []
      split <;> rfl
  | insert second b v u todo rest h r hr =>
    simp only [PassHistory.noteWorker, h]
    split
    · exact Or.inl rfl
    · exact Or.inr ⟨rfl, second, b, v, todo, rest, by simp only [setWorker_worker, if_true]⟩
  | pick second b v rest h | picked second b v rest h | storeIdle h | storeBusy h | stop h hs
  | noStop h hs | scanNext t h ht hempty | scanFound t h ht hne | scanDone t h ht
  | wait h hsem =>
    left
    simp only [PassHistory.noteWorker, h]

theorem markInv_worker {a : Act} (R : ∀ t, SpscRing.RingInv (ringParams cfg) (s.ring t))
    (hlife : ∀ j, s'.worker j ≠ .exited → j = i) (I : MarkInv (s, H))
    (h : WorkerStep cfg s i s') (h₁ : Step cfg s a s') : MarkInv (s', H.noteWorker s i s') where
  marked t := by
    have hgrow := (ring_grows h₁ t).1.length_le
    rcases mark_worker (H := H) h with hm | ⟨hm, -⟩
    · rw [hm]
      exact (I.marked t).trans hgrow
    · rw [hm]
      exact hgrow
  clean j second k b hw t ht := by
    obtain rfl := hlife j (by rw [hw]; simp)
    have hm : (H.noteWorker s j s').mark = H.mark := by
      refine (mark_worker h).resolve_right ?_
      rintro ⟨-, second', b', v, todo, rest, hw'⟩
      rw [hw] at hw'
      cases hw'
    simp only [hm]
    refine Nat.le_trans ?_ (ring_grows h₁ t).2.length_le
    rcases drains_worker R h hw with ⟨rfl, -⟩ | ⟨k₀, b₀, hw₀, -, hk⟩
    · exact absurd ht (Nat.not_lt_zero t)
    · rcases hk with rfl | ⟨rfl, hempty⟩
      · exact I.clean j second k b₀ hw₀ t ht
      · rcases Nat.lt_succ_iff_lt_or_eq.mp ht with ht | rfl
        · exact I.clean j second k₀ b₀ hw₀ t ht
        · exact (I.marked t).trans hempty
  fresh j second k b hw hb u v hh := by
    obtain rfl := hlife j (by rw [hw]; simp)
    rw [hw] at hh
    rcases drains_worker R h hw with ⟨rfl, rfl⟩ | ⟨k₀, b₀, hw₀, hb₀ | hb₀, -⟩
    · exact not_holds_empty second u v hh
    · subst hb₀
      exact I.fresh j second k₀ b hw₀ hb u v (by rw [hw₀]; exact hh)
    · rw [hb] at hb₀
      cases hb₀

theorem markInv (h : Runs.ReachableBy (passCounting cfg) G p) : MarkInv p := by
  refine passes_invariant markInv_initial (fun s s' H a _ hr _ I hs => ?_) h
  have hgrow := ring_grows hs
  have h₁ := hs
  cases hs with
  | thread t mv ht h =>
    refine ⟨fun u => (I.marked u).trans (hgrow u).1.length_le, fun j second k b hw u hu => ?_,
      fun j second k b hw hb u v hh => ?_⟩
    · rcases worker_thread (lifeInv hr) h j with he | ⟨-, he⟩ <;> rw [he] at hw
      · exact (I.clean j second k b hw u hu).trans (hgrow u).2.length_le
      · cases hw
        exact absurd hu (Nat.not_lt_zero u)
    · rcases worker_thread (lifeInv hr) h j with he | ⟨-, he⟩ <;> rw [he] at hw hh
      · exact I.fresh j second k b hw hb u v hh
      · exact not_holds_empty false u v hh
  | worker i h => exact markInv_worker (ringInv hr) (worker_only (lifeInv hr) h) I h h₁
  | shutdown h =>
    refine ⟨fun u => (I.marked u).trans (hgrow u).1.length_le, ?_, ?_⟩
    · rw [h.keeps.worker, h.keeps.ring]
      exact I.clean
    · rw [h.keeps.worker]
      exact I.fresh

/-! ## One step -/

theorem graph_thread (h : ThreadStep cfg s t mv s') : s'.graph = s.graph := by
  cases h <;> rfl

/-- The worker a thread creates owes what its predecessor did. -/
theorem owed_thread (L : LifeInv s) (h : ThreadStep cfg s t mv s') (b : Bool) :
    owed b (s'.worker (s'.created - 1)) = owed b (s.worker (s.created - 1)) := by
  cases h.starts with
  | same _ hc _ hw | claim _ _ hc _ _ hw | finish _ hc _ _ hw => rw [hc, hw]
  | create _ hc hp _ hw =>
    rw [hc, hw, Nat.add_sub_cancel, Function.update_self, L.preparing t hp]
    rfl

/-- **A thread step is free.** -/
theorem pays_thread {seen : Nat → WordSet} {checks : Nat → List WordSet} (T : ThreadOk cfg s t)
    (L : LifeInv s) (E : EdgeInv s) (R : ∀ u, SpscRing.RingInv (ringParams cfg) (s.ring u))
    (I : MarkInv (s, H)) (h : ThreadStep cfg s t mv s') :
    Pays (s, H) (s', { H with seen := seen, checks := checks }) := by
  have hbehind : behind s' H.mark = behind s H.mark := by
    simp only [behind, delivered_thread h]
  have hsum : ∑ u ∈ Finset.range maxThreadSlots, staleIn s' (H.mark u) u ≤
      ∑ u ∈ Finset.range maxThreadSlots, staleIn s (H.mark u) u := by
    refine Finset.sum_le_sum fun u _ => ?_
    by_cases hu : u = t
    · subst hu
      exact staleIn_own E.wf (I.marked u) (R u).le (graph_thread h) (delivered_thread h)
        (h.collects T)
    · rw [staleIn, staleIn, graph_thread h, ring_other h hu, thr_other h hu]
  refine .free ?_ (graph_thread h) ?_
  · simp only [potential, hbehind, owed_thread L h]
    exact Nat.add_le_add_left hsum _
  · rintro ⟨i, u, v, hh, hE⟩
    rcases worker_thread L h i with hw | ⟨hw, -⟩
    · exact ⟨i, u, v, by rwa [hw], by rwa [graph_thread h]⟩
    · exact absurd hw (holds_alive hh)

/-- A promised edge stays promised until it is in the tables. -/
theorem promised_worker (E : EdgeInv s) (L : LifeInv s) (hT : ∀ i, Touched (s.worker i))
    (h : WorkerStep cfg s i s') (hgraph : s'.graph = s.graph) (hp : Promised s) : Promised s' := by
  obtain ⟨j, u, v, hh, hE⟩ := hp
  obtain rfl := L.one (holds_alive hh) h.life.2.2.2.2.1
  rcases holds_goes_on E (hT j) h hh with he | hh'
  · rw [hgraph] at he
    exact absurd he hE
  · exact ⟨j, u, v, hh', by rwa [hgraph]⟩

/-- A worker step that dequeues nothing and inserts nothing. -/
theorem Pays.quiet {H' : PassHistory} (hi : s.created - 1 = i) (hc : s'.created = s.created)
    (hthr : s'.thr = s.thr) (hacc : ∀ t, (s'.ring t).accepted = (s.ring t).accepted)
    (hdel : ∀ t, (s'.ring t).delivered = (s.ring t).delivered) (hgraph : s'.graph = s.graph)
    (hmark : H'.mark = H.mark)
    (howed : H'.passes.length + owed (behind s H.mark) (s'.worker i) ≤
      H.passes.length + owed (behind s H.mark) (s.worker i))
    (hprom : Promised s → Promised s') : Pays (s, H) (s', H') := by
  refine .free ?_ hgraph hprom
  have hbehind : behind s' H.mark = behind s H.mark := by simp only [behind, hdel]
  have hstale : ∀ t, staleIn s' (H.mark t) t = staleIn s (H.mark t) t := fun t => by
    rw [staleIn, staleIn, hacc, hdel, hgraph, hthr]
  simp only [potential, hmark, hbehind, hstale, hc, hi]
  exact Nat.add_le_add_right howed _

/-- Dequeued events are stale no more. -/
theorem staleIn_grows (hgraph : s'.graph = s.graph) (hthr : s'.thr = s.thr)
    (hacc : (s'.ring t).accepted = (s.ring t).accepted)
    (hle : (s.ring t).delivered.length ≤ (s'.ring t).delivered.length) :
    staleIn s' mark t ≤ staleIn s mark t := by
  rw [staleIn, staleIn, hgraph, hthr, hacc]
  refine Nat.add_le_add_right (List.Sublist.countP_le ?_) _
  exact List.drop_sublist_drop_left _ (by omega)

theorem staleIn_pop {e : Event} (hgraph : s'.graph = s.graph) (hthr : s'.thr = s.thr)
    (hacc : (s'.ring t).accepted = (s.ring t).accepted)
    (hdel : (s'.ring t).delivered = (s.ring t).delivered ++ [e])
    (hpre : (s'.ring t).delivered <+: (s.ring t).accepted)
    (hmark : mark ≤ (s.ring t).delivered.length) (he : stale s.graph e = true) :
    staleIn s' mark t < staleIn s mark t := by
  obtain ⟨rest, hrest⟩ := hpre
  have hdrop : (s.ring t).accepted.drop (s.ring t).delivered.length = e :: rest := by
    rw [← hrest, hdel]
    simp
  have hdrop' : (s.ring t).accepted.drop (s'.ring t).delivered.length = rest := by
    rw [← hrest]
    simp
  have hmark' : mark ≤ (s'.ring t).delivered.length := by
    rw [hdel, List.length_append]
    omega
  rw [staleIn, staleIn, hgraph, hthr, hacc, Nat.max_eq_right hmark, Nat.max_eq_right hmark', hdrop,
    hdrop', List.countP_cons_of_pos he]
  omega

/-- **A dequeue is paid for**: by the event itself when it is stale, by the mark when it lies
behind it, and by the edge it promises otherwise. -/
theorem pays_pop {H' : PassHistory} {second : Bool} {k : Nat} {b : Batch} {e : Event}
    (hi : s.created - 1 = i) (L : LifeInv s) (I : MarkInv (s, H))
    (hw : s.worker i = .drain second k b) (hw' : s'.worker i = .drain second k (b.add e))
    (hk : k < maxThreadSlots) (hc : s'.created = s.created) (hthr : s'.thr = s.thr)
    (hacc : ∀ t, (s'.ring t).accepted = (s.ring t).accepted)
    (hgrow : ∀ t, (s.ring t).delivered.length ≤ (s'.ring t).delivered.length)
    (hdel : (s'.ring k).delivered = (s.ring k).delivered ++ [e])
    (hpre : (s'.ring k).delivered <+: (s.ring k).accepted) (hgraph : s'.graph = s.graph)
    (htarget : ∀ u, e.bits.test u = true → e.toLockSlot < maxLockSlots)
    (hprom : Promised s → Promised s') (hmark : H'.mark = H.mark) (hpasses : H'.passes = H.passes) :
    Pays (s, H) (s', H') := by
  have hstale : ∀ t, staleIn s' (H.mark t) t ≤ staleIn s (H.mark t) t := fun t =>
    staleIn_grows hgraph hthr (hacc t) (hgrow t)
  have hsum := Finset.sum_le_sum fun t (_ : t ∈ Finset.range maxThreadSlots) => hstale t
  have hbehind : behind s' H.mark = true → behind s H.mark = true := fun hb => by
    obtain ⟨t, ht, hlt⟩ := behind_eq_true.mp hb
    exact behind_eq_true.mpr ⟨t, ht, (hgrow t).trans_lt hlt⟩
  -- the drain before the store of 0, or an event before this one
  have hfree : owed (behind s' H.mark) (s'.worker i) ≤ owed (behind s H.mark) (s.worker i) →
      Pays (s, H) (s', H') := fun howed => by
    refine .free ?_ hgraph hprom
    simp only [potential, hmark, hpasses, hc, hi]
    omega
  cases second with
  | false =>
    refine hfree ?_
    rw [hw, hw']
    exact owed_mono hbehind (.drain false k b)
  | true =>
    have hone : owed (behind s' H.mark) (s'.worker i) = 1 := by
      rw [hw', owed, if_pos (add_madeProgress b e)]
    cases hb : b.madeProgress with
    | true =>
      refine hfree ?_
      rw [hone, hw, owed, if_pos hb]
    | false =>
      have howed : owed (behind s H.mark) (s.worker i) = (behind s H.mark).toNat := by
        rw [hw, owed, hb]
        rfl
      rcases Nat.lt_or_ge (s.ring k).delivered.length (H.mark k) with hlt | hge
      · refine hfree ?_
        rw [hone, howed, behind_eq_true.mpr ⟨k, hk, hlt⟩]
        rfl
      · cases he : stale s.graph e with
        | true =>
          refine .free ?_ hgraph hprom
          have hlt := Finset.sum_lt_sum (fun t (_ : t ∈ Finset.range maxThreadSlots) => hstale t)
            ⟨k, Finset.mem_range.mpr hk, staleIn_pop hgraph hthr (hacc k) hdel hpre hge he⟩
          simp only [potential, hmark, hpasses, hc, hi, hone]
          omega
        | false =>
          obtain ⟨u, -, hu, hE⟩ := stale_eq_false.mp he
          refine .promise ?_ hgraph ?_ ⟨i, u, e.toLockSlot, ?_, by rwa [hgraph]⟩
          · simp only [potential, hmark, hpasses, hc, hi, hone]
            omega
          · rintro ⟨j, x, y, hh, -⟩
            obtain rfl := L.one (holds_alive hh) (show s.worker i ≠ .exited by rw [hw]; simp)
            exact I.fresh j true k b hw hb x y hh
          · rw [hw']
            exact (holds_add (htarget u hu)).mpr (Or.inr ⟨rfl, hu⟩)

/-- At a new edge every event in a ring falls behind the mark. -/
theorem staleIn_mark (hle : (s'.ring t).accepted.length ≤ mark) : staleIn s' mark t ≤ 1 := by
  rw [staleIn, List.drop_eq_nil_of_le (hle.trans (Nat.le_max_left _ _)), List.countP_nil,
    Nat.zero_add]
  exact staleAt_le_one _ _

/-- **An insertion pays for the events it makes stale.** -/
theorem pays_insert {H' : PassHistory} {second : Bool} {b : Batch} {u v : Nat}
    {todo rest : List Nat} (hi : s.created - 1 = i) (hc : s'.created = s.created)
    (hw : s.worker i = .edges second b v (u :: todo) rest)
    (hw' : s'.worker i = .edges second b v todo rest)
    (hacc : ∀ t, (s'.ring t).accepted.length ≤ (s.ring t).accepted.length)
    (hpasses : H'.passes = H.passes) (hmark : H'.mark = fun t => (s.ring t).accepted.length)
    (hlt : (s.graph.edges maxLockSlots).card < (s'.graph.edges maxLockSlots).card) :
    Pays (s, H) (s', H') := by
  have hsum : ∑ t ∈ Finset.range maxThreadSlots, staleIn s' (H'.mark t) t ≤ maxThreadSlots := by
    refine (Finset.sum_le_card_nsmul _ _ 1 fun t _ => ?_).trans (by simp)
    rw [hmark]
    exact staleIn_mark (hacc t)
  have howed : owed (behind s' H'.mark) (s'.worker i) ≤
      owed (behind s H.mark) (s.worker i) + 1 := by
    have hle := Bool.toNat_le (behind s' H'.mark)
    rw [hw, hw']
    cases second <;> simp only [owed] <;> omega
  refine .edge ?_ hlt
  simp only [potential, hpasses, hc, hi, passesPerEdge]
  omega

theorem owed_afterDrain (behind second progress : Bool) :
    owed behind (afterDrain second progress) = behind.toNat := by
  cases second <;> cases progress <;> rfl

/-- The end of a drain: nothing is behind the mark. -/
theorem owed_drained {second : Bool} {k : Nat} {b : Batch} (I : MarkInv (s, H))
    (hw : s.worker i = .drain second k b) (hk : maxThreadSlots ≤ k) (rest : List Nat) :
    owed (behind s H.mark) (.target second b rest) = owed (behind s H.mark) (s.worker i) := by
  have hclean : behind s H.mark = false := by
    rw [Bool.eq_false_iff]
    intro hb
    obtain ⟨t, ht, hlt⟩ := behind_eq_true.mp hb
    exact absurd (I.clean i second k b hw t (by omega)) (Nat.not_le.mpr hlt)
  rw [hw, hclean]
  cases second
  · rfl
  · cases hb : b.madeProgress <;> simp [owed, hb]

theorem pays_worker {a : Act} (L : LifeInv s) (E : EdgeInv s) (hT : ∀ i, Touched (s.worker i))
    (R' : ∀ t, SpscRing.RingInv (ringParams cfg) (s'.ring t)) (I : MarkInv (s, H))
    (h : WorkerStep cfg s i s') (h₁ : Step cfg s a s') :
    Pays (s, H) (s', H.noteWorker s i s') := by
  have hi : s.created - 1 = i := by
    have := L.latest i h.life.2.2.2.2.1
    omega
  have hprom : s'.graph = s.graph → Promised s → Promised s' := promised_worker E L hT h
  have hacc : ∀ t, (s'.ring t).accepted = (s.ring t).accepted := fun t => accepted_worker h
  have h₀ := h
  cases h with
  | read second t b r x h ht hr hu hp =>
    have hdel := fun w => setRing_keeps s t w r SpscRing.State.delivered hu.delivered
    rw [noteWorker_drain h]
    refine .quiet hi rfl rfl hacc hdel rfl ?_ ?_ (hprom rfl) <;> cases second <;> rfl
  | next second t b r head h ht hr hu hp hc hempty =>
    have hdel := fun w => setRing_keeps s t w r SpscRing.State.delivered hu.delivered
    rw [noteWorker_drain h]
    refine .quiet hi rfl rfl hacc hdel rfl ?_ ?_ (hprom rfl)
    · cases second <;> rfl
    · rw [setWorker_at, h]
      cases second <;> rfl
  | pop second t b r e h ht hr hacc' hdel hp =>
    have hring : ({ (s.setRing t r).setWorker i (.drain second t (b.add e)) with
        pendingEdgeInfo := notePending s.pendingEdgeInfo b e }).ring t = r := by
      rw [setWorker_ring, setRing_ring, if_pos rfl]
    have hpre := (R' t).order
    rw [hacc t] at hpre
    refine pays_pop hi L I h (setWorker_at _ _ _) ht rfl rfl hacc
      (fun w => (ring_grows h₁ w).2.length_le) (by rw [hring, hdel]) hpre rfl (fun u hu => ?_)
      (hprom rfl) ?_ ?_
    · have hmem : e ∈ (s.ring t).accepted := hpre.subset (by rw [hring, hdel]; simp)
      exact (E.accepted t e u _ hmem ⟨rfl, hu⟩).target.trans_le E.count
    · rw [noteWorker_drain h]
      cases second <;> rfl
    · rw [noteWorker_drain h]
      cases second <;> rfl
  | drained second t b h ht =>
    rw [noteWorker_drain h]
    refine .quiet hi rfl rfl hacc (fun _ => rfl) rfl ?_ ?_ (hprom rfl)
    · cases second <;> rfl
    · rw [setWorker_at, owed_drained I h ht]
      cases second <;> rfl
  | processed second b h =>
    refine .quiet hi rfl rfl hacc (fun _ => rfl) rfl ?_ ?_ (hprom rfl)
    · refine (mark_worker h₀).resolve_right ?_
      rintro ⟨-, second', b', v, todo, rest, hw⟩
      rw [setWorker_at] at hw
      cases second <;> cases hb : b.madeProgress <;> rw [hb] at hw <;> cases hw
    · rw [setWorker_at, owed_afterDrain, h]
      cases second with
      | false => simp [PassHistory.noteWorker, h, owed]
      | true => cases hb : b.madeProgress <;> simp [PassHistory.noteWorker, h, owed, hb]; omega
  | pick second b v rest h =>
    simp only [PassHistory.noteWorker, h]
    refine .quiet hi rfl rfl hacc (fun _ => rfl) rfl rfl ?_ (hprom rfl)
    rw [setWorker_at, h]
    cases second <;> rfl
  | picked second b v rest h =>
    simp only [PassHistory.noteWorker, h]
    refine .quiet hi rfl rfl hacc (fun _ => rfl) rfl rfl ?_ (hprom rfl)
    rw [setWorker_at, h]
    cases second <;> rfl
  | insert second b v u todo rest h r hr =>
    subst hr
    have hp := E.next h
    have hE : ∀ x y, (s.graph.addEdgeIfNew s.lockSlotCount u v (edgeInfoOf cfg s u v)).1.E x y ↔
        s.graph.E x y ∨ (x = u ∧ y = v) := (insert_graph E hp).2
    simp only [PassHistory.noteWorker, h]
    by_cases hold : s.graph.E u v
    · have hsame : s.graph.addEdgeIfNew s.lockSlotCount u v (edgeInfoOf cfg s u v) =
          (s.graph, none) := by
        rw [addEdgeIfNew, E.wf.predecessors]
        exact if_pos (Or.inr hold)
      have hgraph := congrArg Prod.fst hsame
      rw [if_pos (by rw [hgraph])]
      refine .quiet hi rfl rfl hacc (fun _ => rfl) hgraph rfl ?_ (hprom hgraph)
      simp only [setWorker_worker, if_true, h]
      cases second <;> exact Nat.le_refl _
    · have hnew := (hE u v).mpr (Or.inr ⟨rfl, rfl⟩)
      rw [if_neg fun he => hold (he.symm.trans hnew)]
      refine pays_insert hi rfl h ?_ (fun t => by rw [hacc]) rfl rfl ?_
      · simp only [setWorker_worker, if_true]
      · exact card_edges_lt (fun x y he => (hE x y).mpr (Or.inl he)) (hp.source.trans_le E.count)
          (hp.target.trans_le E.count) hold hnew
  | storeIdle h | storeBusy h | stop h hs | noStop h hs | scanNext t h ht hempty
  | scanFound t h ht hne | scanDone t h ht | wait h hsem =>
    simp only [PassHistory.noteWorker, h]
    refine .quiet hi rfl rfl hacc (fun _ => rfl) rfl rfl ?_ (hprom rfl)
    rw [setWorker_at, h]
    rfl

/-! ## The passes of a run -/

theorem paid_initial : Paid (initial, .initial) := by
  have hbehind : behind initial (fun _ => 0) = false := by simp [behind]
  have hstale : ∀ t, staleIn initial 0 t = 0 := fun _ => rfl
  have h0 : potential (initial, .initial) = 0 := by
    simp only [potential, PassHistory.initial, hbehind, hstale, Finset.sum_const_zero]
    rfl
  exact ⟨by rw [h0]; exact Nat.zero_le _, fun _ => by rw [h0]; exact Nat.zero_le _⟩

theorem paid (h : Runs.ReachableBy (passCounting cfg) G p) : Paid p := by
  refine passes_invariant paid_initial (fun s s' H a hr hr₁ hr₁' I hs => I.step ?_) h
  have h₁ := hs
  cases hs with
  | thread t mv ht h =>
    exact pays_thread (threadOk hr₁ t) (lifeInv hr₁) (edgeInv hr₁) (ringInv hr₁) (markInv hr) h
  | worker i h =>
    exact pays_worker (lifeInv hr₁) (edgeInv hr₁) (touched hr₁) (ringInv hr₁') (markInv hr) h h₁
  | shutdown h =>
    obtain ⟨hthr, hring, hworker, hcreated, hgraph, -⟩ := h.keeps
    refine .free (Nat.le_of_eq ?_) hgraph ?_
    · simp only [potential, PassHistory.note, behind, staleIn, hthr, hring, hworker, hcreated,
        hgraph]
    · rw [Promised, Promised, hworker, hgraph]
      exact id

/-- **The passes of a run are bounded by the edges it inserts.** -/
theorem passes_bounded (h : Runs.ReachableBy (passCounting cfg) G p) :
    p.2.passes.length ≤ passesPerEdge * (p.1.graph.edges maxLockSlots).card + 1 := by
  have hle := (paid h).promised
  simp only [potential] at hle
  omega

end RbBackend

end ScaleLockDep
