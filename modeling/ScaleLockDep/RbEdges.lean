import ScaleLockDep.RbThreads

/-!
# The edges of the ring-buffer backend

From an acquisition through a ring and a batch into the tables: no edge appears on
the way that some acquisition does not stand for, and the reports are the edges that
closed a cycle.

* `EdgeInv`, `edgeInv`: events, batches and tables hold claimed pairs only;
* `ReportInv`, `reportInv`: the edges reported are those that closed a cycle.
-/

namespace ScaleLockDep.RbBackend

open ThreadState State RbGraph Cycles Relation

/-! ## Pairs on the way -/

/-- The event holds the pair. -/
def Carries (e : Event) (u v : Nat) : Prop := e.toLockSlot = v ∧ e.bits.test u = true

/-- The batch of a worker still holds the pair. -/
def Holds : WorkerPc → Nat → Nat → Prop
  | .drain _ _ b, u, v => (b.fromBits v).test u = true
  | .target _ b rest, u, v => v ∈ rest ∧ (b.fromBits v).test u = true
  | .edges _ b tgt todo rest, u, v =>
      (v = tgt ∧ u ∈ todo) ∨ (v ∈ rest ∧ (b.fromBits v).test u = true)
  | _, _, _ => False

/-- A pair of registered locks that some acquisition stands for. -/
structure PairOk (s : State) (u v : Nat) : Prop where
  source : u < s.lockSlotCount
  target : v < s.lockSlotCount
  claimed : (activity s).Claimed u v

structure EdgeInv (s : State) : Prop where
  count : s.lockSlotCount ≤ maxLockSlots
  wf : s.graph.WF s.lockSlotCount
  accepted : ∀ t e u v, e ∈ (s.ring t).accepted → Carries e u v → PairOk s u v
  batch : ∀ i u v, Holds (s.worker i) u v → PairOk s u v
  sound : ∀ u v, s.graph.E u v → PairOk s u v

theorem edgeInv_initial : EdgeInv initial where
  count := Nat.zero_le _
  wf := initial_wf _
  accepted _ _ _ _ h := by cases h
  batch _ _ _ h := h.elim
  sound u v h := (initial_not_E u v h).elim

theorem not_holds_empty (second : Bool) (u v : Nat) : ¬ Holds (.drain second 0 .empty) u v := by
  simp [Holds, Batch.empty]

theorem not_holds_afterDrain (second progress : Bool) (u v : Nat) :
    ¬ Holds (afterDrain second progress) u v := by
  cases second <;> cases progress <;> first | exact not_holds_empty _ u v | exact fun h => h

/-- What an event adds to the batch. -/
theorem holds_add {b : Batch} {e : Event} {second : Bool} {t u v : Nat}
    (he : e.toLockSlot < maxLockSlots) : Holds (.drain second t (b.add e)) u v ↔
      Holds (.drain second t b) u v ∨ Carries e u v := by
  simp only [Holds, Carries, Batch.add, if_neg (Nat.not_le.mpr he), Function.update_apply]
  by_cases hv : v = e.toLockSlot
  · subst hv
    simp
  · simp [hv, Ne.symm hv]

/-- An event for no lock slot is dropped from the batch. -/
theorem holds_add_of_le {b : Batch} {e : Event} {second : Bool} {t u v : Nat}
    (he : maxLockSlots ≤ e.toLockSlot) : Holds (.drain second t (b.add e)) u v ↔
      Holds (.drain second t b) u v := by
  simp only [Holds, Batch.add, if_pos he]

theorem holds_of_holds_add {b : Batch} {e : Event} {second : Bool} {t u v : Nat}
    (h : Holds (.drain second t (b.add e)) u v) :
    Holds (.drain second t b) u v ∨ Carries e u v := by
  rcases Nat.lt_or_ge e.toLockSlot maxLockSlots with he | he
  · exact (holds_add he).mp h
  · exact Or.inl ((holds_add_of_le he).mp h)

variable {cfg : Config} {s s' : State} {a : Act} {u v : Nat}

/-- What a thread has collected is claimed. -/
theorem pairOk_carried {t : Nat} {e : Event} (T : ThreadOk cfg s t)
    (he : carried (s.thr t).pc = some e) (hc : Carries e u v) : PairOk s u v := by
  obtain ⟨rfl, hu⟩ := hc
  obtain ⟨c, hcall, hto⟩ := Option.map_eq_some_iff.mp (T.target e he)
  obtain ⟨hheld, hne⟩ := T.sources e he u hu
  exact ⟨T.heldBound u hheld, hto ▸ T.callBound c hcall,
    Or.inr ⟨t, c, hcall, trivial, hto, hne, T.held_activity ▸ hheld⟩⟩

theorem lockSlotCount_step (h : Step cfg s a s') : s.lockSlotCount ≤ s'.lockSlotCount := by
  cases h with
  | thread t mv ht h => exact lockSlotCount_thread h
  | worker i h => exact (lockSlotCount_worker h).ge
  | shutdown h => cases h <;> exact Nat.le_refl _

theorem pairOk_ring {t : Nat} {e : Event} (T : ThreadOk cfg s t)
    (he : ∃ c, (s.thr t).pc = .ring c e) (hc : Carries e u v) : PairOk s u v := by
  obtain ⟨c, hpc⟩ := he
  exact pairOk_carried T (by rw [hpc]; rfl) hc

theorem PairOk.step (T : ∀ t, ThreadOk cfg s t) (hp : PairOk s u v) (h : Step cfg s a s') :
    PairOk s' u v :=
  ⟨hp.source.trans_le (lockSlotCount_step h), hp.target.trans_le (lockSlotCount_step h),
    hp.claimed.step (activity_step T h)⟩

/-! ## One step -/

/-- The events accepted after a step: those accepted before, and one that its thread
has collected. -/
theorem accepted_step {t : Nat} {e : Event} (T : ∀ t, ThreadOk cfg s t) (h : Step cfg s a s')
    (he : e ∈ (s'.ring t).accepted) :
    e ∈ (s.ring t).accepted ∨ t < maxThreadSlots ∧ ∃ c, (s.thr t).pc = .ring c e := by
  cases h with
  | thread w mv hw h =>
    have hset : ∀ {r : Ring}, Unmoved (s.ring w) r → e ∈ ((s.setRing w r).ring t).accepted →
        e ∈ (s.ring t).accepted := fun hu hmem =>
      setRing_keeps s w t _ SpscRing.State.accepted hu.accepted ▸ hmem
    cases h with
    | enqueue c x r h hr hu hp => exact Or.inl (hset hu he)
    | ring c x r h hr hu hp => exact Or.inl (hset hu he)
    | full c x r h hr hu hp => exact Or.inl (hset hu he)
    | publish c x y r h hr hx hacc hdel hp =>
      rw [setPc_ring, setRing_ring] at he
      split at he
      · rename_i ht
        subst ht
        rw [hacc, List.mem_append, List.mem_singleton] at he
        refine he.imp_right fun hey => ⟨hw, c, ?_⟩
        have := (T t).sync
        rw [hx, h] at this
        rw [h, hey, Option.some.inj this]
      · exact Or.inl he
    | _ => exact Or.inl he
  | worker i h => exact Or.inl (accepted_worker h ▸ he)
  | shutdown h => cases h <;> exact Or.inl he

/-- What a step of worker `i` does to its batch: it takes an event out of a ring, or the
batch gains no pair. -/
theorem batch_worker {i : Nat} (E : EdgeInv s) (h : WorkerStep cfg s i s') :
    (s'.pendingEdgeInfo = s.pendingEdgeInfo ∧
      ∀ u v, Holds (s'.worker i) u v → Holds (s.worker i) u v) ∨
    ∃ second t b e, s.worker i = .drain second t b ∧ s'.worker i = .drain second t (b.add e) ∧
      e ∈ (s'.ring t).delivered ∧ s'.pendingEdgeInfo = notePending s.pendingEdgeInfo b e := by
  -- a step to a position with an empty batch
  have hnone : ∀ {pc : WorkerPc}, s'.worker i = pc → (∀ u v, ¬ Holds pc u v) →
      ∀ u v, Holds (s'.worker i) u v → Holds (s.worker i) u v := fun hw hno u v hh =>
    absurd (hw ▸ hh) (hno u v)
  cases h with
  | read second t b r x h ht hr hu hp => exact Or.inl ⟨rfl, fun _ _ => id⟩
  | next second t b r head h ht hr hu hp hc hempty =>
    refine Or.inl ⟨rfl, fun u v hh => ?_⟩
    rw [setWorker_at] at hh
    rw [h]
    exact hh
  | pop second t b r e h ht hr hacc hdel hp =>
    exact Or.inr ⟨second, t, b, e, h, setWorker_at _ _ _, by simp [setRing_ring, hdel], rfl⟩
  | drained second t b h ht =>
    refine Or.inl ⟨rfl, fun u v hh => ?_⟩
    rw [setWorker_at] at hh
    rw [h]
    exact hh.2
  | processed second b h =>
    exact Or.inl ⟨rfl, hnone (setWorker_at _ _ _) (not_holds_afterDrain _ _)⟩
  | pick second b tgt rest h =>
    refine Or.inl ⟨rfl, fun u v hh => ?_⟩
    rw [setWorker_at] at hh
    rw [h]
    rcases hh with ⟨rfl, hu⟩ | ⟨hv, hu⟩
    · exact ⟨List.mem_cons_self, ((mem_edgeTodo E.wf E.count).mp hu).2.1⟩
    · exact ⟨List.mem_cons_of_mem _ hv, hu⟩
  | picked second b tgt rest h =>
    refine Or.inl ⟨rfl, fun u v hh => ?_⟩
    rw [setWorker_at] at hh
    rw [h]
    exact Or.inr hh
  | insert second b tgt x todo rest h r hr =>
    refine Or.inl ⟨rfl, fun u v hh => ?_⟩
    simp only [setWorker_worker, if_true] at hh
    rw [h]
    exact hh.imp_left fun hh => ⟨hh.1, List.mem_cons_of_mem _ hh.2⟩
  | storeIdle h => exact Or.inl ⟨rfl, hnone (setWorker_at _ _ _) (not_holds_empty _)⟩
  | storeBusy h => exact Or.inl ⟨rfl, hnone (setWorker_at _ _ _) (not_holds_empty _)⟩
  | wait h hsem => exact Or.inl ⟨rfl, hnone (setWorker_at _ _ _) (not_holds_empty _)⟩
  | stop h hs => exact Or.inl ⟨rfl, hnone (setWorker_at _ _ _) fun _ _ => id⟩
  | noStop h hs => exact Or.inl ⟨rfl, hnone (setWorker_at _ _ _) fun _ _ => id⟩
  | scanNext t h ht hempty => exact Or.inl ⟨rfl, hnone (setWorker_at _ _ _) fun _ _ => id⟩
  | scanFound t h ht hne => exact Or.inl ⟨rfl, hnone (setWorker_at _ _ _) fun _ _ => id⟩
  | scanDone t h ht => exact Or.inl ⟨rfl, hnone (setWorker_at _ _ _) fun _ _ => id⟩

/-- The pairs a batch holds after a step of its worker: those it held before, and
those of an event it took out. -/
theorem holds_worker {i : Nat} (E : EdgeInv s) (h : WorkerStep cfg s i s')
    (hh : Holds (s'.worker i) u v) : Holds (s.worker i) u v ∨
      ∃ t e, e ∈ (s'.ring t).delivered ∧ Carries e u v := by
  rcases batch_worker E h with ⟨-, hold⟩ | ⟨second, t, b, e, hw, hw', he, -⟩
  · exact Or.inl (hold u v hh)
  · rw [hw'] at hh
    rw [hw]
    exact (holds_of_holds_add hh).imp_right fun hc => ⟨t, e, he, hc⟩

/-- **What an insertion of the worker does to the graph**, whatever it reports. -/
theorem insert_graph {info : EdgeInfo} (E : EdgeInv s) (hp : PairOk s u v) :
    (s.graph.addEdgeIfNew s.lockSlotCount u v info).1.WF s.lockSlotCount ∧
    ∀ x y, (s.graph.addEdgeIfNew s.lockSlotCount u v info).1.E x y ↔
      s.graph.E x y ∨ (x = u ∧ y = v) := by
  rcases addEdgeIfNew_cases (u := u) info E.wf E.count hp.target with
    ⟨he, hr⟩ | ⟨-, -, -, x, hr, -⟩ | ⟨-, -, -, hr⟩
  · rw [hr]
    refine ⟨E.wf, fun x y => ⟨Or.inl, ?_⟩⟩
    rintro (h | ⟨rfl, rfl⟩)
    · exact h
    · exact he.resolve_left hp.claimed.ne
  · rw [hr]
    exact ⟨E.wf.insert hp.source hp.target, fun x y => by rw [insert_E]; rfl⟩
  · rw [hr]
    exact ⟨E.wf.insert hp.source hp.target, fun x y => by rw [insert_E]; rfl⟩

/-- The pair a worker is about to insert. -/
theorem EdgeInv.next {i : Nat} {second : Bool} {b : Batch} {todo rest : List Nat} (E : EdgeInv s)
    (h : s.worker i = .edges second b v (u :: todo) rest) : PairOk s u v :=
  E.batch i u v (by rw [h]; exact Or.inl ⟨rfl, List.mem_cons_self⟩)

/-- Edges come from batches. -/
theorem edge_of_step (E : EdgeInv s) (h : Step cfg s a s') (he : s'.graph.E u v) :
    s.graph.E u v ∨ PairOk s u v := by
  cases h with
  | thread t mv ht h => cases h <;> exact Or.inl he
  | worker i h =>
    cases h with
    | insert second b tgt x todo rest h r hr =>
      subst hr
      have hp := E.next h
      refine (((insert_graph E hp).2 u v).mp he).imp_right ?_
      rintro ⟨rfl, rfl⟩
      exact hp
    | _ => exact Or.inl he
  | shutdown h => cases h <;> exact Or.inl he

/-- Edges are never removed. -/
theorem edge_step (E : EdgeInv s) (h : Step cfg s a s') (he : s.graph.E u v) : s'.graph.E u v := by
  cases h with
  | thread t mv ht h => cases h <;> exact he
  | worker i h =>
    cases h with
    | insert second b tgt x todo rest h r hr =>
      subst hr
      exact ((insert_graph E (E.next h)).2 u v).mpr (Or.inl he)
    | _ => exact he
  | shutdown h => cases h <;> exact he

theorem edgeInv_step (T : ∀ t, ThreadOk cfg s t) (L : LifeInv s)
    (R' : ∀ t, SpscRing.RingInv (ringParams cfg) (s'.ring t)) (E : EdgeInv s)
    (h : Step cfg s a s') : EdgeInv s' where
  count := by
    cases h with
    | thread t mv ht h =>
      cases h with
      | register h => exact h
      | _ => exact E.count
    | worker i h => rw [lockSlotCount_worker h]; exact E.count
    | shutdown h => cases h <;> exact E.count
  wf := by
    cases h with
    | thread t mv ht h =>
      cases h with
      | register h => exact E.wf.mono (Nat.le_succ _)
      | _ => exact E.wf
    | worker i h =>
      cases h with
      | insert second b tgt x todo rest h r hr =>
        subst hr
        exact (insert_graph E (E.next h)).1
      | _ => exact E.wf
    | shutdown h => cases h <;> exact E.wf
  accepted t e u v he hc := by
    rcases accepted_step T h he with he | ⟨-, he⟩
    · exact (E.accepted t e u v he hc).step T h
    · exact (pairOk_ring (T t) he hc).step T h
  batch i u v hh := by
    have hold : Holds (s.worker i) u v → PairOk s' u v := fun hh => (E.batch i u v hh).step T h
    have h₁ := h
    cases h with
    | thread t mv ht h =>
      rcases worker_thread L h i with hw | ⟨-, hw⟩ <;> rw [hw] at hh
      · exact hold hh
      · exact absurd hh (not_holds_empty _ u v)
    | worker j h₀ =>
      by_cases hij : i = j
      · subst hij
        rcases holds_worker E h₀ hh with hh | ⟨t, e, he, hc⟩
        · exact hold hh
        · have hacc : e ∈ (s'.ring t).accepted := (R' t).order.subset he
          rcases accepted_step T h₁ hacc with he | ⟨-, he⟩
          · exact (E.accepted t e u v he hc).step T h₁
          · exact (pairOk_ring (T t) he hc).step T h₁
      · rw [h₀.life.2.2.2.2.2 i hij] at hh
        exact hold hh
    | shutdown h => exact hold (by cases h <;> exact hh)
  sound u v he := by
    rcases edge_of_step E h he with he | hp
    · exact (E.sound u v he).step T h
    · exact hp.step T h

theorem edgeInv {G : State → Act → Prop} (h : Runs.ReachableBy (system cfg) G s) : EdgeInv s :=
  h.invariant edgeInv_initial fun _ _ _ hr E hg hs =>
    edgeInv_step (threadOk hr) (lifeInv hr) (ringInv (.step hr hg hs)) E (step_cases hs).2

/-! ## The reports -/

/-- A report was made for the edge `u → v`. -/
def Reported (s : State) (u v : Nat) : Prop :=
  ∃ r, r ∈ s.reports ∧ r.fromLockSlot = u ∧ r.toLockSlot = v

structure ReportInv (s : State) : Prop where
  marked : Marked s.graph.E (Reported s)
  valid : ∀ r, r ∈ s.reports → r.Valid s.graph.E

theorem reportInv_initial : ReportInv initial where
  marked := by
    have hE : initial.graph.E = fun _ _ => False := by
      funext u v
      exact eq_false (initial_not_E u v)
    have hR : Reported initial = fun _ _ => False := by
      funext u v
      simp [Reported, initial]
    rw [hE, hR]
    exact Marked.empty
  valid _ h := by cases h

theorem reportInv_insert {i tgt x : Nat} {second : Bool} {b : Batch} {todo rest : List Nat}
    (E : EdgeInv s) (I : ReportInv s) (h : s.worker i = .edges second b tgt (x :: todo) rest)
    {r : RbGraph × Option Report}
    (hr : r = s.graph.addEdgeIfNew s.lockSlotCount x tgt (edgeInfoOf cfg s x tgt))
    (hg : s'.graph = r.1) (hrep : s'.reports = s.reports ++ r.2.toList) : ReportInv s' := by
  have hsame : r.2 = none → Reported s' = Reported s := fun h0 => by
    funext u v
    simp only [Reported, hrep, h0, Option.toList_none, List.append_nil]
  rcases addEdgeIfNew_cases (u := x) (edgeInfoOf cfg s x tgt) E.wf E.count
    (E.next h).target with ⟨-, he⟩ | ⟨-, -, hpath, y, he, hy1, hy2, hv⟩ | ⟨-, -, hopen, he⟩
  · rw [he] at hr
    subst hr
    refine ⟨?_, fun y hy => ?_⟩
    · rw [hsame rfl, hg]
      exact I.marked
    · rw [hrep] at hy
      rw [hg]
      exact I.valid y (by simpa using hy)
  · rw [he] at hr
    subst hr
    have hR : Reported s' = addEdge (Reported s) x tgt := by
      funext u v
      simp only [Reported, addEdge, hrep, Option.toList_some, List.mem_append, List.mem_singleton,
        eq_iff_iff]
      constructor
      · rintro ⟨r, hr | rfl, h1, h2⟩
        · exact Or.inl ⟨r, hr, h1, h2⟩
        · exact Or.inr ⟨h1.symm.trans hy1, h2.symm.trans hy2⟩
      · rintro (⟨r, hr, h1, h2⟩ | ⟨rfl, rfl⟩)
        · exact ⟨r, Or.inl hr, h1, h2⟩
        · exact ⟨y, Or.inr rfl, hy1, hy2⟩
    have hE : s'.graph.E = addEdge s.graph.E x tgt := by rw [hg, insert_E]
    refine ⟨by rw [hR, hE]; exact I.marked.addEdge_closing hpath, fun z hz => ?_⟩
    rw [hE]
    rw [hrep, List.mem_append] at hz
    rcases hz with hz | hz
    · exact (I.valid z hz).mono fun _ _ => Or.inl
    · rw [Option.toList_some, List.mem_singleton] at hz
      exact hz ▸ hv
  · rw [he] at hr
    subst hr
    have hE : s'.graph.E = addEdge s.graph.E x tgt := by rw [hg, insert_E]
    refine ⟨by rw [hsame rfl, hE]; exact I.marked.addEdge_open hopen, fun z hz => ?_⟩
    rw [hrep] at hz
    rw [hE]
    exact (I.valid z (by simpa using hz)).mono fun _ _ => Or.inl

theorem reportInv {G : State → Act → Prop} (h : Runs.ReachableBy (system cfg) G s) :
    ReportInv s :=
  h.invariant reportInv_initial fun s s' a hr I _ hs => by
    have hsame : s'.graph = s.graph → s'.reports = s.reports → ReportInv s' := fun h1 h2 =>
      ⟨by
        have : Reported s' = Reported s := by
          funext u v
          simp only [Reported, h2]
        rw [this, h1]
        exact I.marked, fun r hr => by
        rw [h1]
        exact I.valid r (h2 ▸ hr)⟩
    cases (step_cases hs).2 with
    | thread t mv ht h => cases h <;> exact hsame rfl rfl
    | worker i h =>
      cases h with
      | insert second b tgt x todo rest h r hr' =>
        exact reportInv_insert (edgeInv hr) I h hr' rfl rfl
      | _ => exact hsame rfl rfl
    | shutdown h => cases h <;> exact hsame rfl rfl

end ScaleLockDep.RbBackend
