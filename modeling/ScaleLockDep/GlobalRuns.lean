import ScaleLockDep.GlobalExactness

/-!
# Undisturbed calls of the global backend

`lockdep_potential_on_acquire` in `global` mode as a function of the graph and the
held stack, and the runs of the backend in which one thread goes through its hooks
without interruption.

* `onAcquire_edge`: the edges one call adds;
* `acquire_runs`: the steps of an undisturbed call compute that function;
* `exists_run`: every family of well-formed histories is that of a run.
-/

namespace ScaleLockDep

open ThreadState Cycles

namespace DependencyGraph

/-- `lockdep_global_has_unknown_predecessor`. -/
def hasUnknownPredecessor (g : DependencyGraph) (held : List Nat) (v : Nat) : Bool :=
  held.any fun u => u != v && !g.bitTest v u

/-- `lockdep_global_on_acquire`, with the reports it makes. -/
def globalOnAcquire (g : DependencyGraph) (lockSlotCount v : Nat) (info : EdgeInfo) :
    List Nat → DependencyGraph × List Report
  | [] => (g, [])
  | u :: held =>
      if u = v then g.globalOnAcquire lockSlotCount v info held
      else
        let r := g.addEdgeAndCheckCycle lockSlotCount u v info
        let r' := r.1.globalOnAcquire lockSlotCount v info held
        (r'.1, r.2.toList ++ r'.2)

/-- `lockdep_potential_on_acquire` in `global` mode. -/
def onAcquire (g : DependencyGraph) (lockSlotCount : Nat) (held : List Nat) (v : Nat)
    (info : EdgeInfo) : DependencyGraph × List Report :=
  if g.hasUnknownPredecessor held v then g.globalOnAcquire lockSlotCount v info held else (g, [])

variable {g : DependencyGraph} {n v : Nat} {info : EdgeInfo} {held : List Nat}

theorem hasUnknownPredecessor_iff (h : WF n g) :
    g.hasUnknownPredecessor held v = true ↔ ∃ u, u ∈ held ∧ u ≠ v ∧ ¬ g.E u v := by
  simp [hasUnknownPredecessor, h.summary, E]

/-- The edges `lockdep_global_on_acquire` adds. -/
theorem globalOnAcquire_edge (h : WF n g) (hn : n ≤ maxLockSlots) (hv : v < n)
    (hheld : ∀ u, u ∈ held → u < n) (x y : Nat) :
    (g.globalOnAcquire n v info held).1.E x y ↔ g.E x y ∨ (y = v ∧ x ≠ v ∧ x ∈ held) := by
  induction held generalizing g with
  | nil => simp [globalOnAcquire]
  | cons u held ih =>
    have hheld' : ∀ u, u ∈ held → u < n := fun u hu => hheld u (List.mem_cons_of_mem _ hu)
    unfold globalOnAcquire
    by_cases huv : u = v
    · rw [if_pos huv, ih h hheld', List.mem_cons]
      refine or_congr_right (and_congr_right fun _ => and_congr_right fun hx => ?_)
      rw [or_iff_right (fun hxu => hx (hxu.trans huv))]
    · rw [if_neg huv]
      have hone : WF n (g.addEdgeAndCheckCycle n u v info).1 ∧
          ((g.addEdgeAndCheckCycle n u v info).1.E x y ↔ g.E x y ∨ (x = u ∧ y = v)) := by
        rcases addEdge_cases (u := u) info h hn hv with
          ⟨he, hr⟩ | ⟨-, -, r, hr, -⟩ | ⟨-, -, hr⟩
        · rw [hr]
          refine ⟨h, Or.inl, ?_⟩
          rintro (hxy | ⟨rfl, rfl⟩)
          · exact hxy
          · exact he
        · rw [hr]
          exact ⟨h.insert (hheld u List.mem_cons_self) hv, by rw [insert_E]; rfl⟩
        · rw [hr]
          exact ⟨h.insert (hheld u List.mem_cons_self) hv, by rw [insert_E]; rfl⟩
      rw [ih hone.1 hheld', hone.2, List.mem_cons, or_assoc]
      refine or_congr_right ?_
      constructor
      · rintro (⟨rfl, rfl⟩ | ⟨hy, hx, hm⟩)
        · exact ⟨rfl, huv, Or.inl rfl⟩
        · exact ⟨hy, hx, Or.inr hm⟩
      · rintro ⟨rfl, hx, rfl | hm⟩
        · exact Or.inl ⟨rfl, rfl⟩
        · exact Or.inr ⟨rfl, hx, hm⟩

/-- **The edges one call adds**: the skip path loses none. -/
theorem onAcquire_edge (info : EdgeInfo) (h : WF n g) (hn : n ≤ maxLockSlots) (hv : v < n)
    (hheld : ∀ u, u ∈ held → u < n) (x y : Nat) :
    (g.onAcquire n held v info).1.E x y ↔ g.E x y ∨ (y = v ∧ x ≠ v ∧ x ∈ held) := by
  unfold onAcquire
  split
  · exact globalOnAcquire_edge h hn hv hheld x y
  · rename_i hno
    rw [hasUnknownPredecessor_iff h] at hno
    refine ⟨Or.inl, ?_⟩
    rintro (he | ⟨rfl, hx, hm⟩)
    · exact he
    · by_contra he
      exact hno ⟨x, hm, hx, he⟩

end DependencyGraph

namespace GlobalBackend

open DependencyGraph State

/-- The state with another graph, other reports and thread `t` elsewhere. -/
def State.at (s : State) (g : DependencyGraph) (r : List Report) (t : Nat) (pc : Pc) : State :=
  { s.setPc t pc with graph := g, reports := r }

theorem setPc_setPc (s : State) (t : Nat) (pc pc' : Pc) :
    (s.setPc t pc).setPc t pc' = s.setPc t pc' := by
  simp [State.setPc]

theorem at_setPc (s : State) (g : DependencyGraph) (r : List Report) (t : Nat) (pc pc' : Pc) :
    (s.at g r t pc).setPc t pc' = s.at g r t pc' := by
  simp [State.at, State.setPc]

theorem at_setGraph_setPc (s : State) (g g' : DependencyGraph) (r : List Report) (t : Nat)
    (pc pc' : Pc) : ((s.at g r t pc).setGraph g').setPc t pc' = s.at g' r t pc' := by
  simp [State.at, State.setPc, State.setGraph]

variable {s : State} {t : Nat} {c : Call} {g : DependencyGraph} {r : List Report}

theorem step_run (hex : s.exited = false) (ht : t < maxThreadSlots) (pc : Pc) :
    step (s.at g r t pc) ⟨t, .run⟩ = runStep (s.at g r t pc) t := by
  unfold step
  rw [if_neg]
  rintro (he | hle)
  · rw [show (s.at g r t pc).exited = s.exited from rfl, hex] at he
    cases he
  · exact absurd ht (Nat.not_lt.mpr hle)

theorem at_pc (pc : Pc) : ((s.at g r t pc).thr t).pc = pc := by
  change ((s.setPc t pc).thr t).pc = pc
  rw [setPc_pc, if_pos rfl]

theorem at_held (pc : Pc) : (s.at g r t pc).held t = s.held t := setPc_held s t t pc

/-- The scan of the summary, undisturbed. -/
theorem scan_runs (hex : s.exited = false) (ht : t < maxThreadSlots) (i : Nat) :
    ∃ k, Runs.exec system (s.at g r t (.scan c i)) (List.replicate k ⟨t, .run⟩) =
      some (s.at g r t (if g.hasUnknownPredecessor ((s.held t).drop i) c.lockSlot then .add c 0
        else .push c)) := by
  generalize hrest : (s.held t).drop i = rest
  induction rest generalizing i with
  | nil =>
    refine ⟨1, ?_⟩
    have hnone : (s.held t)[i]? = none := by
      rw [List.getElem?_eq_none_iff]
      exact List.drop_eq_nil_iff.mp hrest
    have hstep : system.step (s.at g r t (.scan c i)) ⟨t, .run⟩ = some (s.at g r t (.push c)) := by
      change step _ _ = _
      rw [step_run hex ht]
      simp only [runStep, at_pc, at_held, hnone, at_setPc]
    rw [List.replicate_one, Runs.exec_cons _ hstep]
    simp [Runs.exec, hasUnknownPredecessor]
  | cons u rest ih =>
    have hsome : (s.held t)[i]? = some u := by
      rw [← List.head?_drop, hrest]
      rfl
    have hnext : (s.held t).drop (i + 1) = rest := by
      rw [← List.tail_drop, hrest]
      rfl
    obtain ⟨k, hk⟩ := ih (i + 1) hnext
    have hhas : g.hasUnknownPredecessor (u :: rest) c.lockSlot =
        ((u != c.lockSlot && !g.bitTest c.lockSlot u) ||
          g.hasUnknownPredecessor rest c.lockSlot) := rfl
    have hrun : ∀ pc, runStep (s.at g r t (.scan c i)) t = some (s.at g r t pc) →
        system.step (s.at g r t (.scan c i)) ⟨t, .run⟩ = some (s.at g r t pc) := fun pc h => by
      change step _ _ = _
      rw [step_run hex ht, h]
    have hgr : (s.at g r t (.scan c i)).graph = g := rfl
    by_cases hu : u = c.lockSlot
    · refine ⟨k + 1, ?_⟩
      rw [List.replicate_succ, Runs.exec_cons _ (hrun (.scan c (i + 1)) ?_), hk, hhas]
      · simp [hu]
      · simp only [runStep, at_pc, at_held, hsome, at_setPc, if_pos hu]
    · cases hb : g.bitTest c.lockSlot u with
      | true =>
        refine ⟨k + 1, ?_⟩
        rw [List.replicate_succ, Runs.exec_cons _ (hrun (.scan c (i + 1)) ?_), hk, hhas]
        · simp [hb]
        · simp only [runStep, at_pc, at_held, hsome, at_setPc, if_neg hu, hgr, hb, if_true]
      | false =>
        refine ⟨1, ?_⟩
        rw [List.replicate_one, Runs.exec_cons _ (hrun (.add c 0) ?_), hhas]
        · simp [Runs.exec, hb, hu]
        · simp only [runStep, at_pc, at_held, hsome, at_setPc, if_neg hu, hgr, hb,
            Bool.false_eq_true, if_false]

/-- The insertions, undisturbed. -/
theorem add_runs (hex : s.exited = false) (ht : t < maxThreadSlots) (i : Nat) :
    ∃ k, Runs.exec system (s.at g r t (.add c i)) (List.replicate k ⟨t, .run⟩) =
      some (s.at (g.globalOnAcquire s.lockSlotCount c.lockSlot ⟨some t, c.acquirePc⟩
          ((s.held t).drop i)).1
        (r ++ (g.globalOnAcquire s.lockSlotCount c.lockSlot ⟨some t, c.acquirePc⟩
          ((s.held t).drop i)).2) t (.push c)) := by
  generalize hrest : (s.held t).drop i = rest
  induction rest generalizing i g r with
  | nil =>
    refine ⟨1, ?_⟩
    have hnone : (s.held t)[i]? = none := by
      rw [List.getElem?_eq_none_iff]
      exact List.drop_eq_nil_iff.mp hrest
    have hstep : system.step (s.at g r t (.add c i)) ⟨t, .run⟩ = some (s.at g r t (.push c)) := by
      change step _ _ = _
      rw [step_run hex ht]
      simp only [runStep, at_pc, at_held, hnone, at_setPc]
    rw [List.replicate_one, Runs.exec_cons _ hstep]
    simp [Runs.exec, globalOnAcquire]
  | cons u rest ih =>
    have hsome : (s.held t)[i]? = some u := by
      rw [← List.head?_drop, hrest]
      rfl
    have hnext : (s.held t).drop (i + 1) = rest := by
      rw [← List.tail_drop, hrest]
      rfl
    by_cases hu : u = c.lockSlot
    · obtain ⟨k, hk⟩ := ih (g := g) (r := r) (i + 1) hnext
      refine ⟨k + 1, ?_⟩
      have hstep : system.step (s.at g r t (.add c i)) ⟨t, .run⟩ =
          some (s.at g r t (.add c (i + 1))) := by
        change step _ _ = _
        rw [step_run hex ht]
        simp only [runStep, at_pc, at_held, hsome, at_setPc, if_pos hu]
      rw [List.replicate_succ, Runs.exec_cons _ hstep, hk]
      simp only [globalOnAcquire, if_pos hu]
    · have hstep : system.step (s.at g r t (.add c i)) ⟨t, .run⟩ =
          some (s.at (g.addEdgeAndCheckCycle s.lockSlotCount u c.lockSlot ⟨some t, c.acquirePc⟩).1
            r t (afterAdd c i (g.addEdgeAndCheckCycle s.lockSlotCount u c.lockSlot
              ⟨some t, c.acquirePc⟩).2)) := by
        change step _ _ = _
        rw [step_run hex ht]
        simp only [runStep, at_pc, at_held, hsome, if_neg hu]
        exact congrArg some (at_setGraph_setPc s g _ r t _ _)
      cases hr : (g.addEdgeAndCheckCycle s.lockSlotCount u c.lockSlot ⟨some t, c.acquirePc⟩).2 with
      | none =>
        obtain ⟨k, hk⟩ := ih (g := (g.addEdgeAndCheckCycle s.lockSlotCount u c.lockSlot
          ⟨some t, c.acquirePc⟩).1) (r := r) (i + 1) hnext
        refine ⟨k + 1, ?_⟩
        simp only [hr, afterAdd] at hstep
        rw [List.replicate_succ, Runs.exec_cons _ hstep, hk]
        simp only [globalOnAcquire, if_neg hu, hr, Option.toList_none, List.nil_append]
      | some x =>
        obtain ⟨k, hk⟩ := ih (g := (g.addEdgeAndCheckCycle s.lockSlotCount u c.lockSlot
          ⟨some t, c.acquirePc⟩).1) (r := r ++ [x]) (i + 1) hnext
        refine ⟨k + 2, ?_⟩
        simp only [hr, afterAdd] at hstep
        have hreport : system.step (s.at (g.addEdgeAndCheckCycle s.lockSlotCount u c.lockSlot
            ⟨some t, c.acquirePc⟩).1 r t (.report c i x)) ⟨t, .run⟩ =
            some (s.at (g.addEdgeAndCheckCycle s.lockSlotCount u c.lockSlot
              ⟨some t, c.acquirePc⟩).1 (r ++ [x]) t (.add c (i + 1))) := by
          change step _ _ = _
          rw [step_run hex ht]
          simp only [runStep, at_pc]
          simp [State.at, State.setPc, State.addReport]
        rw [List.replicate_succ, Runs.exec_cons _ hstep, List.replicate_succ,
          Runs.exec_cons _ hreport, hk]
        simp only [globalOnAcquire, if_neg hu, hr, Option.toList_some, List.append_assoc]

theorem step_ok (hex : s.exited = false) (ht : t < maxThreadSlots) :
    ¬ (s.exited = true ∨ maxThreadSlots ≤ t) := by
  rintro (he | hle)
  · rw [hex] at he
    cases he
  · omega

/-- **An undisturbed nested acquisition** computes `lockdep_potential_on_acquire`. -/
theorem acquire_runs (hex : s.exited = false) (ht : t < maxThreadSlots)
    (hout : (s.thr t).pc = .outside) (hheld : s.held t ≠ []) (hl : c.lockSlot < s.lockSlotCount)
    {ts : ThreadState}
    (hts : (s.thr t).tls.pushHeldLockSlot .global c.lockSlot = some ts) :
    ∃ k, Runs.exec system s (⟨t, .acquire c⟩ :: List.replicate k ⟨t, .run⟩) =
      some ({ s with
        graph := (s.graph.onAcquire s.lockSlotCount (s.held t) c.lockSlot ⟨some t, c.acquirePc⟩).1
        reports := s.reports ++ (s.graph.onAcquire s.lockSlotCount (s.held t) c.lockSlot
          ⟨some t, c.acquirePc⟩).2 }.complete t ts (.acquire c.api c.lockSlot)) := by
  have hstart : system.step s ⟨t, .acquire c⟩ =
      some (s.at s.graph s.reports t (.scan c 0)) := by
    change step _ _ = _
    unfold step
    rw [if_neg (step_ok hex ht)]
    simp only [hout, hl, and_self, if_true, if_neg hheld]
    rfl
  have hpush : ∀ g r, system.step (s.at g r t (.push c)) ⟨t, .run⟩ =
      some ({ s with graph := g, reports := r }.complete t ts (.acquire c.api c.lockSlot)) := by
    intro g r
    change step _ _ = _
    rw [step_run hex ht]
    have htls : ((s.at g r t (.push c)).thr t).tls = (s.thr t).tls := setPc_tls s t t _
    simp only [runStep, at_pc, htls, hts]
    simp [State.at, State.setPc, State.complete]
  have hend : ∀ g r as, Runs.exec system s as = some (s.at g r t (.push c)) →
      Runs.exec system s (as ++ [⟨t, .run⟩]) =
        some ({ s with graph := g, reports := r }.complete t ts (.acquire c.api c.lockSlot)) := by
    intro g r as has
    rw [Runs.exec_append, has, Option.bind_some, Runs.exec_cons _ (hpush g r)]
    rfl
  obtain ⟨k, hk⟩ := scan_runs (c := c) (g := s.graph) (r := s.reports) hex ht 0
  rw [List.drop_zero] at hk
  unfold onAcquire
  split at hk
  · rename_i hunknown
    obtain ⟨m, hm⟩ := add_runs (c := c) (g := s.graph) (r := s.reports) hex ht 0
    rw [List.drop_zero] at hm
    refine ⟨k + m + 1, ?_⟩
    have := hend _ _ (⟨t, .acquire c⟩ :: (List.replicate k ⟨t, .run⟩ ++
      List.replicate m ⟨t, .run⟩)) (by
        rw [Runs.exec_cons _ hstart, Runs.exec_append, hk, Option.bind_some, hm])
    rw [if_pos hunknown, List.replicate_succ', ← List.replicate_append_replicate]
    exact this
  · rename_i hknown
    refine ⟨k + 1, ?_⟩
    have := hend _ _ (⟨t, .acquire c⟩ :: List.replicate k ⟨t, .run⟩) (by
      rw [Runs.exec_cons _ hstart, hk])
    rw [if_neg hknown, List.replicate_succ', List.append_nil]
    exact this

/-! ## A run for every family of histories -/

/-- What running one more call of thread `t` does. -/
structure Ran (s s' : State) (t : Nat) (ops : List Op) : Prop where
  reachable : Runs.Reachable system s'
  exited : s'.exited = false
  count : s'.lockSlotCount = s.lockSlotCount
  outside : (s'.thr t).pc = .outside
  hist : (s'.thr t).hist = ops
  others : ∀ u, u ≠ t → s'.thr u = s.thr u

theorem ran_complete {as : List Act} {s₁ : State} {ts : ThreadState} {op : Op}
    (hr : Runs.Reachable system s) (hexec : Runs.exec system s as = some (s₁.complete t ts op))
    (hex : s₁.exited = false) (hcount : s₁.lockSlotCount = s.lockSlotCount)
    (hthr : s₁.thr = s.thr) : Ran s (s₁.complete t ts op) t ((s.thr t).hist ++ [op]) where
  reachable := Runs.ReachableBy.exec hr hexec
  exited := hex
  count := hcount
  outside := by rw [complete_pc, if_pos rfl]
  hist := by rw [complete_hist, if_pos rfl, hthr]
  others u hu := by simp [State.complete, hu, hthr]

/-- One more call. -/
theorem op_runs (hr : Runs.Reachable system s) (hex : s.exited = false) (ht : t < maxThreadSlots)
    (hout : (s.thr t).pc = .outside) {op : Op}
    (hop : WellFormed s.lockSlotCount ((s.thr t).hist ++ [op])) :
    ∃ s', Ran s s' t ((s.thr t).hist ++ [op]) := by
  have hheld := (graphInv hr).heldHist t
  generalize hops : (s.thr t).hist ++ [op] = ops at hop
  cases hop with
  | nil => simp at hops
  | acquire api l h hl hroom =>
    obtain ⟨rfl, hop⟩ := List.append_inj' hops rfl
    obtain rfl : op = .acquire api l := by simpa using hop
    rw [← hops]
    rw [← hheld] at hroom
    by_cases hnil : s.held t = []
    · have hstep : system.step s ⟨t, .acquire ⟨api, l, 0⟩⟩ =
          some (s.complete t ((s.thr t).tls.acquireTopLevel .global l) (.acquire api l)) := by
        change step _ _ = _
        unfold step
        rw [if_neg (step_ok hex ht)]
        simp only [hout, hl, and_self, if_true, if_pos hnil]
      have hexec : Runs.exec system s [⟨t, .acquire ⟨api, l, 0⟩⟩] = some (s.complete t
          ((s.thr t).tls.acquireTopLevel .global l) (.acquire api l)) := by
        rw [Runs.exec_cons _ hstep]
        rfl
      exact ⟨_, ran_complete hr hexec hex rfl rfl⟩
    · have hts : (s.thr t).tls.pushHeldLockSlot .global l =
          some { (s.thr t).tls with heldLockSlots := (s.thr t).tls.heldLockSlots ++ [l] } := by
        unfold ThreadState.pushHeldLockSlot
        have hlt : ¬ (s.thr t).tls.heldLockSlots.length ≥ maxHeldLockSlots := Nat.not_le.mpr hroom
        rw [if_neg hlt]
        rfl
      obtain ⟨k, hk⟩ := acquire_runs (c := ⟨api, l, 0⟩) hex ht hout hnil hl hts
      exact ⟨_, ran_complete hr hk hex rfl rfl⟩
  | release l h hl =>
    obtain ⟨rfl, hop⟩ := List.append_inj' hops rfl
    obtain rfl : op = .release l := by simpa using hop
    rw [← hops]
    rw [← hheld] at hl
    have hstep : system.step s ⟨t, .release l⟩ =
        some (s.complete t ((s.thr t).tls.release .global l) (.release l)) := by
      change step _ _ = _
      unfold step
      rw [if_neg (step_ok hex ht)]
      simp only [hout, hl, and_self, if_true]
    have hexec : Runs.exec system s [⟨t, .release l⟩] =
        some (s.complete t ((s.thr t).tls.release .global l) (.release l)) := by
      rw [Runs.exec_cons _ hstep]
      rfl
    exact ⟨_, ran_complete hr hexec hex rfl rfl⟩

/-- A whole history of one thread. -/
theorem thread_runs (hr : Runs.Reachable system s) (hex : s.exited = false)
    (ht : t < maxThreadSlots) (hout : (s.thr t).pc = .outside) (hnil : (s.thr t).hist = [])
    {ops : List Op} (hops : WellFormed s.lockSlotCount ops) : ∃ s', Ran s s' t ops := by
  have hone : ∀ {s₁ : State} {ops : List Op} {op : Op}, Ran s s₁ t ops →
      WellFormed s.lockSlotCount (ops ++ [op]) → ∃ s', Ran s s' t (ops ++ [op]) := by
    intro s₁ ops op h₁ hop
    have hop' : WellFormed s₁.lockSlotCount ((s₁.thr t).hist ++ [op]) := by
      rwa [h₁.hist, h₁.count]
    obtain ⟨s', h'⟩ := op_runs h₁.reachable h₁.exited ht h₁.outside hop'
    exact ⟨s', h'.reachable, h'.exited, h'.count.trans h₁.count, h'.outside,
      by rw [h'.hist, h₁.hist], fun u hu => (h'.others u hu).trans (h₁.others u hu)⟩
  induction hops with
  | nil => exact ⟨s, hr, hex, rfl, hout, hnil, fun _ _ => rfl⟩
  | acquire api l h hl hroom ih =>
    obtain ⟨s₁, h₁⟩ := ih
    exact hone h₁ (.acquire api l h hl hroom)
  | release l h hl ih =>
    obtain ⟨s₁, h₁⟩ := ih
    exact hone h₁ (.release l h hl)

/-- The registration of `n` locks. -/
theorem register_runs {n : Nat} (hn : n ≤ maxLockSlots) :
    Runs.Reachable system { initial with lockSlotCount := n } := by
  induction n with
  | zero => exact .init
  | succ n ih =>
    have hstep : step { initial with lockSlotCount := n } ⟨0, .register⟩ =
        some { initial with lockSlotCount := n + 1 } := by
      unfold step
      rw [if_neg (step_ok rfl (by decide))]
      exact if_pos (Nat.lt_of_succ_le hn)
    exact .step (a := ⟨0, .register⟩) (ih (by omega)) trivial hstep

/-- **A run for every family of histories** within the limits. -/
theorem exists_run {n : Nat} (hn : n ≤ maxLockSlots) (hist : Nat → List Op)
    (hwf : ∀ t, WellFormed n (hist t)) (hslots : ∀ t, maxThreadSlots ≤ t → hist t = []) :
    ∃ s, Runs.Reachable system s ∧ Quiet s ∧ ∀ t, (s.thr t).hist = hist t := by
  have hmain : ∀ m, m ≤ maxThreadSlots → ∃ s, Runs.Reachable system s ∧ s.exited = false ∧
      s.lockSlotCount = n ∧ Quiet s ∧
      ∀ t, (s.thr t).hist = if t < m then hist t else [] := by
    intro m hm
    induction m with
    | zero =>
      exact ⟨_, register_runs hn, rfl, rfl, fun _ => rfl, fun t => by
        rw [if_neg (Nat.not_lt_zero t)]
        rfl⟩
    | succ m ih =>
      obtain ⟨s, hr, hex, hcount, hq, hh⟩ := ih (by omega)
      obtain ⟨s', h'⟩ := thread_runs (t := m) hr hex (by omega) (hq m)
        (by rw [hh, if_neg (Nat.lt_irrefl m)]) (hcount.symm ▸ hwf m)
      refine ⟨s', h'.reachable, h'.exited, h'.count.trans hcount, fun t => ?_, fun t => ?_⟩
      · by_cases htm : t = m
        · rw [htm]
          exact h'.outside
        · rw [h'.others t htm]
          exact hq t
      · by_cases htm : t = m
        · rw [htm, if_pos (Nat.lt_succ_self m)]
          exact h'.hist
        · rw [h'.others t htm, hh]
          by_cases hlt : t < m
          · rw [if_pos hlt, if_pos (by omega)]
          · rw [if_neg hlt, if_neg (by omega)]
  obtain ⟨s, hr, -, -, hq, hh⟩ := hmain maxThreadSlots (Nat.le_refl _)
  refine ⟨s, hr, hq, fun t => ?_⟩
  rw [hh]
  split
  · rfl
  · rename_i hge
    exact (hslots t (Nat.le_of_not_lt hge)).symm

end GlobalBackend

end ScaleLockDep
