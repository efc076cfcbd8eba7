import ScaleLockDep.BlockingPairs

/-!
# Re-acquiring a recursive mutex

`lockdep_potential_on_acquire` skips only the pair of the new lock with itself.

* `RbBackend.acquire_runs`: the hook in `rb` mode up to its enqueue, as a function;
* `reacquire_adds_nothing`: a re-acquisition adds no edge exactly when every other
  held lock is a recorded predecessor, and runs whose re-acquisitions all meet that
  are never reported if they lock in one order;
* `reacquire_reported`: one thread that re-acquires a mutex is reported.
-/

namespace ScaleLockDep

open ThreadState

/-! ## Conditions on a call, computed -/

/-- A lock the thread does not hold is above all it holds. -/
def newUp (A : Activity) (t : Nat) : Move → Bool
  | .acquire c => c.lockSlot ∈ A.held t || A.othersAll t c.lockSlot fun u => u < c.lockSlot
  | _ => true

/-- A lock the thread holds has the others as recorded predecessors. -/
def reacquiresKnown (A : Activity) (edge : Nat → Nat → Bool) (t : Nat) : Move → Bool
  | .acquire c => c.lockSlot ∉ A.held t || A.othersAll t c.lockSlot fun u => edge u c.lockSlot
  | _ => true

theorem newUp_up {A : Activity} {t : Nat} {mv : Move} (h : newUp A t mv = true) :
    A.NewUp id t mv := by
  rintro c rfl hc u hu
  have hne : u ≠ c.lockSlot := fun he => hc (he ▸ hu)
  simp only [newUp, Bool.or_eq_true, decide_eq_true_eq, hc, false_or] at h
  exact of_decide_eq_true (Activity.othersAll_iff.mp h u hu hne)

theorem reacquiresKnown_known {A : Activity} {edge : Nat → Nat → Bool} {t : Nat} {mv : Move}
    (h : reacquiresKnown A edge t mv = true) :
    A.ReacquiresKnown (fun u v => edge u v = true) t mv := by
  rintro c rfl hc u hu hne
  simp only [reacquiresKnown, Bool.or_eq_true, decide_eq_true_eq, hc, not_true_eq_false,
    false_or] at h
  exact Activity.othersAll_iff.mp h u hu hne

/-! ## The hook in rb mode -/

/-- The words of `lockdep_rb_collect_unknown_predecessors` after `n` loads. -/
def RbGraph.collectWords (g : RbGraph) (heldLockBits : WordSet) (v n : Nat) : WordSet :=
  (List.range n).foldl (fun bits w =>
    Function.update bits w (heldLockBits w &&& ~~~ g.predecessorSnapshot v w)) WordSet.empty

/-- `lockdep_rb_collect_unknown_predecessors`. -/
def RbGraph.collectUnknownPredecessors (g : RbGraph) (heldLockBits : WordSet) (v : Nat) : WordSet :=
  (g.collectWords heldLockBits v graphWords).clear v

namespace RbBackend

open State

/-- `lockdep_potential_on_acquire` in `rb` mode: the event it enqueues. -/
def onAcquire (s : State) (t : Nat) (c : Call) : Option Event :=
  if s.held t = [] then none
  else
    let bits := s.graph.collectUnknownPredecessors (s.thr t).tls.heldLockBits c.lockSlot
    if bits.hasAnyBits graphWords then some (eventOf t c bits) else none

variable {cfg : Config} {s : State} {t u v n : Nat} {c : Call} {g : RbGraph} {bits : WordSet}

theorem collectWords_succ : g.collectWords bits v (n + 1) = Function.update
    (g.collectWords bits v n) n (bits n &&& ~~~ g.predecessorSnapshot v n) := by
  simp [RbGraph.collectWords, List.range_succ]

theorem test_collectWords : (g.collectWords bits v n).test u =
    (decide (u / 64 < n) && (bits.test u && !(g.predecessorSnapshot v).test u)) := by
  induction n with
  | zero => simp [RbGraph.collectWords]
  | succ n ih =>
    rw [collectWords_succ, test_update_word, ih]
    split
    · rename_i hu
      simp [hu]
    · rename_i hu
      have hlt : u / 64 < n ↔ u / 64 < n + 1 := by omega
      simp [hlt]

/-- **The hook enqueues nothing** exactly when every held lock but the new one is a
recorded predecessor. -/
theorem onAcquire_eq_none (h : Runs.Reachable (system cfg) s) : onAcquire s t c = none ↔
    ∀ u, u ∈ s.held t → u ≠ c.lockSlot → s.graph.edge u c.lockSlot = true := by
  have T := threadOk h t
  have hsnap := (edgeInv h).wf.snapshot
  have hw : 64 * graphWords = maxLockSlots := rfl
  have hlt : ∀ u, u ∈ s.held t → u < 64 * graphWords := fun u hu =>
    (T.heldBound u hu).trans_le (edgeInv h).count
  have hbit : ∀ u, (s.graph.collectUnknownPredecessors (s.thr t).tls.heldLockBits
      c.lockSlot).test u = true ↔ u / 64 < graphWords ∧ u ∈ s.held t ∧ u ≠ c.lockSlot ∧
        ¬ s.graph.edge u c.lockSlot = true := by
    intro u
    rw [RbGraph.collectUnknownPredecessors, WordSet.test_clear, test_collectWords, hsnap,
      T.mirrors.bits]
    simp [State.held, and_comm, and_assoc, and_left_comm]
  have hany : (s.graph.collectUnknownPredecessors (s.thr t).tls.heldLockBits
      c.lockSlot).hasAnyBits graphWords = true ↔
        ∃ u, u ∈ s.held t ∧ u ≠ c.lockSlot ∧ ¬ s.graph.edge u c.lockSlot = true := by
    rw [WordSet.hasAnyBits_iff]
    simp only [hbit]
    refine exists_congr fun u => ⟨fun hu => hu.2.2, fun hu => ?_⟩
    have := hlt u hu.1
    exact ⟨this, by omega, hu⟩
  unfold onAcquire
  split
  · rename_i hnil
    simp [hnil]
  · simp only [hany]
    split
    · rename_i hno
      obtain ⟨u, hu, hne, he⟩ := hno
      refine ⟨fun h => ?_, fun h => absurd (h u hu hne) he⟩
      cases h
    · rename_i hno
      refine ⟨fun _ u hu hne => ?_, fun _ => rfl⟩
      by_contra he
      exact hno ⟨u, hu, hne, he⟩

theorem setPc_setPc (s : State) (t : Nat) (pc pc' : Pc) :
    (s.setPc t pc).setPc t pc' = s.setPc t pc' := by
  simp [State.setPc]

theorem step_run (hex : s.exited = false) (ht : t < maxThreadSlots) (pc : Pc) :
    (system cfg).step (s.setPc t pc) (.thread t .run) = threadRun cfg (s.setPc t pc) t := by
  change step cfg (s.setPc t pc) (.thread t .run) = _
  simp [step, hex, ht, threadStep]

/-- The loads of the snapshot, undisturbed. -/
theorem collect_runs (hex : s.exited = false) (ht : t < maxThreadSlots) (hn : n ≤ graphWords) :
    Runs.exec (system cfg) (s.setPc t (.collect c .empty 0)) (List.replicate n (.thread t .run)) =
      some (s.setPc t (.collect c
        (s.graph.collectWords (s.thr t).tls.heldLockBits c.lockSlot n) n)) := by
  induction n with
  | zero => rfl
  | succ n ih =>
    have hstep : (system cfg).step (s.setPc t (.collect c
        (s.graph.collectWords (s.thr t).tls.heldLockBits c.lockSlot n) n)) (.thread t .run) =
        some (s.setPc t (.collect c
          (s.graph.collectWords (s.thr t).tls.heldLockBits c.lockSlot (n + 1)) (n + 1))) := by
      rw [step_run hex ht, threadRun, setPc_pc, if_pos rfl]
      simp only [if_pos (show n < graphWords by omega), setPc_setPc, setPc_tls, setPc_graph,
        collectWords_succ]
    rw [List.replicate_succ', Runs.exec_append, ih (by omega), Option.bind_some,
      Runs.exec_cons _ hstep]
    rfl

/-- **An undisturbed hook** computes `onAcquire`. -/
theorem acquire_runs (hex : s.exited = false) (ht : t < maxThreadSlots)
    (hout : (s.thr t).pc = .outside) (hheld : s.held t ≠ []) (hl : c.lockSlot < s.lockSlotCount) :
    Runs.exec (system cfg) s
        (.thread t (.acquire c) :: List.replicate (graphWords + 1) (.thread t .run)) =
      some (s.setPc t (match onAcquire s t c with
        | none => .push c
        | some e => .ensure c e .loadState)) := by
  have hstart : (system cfg).step s (.thread t (.acquire c)) =
      some (s.setPc t (.collect c .empty 0)) := by
    change step cfg s (.thread t (.acquire c)) = _
    simp [step, hex, ht, threadStep, hout, hl, hheld]
  have hend : (system cfg).step (s.setPc t (.collect c (s.graph.collectWords
      (s.thr t).tls.heldLockBits c.lockSlot graphWords) graphWords)) (.thread t .run) =
      some (s.setPc t (match onAcquire s t c with
        | none => .push c
        | some e => .ensure c e .loadState)) := by
    rw [step_run hex ht, threadRun, setPc_pc, if_pos rfl, onAcquire, if_neg hheld]
    by_cases hany : (s.graph.collectUnknownPredecessors (s.thr t).tls.heldLockBits
        c.lockSlot).hasAnyBits graphWords = true
    · simp only [if_pos hany]
      rw [if_neg (lt_irrefl _)]
      refine (if_pos hany).trans ?_
      rw [setPc_setPc]
      rfl
    · simp only [if_neg hany]
      rw [if_neg (lt_irrefl _)]
      refine (if_neg hany).trans ?_
      rw [setPc_setPc]
  rw [Runs.exec_cons _ hstart, List.replicate_succ', Runs.exec_append,
    collect_runs hex ht le_rfl, Option.bind_some, Runs.exec_cons _ hend]
  rfl

/-- The conditions of `reacquire_adds_nothing`, computed. -/
def newUp (s : State) (a : Act) : Bool := ScaleLockDep.newUp (activity s) a.mover.1 a.mover.2

def known (s : State) (a : Act) : Bool :=
  newUp s a && reacquiresKnown (activity s) s.graph.edge a.mover.1 a.mover.2

/-- Thread 0 locks 0 and 1, and the worker records the edge. -/
def nested : List (List Act) :=
  [[.thread 0 .register, .thread 0 .register, .thread 0 (.acquire ⟨.lock, 0, 7⟩),
      .thread 0 (.acquire ⟨.lock, 1, 7⟩)] ++ List.replicate 26 (.thread 0 .run) ++
      List.replicate 6 (.worker 0),
    List.replicate 5 (.worker 0)]

/-- Then it locks 1 again. -/
def innerAgain : List (List Act) :=
  nested ++ [.thread 0 (.acquire ⟨.lock, 1, 7⟩) :: List.replicate 6 (.thread 0 .run)]

/-- Then it locks 0 again, and the worker records what that gives. -/
def outerAgain : List (List Act) :=
  nested ++ [.thread 0 (.acquire ⟨.lock, 0, 7⟩) :: List.replicate 19 (.thread 0 .run) ++
      List.replicate 9 (.worker 0), List.replicate 3 (.worker 0)]

theorem known_reachable {legs : List (List Act)}
    (h : execLegs cfg known initial legs = some s) :
    Runs.ReachableBy (system cfg) (fun s a =>
      (activity s).NewUp id a.mover.1 a.mover.2 ∧
        (activity s).ReacquiresKnown s.graph.E a.mover.1 a.mover.2) s :=
  (execLegs_reachable (fun _ _ => rfl) .init h).mono fun _ _ hg =>
    have hg := Bool.and_eq_true_iff.mp hg
    ⟨newUp_up hg.1, reacquiresKnown_known hg.2⟩

theorem nested_runs : (execLegs ⟨false, true⟩ known initial nested).isSome = true := by
  decide +kernel

theorem innerAgain_runs :
    (execLegs ⟨false, true⟩ known initial innerAgain).isSome = true := by decide +kernel

theorem outerAgain_runs :
    (execLegs ⟨false, true⟩ newUp initial outerAgain).isSome = true := by decide +kernel

end RbBackend

namespace GlobalBackend

open DependencyGraph

/-- **The hook adds no edge** exactly when every held lock but the new one is a
recorded predecessor. -/
theorem onAcquire_adds_nothing {s : State} {t : Nat} {c : Call} (h : Runs.Reachable system s)
    (hc : c.lockSlot ∈ s.held t) (info : EdgeInfo) :
    (∀ u v, (s.graph.onAcquire s.lockSlotCount (s.held t) c.lockSlot info).1.edge u v =
        s.graph.edge u v) ↔
      ∀ u, u ∈ s.held t → u ≠ c.lockSlot → s.graph.edge u c.lockSlot = true := by
  have I := graphInv h
  have hadd := onAcquire_edge info I.wf I.count (I.heldBound t _ hc) (I.heldBound t)
  constructor
  · intro hsame u hu hne
    rw [← hsame]
    exact (hadd u c.lockSlot).mpr (Or.inr ⟨rfl, hne, hu⟩)
  · intro hknown u v
    refine Bool.eq_iff_iff.mpr ((hadd u v).trans (or_iff_left_of_imp ?_))
    rintro ⟨rfl, hne, hu⟩
    exact hknown u hu hne

/-- The conditions of `reacquire_adds_nothing`, computed. -/
def newUp (s : State) (a : Act) : Bool := ScaleLockDep.newUp (activity s) a.tid a.move

def known (s : State) (a : Act) : Bool :=
  newUp s a && reacquiresKnown (activity s) s.graph.edge a.tid a.move

/-- Thread 0 locks 0 and 1. -/
def nested : List Act :=
  [⟨0, .register⟩, ⟨0, .register⟩, ⟨0, .acquire ⟨.lock, 0, 0⟩⟩, ⟨0, .acquire ⟨.lock, 1, 0⟩⟩] ++
    List.replicate 4 ⟨0, .run⟩

/-- Then it locks 1 again. -/
def innerAgain : List Act :=
  nested ++ ⟨0, .acquire ⟨.lock, 1, 0⟩⟩ :: List.replicate 4 ⟨0, .run⟩

/-- Then it locks 0 again. -/
def outerAgain : List Act :=
  nested ++ ⟨0, .acquire ⟨.lock, 0, 0⟩⟩ :: List.replicate 7 ⟨0, .run⟩

theorem known_reachable {as : List Act} {s : State}
    (h : Runs.execBy system known initial as = some s) :
    Runs.ReachableBy system (fun s a => (activity s).NewUp id a.tid a.move ∧
      (activity s).ReacquiresKnown s.graph.E a.tid a.move) s :=
  Runs.ReachableBy.execBy (fun _ _ hg =>
    have hg := Bool.and_eq_true_iff.mp hg
    ⟨newUp_up hg.1, reacquiresKnown_known hg.2⟩) .init h

theorem nested_runs : (Runs.execBy system known initial nested).isSome = true := by
  decide +kernel

theorem innerAgain_runs : (Runs.execBy system known initial innerAgain).isSome = true := by
  decide +kernel

theorem outerAgain_runs : (Runs.execBy system newUp initial outerAgain).isSome = true := by
  decide +kernel

end GlobalBackend

namespace Backends

/-- **Re-acquiring a mutex adds nothing** exactly when every other held lock is a
recorded predecessor of it; and where all re-acquisitions are such, threads that take
new locks in one order are never reported. -/
theorem reacquire_adds_nothing (cfg : RbBackend.Config) (t : Nat) (c : Call) {β : Type}
    [Preorder β] (rank : Nat → β) :
    (∀ s, Runs.Reachable GlobalBackend.system s → c.lockSlot ∈ s.held t →
      ((∀ u v, (s.graph.onAcquire s.lockSlotCount (s.held t) c.lockSlot
          ⟨some t, c.acquirePc⟩).1.edge u v = s.graph.edge u v) ↔
        ∀ u, u ∈ s.held t → u ≠ c.lockSlot → s.graph.edge u c.lockSlot = true)) ∧
    (∀ s, Runs.Reachable (RbBackend.system cfg) s → c.lockSlot ∈ s.held t →
      (RbBackend.onAcquire s t c = none ↔
        ∀ u, u ∈ s.held t → u ≠ c.lockSlot → s.graph.edge u c.lockSlot = true)) ∧
    (∀ s, Runs.ReachableBy GlobalBackend.system (fun s a =>
        (GlobalBackend.activity s).NewUp rank a.tid a.move ∧
          (GlobalBackend.activity s).ReacquiresKnown s.graph.E a.tid a.move) s →
      s.reports = []) ∧
    (∀ s, Runs.ReachableBy (RbBackend.system cfg) (fun s a =>
        (RbBackend.activity s).NewUp rank a.mover.1 a.mover.2 ∧
          (RbBackend.activity s).ReacquiresKnown s.graph.E a.mover.1 a.mover.2) s →
      s.reports = []) :=
  ⟨fun _ h hc => GlobalBackend.onAcquire_adds_nothing h hc _,
    fun _ h _ => RbBackend.onAcquire_eq_none h,
    fun _ h => GlobalBackend.recorder.no_report_of_known h,
    fun _ h => (RbBackend.recorder cfg).no_report_of_known h⟩

theorem reacquire_adds_nothing_inner :
    (∃ s, Runs.execBy GlobalBackend.system GlobalBackend.known GlobalBackend.initial
        GlobalBackend.nested = some s ∧ s.held 0 = [0, 1] ∧
      ∀ u v, (s.graph.onAcquire s.lockSlotCount (s.held 0) 1 ⟨some 0, 0⟩).1.edge u v =
        s.graph.edge u v) ∧
    (∃ s, RbBackend.execLegs ⟨false, true⟩ RbBackend.known RbBackend.initial
        RbBackend.nested = some s ∧ s.held 0 = [0, 1] ∧
      RbBackend.onAcquire s 0 ⟨.lock, 1, 7⟩ = none) ∧
    (∃ s, Runs.execBy GlobalBackend.system GlobalBackend.known GlobalBackend.initial
        GlobalBackend.innerAgain = some s ∧ s.held 0 = [0, 1, 1] ∧ s.reports = []) ∧
    (∃ s, RbBackend.execLegs ⟨false, true⟩ RbBackend.known RbBackend.initial
        RbBackend.innerAgain = some s ∧ s.held 0 = [0, 1, 1] ∧ s.reports = []) := by
  have h₁ := (Option.some_get GlobalBackend.nested_runs).symm
  have h₂ := (Option.some_get RbBackend.nested_runs).symm
  have h₃ := (Option.some_get GlobalBackend.innerAgain_runs).symm
  have h₄ := (Option.some_get RbBackend.innerAgain_runs).symm
  obtain ⟨hglobal, -, hruns, -⟩ :=
    reacquire_adds_nothing ⟨false, true⟩ 0 ⟨.lock, 1, 0⟩ (id : Nat → Nat)
  obtain ⟨-, hrb, -, hruns'⟩ :=
    reacquire_adds_nothing ⟨false, true⟩ 0 ⟨.lock, 1, 7⟩ (id : Nat → Nat)
  refine ⟨⟨_, h₁, by decide +kernel, ?_⟩, ⟨_, h₂, by decide +kernel, ?_⟩,
    ⟨_, h₃, by decide +kernel, hruns _ ?_⟩, ⟨_, h₄, by decide +kernel, hruns' _ ?_⟩⟩
  · have hr := (GlobalBackend.known_reachable h₁).reachable
    exact (hglobal _ hr (by decide +kernel)).mpr (by decide +kernel)
  · have hr := (RbBackend.known_reachable h₂).reachable
    exact (hrb _ hr (by decide +kernel)).mpr (by decide +kernel)
  · exact GlobalBackend.known_reachable h₃
  · exact RbBackend.known_reachable h₄

/-- **A re-acquisition is reported**, by both backends, though one thread takes new
locks in one order. -/
theorem reacquire_reported :
    (∃ s, Runs.ReachableBy GlobalBackend.system
        (fun s a => (GlobalBackend.activity s).NewUp id a.tid a.move) s ∧
      s.graph.edge 1 0 = true ∧ s.reports ≠ []) ∧
    (∃ s, Runs.ReachableBy (RbBackend.system ⟨false, true⟩)
        (fun s a => (RbBackend.activity s).NewUp id a.mover.1 a.mover.2) s ∧
      s.graph.edge 1 0 = true ∧ s.reports ≠ []) := by
  have hg := (Option.some_get GlobalBackend.outerAgain_runs).symm
  have hr := (Option.some_get RbBackend.outerAgain_runs).symm
  have hg' := Runs.ReachableBy.execBy (fun _ _ => newUp_up) .init hg
  have hr' := (RbBackend.execLegs_reachable (fun _ _ => rfl) .init hr).mono fun _ _ => newUp_up
  exact ⟨⟨_, hg', by decide +kernel⟩, ⟨_, hr', by decide +kernel⟩⟩

end Backends

end ScaleLockDep
