import ScaleLockDep.GlobalExactness
import ScaleLockDep.RbProgress

/-!
# Acquisitions of known pairs

An acquisition is covered when every pair it stands for has its edge at its start.  In both
backends such acquisitions only read what is shared, whatever they interleave with.

* `GlobalBackend.Step.local`, `RbBackend.ThreadStep.local`: a step of a covered acquisition stays
  out of the sections under `g_meta_lock`, of the rings and of the wakeups;
* `GlobalBackend.global_steady_state`, `RbBackend.rb_steady_state`: such threads only read; when
  all acquisitions are covered, nothing that is shared changes any more.
-/

namespace ScaleLockDep

namespace GlobalBackend

open ThreadState State DependencyGraph

/-- An acquisition that starts has all its edges. -/
def Covered (s : State) (t : Nat) (mv : Move) : Prop :=
  ∀ c, mv = .acquire c → ∀ u, u ∈ s.held t → u ≠ c.lockSlot → s.graph.E u c.lockSlot

/-- The thread is outside, or in an acquisition that finds no missing edge. -/
def Local (s : State) (t : Nat) : Prop :=
  match (s.thr t).pc with
  | .outside | .push _ => True
  | .scan c _ => ∀ u, u ∈ s.held t → u ≠ c.lockSlot → s.graph.E u c.lockSlot
  | .add .. | .report .. => False

/-- The steps to the end of the acquisition. -/
def localSteps (s : State) (t : Nat) : Nat :=
  match (s.thr t).pc with
  | .scan _ i => (s.held t).length - i + 2
  | .push _ => 1
  | _ => 0

variable {s₀ s s' : State} {t : Nat} {mv : Move} {T : Nat → Prop}

theorem local_outside (h : (s.thr t).pc = .outside) : Local s t := by
  unfold Local
  rw [h]
  trivial

/-- **A step of a covered acquisition** leaves the graph alone. -/
theorem Step.local (I : GraphInv s) (h : Step s t mv s') (hc : Covered s t mv) (hl : Local s t) :
    Local s' t ∧ s'.graph = s.graph ∧ s'.reports = s.reports := by
  unfold Local at hl
  cases h with
  | register h | overflow c h =>
    refine ⟨?_, rfl, rfl⟩
    unfold Local
    exact hl
  | top c h hlt hnil hmv | release l h hlt | push c h ts hts =>
    exact ⟨local_outside (by rw [complete_pc, if_pos rfl]), rfl, rfl⟩
  | nested c h hlt hnil hmv =>
    refine ⟨?_, rfl, rfl⟩
    unfold Local
    rw [setPc_pc, if_pos rfl]
    exact fun u hu => hc c hmv u (by rwa [setPc_held] at hu)
  | known c i h u hu hk =>
    rw [h] at hl
    refine ⟨?_, rfl, rfl⟩
    unfold Local
    rw [setPc_pc, if_pos rfl]
    exact fun u hu => hl u (by rwa [setPc_held] at hu)
  | unknown c i h u hu hne hk =>
    rw [h] at hl
    have hE : s.graph.edge u c.lockSlot = true := hl u (List.mem_of_getElem? hu) hne
    rw [I.wf.summary, hE] at hk
    cases hk
  | toPush c i h hu =>
    refine ⟨?_, rfl, rfl⟩
    unfold Local
    rw [setPc_pc, if_pos rfl]
    trivial
  | same c i h hu | insert c i h u hu hne r hr | report c i x h =>
    rw [h] at hl
    exact hl.elim

/-- A step of a thread that goes on brings it nearer to its return. -/
theorem localSteps_run (hl : Local s t) (h : runStep s t = some s') :
    s'.exited = true ∨ localSteps s' t < localSteps s t := by
  unfold Local at hl
  unfold runStep at h
  cases hpc : (s.thr t).pc with
  | outside =>
    simp only [hpc] at h
    cases h
  | scan c i =>
    simp only [hpc] at h
    right
    have hnow : localSteps s t = (s.held t).length - i + 2 := by
      unfold localSteps
      rw [hpc]
    rw [hnow]
    split at h
    · cases h
      unfold localSteps
      rw [setPc_pc, if_pos rfl]
      exact Nat.lt_add_left _ Nat.one_lt_two
    · rename_i u hu
      have hi : i < (s.held t).length := (List.getElem?_eq_some_iff.mp hu).1
      split at h
      · cases h
        unfold localSteps
        rw [setPc_pc, if_pos rfl]
        simp only [setPc_held]
        omega
      · split at h
        · cases h
          unfold localSteps
          rw [setPc_pc, if_pos rfl]
          simp only [setPc_held]
          omega
        · cases h
          unfold localSteps
          rw [setPc_pc, if_pos rfl]
          exact Nat.zero_lt_succ _
  | push c =>
    simp only [hpc] at h
    split at h
    · cases h
      exact Or.inl rfl
    · cases h
      right
      unfold localSteps
      rw [complete_pc, if_pos rfl, hpc]
      exact Nat.zero_lt_one
  | add c i | report c i x =>
    rw [hpc] at hl
    exact hl.elim

theorem outside_of_localSteps (hl : Local s t) (h : localSteps s t = 0) :
    (s.thr t).pc = .outside := by
  unfold Local at hl
  unfold localSteps at h
  cases hpc : (s.thr t).pc with
  | outside => rfl
  | scan c i | push c =>
    rw [hpc] at h
    cases h
  | add c i | report c i x =>
    rw [hpc] at hl
    exact hl.elim

/-- A thread in an acquisition can always go on. -/
theorem Local.enabled (hl : Local s t) (hin : (s.thr t).pc ≠ .outside) :
    ∃ s', runStep s t = some s' := by
  unfold Local at hl
  unfold runStep
  cases hpc : (s.thr t).pc with
  | outside => exact absurd hpc hin
  | scan c i =>
    dsimp only
    split
    · exact ⟨_, rfl⟩
    · split
      · exact ⟨_, rfl⟩
      · split <;> exact ⟨_, rfl⟩
  | push c =>
    dsimp only
    split <;> exact ⟨_, rfl⟩
  | add c i | report c i x =>
    rw [hpc] at hl
    exact hl.elim

theorem step_thread (hex : s.exited = false) (ht : t < maxThreadSlots) :
    step s ⟨t, .run⟩ = runStep s t := by
  simp [step, hex, ht]

theorem Local.other {u : Nat} (I : GraphInv s) (h : Step s u mv s') (hne : t ≠ u)
    (hl : Local s t) : Local s' t := by
  unfold Local at hl ⊢
  rw [thr_other h hne, held_other h hne]
  cases hpc : (s.thr t).pc with
  | scan c i =>
    rw [hpc] at hl
    exact fun x hx hxc => edge_step I h (hl x hx hxc)
  | outside | push c => trivial
  | add c i | report c i x =>
    rw [hpc] at hl
    exact hl.elim

/-- Every acquisition that a thread of `T` starts is covered. -/
def CoveredBy (T : Nat → Prop) (s : State) (a : Act) : Prop := T a.tid → Covered s a.tid a.move

theorem reachable_from (h₀ : Runs.Reachable system s₀) {G : State → Act → Prop}
    (h : Runs.ReachableBy ⟨s₀, step⟩ G s) : Runs.Reachable system s := by
  induction h with
  | init => exact h₀
  | step _ _ hs ih => exact .step ih trivial hs

theorem covered_local (h₀ : Runs.Reachable system s₀)
    (hout : ∀ t, T t → (s₀.thr t).pc = .outside)
    (h : Runs.ReachableBy ⟨s₀, step⟩ (CoveredBy T) s) (ht : T t) : Local s t := by
  induction h with
  | init => exact local_outside (hout t ht)
  | @step s s' a hr hg hs ih =>
    have I := graphInv (reachable_from h₀ hr)
    have hstep := (step_cases hs).2.2
    by_cases hown : t = a.tid
    · subst hown
      exact (hstep.local I (hg ht) ih).1
    · exact ih.other I hstep hown

/-- What a thread with covered acquisitions does. -/
structure OnlyReads (s : State) (t : Nat) : Prop where
  /-- it takes no `g_meta_lock` -/
  unlocked : ∀ c i, (s.thr t).pc ≠ .add c i
  bounded : localSteps s t ≤ (s.held t).length + 2
  returned : localSteps s t = 0 → (s.thr t).pc = .outside
  enabled : s.exited = false → t < maxThreadSlots → (s.thr t).pc ≠ .outside →
    ∃ s', step s ⟨t, .run⟩ = some s'
  goesOn : ∀ s', step s ⟨t, .run⟩ = some s' → s'.graph = s.graph ∧ s'.reports = s.reports ∧
    (s'.exited = true ∨ localSteps s' t < localSteps s t)

/-- **Covered acquisitions only read the graph** and return, without `g_meta_lock` and in one step
for each held lock and two more, whatever the others do.  Once all of them are covered, the graph
stays as it is. -/
theorem global_steady_state (h₀ : Runs.Reachable system s₀)
    (hout : ∀ t, T t → (s₀.thr t).pc = .outside)
    (h : Runs.ReachableBy ⟨s₀, step⟩ (CoveredBy T) s) :
    (∀ t, T t → OnlyReads s t) ∧
      ((∀ t, t < maxThreadSlots → T t) → s.graph = s₀.graph ∧ s.reports = s₀.reports) := by
  constructor
  · intro t ht
    have hl := covered_local h₀ hout h ht
    refine ⟨fun c i hpc => ?_, ?_, outside_of_localSteps hl, fun hex htid hin => ?_,
      fun s' hs => ?_⟩
    · unfold Local at hl
      rw [hpc] at hl
      exact hl
    · unfold localSteps
      split <;> omega
    · rw [step_thread hex htid]
      exact hl.enabled hin
    · have hs₁ : system.step s ⟨t, .run⟩ = some s' := hs
      obtain ⟨hex, htid, hstep⟩ := step_cases hs₁
      have hrun : runStep s t = some s' := (step_thread hex htid).symm.trans hs
      have hnot : Covered s t .run := fun c hc => by cases hc
      obtain ⟨-, hg, hr⟩ := hstep.local (graphInv (reachable_from h₀ h)) hnot hl
      exact ⟨hg, hr, localSteps_run hl hrun⟩
  · intro hall
    induction h with
    | init => exact ⟨rfl, rfl⟩
    | @step s s' a hr hg hs ih =>
      obtain ⟨-, htid, hstep⟩ := step_cases hs
      have hl := covered_local h₀ hout hr (hall a.tid htid)
      obtain ⟨-, hg', hr'⟩ := hstep.local (graphInv (reachable_from h₀ hr)) (hg (hall _ htid)) hl
      exact ⟨hg'.trans ih.1, hr'.trans ih.2⟩

/-! ## Known locks locked again -/

def covered (s : State) (a : Act) : Bool :=
  match a.move with
  | .acquire c => (s.held a.tid).all fun u => decide (u = c.lockSlot) || s.graph.edge u c.lockSlot
  | _ => true

theorem covered_spec {a : Act} (h : covered s a = true) (T : Nat → Prop) : CoveredBy T s a := by
  intro _ c hc u hu hne
  simp only [covered, hc] at h
  have hu := List.all_eq_true.mp h u hu
  rw [Bool.or_eq_true, decide_eq_true_eq] at hu
  exact hu.resolve_left hne

/-- After the inversion both threads lock in their order again. -/
def invertedAgain : List Act := lockPair 0 0 1 3 ++ lockPair 1 1 0 3

theorem invertedAgain_runs : (Runs.execBy ⟨(Runs.exec system initial inverted).get inverted_runs,
    step⟩ covered ((Runs.exec system initial inverted).get inverted_runs)
    invertedAgain).isSome = true := by decide

theorem global_steady_state_inverted : ∃ s₀ s : State, s₀.reports ≠ [] ∧ (s.thr 1).hist.length = 8 ∧
    s.graph.edge 1 0 = true ∧ s.reports = s₀.reports := by
  have h₀ : Runs.Reachable system ((Runs.exec system initial inverted).get inverted_runs) :=
    Runs.ReachableBy.exec .init (Option.some_get inverted_runs).symm
  have h : Runs.ReachableBy ⟨(Runs.exec system initial inverted).get inverted_runs, step⟩
      (CoveredBy (· < maxThreadSlots)) _ :=
    Runs.ReachableBy.execBy (fun _ _ hc => covered_spec hc _) .init
      (Option.some_get invertedAgain_runs).symm
  have hsteady := (global_steady_state h₀ (by decide +kernel) h).2 fun _ ht => ht
  exact ⟨_, _, by decide +kernel, by decide +kernel, by decide +kernel, hsteady.2⟩

end GlobalBackend

namespace RbBackend

open ThreadState State RbGraph

/-- An acquisition that starts has all its edges. -/
def Covered (s : State) : Act → Prop
  | .thread t (.acquire c) => ∀ u, u ∈ s.held t → u ≠ c.lockSlot → s.graph.E u c.lockSlot
  | _ => True

/-- The thread is outside, or in an acquisition that finds no missing edge. -/
def Local (s : State) (t : Nat) : Prop :=
  match (s.thr t).pc with
  | .outside | .push _ => True
  | .collect c bits _ => (∀ u, bits.test u = true → u = c.lockSlot) ∧
      ∀ u, u ∈ s.held t → u ≠ c.lockSlot → s.graph.E u c.lockSlot
  | .ensure .. | .enqueue .. | .ring .. | .exchange .. | .post .. => False

/-- The steps to the end of the acquisition. -/
def localSteps : Pc → Nat
  | .collect _ _ w => graphWords - w + 2
  | .push _ => 1
  | _ => 0

/-- What the threads share with each other and the worker, without the registry of the locks. -/
structure Shared where
  graph : RbGraph
  ring : Nat → Ring
  pendingEdgeInfo : Nat → Nat → EdgeInfo
  workerState : WorkerState
  shouldStop : Bool
  workPending : Bool
  sem : Nat
  worker : Nat → WorkerPc
  created : Nat
  shutdown : ShutdownPc
  reports : List Report

def State.shared (s : State) : Shared :=
  ⟨s.graph, s.ring, s.pendingEdgeInfo, s.workerState, s.shouldStop, s.workPending, s.sem,
    s.worker, s.created, s.shutdown, s.reports⟩

variable {cfg : Config} {s s' : State} {t : Nat} {mv : Move}

theorem local_outside (h : (s.thr t).pc = .outside) : Local s t := by
  unfold Local
  rw [h]
  trivial

/-- What the next word of the snapshot leaves is the lock itself. -/
theorem local_load {c : Call} {bits : WordSet} {w : Nat} (E : EdgeInv s)
    (M : Mirrors (s.thr t).tls) (hbits : ∀ u, bits.test u = true → u = c.lockSlot)
    (hcov : ∀ u, u ∈ s.held t → u ≠ c.lockSlot → s.graph.E u c.lockSlot) {u : Nat}
    (hu : WordSet.test (Function.update bits w ((s.thr t).tls.heldLockBits w &&&
      ~~~ s.graph.predecessorSnapshot c.lockSlot w)) u = true) : u = c.lockSlot := by
  rw [test_update_word] at hu
  split at hu
  · rw [Bool.and_eq_true, Bool.not_eq_true'] at hu
    by_contra hne
    have hheld : u ∈ s.held t := by
      rw [M.bits] at hu
      exact of_decide_eq_true hu.1
    have hE : s.graph.edge u c.lockSlot = true := hcov u hheld hne
    rw [E.wf.snapshot, hE] at hu
    cases hu.2
  · exact hbits u hu

/-- **A step of a covered acquisition** touches nothing that is shared. -/
theorem ThreadStep.local (T : ThreadOk cfg s t) (E : EdgeInv s) (h : ThreadStep cfg s t mv s')
    (hc : Covered s (.thread t mv)) (hl : Local s t) : Local s' t ∧ s'.shared = s.shared := by
  unfold Local at hl
  cases h with
  | register h | overflow c h =>
    refine ⟨?_, rfl⟩
    unfold Local
    exact hl
  | top c h hlt hnil hmv | release l h hlt | push c h ts hts =>
    exact ⟨local_outside (by rw [complete_pc, if_pos rfl]), rfl⟩
  | nested c h hlt hnil hmv =>
    subst hmv
    refine ⟨?_, rfl⟩
    unfold Local
    rw [setPc_at]
    refine ⟨fun u hu => ?_, fun u hu => hc u (by rwa [setPc_held] at hu)⟩
    rw [WordSet.test_empty] at hu
    cases hu
  | load c bits w h hw =>
    rw [h] at hl
    refine ⟨?_, rfl⟩
    unfold Local
    rw [setPc_at]
    exact ⟨fun u hu => local_load E T.mirrors hl.1 hl.2 hu,
      fun u hu => hl.2 u (by rwa [setPc_held] at hu)⟩
  | unknown c bits w h hw hb =>
    rw [h] at hl
    obtain ⟨u, -, hu⟩ := WordSet.hasAnyBits_iff.mp hb
    rw [WordSet.test_clear, Bool.and_eq_true, decide_eq_true_eq] at hu
    exact absurd (hl.1 u hu.1) hu.2
  | known c bits w h hw hb =>
    refine ⟨?_, rfl⟩
    unfold Local
    rw [setPc_at]
    trivial
  | started c e p h hp hs | ensure c e p q h hp hq | claim c e h hs | semInit c e h
  | storeStop c e h | storePending c e h | create c e h | storeState c e h
  | enqueue c e r h hr hu hp | ring c e r h hr hu hp | full c e r h hr hu hp
  | publish c e x r h hr hx hacc hdel hp | signalled c e why h hw | exchange c e why h hw
  | post c e why h =>
    rw [h] at hl
    exact hl.elim

/-- A step of a thread that goes on brings it nearer to its return. -/
theorem localSteps_run (hl : Local s t) (h : threadRun cfg s t = some s') :
    s'.exited = true ∨ localSteps (s'.thr t).pc < localSteps (s.thr t).pc := by
  unfold Local at hl
  unfold threadRun at h
  cases hpc : (s.thr t).pc with
  | outside =>
    simp only [hpc] at h
    cases h
  | collect c bits w =>
    simp only [hpc] at h
    right
    split at h
    · cases h
      rw [setPc_at]
      simp only [localSteps]
      omega
    · split at h
      all_goals
        cases h
        rw [setPc_at]
        simp only [localSteps]
        omega
  | push c =>
    simp only [hpc] at h
    split at h
    · cases h
      exact Or.inl rfl
    · cases h
      right
      rw [complete_pc, if_pos rfl]
      exact Nat.zero_lt_one
  | ensure c e p | enqueue c e | ring c e | exchange c e why | post c e why =>
    rw [hpc] at hl
    exact hl.elim

theorem outside_of_localSteps (hl : Local s t) (h : localSteps (s.thr t).pc = 0) :
    (s.thr t).pc = .outside := by
  unfold Local at hl
  cases hpc : (s.thr t).pc with
  | outside => rfl
  | collect c bits w | push c =>
    rw [hpc] at h
    cases h
  | ensure c e p | enqueue c e | ring c e | exchange c e why | post c e why =>
    rw [hpc] at hl
    exact hl.elim

/-- Nothing the steps of the others do. -/
theorem Local.other {a : Act} (E : EdgeInv s) (h : Step cfg s a s') (hthr : s'.thr t = s.thr t)
    (hl : Local s t) : Local s' t := by
  unfold Local at hl ⊢
  have hheld : s'.held t = s.held t := by rw [State.held, hthr, State.held]
  rw [hthr, hheld]
  cases hpc : (s.thr t).pc with
  | collect c bits w =>
    rw [hpc] at hl
    exact ⟨hl.1, fun u hu hne => edge_step E h (hl.2 u hu hne)⟩
  | outside | push c => trivial
  | ensure c e p | enqueue c e | ring c e | exchange c e why | post c e why =>
    rw [hpc] at hl
    exact hl.elim

theorem thr_of_step {a : Act} (h : Step cfg s a s') (ht : ∀ mv, a ≠ .thread t mv) :
    s'.thr t = s.thr t := by
  cases h with
  | thread u mv hu h =>
    refine thr_other h ?_
    rintro rfl
    exact ht mv rfl
  | worker i h => rw [h.life.1]
  | shutdown h => cases h <;> rfl

theorem accepted_of_step {a : Act} (h : Step cfg s a s') (ht : ∀ mv, a ≠ .thread t mv) :
    (s'.ring t).accepted = (s.ring t).accepted := by
  cases h with
  | thread u mv hu h =>
    have hne : t ≠ u := by
      rintro rfl
      exact ht mv rfl
    rw [ring_other h hne]
  | worker i h => exact accepted_worker h
  | shutdown h => cases h <;> rfl

variable {s₀ : State} {T : Nat → Prop}

/-- Every acquisition that a thread of `T` starts is covered. -/
def CoveredBy (T : Nat → Prop) (s : State) (a : Act) : Prop :=
  ∀ t mv, a = .thread t mv → T t → Covered s a

theorem reachable_from (h₀ : Runs.Reachable (system cfg) s₀) {G : State → Act → Prop}
    (h : Runs.ReachableBy ⟨s₀, step cfg⟩ G s) : Runs.Reachable (system cfg) s := by
  induction h with
  | init => exact h₀
  | step _ _ hs ih => exact .step ih trivial hs

theorem covered_local (h₀ : Runs.Reachable (system cfg) s₀)
    (hout : ∀ t, T t → (s₀.thr t).pc = .outside)
    (h : Runs.ReachableBy ⟨s₀, step cfg⟩ (CoveredBy T) s) (ht : T t) :
    Local s t ∧ (s.ring t).accepted = (s₀.ring t).accepted := by
  induction h with
  | init => exact ⟨local_outside (hout t ht), rfl⟩
  | @step s s' a hr hg hs ih =>
    have hreach := reachable_from h₀ hr
    have E := edgeInv hreach
    have h := (step_cases hs).2
    by_cases hown : ∃ mv, a = .thread t mv
    · obtain ⟨mv, rfl⟩ := hown
      cases h with
      | thread _ _ hu h =>
        obtain ⟨hl, hshared⟩ := h.local (threadOk hreach t) E (hg t mv rfl ht) ih.1
        have hring : s'.ring = s.ring := congrArg Shared.ring hshared
        exact ⟨hl, by rw [hring]; exact ih.2⟩
    · have hne : ∀ mv, a ≠ .thread t mv := fun mv ha => hown ⟨mv, ha⟩
      exact ⟨ih.1.other E h (thr_of_step h hne), (accepted_of_step h hne).trans ih.2⟩

theorem no_worker_step {i : Nat} (L : LifeInv s) (h : (∀ j, s.worker j = .exited) ∨ Asleep s) :
    ¬ WorkerStep cfg s i s' := by
  intro hstep
  have halive := hstep.life.2.2.2.2.1
  rcases h with hdead | ⟨hw, hsem⟩
  · exact halive (hdead i)
  · obtain rfl : i = 0 := L.one halive (by rw [hw]; simp)
    cases hstep with
    | wait h hne => exact hne hsem
    | read second t b r a h | next second t b r head h | pop second t b r e h
    | drained second t b h | processed second b h | pick second b v rest h
    | picked second b v rest h | insert second b v u todo rest h | storeIdle h | storeBusy h
    | stop h | noStop h | scanNext t h | scanFound t h | scanDone t h =>
      rw [hw] at h
      cases h

theorem asleep_congr (hshared : s'.shared = s.shared)
    (h : (∀ j, s.worker j = .exited) ∨ Asleep s) : (∀ j, s'.worker j = .exited) ∨ Asleep s' := by
  have hworker : s'.worker = s.worker := congrArg Shared.worker hshared
  have hsem : s'.sem = s.sem := congrArg Shared.sem hshared
  unfold Asleep
  rwa [hworker, hsem]

theorem localSteps_le (pc : Pc) : localSteps pc ≤ graphWords + 2 := by
  cases pc with
  | collect c bits w => exact Nat.add_le_add_right (Nat.sub_le _ _) 2
  | push c => exact Nat.le_add_left 1 _
  | _ => exact Nat.zero_le _

/-- What a thread with covered acquisitions does. -/
structure OnlyReads (cfg : Config) (s₀ s : State) (t : Nat) : Prop where
  /-- nothing goes into its ring -/
  accepted : (s.ring t).accepted = (s₀.ring t).accepted
  bounded : localSteps (s.thr t).pc ≤ graphWords + 2
  returned : localSteps (s.thr t).pc = 0 → (s.thr t).pc = .outside
  enabled : s.exited = false → t < maxThreadSlots → (s.thr t).pc ≠ .outside →
    ∃ s', step cfg s (.thread t .run) = some s'
  goesOn : ∀ s', step cfg s (.thread t .run) = some s' → s'.shared = s.shared ∧
    (s'.exited = true ∨ localSteps (s'.thr t).pc < localSteps (s.thr t).pc)

/-- **Covered acquisitions only read what is shared** and return, in at most `graphWords + 2` steps
of their thread, whatever the others do.  Once all of them are covered and the worker sleeps, nothing that is
shared changes before the shutdown. -/
theorem rb_steady_state (h₀ : Runs.Reachable (system cfg) s₀)
    (hout : ∀ t, T t → (s₀.thr t).pc = .outside)
    (h : Runs.ReachableBy ⟨s₀, step cfg⟩ (CoveredBy T) s) :
    (∀ t, T t → OnlyReads cfg s₀ s t) ∧
      ((∀ t, t < maxThreadSlots → T t) → (∀ i, s₀.worker i = .exited) ∨ Asleep s₀ →
        Runs.ReachableBy ⟨s₀, step cfg⟩ (fun s a => CoveredBy T s a ∧ a ≠ .shutdown) s →
          s.shared = s₀.shared) := by
  constructor
  · intro t ht
    obtain ⟨hl, hacc⟩ := covered_local h₀ hout h ht
    have hreach := reachable_from h₀ h
    refine ⟨hacc, localSteps_le _, outside_of_localSteps hl, fun hex htid hin => ?_, fun s' hs => ?_⟩
    · obtain ⟨s', hs'⟩ := run_enabled (threadOk hreach t) hin
      exact ⟨s', (step_thread hex htid).trans hs'⟩
    have hs₁ : (system cfg).step s (.thread t .run) = some s' := hs
    obtain ⟨hex, hstep⟩ := step_cases hs₁
    cases hstep with
    | thread _ _ hu hstep =>
      have hrun : threadRun cfg s t = some s' := by
        simpa [step, hex, hu, threadStep] using hs
      exact ⟨(hstep.local (threadOk hreach t) (edgeInv hreach) trivial hl).2,
        localSteps_run hl hrun⟩
  · intro hall hsleep hr
    induction hr with
    | init => rfl
    | @step s s' a hr hg hs ih =>
      have hmono : Runs.ReachableBy ⟨s₀, step cfg⟩ (CoveredBy T) s := hr.mono fun _ _ hg => hg.1
      have hshared := ih hmono
      have hreach := reachable_from h₀ hmono
      have hstep := (step_cases hs).2
      cases hstep with
      | thread t mv hu hstep =>
        have hl := (covered_local h₀ hout hmono (hall t hu)).1
        have hcov := hg.1 t mv rfl (hall t hu)
        have hown := hstep.local (threadOk hreach t) (edgeInv hreach) hcov hl
        exact hown.2.trans hshared
      | worker i hstep =>
        exact absurd hstep (no_worker_step (lifeInv hreach) (asleep_congr hshared hsleep))
      | shutdown hstep => exact absurd rfl hg.2

/-! ## Known locks locked again -/

def covered (s : State) : Act → Bool
  | .thread t (.acquire c) =>
      (s.held t).all fun u => decide (u = c.lockSlot) || s.graph.edge u c.lockSlot
  | .thread _ _ | .worker _ => true
  | .shutdown => false

theorem covered_spec {a : Act} (h : covered s a = true) (T : Nat → Prop) :
    CoveredBy T s a ∧ a ≠ .shutdown := by
  refine ⟨fun t mv ha _ => ?_, fun ha => by rw [ha] at h; cases h⟩
  subst ha
  cases mv with
  | acquire c =>
    intro u hu hne
    have hu := List.all_eq_true.mp h u hu
    rw [Bool.or_eq_true, decide_eq_true_eq] at hu
    exact hu.resolve_left hne
  | register | release | run => trivial

/-- Thread 0 locks 0 then 1, and the worker records it and goes to sleep. -/
def learnt : List (List Act) :=
  published ++ [List.replicate 3 (.thread 0 .run) ++ List.replicate 7 (.worker 0),
    List.replicate 5 (.worker 0), List.replicate 3 (.worker 0), List.replicate 3 (.worker 0)]

theorem learnt_runs : (after learnt).isSome = true := by decide +kernel

/-- Thread 1 locks 0 then 1. -/
def again : List Act :=
  [.thread 1 (.acquire ⟨.lock, 0, 0⟩), .thread 1 (.acquire ⟨.lock, 1, 0⟩)] ++
    List.replicate 6 (.thread 1 .run)

theorem again_runs : (Runs.execBy ⟨(after learnt).get learnt_runs, step ⟨false, false⟩⟩ covered
    ((after learnt).get learnt_runs) again).isSome = true := by decide +kernel


def sleeps : WorkerPc → Bool
  | .semWait => true
  | _ => false

theorem sleeps_spec {pc : WorkerPc} (h : sleeps pc = true) : pc = .semWait := by
  cases pc <;> first | rfl | cases h

theorem rb_steady_state_again : ∃ s₀ s : State, s₀.graph.edge 0 1 = true ∧
    (s.thr 1).hist = [.acquire .lock 0, .acquire .lock 1] ∧ s.shared = s₀.shared := by
  have h₀ := after_reachable (Option.some_get learnt_runs).symm
  have h : Runs.ReachableBy ⟨(after learnt).get learnt_runs, step ⟨false, false⟩⟩
      (fun s a => CoveredBy (· < maxThreadSlots) s a ∧ a ≠ .shutdown) _ :=
    Runs.ReachableBy.execBy (fun _ _ hc => covered_spec hc _) .init
      (Option.some_get again_runs).symm
  have hsteady := rb_steady_state h₀ (by decide +kernel) (h.mono fun _ _ hg => hg.1)
  have hsleep : Asleep ((after learnt).get learnt_runs) :=
    ⟨sleeps_spec (by decide +kernel), by decide +kernel⟩
  exact ⟨_, _, by decide +kernel, by decide +kernel,
    hsteady.2 (fun _ ht => ht) (Or.inr hsleep) h⟩

end RbBackend

end ScaleLockDep
