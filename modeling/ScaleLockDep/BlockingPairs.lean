import ScaleLockDep.Recorders

/-!
# Acquisitions that cannot block

A successful `pthread_mutex_trylock` goes through the same hook as
`pthread_mutex_lock`, and gives the same edges.

* `reports_block`: in both backends, for every run in which no trylock gives a new
  pair, every edge and every report comes from acquisitions that could have blocked;
* `tried_inversion_reported`: an inversion through a trylock is reported.
-/

namespace ScaleLockDep

open Cycles Relation

/-! ## Conditions on a call, computed -/

/-- A trylock has its pairs recorded. -/
def triesKnown (A : Activity) (edge : Nat → Nat → Bool) (t : Nat) : Move → Bool
  | .acquire ⟨.trylock, v, _⟩ => A.othersAll t v fun u => edge u v
  | _ => true

/-- A lock is above every other lock the thread holds. -/
def locksUp (A : Activity) (t : Nat) : Move → Bool
  | .acquire ⟨.lock, v, _⟩ => A.othersAll t v fun u => u < v
  | _ => true

variable {A : Activity} {edge : Nat → Nat → Bool} {t : Nat} {mv : Move}

theorem triesKnown_known (h : triesKnown A edge t mv = true) {c : Call} (hmv : mv = .acquire c)
    (hapi : c.api = .trylock) : ∀ u, u ∈ A.held t → u ≠ c.lockSlot → edge u c.lockSlot = true := by
  obtain ⟨api, v, pc⟩ := c
  subst hmv hapi
  exact Activity.othersAll_iff.mp h

theorem locksUp_up (h : locksUp A t mv = true) : A.AcquiresUp (· = .lock) id t mv := by
  rintro ⟨api, v, pc⟩ rfl rfl u hu hne
  exact of_decide_eq_true (Activity.othersAll_iff.mp h u hu hne)

namespace GlobalBackend

def tries (s : State) (a : Act) : Bool := triesKnown (activity s) s.graph.edge a.tid a.move

def up (s : State) (a : Act) : Bool := locksUp (activity s) a.tid a.move

/-- After the inversion thread 0 locks 0 and trylocks 1. -/
def triedAgain : List Act :=
  inverted ++ [⟨0, .acquire ⟨.lock, 0, 0⟩⟩, ⟨0, .acquire ⟨.trylock, 1, 0⟩⟩] ++
    List.replicate 3 ⟨0, .run⟩

/-- Thread 0 locks 0 then 1, thread 1 locks 1 and trylocks 0. -/
def triedInversion : List Act :=
  [⟨0, .register⟩, ⟨0, .register⟩] ++ lockPair 0 0 1 4 ++
    [⟨1, .acquire ⟨.lock, 1, 0⟩⟩, ⟨1, .acquire ⟨.trylock, 0, 0⟩⟩] ++ List.replicate 5 ⟨1, .run⟩

theorem triedAgain_runs : (Runs.execBy system tries initial triedAgain).isSome = true := by
  decide +kernel

theorem triedInversion_runs : (Runs.execBy system up initial triedInversion).isSome = true := by
  decide +kernel

end GlobalBackend

namespace RbBackend

def tries (s : State) (a : Act) : Bool :=
  triesKnown (activity s) s.graph.edge a.mover.1 a.mover.2

def up (s : State) (a : Act) : Bool := locksUp (activity s) a.mover.1 a.mover.2

/-- After the inversion thread 0 locks 0 and trylocks 1. -/
def triedAgain : List (List Act) :=
  inverted.take 2 ++ [[.thread 0 (.acquire ⟨.lock, 0, 7⟩), .thread 0 (.acquire ⟨.trylock, 1, 7⟩)] ++
    List.replicate 6 (.thread 0 .run)]

/-- Thread 0 locks 0 then 1, thread 1 locks 1 and trylocks 0, and the worker records
both edges. -/
def triedInversion : List (List Act) :=
  [[.thread 0 .register, .thread 0 .register] ++ lockPair 0 0 1 26 ++
      [.thread 1 (.acquire ⟨.lock, 1, 7⟩), .thread 1 (.acquire ⟨.trylock, 0, 7⟩)] ++
      List.replicate 19 (.thread 1 .run) ++ List.replicate 12 (.worker 0),
    List.replicate 8 (.worker 0)]

theorem triedAgain_runs :
    (execLegs ⟨false, true⟩ tries initial triedAgain).isSome = true := by decide +kernel

theorem triedInversion_runs :
    (execLegs ⟨false, true⟩ up initial triedInversion).isSome = true := by decide +kernel

end RbBackend

namespace Backends

/-- **Edges and reports come from acquisitions that could have blocked**, in every run
in which every trylock of `v` while `u ≠ v` is held finds `(u, v)` a blocking pair. -/
theorem reports_block (cfg : RbBackend.Config) :
    (∀ s, Runs.ReachableBy GlobalBackend.system
        (fun s a => (GlobalBackend.activity s).TriesBlocked a.tid a.move) s →
      (∀ u v, s.graph.edge u v = true → (GlobalBackend.activity s).BlockingPair u v) ∧
      (s.reports ≠ [] → ∃ u, TransGen (GlobalBackend.activity s).BlockingPair u u)) ∧
    (∀ s, Runs.ReachableBy (RbBackend.system cfg)
        (fun s a => (RbBackend.activity s).TriesBlocked a.mover.1 a.mover.2) s →
      (∀ u v, s.graph.edge u v = true → (RbBackend.activity s).BlockingPair u v) ∧
      (s.reports ≠ [] → ∃ u, TransGen (RbBackend.activity s).BlockingPair u u)) :=
  ⟨fun _ h => ⟨fun _ _ => GlobalBackend.recorder.edge_blocking h,
      GlobalBackend.recorder.report_blocking h⟩,
    fun _ h => ⟨fun _ _ => (RbBackend.recorder cfg).edge_blocking h,
      (RbBackend.recorder cfg).report_blocking h⟩⟩

theorem reports_block_tried :
    (∃ s, Runs.execBy GlobalBackend.system GlobalBackend.tries GlobalBackend.initial
        GlobalBackend.triedAgain = some s ∧
      s.reports ≠ [] ∧ ∃ u, TransGen (GlobalBackend.activity s).BlockingPair u u) ∧
    (∃ s, RbBackend.execLegs ⟨false, true⟩ RbBackend.tries RbBackend.initial
        RbBackend.triedAgain = some s ∧
      s.reports ≠ [] ∧ ∃ u, TransGen (RbBackend.activity s).BlockingPair u u) := by
  have hg := (Option.some_get GlobalBackend.triedAgain_runs).symm
  have hr := (Option.some_get RbBackend.triedAgain_runs).symm
  obtain ⟨hglobal, hrb⟩ := reports_block ⟨false, true⟩
  refine ⟨⟨_, hg, by decide +kernel, ?_⟩, ⟨_, hr, by decide +kernel, ?_⟩⟩
  · refine (hglobal _ (GlobalBackend.recorder.tries_of_known ?_)).2 (by decide +kernel)
    exact Runs.ReachableBy.execBy (fun _ _ h _ => triesKnown_known h) .init hg
  · refine (hrb _ ((RbBackend.recorder ⟨false, true⟩).tries_of_known ?_)).2 (by decide +kernel)
    exact (RbBackend.execLegs_reachable (fun _ _ => rfl) .init hr).mono
      fun _ _ h _ => triesKnown_known h

/-- **An inversion through a trylock is reported**, by both backends, though the
acquisitions that could have blocked go up in one order. -/
theorem tried_inversion_reported :
    (∃ s, Runs.execBy GlobalBackend.system GlobalBackend.up GlobalBackend.initial
        GlobalBackend.triedInversion = some s ∧
      s.reports ≠ [] ∧ Acyclic (GlobalBackend.activity s).BlockingPair) ∧
    (∃ s, RbBackend.execLegs ⟨false, true⟩ RbBackend.up RbBackend.initial
        RbBackend.triedInversion = some s ∧
      s.reports ≠ [] ∧ Acyclic (RbBackend.activity s).BlockingPair) := by
  have hg := (Option.some_get GlobalBackend.triedInversion_runs).symm
  have hr := (Option.some_get RbBackend.triedInversion_runs).symm
  refine ⟨⟨_, hg, by decide +kernel, ?_⟩, ⟨_, hr, by decide +kernel, ?_⟩⟩
  · exact acyclic_of_lt id (GlobalBackend.recorder.ordered
      (Runs.ReachableBy.execBy (fun _ _ => locksUp_up) .init hg))
  · exact acyclic_of_lt id ((RbBackend.recorder _).ordered
      ((RbBackend.execLegs_reachable (fun _ _ => rfl) .init hr).mono fun _ _ => locksUp_up))

end Backends

end ScaleLockDep
