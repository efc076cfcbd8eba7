import ScaleLockDep.Completeness
import Mathlib.Tactic.IntervalCases

/-!
# Is every actual deadlock reported?

* `actual_deadlock_complete`: on a sequentially consistent memory, yes, and by
  the last waiter;
* `stored_waits_missed`: with the release stores of `hook.c` buffered, no: two
  threads can both walk before either wait is visible;
* `no_deadlock_of_flushed`: yes again in every run in which each wait is visible
  before the walk of its thread starts.
-/

namespace ScaleLockDep.Hooks

open ThreadState State

/-- All mutexes are normal. -/
def normalSetup (memory : MemoryModel) : Setup := ⟨memory, .global, fun _ => false⟩

/-! ## Sequentially consistent memory -/

theorem orderly_of_normal_sc {c : Setup} {s : State} (hsc : c.memory = .sc)
    (hn : ∀ m, c.recursive m = false) (h : Runs.Reachable (system c) s) :
    Runs.ReachableBy (system c) Orderly s := by
  induction h with
  | init => exact .init
  | step hr _ hs ih =>
    exact .step ih ⟨singleUnlock_of_normal hn (holdInv hr) hs, flushedBeforeWalk_of_sc _ hsc hr⟩ hs

/-- **Completeness of the actual-deadlock detector.**  In no reachable state is
every thread of a non-empty set inside the real lock on a mutex that a thread of
the set holds.  In a circular wait of any length the thread whose wait was stored
last is walking along the cycle or has reported exactly the cycle; running on, it
reports it. -/
theorem actual_deadlock_complete {c : Setup} {s : State} (hsc : c.memory = .sc)
    (hn : ∀ m, c.recursive m = false) (h : Runs.Reachable (system c) s) :
    (∀ S, ¬ Deadlocked s S) ∧
    ∀ n T L, WaitCycle s n T L → LastWaiter s n T →
      Follows n T L (s.thr (T 0)).pc ∧
      (s.exited = none → ∃ k s' w,
        Runs.exec (system c) s (List.replicate k ⟨T 0, .run⟩) = some s' ∧
        (s'.thr (T 0)).pc = .reported (L 0) w ∧
        w.threadChain = (List.range n).map T ++ [T 0] ∧
        w.lockChain = (List.range n).map L) := by
  have ho := orderly_of_normal_sc hsc hn h
  exact ⟨no_deadlock ho, fun n T L C hlast => ⟨follows ho C hlast, fun hx =>
    last_waiter_reports ho C hlast hx (sc_buf hsc h _)⟩⟩

/-- Thread `t` acquires the free mutex `m` with nothing held. -/
def topLock (t m : Nat) : List Act :=
  [⟨t, .lock m⟩, ⟨t, .run⟩, ⟨t, .run⟩, ⟨t, .run⟩]

/-- Thread `t`, holding a lock, finds `m` busy and stores its wait. -/
def waitFor (t m : Nat) : List Act := [⟨t, .lock m⟩, ⟨t, .run⟩, ⟨t, .run⟩]

/-- Threads 0 and 1 hold mutexes 0 and 1 and wait for each other's. -/
def crossed : List Act := topLock 0 0 ++ topLock 1 1 ++ waitFor 0 1 ++ waitFor 1 0

theorem crossed_runs : (Runs.exec (system (normalSetup .sc)) initial crossed).isSome = true := by
  decide

theorem actual_deadlock_complete_crossed : ∃ s,
    Runs.exec (system (normalSetup .sc)) initial crossed = some s ∧ (∀ S, ¬ Deadlocked s S) ∧
    Follows 2 (fun i => 1 - i) (fun i => i) (s.thr 1).pc := by
  have hs := (Option.some_get crossed_runs).symm
  have h := actual_deadlock_complete (c := normalSetup .sc) rfl (fun _ => rfl)
    (Runs.ReachableBy.exec .init hs)
  refine ⟨_, hs, h.1, (h.2 2 (fun i => 1 - i) (fun i => i) ⟨by decide, ?_, ?_, ?_⟩ ?_).1⟩
  · intro i j hi hj h
    omega
  · intro i hi
    interval_cases i <;> exact ⟨rfl, rfl⟩
  · intro i hi
    interval_cases i <;> decide
  · intro i hi
    interval_cases i <;> decide

/-! ## Buffered stores -/

/-- Both threads walk while both waits are still buffered, then block. -/
def storedWaits : List Act :=
  topLock 0 0 ++ topLock 1 1 ++
    [⟨0, .flush⟩, ⟨1, .flush⟩] ++ waitFor 0 1 ++ waitFor 1 0 ++
    -- the owner is read, its wait is not there yet
    [⟨0, .run⟩, ⟨0, .run⟩, ⟨1, .run⟩, ⟨1, .run⟩] ++
    [⟨0, .run⟩, ⟨1, .run⟩]

theorem storedWaits_runs :
    (Runs.exec (system (normalSetup .buffered)) initial storedWaits).isSome = true := by
  decide

/-- **A deadlock that nobody reports**, for buffered release stores. -/
theorem stored_waits_missed : ∃ s,
    Runs.exec (system (normalSetup .buffered)) initial storedWaits = some s ∧
    s.exited = none ∧ Deadlocked s (Set.Iio 2) := by
  refine ⟨_, (Option.some_get storedWaits_runs).symm, rfl, ⟨0, by simp⟩, ?_⟩
  intro t ht
  have ht : t < 2 := ht
  interval_cases t
  · exact ⟨1, false, rfl, 1, by simp, by decide⟩
  · exact ⟨0, false, rfl, 0, by simp, by decide⟩

/-- **No missed deadlock when waits are flushed**: with any memory, in every run
in which each wait has left its store buffer before the first load of the walk. -/
theorem no_deadlock_of_flushed {c : Setup} {s : State} (hn : ∀ m, c.recursive m = false)
    (h : Runs.ReachableBy (system c) FlushedBeforeWalk s) (S : Set Nat) : ¬ Deadlocked s S := by
  apply no_deadlock (c := c)
  induction h with
  | init => exact .init
  | step hr hg hs ih => exact .step ih ⟨singleUnlock_of_normal hn (holdInv hr) hs, hg⟩ hs

/-- The guard of `no_deadlock_of_flushed`, to run concrete actions. -/
def flushedBeforeWalk (s : State) (a : Act) : Bool :=
  match a.move, (s.thr a.tid).pc with
  | .run, .loadOwner _ w => !w.lockChain.isEmpty || (s.buf a.tid).isEmpty
  | _, _ => true

theorem flushedBeforeWalk_iff (s : State) (a : Act) :
    flushedBeforeWalk s a = true ↔ FlushedBeforeWalk s a := by
  unfold flushedBeforeWalk FlushedBeforeWalk
  split
  · rename_i m w hmv hp
    simp only [hmv, hp, Bool.or_eq_true, Bool.not_eq_true', List.isEmpty_iff]
    grind
  · grind

/-- The same waits, each flushed before the walk. -/
def flushedWaits : List Act :=
  topLock 0 0 ++ topLock 1 1 ++
    [⟨0, .flush⟩, ⟨1, .flush⟩] ++ waitFor 0 1 ++ [⟨0, .flush⟩] ++ waitFor 1 0 ++ [⟨1, .flush⟩] ++
    [⟨0, .run⟩, ⟨0, .run⟩, ⟨0, .run⟩, ⟨1, .run⟩, ⟨1, .run⟩, ⟨1, .run⟩]

theorem flushedWaits_runs : (Runs.execBy (system (normalSetup .buffered)) flushedBeforeWalk initial
    flushedWaits).isSome = true := by
  decide

theorem no_deadlock_of_flushed_crossed : ∃ s,
    Runs.execBy (system (normalSetup .buffered)) flushedBeforeWalk initial flushedWaits = some s ∧
    (∃ m w, (s.thr 1).pc = .reported m w) ∧ ¬ Deadlocked s (Set.Iio 2) := by
  have hs := (Option.some_get flushedWaits_runs).symm
  refine ⟨_, hs, ?_, no_deadlock_of_flushed (c := normalSetup .buffered) (fun _ => rfl)
    (Runs.ReachableBy.execBy (fun s a => (flushedBeforeWalk_iff s a).mp) .init hs) _⟩
  exact ⟨_, _, rfl⟩

end ScaleLockDep.Hooks
