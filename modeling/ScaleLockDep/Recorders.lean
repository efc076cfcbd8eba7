import ScaleLockDep.RbRefinement

/-!
# The two backends as recorders

What both backends have in common: threads whose acquisitions stand for pairs,
recorded edges that come from such pairs, and reports that come from cycles of the
recorded edges.  The results here are about any such recorder.

* `Recorder.ordered`: acquisitions that go up in an order give pairs that go up;
* `Recorder.edge_blocking`, `Recorder.report_blocking`: when no trylock gives a new
  pair, edges and reports come from acquisitions that could have blocked;
* `GlobalBackend.recorder`, `RbBackend.recorder`: the two backends.
-/

namespace ScaleLockDep

open Cycles Relation Activity

/-- A system that records the pairs of its threads' acquisitions. -/
structure Recorder {σ α : Type} (M : Runs.System σ α) where
  activity : σ → Activity
  /-- the thread and the move of an action -/
  mover : α → Nat × Move
  edge : σ → Nat → Nat → Prop
  reports : σ → List Report
  start : ∀ u v, ¬ (activity M.init).Claimed u v
  step : ∀ {s s' a}, Runs.Reachable M s → M.step s a = some s' →
    (activity s).Step (mover a).1 (mover a).2 (activity s')
  sound : ∀ {s u v}, Runs.Reachable M s → edge s u v → (activity s).Claimed u v
  cycle : ∀ {s}, Runs.Reachable M s → reports s ≠ [] → ∃ u, TransGen (edge s) u u

namespace Recorder

variable {σ α : Type} {M : Runs.System σ α} (R : Recorder M) {s : σ} {P : Api → Prop}
  {β : Type} [Preorder β] {rank : Nat → β}

/-- What the action acquires, if through a call that meets `P`, is above every other
lock the thread holds. -/
def Up (P : Api → Prop) (rank : Nat → β) (s : σ) (a : α) : Prop :=
  (R.activity s).AcquiresUp P rank (R.mover a).1 (R.mover a).2

/-- The action, if a trylock, gives no new pair. -/
def Tries (s : σ) (a : α) : Prop := (R.activity s).TriesBlocked (R.mover a).1 (R.mover a).2

/-- What the action acquires, if `Q` holds of the call and the held locks, has every
other held lock as a recorded predecessor. -/
def Known (Q : Call → List Nat → Prop) (s : σ) (a : α) : Prop :=
  ∀ c, (R.mover a).2 = .acquire c → Q c ((R.activity s).held (R.mover a).1) →
    ∀ u, u ∈ (R.activity s).held (R.mover a).1 → u ≠ c.lockSlot → R.edge s u c.lockSlot

theorem ordered (h : Runs.ReachableBy M (R.Up P rank) s) : (R.activity s).Ordered P rank :=
  h.invariant (P := fun s => (R.activity s).Ordered P rank)
    (fun u v hp => (R.start u v hp.claimed).elim)
    fun _ _ _ hr I hg hs => I.step (R.step hr.reachable hs) hg

theorem blocked (h : Runs.ReachableBy M R.Tries s) : (R.activity s).Blocked :=
  h.invariant (P := fun s => (R.activity s).Blocked) (fun u v hp => (R.start u v hp).elim)
    fun _ _ _ hr I hg hs => I.step (R.step hr.reachable hs) hg

/-- The recorded edges come from acquisitions that could have blocked. -/
theorem edge_blocking (h : Runs.ReachableBy M R.Tries s) {u v : Nat} (he : R.edge s u v) :
    (R.activity s).BlockingPair u v :=
  R.blocked h u v (R.sound h.reachable he)

/-- **Reports come from cycles of blocking pairs.** -/
theorem report_blocking (h : Runs.ReachableBy M R.Tries s) (hr : R.reports s ≠ []) :
    ∃ u, TransGen (R.activity s).BlockingPair u u := by
  obtain ⟨u, hu⟩ := R.cycle h.reachable hr
  exact ⟨u, TransGen.mono (fun _ _ he => R.edge_blocking h he) _ _ hu⟩

/-- A trylock of a lock whose pairs are recorded gives no new pair. -/
theorem tries_of_known
    (h : Runs.ReachableBy M (R.Known fun c _ => c.api = .trylock) s) : Runs.ReachableBy M R.Tries s :=
  h.mono_of fun _ _ _ hr hg c hmv hapi u hu hne => R.edge_blocking hr (hg c hmv hapi u hu hne)

/-- **No report in one order.** -/
theorem no_report_of_up (rank : Nat → β) (h : Runs.ReachableBy M (R.Up (fun _ => True) rank) s) :
    R.reports s = [] := by
  by_contra hne
  obtain ⟨u, hu⟩ := R.cycle h.reachable hne
  exact acyclic_of_lt rank (fun x y he => R.ordered h x y (R.sound h.reachable he)) u hu

/-- **Re-acquisitions that add nothing keep the order.** -/
theorem no_report_of_known (h : Runs.ReachableBy M (fun s a =>
    (R.activity s).NewUp rank (R.mover a).1 (R.mover a).2 ∧
      (R.activity s).ReacquiresKnown (R.edge s) (R.mover a).1 (R.mover a).2) s) :
    R.reports s = [] := by
  refine R.no_report_of_up rank (h.mono_of fun s a _ hr hg c hmv _ u hu hne => ?_)
  by_cases hv : c.lockSlot ∈ (R.activity s).held (R.mover a).1
  · exact R.ordered hr u _ (R.sound hr.reachable (hg.2 c hmv hv u hu hne))
  · exact hg.1 c hmv hv u hu

end Recorder

namespace GlobalBackend

/-- The global backend. -/
def recorder : Recorder system where
  activity := activity
  mover a := (a.tid, a.move)
  edge s := s.graph.E
  reports := State.reports
  start u v h := by
    rcases h with ⟨t, api, -, ha⟩ | ⟨t, c, hc, -⟩
    · exact not_acquired_nil _ _ _ ha
    · cases hc
  step hr hs := activity_step (graphInv hr) (step_cases hs).2.2
  sound hr he := (graphInv hr).sound _ _ he
  cycle hr hne := by
    refine (reportInv hr).marked.cycle_iff.mp ?_
    obtain ⟨r, hr⟩ := List.exists_mem_of_ne_nil _ hne
    exact ⟨_, _, Or.inl ⟨r, hr, rfl, rfl⟩⟩

end GlobalBackend

namespace RbBackend

/-- The ring-buffer backend. -/
def recorder (cfg : Config) : Recorder (system cfg) where
  activity := activity
  mover := Act.mover
  edge s := s.graph.E
  reports := State.reports
  start u v h := by
    rcases h with ⟨t, api, -, ha⟩ | ⟨t, c, hc, -⟩
    · exact not_acquired_nil _ _ _ ha
    · cases hc
  step hr hs := activity_step (threadOk hr) (step_cases hs).2
  sound hr he := ((edgeInv hr).sound _ _ he).claimed
  cycle hr := (reportInv hr).cycle_iff.mp

end RbBackend

end ScaleLockDep
