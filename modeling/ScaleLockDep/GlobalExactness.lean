import ScaleLockDep.GlobalInvariants
import Mathlib.Tactic.IntervalCases

/-!
# The global lock-order graph is exact

* `global_exact`: when no acquire hook is in flight, the matrix and its summary
  hold exactly the pairs of the completed acquisitions; every report closes a
  cycle, no pair is reported twice, and every cycle has a reported edge.
-/

namespace ScaleLockDep.GlobalBackend

open DependencyGraph Cycles Relation State

/-- No hook is in flight. -/
def Quiet (s : State) : Prop := ∀ t, (s.thr t).pc = .outside

/-- A report was made for the edge `u → v`. -/
def Reported (s : State) (u v : Nat) : Prop :=
  ∃ r, r ∈ s.reports ∧ r.fromLockSlot = u ∧ r.toLockSlot = v

/-- A completed acquisition of some thread gave the pair. -/
def Recorded (s : State) (u v : Nat) : Prop := ∃ t, Dependency (s.thr t).hist u v

theorem Quiet.closing {s : State} (hq : Quiet s) : Closing s = Reported s := by
  have hn : ∀ t, pendingReport (s.thr t).pc = none := fun t => by
    rw [hq t]
    rfl
  funext u v
  simp only [Closing, Reported, hn, reduceCtorEq, false_and, exists_false, or_false]

theorem Quiet.claimed {s : State} (hq : Quiet s) {u v : Nat} (h : (activity s).Claimed u v) :
    Recorded s u v := by
  rcases h with ⟨t, api, -, ha⟩ | ⟨t, c, hc, -⟩
  · exact ⟨t, api, ha⟩
  · simp only [activity, hq t] at hc
    cases hc

/-- The edges of a quiet state are the recorded pairs. -/
theorem Quiet.edge_iff {s : State} (I : GraphInv s) (hq : Quiet s) (u v : Nat) :
    s.graph.E u v ↔ Recorded s u v :=
  ⟨fun h => hq.claimed (I.sound u v h), fun ⟨t, h⟩ => I.complete t u v h⟩

/-- **Exactness of the global backend**, over every interleaving. -/
theorem global_exact {s : State} (h : Runs.Reachable system s) :
    (∀ r, r ∈ s.reports → r.Valid s.graph.E) ∧
    (s.reports.map pair).Nodup ∧
    Marked s.graph.E (Closing s) ∧
    (Quiet s →
      (∀ u v, s.graph.edge u v = true ↔ Recorded s u v) ∧
      (∀ u v, s.graph.bitTest v u = true ↔ Recorded s u v) ∧
      (Acyclic fun u v => s.graph.E u v ∧ ¬ Reported s u v) ∧
      (s.reports ≠ [] ↔ ∃ u, TransGen s.graph.E u u)) := by
  have I := graphInv h
  have R := reportInv h
  refine ⟨R.valid, R.nodup, R.marked, fun hq => ?_⟩
  have hm := R.marked
  rw [hq.closing] at hm
  refine ⟨hq.edge_iff I, fun u v => ?_, hm.acyclic, ?_⟩
  · rw [I.wf.summary]
    exact hq.edge_iff I u v
  · rw [← hm.cycle_iff]
    constructor
    · intro hne
      obtain ⟨r, hr⟩ := List.exists_mem_of_ne_nil _ hne
      exact ⟨_, _, r, hr, rfl, rfl⟩
    · rintro ⟨_, _, r, hr, -, -⟩ hnil
      rw [hnil] at hr
      cases hr

/-! ## Two locks in both orders -/

/-- Thread `t` locks `a`, then `b`, and unlocks both; `n` is the number of steps
of the nested call. -/
def lockPair (t a b n : Nat) : List Act :=
  [⟨t, .acquire ⟨.lock, a, 0⟩⟩, ⟨t, .acquire ⟨.lock, b, 0⟩⟩] ++
    List.replicate n ⟨t, .run⟩ ++ [⟨t, .release b⟩, ⟨t, .release a⟩]

/-- Thread 0 locks 0 then 1, thread 1 locks 1 then 0. -/
def inverted : List Act := [⟨0, .register⟩, ⟨0, .register⟩] ++ lockPair 0 0 1 4 ++ lockPair 1 1 0 5

theorem inverted_runs : (Runs.exec system initial inverted).isSome = true := by decide

/-- A thread that takes no step stays as it is. -/
theorem exec_thr_other {as : List Act} {s s' : State} {t : Nat} (ht : ∀ a, a ∈ as → t ≠ a.tid)
    (h : Runs.exec system s as = some s') : s'.thr t = s.thr t := by
  induction as generalizing s with
  | nil =>
    cases h
    rfl
  | cons a as ih =>
    obtain ⟨s₁, hs, h⟩ := Option.bind_eq_some_iff.mp h
    rw [ih (fun b hb => ht b (List.mem_cons_of_mem _ hb)) h]
    exact thr_other (step_cases hs).2.2 (ht a List.mem_cons_self)

theorem global_exact_inverted : ∃ s, Runs.exec system initial inverted = some s ∧
    s.reports = [⟨1, 0, [0, 1], ⟨some 1, 0⟩, [⟨some 0, 0⟩]⟩] ∧ Recorded s 0 1 ∧
    ∃ u, TransGen s.graph.E u u := by
  have hs := (Option.some_get inverted_runs).symm
  have h := (global_exact (Runs.ReachableBy.exec .init hs)).2.2.2 ?_
  · exact ⟨_, hs, by decide, (h.1 0 1).mp (by decide), h.2.2.2.mp (by decide)⟩
  · intro t
    by_cases ht : t < 2
    · interval_cases t <;> decide
    · rw [exec_thr_other (t := t) ?_ hs]
      · rfl
      · have hall : ∀ a, a ∈ inverted → a.tid < 2 := by decide
        exact fun a ha he => ht (he ▸ hall a ha)

end ScaleLockDep.GlobalBackend
