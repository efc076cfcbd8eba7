import Mathlib.Logic.Relation
import Mathlib.Data.List.Basic

/-!
# Runs of a partial transition function

General facts about systems whose step is a partial function of the state and
an action.  `ReachableBy G` collects the states of the runs every step of which
meets the guard `G`; `Reachable` is the case without a guard.

* `ReachableBy.invariant`: a property of the initial state that every guarded
  step preserves holds of every state of every guarded run;
* `ReachableBy.mono`: a weaker guard allows more runs;
* `ReachableBy.project`: a map that takes steps to steps, or to nothing, takes runs to runs;
* `withHistory`: a history kept beside the state changes no run;
* `ReachableBy.execBy`: a concrete run computed by `execBy` is a run.
-/

namespace ScaleLockDep.Runs

/-- A transition system: the initial state and the partial step function. -/
structure System (σ α : Type) where
  init : σ
  step : σ → α → Option σ

variable {σ α : Type} (M : System σ α)

/-- The states of the runs whose every step meets `G`. -/
inductive ReachableBy (G : σ → α → Prop) : σ → Prop
  | init : ReachableBy G M.init
  | step {s s' : σ} {a : α} : ReachableBy G s → G s a → M.step s a = some s' → ReachableBy G s'

/-- The states of all runs. -/
abbrev Reachable : σ → Prop := ReachableBy M (fun _ _ => True)

variable {M} {G H : σ → α → Prop}

/-- **Invariant rule.**  The step case may use that the state before the step
is itself reachable. -/
theorem ReachableBy.invariant {P : σ → Prop} (hinit : P M.init)
    (hstep : ∀ s s' a, ReachableBy M G s → P s → G s a → M.step s a = some s' → P s')
    {s : σ} (h : ReachableBy M G s) : P s := by
  induction h with
  | init => exact hinit
  | step hr hg hs ih => exact hstep _ _ _ hr ih hg hs

/-- A run that meets `G` meets `H` when every reachable step under `G` does. -/
theorem ReachableBy.mono_of {s : σ}
    (hGH : ∀ s a, ReachableBy M G s → ReachableBy M H s → G s a → H s a)
    (h : ReachableBy M G s) : ReachableBy M H s := by
  induction h with
  | init => exact .init
  | step hr hg hs ih => exact .step ih (hGH _ _ hr ih hg) hs

theorem ReachableBy.mono {s : σ} (hGH : ∀ s a, G s a → H s a) (h : ReachableBy M G s) :
    ReachableBy M H s :=
  h.mono_of (fun s a _ _ => hGH s a)

theorem ReachableBy.reachable {s : σ} (h : ReachableBy M G s) : Reachable M s :=
  h.mono (fun _ _ _ => trivial)

/-! ## Two systems -/

/-- **Projection rule.**  Every step is one step of the other system, or none. -/
theorem ReachableBy.project {τ β : Type} {N : System τ β} {K : τ → β → Prop} (f : σ → τ)
    (hinit : f M.init = N.init)
    (hstep : ∀ s s' a, G s a → M.step s a = some s' →
      f s' = f s ∨ ∃ b, K (f s) b ∧ N.step (f s) b = some (f s'))
    {s : σ} (h : ReachableBy M G s) : ReachableBy N K (f s) := by
  induction h with
  | init =>
    rw [hinit]
    exact .init
  | step hr hg hs ih =>
    rcases hstep _ _ _ hg hs with he | ⟨b, hb, hsb⟩
    · rwa [he]
    · exact .step ih hb hsb

/-- The system with a history beside its state: `upd` is what one step adds. -/
def withHistory {γ : Type} (M : System σ α) (g₀ : γ) (upd : γ → σ → α → σ → γ) :
    System (σ × γ) α where
  init := (M.init, g₀)
  step p a := (M.step p.1 a).map fun s' => (s', upd p.2 p.1 a s')

section
variable {γ : Type} {g₀ : γ} {upd : γ → σ → α → σ → γ}

theorem withHistory_step {p p' : σ × γ} {a : α}
    (h : (withHistory M g₀ upd).step p a = some p') :
    M.step p.1 a = some p'.1 ∧ p'.2 = upd p.2 p.1 a p'.1 := by
  obtain ⟨s', hs', rfl⟩ := Option.map_eq_some_iff.mp h
  exact ⟨hs', rfl⟩

theorem withHistory_of_step {p : σ × γ} {a : α} {s' : σ} (h : M.step p.1 a = some s') :
    (withHistory M g₀ upd).step p a = some (s', upd p.2 p.1 a s') := by
  simp [withHistory, h]

/-- Without its history a run is a run. -/
theorem ReachableBy.fst {K : σ × γ → α → Prop} (hG : ∀ p a, K p a → G p.1 a) {p : σ × γ}
    (h : ReachableBy (withHistory M g₀ upd) K p) : ReachableBy M G p.1 :=
  h.project Prod.fst rfl fun p _ a hk hs => Or.inr ⟨a, hG p a hk, (withHistory_step hs).1⟩

/-- Every run has a history. -/
theorem ReachableBy.exists_history {s : σ} (h : ReachableBy M G s) :
    ∃ g, ReachableBy (withHistory M g₀ upd) (fun p a => G p.1 a) (s, g) := by
  induction h with
  | init => exact ⟨g₀, .init⟩
  | @step s s' a hr hg hs ih =>
    obtain ⟨g, ih⟩ := ih
    exact ⟨upd g s a s', .step ih hg (withHistory_of_step hs)⟩

end

/-! ## Runs that are computed -/

/-- Execute a list of actions. -/
def exec (M : System σ α) (s : σ) : List α → Option σ
  | [] => some s
  | a :: as => (M.step s a).bind fun s' => exec M s' as

/-- Execute a list of actions as long as each step meets the guard. -/
def execBy (M : System σ α) (g : σ → α → Bool) (s : σ) : List α → Option σ
  | [] => some s
  | a :: as => if g s a then (M.step s a).bind fun s' => execBy M g s' as else none

theorem ReachableBy.execBy {g : σ → α → Bool} (hg : ∀ s a, g s a = true → G s a)
    {as : List α} {s s' : σ} (hs : ReachableBy M G s)
    (h : Runs.execBy M g s as = some s') : ReachableBy M G s' := by
  induction as generalizing s with
  | nil =>
    simp only [Runs.execBy, Option.some.injEq] at h
    exact h ▸ hs
  | cons a as ih =>
    simp only [Runs.execBy] at h
    split at h
    · rename_i hga
      obtain ⟨t, ht, h⟩ := Option.bind_eq_some_iff.mp h
      exact ih (.step hs (hg s a hga) ht) h
    · cases h

theorem ReachableBy.exec {as : List α} {s s' : σ} (hs : Reachable M s)
    (h : Runs.exec M s as = some s') : Reachable M s' := by
  induction as generalizing s with
  | nil =>
    simp only [Runs.exec, Option.some.injEq] at h
    exact h ▸ hs
  | cons a as ih =>
    obtain ⟨t, ht, h⟩ := Option.bind_eq_some_iff.mp h
    exact ih (.step hs trivial ht) h

theorem exec_cons {s t : σ} {a : α} (as : List α) (h : M.step s a = some t) :
    exec M s (a :: as) = exec M t as := by
  simp [exec, h]

theorem exec_append (s : σ) (as bs : List α) :
    exec M s (as ++ bs) = (exec M s as).bind fun t => exec M t bs := by
  induction as generalizing s with
  | nil => rfl
  | cons a as ih =>
    simp only [List.cons_append, exec, Option.bind_assoc]
    congr 1
    funext t
    exact ih t

end ScaleLockDep.Runs
