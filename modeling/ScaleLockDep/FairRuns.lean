import ScaleLockDep.Runs
import Mathlib.Data.Nat.Count
import Mathlib.Order.WellFounded

/-!
# Runs under fair schedules

A schedule names an action at every moment; an action that is not possible then is skipped.

* `play`: the state at each moment;
* `Progress.eventually`: when no action raises a rank, and in every state outside the goal some
  action lowers it and stays that action until it is taken, a schedule that gives each such
  action its turns again and again gets to the goal;
* `boundedly`: an action that is always possible and lowers a measure no other action raises
  gets to the goal within as many turns of its own;
* `play_const`: a state in which nothing is possible is kept.
-/

namespace ScaleLockDep.FairRuns

open Runs

variable {σ α ρ : Type} (M : System σ α)

/-- One moment. -/
def next (s : σ) (a : α) : σ := (M.step s a).getD s

/-- The state at each moment of the schedule `a` from `s`. -/
def play (a : Nat → α) (s : σ) : Nat → σ
  | 0 => s
  | n + 1 => next M (play a s n) (a n)

/-- Each of the actions gets its turn again and again. -/
def Fair (turns : α → Prop) (a : Nat → α) : Prop := ∀ p, turns p → ∀ n, ∃ m, n ≤ m ∧ a m = p

variable {M} {G : σ → α → Prop} {a : Nat → α} {s s' : σ}

theorem next_eq {x : α} (h : M.step s x = some s') : next M s x = s' := by
  rw [next, h]
  rfl

theorem next_cases (M : System σ α) (s : σ) (x : α) :
    next M s x = s ∨ M.step s x = some (next M s x) := by
  cases h : M.step s x with
  | none =>
    left
    rw [next, h]
    rfl
  | some s' =>
    right
    rw [next_eq h]

/-- What the scheduled actions preserve. -/
theorem play_invariant {P : σ → Prop} {allowed : α → Prop} (ha : ∀ n, allowed (a n))
    (hstep : ∀ s s' x, P s → allowed x → M.step s x = some s' → P s') (hs : P s) (n : Nat) :
    P (play M a s n) := by
  induction n with
  | zero => exact hs
  | succ n ih =>
    rcases next_cases M (play M a s n) (a n) with h | h
    · rw [play, h]
      exact ih
    · exact hstep _ _ _ ih (ha n) h

theorem play_reachable (hG : ∀ n s, G s (a n)) (hs : ReachableBy M G s) (n : Nat) :
    ReachableBy M G (play M a s n) := by
  induction n with
  | zero => exact hs
  | succ n ih =>
    rcases next_cases M (play M a s n) (a n) with h | h
    · rw [play, h]
      exact ih
    · exact .step ih (hG n _) h

theorem play_add (n m : Nat) :
    play M a s (n + m) = play M (fun k => a (n + k)) (play M a s n) m := by
  induction m with
  | zero => rfl
  | succ m ih =>
    change next M (play M a s (n + m)) (a (n + m)) = _
    rw [ih]
    rfl

/-- Where nothing is possible, nothing happens. -/
theorem play_const {n : Nat} (h : ∀ m, M.step (play M a s n) (a m) = none) {m : Nat}
    (hm : n ≤ m) : play M a s m = play M a s n := by
  induction m, hm using Nat.le_induction with
  | base => rfl
  | succ m _ ih =>
    rw [play, ih, next, h m]
    rfl

/-- The turns still come from a later moment on. -/
theorem Fair.later {turns : α → Prop} (h : Fair turns a) (n : Nat) :
    Fair turns fun k => a (n + k) := by
  intro p hp k
  obtain ⟨m, hm, ham⟩ := h p hp (n + k)
  refine ⟨m - n, by omega, ?_⟩
  have hnm : n + (m - n) = m := by omega
  change a (n + (m - n)) = p
  rw [hnm, ham]

/-! ## Progress by one's own turns -/

/-- The turns of `p` before the moment `n`. -/
def turnsOf [DecidableEq α] (a : Nat → α) (p : α) (n : Nat) : Nat := Nat.count (fun k => a k = p) n

theorem turnsOf_mono [DecidableEq α] (p : α) {n m : Nat} (h : n ≤ m) :
    turnsOf a p n ≤ turnsOf a p m := Nat.count_monotone _ h

/-- A fair schedule gives as many turns as one likes. -/
theorem Fair.turnsOf_ge [DecidableEq α] {turns : α → Prop} (h : Fair turns a) {p : α}
    (hp : turns p) (k : Nat) : ∃ n, k ≤ turnsOf a p n := by
  induction k with
  | zero => exact ⟨0, Nat.zero_le _⟩
  | succ k ih =>
    obtain ⟨n, hn⟩ := ih
    obtain ⟨m, hm, ham⟩ := h p hp n
    have hturn : turnsOf a p (m + 1) = turnsOf a p m + 1 := by
      rw [turnsOf, Nat.count_succ, if_pos ham]
      rfl
    have := turnsOf_mono (a := a) p hm
    exact ⟨m + 1, by omega⟩

/-- **Own turns are enough.**  The schedule of the others does not matter. -/
theorem boundedly [DecidableEq α] {allowed : α → Prop} (inv goal : σ → Prop) (m : σ → Nat) {p : α}
    (keeps : ∀ s s' x, inv s → allowed x → M.step s x = some s' → inv s')
    (enabled : ∀ s, inv s → ¬ goal s → ∃ s', M.step s p = some s')
    (own : ∀ s s', inv s → ¬ goal s → M.step s p = some s' → goal s' ∨ m s' < m s)
    (other : ∀ s s' x, inv s → ¬ goal s → allowed x → x ≠ p → M.step s x = some s' →
      goal s' ∨ m s' ≤ m s)
    (done : ∀ s, inv s → m s = 0 → goal s)
    (ha : ∀ n, allowed (a n)) (hs : inv s) {n : Nat} (hn : m s ≤ turnsOf a p n) :
    ∃ k, k ≤ n ∧ goal (play M a s k) := by
  have hall : ∀ n, (∃ k, k ≤ n ∧ goal (play M a s k)) ∨ m (play M a s n) + turnsOf a p n ≤ m s := by
    intro n
    induction n with
    | zero =>
      right
      simp [turnsOf, play]
    | succ n ih =>
      rcases ih with ⟨k, hk, hg⟩ | hle
      · exact Or.inl ⟨k, by omega, hg⟩
      have hinv := play_invariant ha keeps hs n
      by_cases hg : goal (play M a s n)
      · exact Or.inl ⟨n, by omega, hg⟩
      have hturn : turnsOf a p (n + 1) = turnsOf a p n + if a n = p then 1 else 0 :=
        Nat.count_succ _ _
      by_cases hp : a n = p
      · obtain ⟨s', hs'⟩ := enabled _ hinv hg
        have hnext : play M a s (n + 1) = s' := next_eq (by rw [hp, hs'])
        rw [if_pos hp] at hturn
        rcases own _ _ hinv hg hs' with hgoal | hlt
        · exact Or.inl ⟨n + 1, Nat.le_refl _, by rwa [hnext]⟩
        · right
          rw [hnext]
          omega
      · rw [if_neg hp] at hturn
        rcases next_cases M (play M a s n) (a n) with h | h
        · right
          rw [play, h]
          omega
        · rcases other _ _ _ hinv hg (ha n) hp h with hgoal | hle'
          · exact Or.inl ⟨n + 1, Nat.le_refl _, hgoal⟩
          · right
            rw [play]
            omega
  rcases hall n with h | h
  · exact h
  · exact ⟨n, Nat.le_refl _, done _ (play_invariant ha keeps hs n) (by omega)⟩

/-! ## Progress -/

/-- In a state outside the goal the action `helpful` is possible and lowers the rank; no action
raises it, and as long as it stays what it is the helpful action stays the same. -/
structure Progress (M : System σ α) (ρ : Type) [LT ρ] where
  allowed : α → Prop
  turns : α → Prop
  inv : σ → Prop
  goal : σ → Prop
  rank : σ → ρ
  helpful : σ → α
  keeps : ∀ s s' x, inv s → allowed x → M.step s x = some s' → inv s'
  named : ∀ s, inv s → ¬ goal s → turns (helpful s)
  enabled : ∀ s, inv s → ¬ goal s → ∃ s', M.step s (helpful s) = some s'
  steady : ∀ s s' x, inv s → ¬ goal s → allowed x → M.step s x = some s' →
    goal s' ∨ rank s' < rank s ∨ rank s' = rank s ∧ helpful s' = helpful s ∧ x ≠ helpful s

namespace Progress

variable [LT ρ] (X : Progress M ρ)

/-- Up to the next turn of the helpful action the rank gets lower, or the goal is reached. -/
theorem descends (ha : ∀ n, X.allowed (a n)) (hs : X.inv s) (hg : ¬ X.goal s) {k : Nat}
    (hk : a k = X.helpful s) :
    ∃ n, X.goal (play M a s n) ∨ X.rank (play M a s n) < X.rank s := by
  induction k generalizing a s with
  | zero =>
    obtain ⟨s', hstep⟩ := X.enabled s hs hg
    rw [← hk] at hstep
    have hplay : play M a s 1 = s' := next_eq hstep
    refine ⟨1, ?_⟩
    rw [hplay]
    rcases X.steady s s' _ hs hg (ha 0) hstep with hgoal | hlt | ⟨-, -, hne⟩
    · exact Or.inl hgoal
    · exact Or.inr hlt
    · exact absurd hk hne
  | succ k ih =>
    have hrest : ∀ n, play M a s (n + 1) =
        play M (fun i => a (i + 1)) (play M a s 1) n := fun n => by
      rw [Nat.add_comm, play_add]
      congr 1
      funext i
      rw [Nat.add_comm]
    rcases next_cases M s (a 0) with h | h
    · obtain ⟨n, hn⟩ := ih (a := fun i => a (i + 1)) (fun n => ha (n + 1)) hs hg hk
      refine ⟨n + 1, ?_⟩
      rw [hrest, show play M a s 1 = s from h]
      exact hn
    · rcases X.steady s _ _ hs hg (ha 0) h with hgoal | hlt | ⟨heq, hsame, -⟩
      · exact ⟨1, Or.inl hgoal⟩
      · exact ⟨1, Or.inr hlt⟩
      · by_cases hg' : X.goal (play M a s 1)
        · exact ⟨1, Or.inl hg'⟩
        · obtain ⟨n, hn⟩ := ih (a := fun i => a (i + 1)) (fun n => ha (n + 1))
            (X.keeps s _ _ hs (ha 0) h) hg' (hk.trans hsame.symm)
          refine ⟨n + 1, ?_⟩
          rw [hrest, ← heq]
          exact hn

/-- **A fair schedule gets to the goal.** -/
theorem eventually [WellFoundedLT ρ] (ha : ∀ n, X.allowed (a n)) (hfair : Fair X.turns a)
    (hs : X.inv s) : ∃ n, X.goal (play M a s n) := by
  generalize hr : X.rank s = r
  induction r using WellFoundedLT.induction generalizing a s with
  | ind r ih =>
    by_cases hg : X.goal s
    · exact ⟨0, hg⟩
    · obtain ⟨k, -, hk⟩ := hfair _ (X.named s hs hg) 0
      obtain ⟨n, hgoal | hlt⟩ := X.descends ha hs hg hk
      · exact ⟨n, hgoal⟩
      · have hs' := play_invariant ha X.keeps hs n
        obtain ⟨m, hm⟩ := ih _ (hr ▸ hlt) (fun i => ha (n + i)) (hfair.later n) hs' rfl
        exact ⟨n + m, by rwa [play_add]⟩

end Progress

end ScaleLockDep.FairRuns
