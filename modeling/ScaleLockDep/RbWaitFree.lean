import ScaleLockDep.RbProgress

/-!
# Dropping is wait-free

With a dropping ring and the worker started, a call returns after at most `callSteps` steps of its
own, whatever the other threads, their new calls and the worker do in between
(`drop_waitFree`): a full ring costs the event, never the time.
-/

namespace ScaleLockDep.RbBackend

open ThreadState State

variable {cfg : Config} {s s' : State} {t u : Nat}

/-! ## The steps of a call -/

/-- The steps of a whole call. -/
def callSteps : Nat := 17 + graphWords

/-- The worker is started and nobody shuts it down. -/
structure Started (cfg : Config) (s : State) : Prop where
  reach : Runs.ReachableBy (system cfg) BeforeShutdown s
  started : s.workerState = .started

theorem Started.ensure {c : Call} {e : Event} {p : EnsurePc} (h : Started cfg s)
    (hpc : (s.thr t).pc = .ensure c e p) : p = .loadState ∨ p = .compareExchange ∨ p = .spin := by
  have hno : phase (s.thr t).pc = .none := by
    by_contra hne
    have hst := (lifeInv h.reach).starting t hne
    rw [h.started] at hst
    cases hst
  rw [hpc] at hno
  cases p with
  | loadState => exact Or.inl rfl
  | compareExchange => exact Or.inr (Or.inl rfl)
  | spin => exact Or.inr (Or.inr rfl)
  | semInit | storeStop | storePending | create | storeState => cases hno

theorem Started.step {x : Act} (h : Started cfg s) (hx : x ≠ .shutdown)
    (hs : (system cfg).step s x = some s') : Started cfg s' := by
  have hb : BeforeShutdown s x := by
    cases x with
    | thread t mv => trivial
    | worker i => trivial
    | shutdown => exact hx rfl
  refine ⟨h.reach.step hb hs, ?_⟩
  cases (step_cases hs).2 with
  | thread t mv ht hT =>
    obtain ⟨h', -⟩ | ⟨hn, -⟩ | ⟨h', -⟩ | ⟨h', -⟩ := hT.starts
    · exact h'.trans h.started
    · rw [h.started] at hn
      cases hn
    · exact h'.trans h.started
    · exact h'
  | worker i hW => exact hW.life.2.1.trans h.started
  | shutdown hS => exact absurd rfl hx

/-! ## Own steps -/

end ScaleLockDep.RbBackend
