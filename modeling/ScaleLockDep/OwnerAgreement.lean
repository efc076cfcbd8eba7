import ScaleLockDep.HookWaits

/-!
# Recorded owners and held locks

`owner_thread_slot` is one value for a mutex that a thread may have locked many
times, every successful unlock clears it, and nothing else does.

* `owner_iff_held`: in every run in which no thread unlocks a mutex it holds
  twice, and none ends while it holds a mutex, a thread outside the hooks is the
  recorded owner of exactly the locks on its held stack;
* `inner_unlock_hides`, `end_keeps_owner`: an unlock of a mutex held twice always
  breaks it, and so does the end of a thread that holds a mutex;
* `reentrant_owner_lost`: the shortest run of the first kind.
-/

namespace ScaleLockDep.Hooks

open ThreadState State

/-- The runs in which recorded owners agree with held stacks. -/
def Matched (s : State) (a : Act) : Prop := SingleUnlock s a ∧ EndsFree s a

/-- **The recorded owner agrees with the held stack.** -/
theorem owner_iff_held {c : Setup} {s : State} {t : Nat} (hsc : c.memory = .sc)
    (h : Runs.ReachableBy (system c) Matched s) (ht : (s.thr t).pc = .outside) (l : Nat) :
    s.mem.owner l = some t ↔ l ∈ s.held t := by
  have O : OwnerInv s := ownerInv (h.mono fun _ _ h => h.1)
  have hkept : s.abandoned l = false := none_abandoned (h.mono fun _ _ h => h.2) l
  constructor
  · intro ho
    exact (O.owned t l ho).resolve_right fun ha => by simp [hkept] at ha
  · intro hl
    have := O.settled t l hl (by simp [ht, unsettled])
    rwa [loadOwner_of_nil (sc_buf hsc h t)] at this

/-- **Every end with a held lock leaves an owner without it**: the next thread of the
slot is outside the hooks with an empty stack and is the recorded owner of every lock
the ended thread held. -/
theorem end_keeps_owner {c : Setup} {s : State} {t l : Nat}
    (h : Runs.ReachableBy (system c) SingleUnlock s) (hx : s.exited = none)
    (htid : t < maxThreadSlots) (ht : (s.thr t).pc = .outside) (hl : l ∈ s.held t) :
    ∃ s', (system c).step s ⟨t, .ends⟩ = some s' ∧ (s'.thr t).pc = .outside ∧ s'.held t = [] ∧
      s'.mem.owner l = some t := by
  have howner : s.loadOwner t l = some t := (ownerInv h).settled t l hl (by simp [ht, unsettled])
  refine ⟨((s.drain t).abandon t).setThread t .outside ThreadState.initial, ?_, ?_, ?_, ?_⟩
  · simp [system, step, hx, htid, endStep, ht]
  · simp [setThread_pc]
  · simp [setThread_held, ThreadState.initial]
  · rw [setThread_mem, abandon_mem, drain_owner, howner]

/-- **Every inner unlock hides a held lock**: from any reachable state, a thread
that unlocks a mutex it holds more than once is afterwards outside the hooks with
the mutex on its stack and no longer its recorded owner. -/
theorem inner_unlock_hides {c : Setup} {s : State} {t m : Nat} (h : Runs.Reachable (system c) s)
    (hx : s.exited = none) (htid : t < maxThreadSlots) (ht : (s.thr t).pc = .outside)
    (hm : 1 < (s.held t).count m) :
    ∃ s', Runs.exec (system c) s [⟨t, .unlock m⟩, ⟨t, .run⟩, ⟨t, .run⟩] = some s' ∧
      (s'.thr t).pc = .outside ∧ m ∈ s'.held t ∧ s'.mem.owner m ≠ some t := by
  have I : HoldInv c s := holdInv h
  have hk : s.lockCount t m ≠ 0 := by
    have := I.count t m
    rw [ht] at this
    simp only [granted, releasing] at this
    omega
  let s₁ := s.setPc t (.unlockCall m)
  let s₂ := ((s₁.drain t).ungrant t m).setPc t (.released m)
  let s₃ := ((s₂.drain t).casOwner t m).setThread t .outside ((s₂.thr t).tls.release c.mode m)
  have h₁ : (system c).step s ⟨t, .unlock m⟩ = some s₁ := by
    simp [system, step, hx, htid, hk, callStep, ht, s₁]
  have h₂ : (system c).step s₁ ⟨t, .run⟩ = some s₂ := by
    have hx₁ : s₁.exited = none := hx
    rw [step_run hx₁ htid]
    simp [runStep, s₁, s₂, setPc_pc]
  have h₃ : (system c).step s₂ ⟨t, .run⟩ = some s₃ := by
    have hx₂ : s₂.exited = none := hx
    rw [step_run hx₂ htid]
    simp [runStep, s₂, s₃, setPc_pc]
  refine ⟨s₃, ?_, by simp [s₃, setThread_pc], ?_, ?_⟩
  · rw [Runs.exec_cons _ h₁, Runs.exec_cons _ h₂, Runs.exec_cons _ h₃]
    rfl
  · have hin : m ∈ (s.thr t).tls.heldLockSlots := List.count_pos_iff.mp (by
      simp only [State.held] at hm
      omega)
    have := count_release c.mode (s.thr t).tls m m hin
    simp only [State.held, if_true] at hm this
    rw [setThread_held, if_pos rfl, ← List.count_pos_iff]
    simp only [s₂, s₁, setPc_tls, ungrant_thr, drain_thr]
    omega
  · simp only [s₃, setThread_mem, casOwner_owner]
    split
    · simp
    · rename_i hn
      exact fun ho => hn ⟨trivial, ho⟩

/-! ## A recursive mutex locked twice -/

def recursiveSetup : Setup := ⟨.sc, .global, fun _ => true⟩

/-- Lock twice, unlock once. -/
def lockTwiceUnlockOnce : List Act :=
  [⟨0, .lock 0⟩, ⟨0, .run⟩, ⟨0, .run⟩, ⟨0, .run⟩] ++
    [⟨0, .lock 0⟩, ⟨0, .run⟩, ⟨0, .run⟩, ⟨0, .run⟩] ++ [⟨0, .unlock 0⟩, ⟨0, .run⟩, ⟨0, .run⟩]

theorem lockTwiceUnlockOnce_runs :
    (Runs.exec (system recursiveSetup) initial lockTwiceUnlockOnce).isSome = true := by
  decide

/-- **The thread still holds the mutex and is no longer its recorded owner.** -/
theorem reentrant_owner_lost : ∃ s,
    Runs.exec (system recursiveSetup) initial lockTwiceUnlockOnce = some s ∧
    (s.thr 0).pc = .outside ∧ 0 ∈ s.held 0 ∧ s.lockCount 0 0 = 1 ∧ s.mem.owner 0 = none :=
  ⟨_, (Option.some_get lockTwiceUnlockOnce_runs).symm, rfl, by decide, rfl, rfl⟩

/-- `Matched`, to run concrete actions. -/
def matched (s : State) (a : Act) : Bool :=
  match a.move with
  | .unlock m => (s.held a.tid).count m ≤ 1
  | .ends => (s.held a.tid).isEmpty
  | _ => true

theorem matched_sound (s : State) (a : Act) (h : matched s a = true) : Matched s a := by
  constructor
  · intro m hm
    simpa [matched, hm] using h
  · intro hm
    simpa [matched, hm] using h

/-- Two recursive mutexes, one of them released out of order, by a thread whose slot is
that of a thread that ended with nothing locked. -/
def lockBothUnlockFirst : List Act :=
  [⟨0, .lock 0⟩, ⟨0, .run⟩, ⟨0, .run⟩, ⟨0, .run⟩] ++ [⟨0, .unlock 0⟩, ⟨0, .run⟩, ⟨0, .run⟩] ++
    [⟨0, .ends⟩] ++ [⟨0, .lock 0⟩, ⟨0, .run⟩, ⟨0, .run⟩, ⟨0, .run⟩] ++
    [⟨0, .lock 1⟩, ⟨0, .run⟩, ⟨0, .run⟩, ⟨0, .run⟩] ++ [⟨0, .unlock 0⟩, ⟨0, .run⟩, ⟨0, .run⟩]

theorem lockBothUnlockFirst_runs : (Runs.execBy (system recursiveSetup) matched initial
    lockBothUnlockFirst).isSome = true := by
  decide

theorem owner_iff_held_lockBoth : ∃ s,
    Runs.execBy (system recursiveSetup) matched initial lockBothUnlockFirst = some s ∧
    ∀ l, s.mem.owner l = some 0 ↔ l ∈ s.held 0 := by
  have hs := (Option.some_get lockBothUnlockFirst_runs).symm
  exact ⟨_, hs, owner_iff_held (c := recursiveSetup) rfl
    (Runs.ReachableBy.execBy matched_sound .init hs) rfl⟩

end ScaleLockDep.Hooks
