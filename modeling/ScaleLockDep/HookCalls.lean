import ScaleLockDep.Hooks

/-!
# One thread's interposed calls

`pthread_mutex_lock`, `pthread_mutex_unlock` and `pthread_mutex_trylock` of `hook.c` from
entry to return, as one thread runs them.  What lies outside the thread is a `World`: the
real functions, and the owner and wait tables that other threads write too.

* `lock_cases`, `trylock_cases`, `unlock_cases`: what each hook can do;
* `held_stack_in_sync`: the held stack is the list of real holds after every call exactly
  when no real call the hooks make returns `EOWNERDEAD`;
* `held_stack_out_of_sync`: a robust mutex whose owner died breaks it.
-/

namespace ScaleLockDep

namespace HookCalls

open Hooks (Walk)
open ThreadState (removeHeld)

/-! ## The world of a thread -/

def ebusy : Int := 16
def edeadlk : Int := 35
def eownerdead : Int := 130

/-- The real functions and the shared tables as the thread meets them.  `σ` is everything
outside the thread, so a call or an access may also let other threads move.  `realLock` is
`none` when the call never returns. -/
structure World (σ : Type) where
  realLock : Nat → σ → Option (Int × σ)
  realTrylock : Nat → σ → Int × σ
  realUnlock : Nat → σ → Int × σ
  loadOwner : Nat → σ → Option Nat × σ
  storeOwner : Nat → Option Nat → σ → σ
  /-- The compare-exchange of `owner_thread_slot` from a thread slot to
  `LOCKDEP_INVALID_SLOT`. -/
  casOwner : Nat → Nat → σ → σ
  loadWaiting : Nat → σ → Option Nat × σ
  storeWaiting : Nat → Option Nat → σ → σ

structure Setup where
  mode : LockdepMode
  selfSlot : Nat
  deriving Repr

structure State (σ : Type) where
  world : σ
  tls : ThreadState

inductive Outcome (σ : Type)
  | returned (rc : Int) (s : State σ)
  | blocked
  | exited (code : Nat)

inductive Call
  | lock (m : Nat)
  | trylock (m : Nat)
  | unlock (m : Nat)
  deriving DecidableEq, Repr

variable {σ : Type}

/-! ## `core.c` and the fast paths of `lockdep.h` -/

/-- The loop of `lockdep_collect_actual_deadlock_chain`, with the iterations that are left. -/
def collect (W : World σ) (selfSlot : Nat) : Nat → Walk → σ → Bool × Walk × σ
  | 0, w, x => (false, w, x)
  | n + 1, w, x =>
      let owner := W.loadOwner w.currentLockSlot x
      match owner.1 with
      | none => (false, w, owner.2)
      | some u =>
          let w' : Walk :=
            ⟨w.threadChain ++ [u], w.lockChain ++ [w.currentLockSlot], w.currentLockSlot⟩
          if u = selfSlot then (true, w', owner.2)
          else
            let waiting := W.loadWaiting u owner.2
            match waiting.1 with
            | none => (false, w', waiting.2)
            | some l => collect W selfSlot n { w' with currentLockSlot := l } waiting.2

/-- `lockdep_before_blocking_mutex_lock`: the answer and the world after it. -/
def beforeBlockingMutexLock (W : World σ) (c : Setup) (m : Nat) (x : σ) : Bool × σ :=
  let r := collect W c.selfSlot maxThreadSlots (Walk.start c.selfSlot m)
    (W.storeWaiting c.selfSlot (some m) x)
  (r.1, r.2.2)

/-- `lockdep_cancel_wait`. -/
def cancelWait (W : World σ) (c : Setup) (x : σ) : σ := W.storeWaiting c.selfSlot none x

/-- `lockdep_acquire_top_level_mutex_fast`. -/
def acquireTopLevelMutexFast (W : World σ) (c : Setup) (m : Nat) (s : State σ) : State σ :=
  ⟨W.storeOwner m (some c.selfSlot) s.world, s.tls.acquireTopLevel c.mode m⟩

/-- `lockdep_acquire_mutex`; `none` is the panic on a full stack. -/
def acquireMutex (W : World σ) (c : Setup) (clear : Bool) (m : Nat) (s : State σ) :
    Option (State σ) :=
  match s.tls.acquire c.mode m with
  | none => none
  | some ts =>
      some ⟨W.storeOwner m (some c.selfSlot)
        (if clear then cancelWait W c s.world else s.world), ts⟩

/-- `lockdep_release_top_level_mutex_fast`, else `lockdep_release_mutex`. -/
def releaseMutex (W : World σ) (c : Setup) (m : Nat) (s : State σ) : State σ :=
  ⟨W.casOwner m c.selfSlot s.world, s.tls.release c.mode m⟩

/-! ## `hook.c` -/

/-- The end of a hook after `lockdep_acquire_mutex`. -/
def Outcome.ofAcquire : Option (State σ) → Outcome σ
  | none => .exited 1
  | some s => .returned 0 s

/-- `pthread_mutex_lock` of a thread that holds nothing. -/
def lockTopLevel (W : World σ) (c : Setup) (m : Nat) (s : State σ) : Outcome σ :=
  match W.realLock m s.world with
  | none => .blocked
  | some r =>
      if r.1 = 0 then .returned 0 (acquireTopLevelMutexFast W c m { s with world := r.2 })
      else .returned r.1 { s with world := r.2 }

/-- `pthread_mutex_lock` after the trylock returned `EBUSY`. -/
def lockBusy (W : World σ) (c : Setup) (m : Nat) (s : State σ) : Outcome σ :=
  let b := beforeBlockingMutexLock W c m s.world
  if b.1 then .exited 66
  else
    match W.realLock m b.2 with
    | none => .blocked
    | some r =>
        if r.1 = 0 then .ofAcquire (acquireMutex W c true m { s with world := r.2 })
        else .returned r.1 { s with world := cancelWait W c r.2 }

def pthreadMutexLock (W : World σ) (c : Setup) (m : Nat) (s : State σ) : Outcome σ :=
  if s.tls.heldLockSlots.length = 0 then lockTopLevel W c m s
  else
    let r := W.realTrylock m s.world
    if r.1 = 0 then .ofAcquire (acquireMutex W c false m { s with world := r.2 })
    else if r.1 = ebusy then lockBusy W c m { s with world := r.2 }
    else .returned r.1 { s with world := r.2 }

def pthreadMutexUnlock (W : World σ) (c : Setup) (m : Nat) (s : State σ) : Outcome σ :=
  let r := W.realUnlock m s.world
  if r.1 = 0 then .returned 0 (releaseMutex W c m { s with world := r.2 })
  else .returned r.1 { s with world := r.2 }

def pthreadMutexTrylock (W : World σ) (c : Setup) (m : Nat) (s : State σ) : Outcome σ :=
  let r := W.realTrylock m s.world
  if r.1 = 0 then
    if s.tls.heldLockSlots.length = 0 then
      .returned 0 (acquireTopLevelMutexFast W c m { s with world := r.2 })
    else .ofAcquire (acquireMutex W c false m { s with world := r.2 })
  else .returned r.1 { s with world := r.2 }

def call (W : World σ) (c : Setup) (s : State σ) : Call → Outcome σ
  | .lock m => pthreadMutexLock W c m s
  | .trylock m => pthreadMutexTrylock W c m s
  | .unlock m => pthreadMutexUnlock W c m s

/-! ## Sequences of calls -/

/-- `P` holds after every call of the sequence that returns. -/
def AfterEach (W : World σ) (c : Setup) (P : State σ → Prop) : State σ → List Call → Prop
  | _, [] => True
  | s, k :: ks => ∀ rc s', call W c s k = .returned rc s' → P s' ∧ AfterEach W c P s' ks

/-- `Q` holds of every call of the sequence in the state it is made in. -/
def BeforeEach (W : World σ) (c : Setup) (Q : State σ → Call → Prop) : State σ → List Call → Prop
  | _, [] => True
  | s, k :: ks => Q s k ∧ ∀ rc s', call W c s k = .returned rc s' → BeforeEach W c Q s' ks

theorem beforeEach_cons {W : World σ} {c : Setup} {Q : State σ → Call → Prop} {s s' : State σ}
    {k : Call} {rc : Int} {ks : List Call} (h : call W c s k = .returned rc s') (hk : Q s k)
    (hks : BeforeEach W c Q s' ks) : BeforeEach W c Q s (k :: ks) := by
  refine ⟨hk, fun rc' s'' h' => ?_⟩
  rw [h] at h'
  cases h'
  exact hks

/-- What holds of a single call in every state of an invariant holds along every sequence. -/
theorem afterEach_iff_beforeEach {W : World σ} {c : Setup} {P : State σ → Prop}
    {Q : State σ → Call → Prop}
    (hcall : ∀ s k rc s', P s → call W c s k = .returned rc s' → (P s' ↔ Q s k))
    (hreturn : ∀ s k, ¬ Q s k → ∃ rc s', call W c s k = .returned rc s')
    (ks : List Call) (s : State σ) (hs : P s) :
    AfterEach W c P s ks ↔ BeforeEach W c Q s ks := by
  induction ks generalizing s with
  | nil => exact Iff.rfl
  | cons k ks ih =>
    constructor
    · intro h
      have hk : Q s k := by
        by_contra hn
        obtain ⟨rc, s', hr⟩ := hreturn s k hn
        exact hn ((hcall s k rc s' hs hr).mp (h rc s' hr).1)
      exact ⟨hk, fun rc s' hr => (ih s' (h rc s' hr).1).mp (h rc s' hr).2⟩
    · rintro ⟨hk, h⟩ rc s' hr
      have hs' := (hcall s k rc s' hs hr).mpr hk
      exact ⟨hs', (ih s' hs').mpr (h rc s' hr)⟩

/-! ## The held stack and the real holds -/

/-- The held stack after a call that returned `rc`. -/
def tracked (rc : Int) (held : List Nat) : Call → List Nat
  | .lock m | .trylock m => if rc = 0 then held ++ [m] else held
  | .unlock m => if rc = 0 then removeHeld held m else held

/-- The real holds, in order of acquisition, after a real call that returned `rc`. -/
def owned (rc : Int) (holds : List Nat) : Call → List Nat
  | .lock m | .trylock m => if rc = 0 ∨ rc = eownerdead then holds ++ [m] else holds
  | .unlock m => if rc = 0 then removeHeld holds m else holds

/-- The real functions acquire exactly on 0 and `EOWNERDEAD` and release exactly on 0, and
nothing else changes what the thread holds. -/
structure Lawful (W : World σ) (holds : σ → List Nat) : Prop where
  lock : ∀ m x rc x', W.realLock m x = some (rc, x') →
    holds x' = owned rc (holds x) (.lock m)
  trylock : ∀ m x, holds (W.realTrylock m x).2 =
    owned (W.realTrylock m x).1 (holds x) (.trylock m)
  unlock : ∀ m x, holds (W.realUnlock m x).2 = owned (W.realUnlock m x).1 (holds x) (.unlock m)
  loadOwner : ∀ l x, holds (W.loadOwner l x).2 = holds x
  storeOwner : ∀ l v x, holds (W.storeOwner l v x) = holds x
  casOwner : ∀ l u x, holds (W.casOwner l u x) = holds x
  loadWaiting : ∀ u x, holds (W.loadWaiting u x).2 = holds x
  storeWaiting : ∀ u v x, holds (W.storeWaiting u v x) = holds x

/-- The held stack is the list of real holds, in order of acquisition. -/
def InSync (holds : σ → List Nat) (s : State σ) : Prop := s.tls.heldLockSlots = holds s.world

/-- A real lock or trylock that the hook makes returns `EOWNERDEAD`. -/
def OwnerDied (W : World σ) (c : Setup) (s : State σ) : Call → Prop
  | .lock m =>
      if s.tls.heldLockSlots.length = 0 then
        (W.realLock m s.world).map Prod.fst = some eownerdead
      else
        let r := W.realTrylock m s.world
        let b := beforeBlockingMutexLock W c m r.2
        r.1 = eownerdead ∨
          r.1 = ebusy ∧ b.1 = false ∧ (W.realLock m b.2).map Prod.fst = some eownerdead
  | .trylock m => (W.realTrylock m s.world).1 = eownerdead
  | .unlock _ => False

variable {W : World σ} {c : Setup} {holds : σ → List Nat} {s s' : State σ} {m : Nat} {rc : Int}
  {x x' : σ}

theorem ofAcquire_returned {clear : Bool}
    (h : Outcome.ofAcquire (acquireMutex W c clear m s) = .returned rc s') :
    rc = 0 ∧ s'.tls.heldLockSlots = s.tls.heldLockSlots ++ [m] ∧
      s'.world = W.storeOwner m (some c.selfSlot)
        (if clear then cancelWait W c s.world else s.world) := by
  cases hacq : s.tls.acquire c.mode m with
  | none => simp [acquireMutex, hacq, Outcome.ofAcquire] at h
  | some ts =>
    simp only [acquireMutex, hacq, Outcome.ofAcquire, Outcome.returned.injEq] at h
    obtain ⟨rfl, rfl⟩ := h
    exact ⟨rfl, ThreadState.acquire_held hacq, rfl⟩

/-- What `pthread_mutex_lock` can return. -/
theorem lock_cases (h : pthreadMutexLock W c m s = .returned rc s') :
    (s.tls.heldLockSlots.length = 0 ∧ ∃ x, W.realLock m s.world = some (rc, x) ∧
      (rc = 0 ∧ s' = acquireTopLevelMutexFast W c m ⟨x, s.tls⟩ ∨ rc ≠ 0 ∧ s' = ⟨x, s.tls⟩)) ∨
    (s.tls.heldLockSlots.length ≠ 0 ∧ ∃ x, W.realTrylock m s.world = (rc, x) ∧ rc ≠ ebusy ∧
      (.ofAcquire (acquireMutex W c false m ⟨x, s.tls⟩) = Outcome.returned rc s' ∨
        rc ≠ 0 ∧ s' = ⟨x, s.tls⟩)) ∨
    (s.tls.heldLockSlots.length ≠ 0 ∧ ∃ x y z, W.realTrylock m s.world = (ebusy, x) ∧
      beforeBlockingMutexLock W c m x = (false, y) ∧ W.realLock m y = some (rc, z) ∧
      (.ofAcquire (acquireMutex W c true m ⟨z, s.tls⟩) = Outcome.returned rc s' ∨
        rc ≠ 0 ∧ s' = ⟨cancelWait W c z, s.tls⟩)) := by
  unfold pthreadMutexLock at h
  by_cases htop : s.tls.heldLockSlots.length = 0
  · left
    rw [if_pos htop, lockTopLevel] at h
    cases hl : W.realLock m s.world with
    | none => simp [hl] at h
    | some r =>
      obtain ⟨rc', x⟩ := r
      by_cases h0 : rc' = 0
      · simp only [hl, h0, if_true, Outcome.returned.injEq] at h
        exact ⟨htop, x, by rw [h0, h.1], .inl ⟨h.1.symm, h.2.symm⟩⟩
      · simp only [hl, h0, if_false, Outcome.returned.injEq] at h
        exact ⟨htop, x, by rw [h.1], .inr ⟨h.1 ▸ h0, h.2.symm⟩⟩
  · right
    rw [if_neg htop] at h
    obtain ⟨rc', x, hr⟩ : ∃ rc' x, W.realTrylock m s.world = (rc', x) := ⟨_, _, rfl⟩
    simp only [hr] at h
    by_cases h0 : rc' = 0
    · rw [if_pos h0] at h
      have hrc := (ofAcquire_returned h).1
      exact .inl ⟨htop, x, by rw [hr, h0, hrc], by rw [hrc]; decide, .inl h⟩
    · rw [if_neg h0] at h
      by_cases hb : rc' = ebusy
      · rw [if_pos hb, lockBusy] at h
        obtain ⟨found, y, hy⟩ : ∃ found y, beforeBlockingMutexLock W c m x = (found, y) :=
          ⟨_, _, rfl⟩
        simp only [hy] at h
        cases found with
        | true => simp at h
        | false =>
          simp only [Bool.false_eq_true, if_false] at h
          cases hl : W.realLock m y with
          | none => simp [hl] at h
          | some r =>
            obtain ⟨rc'', z⟩ := r
            simp only [hl] at h
            refine .inr ⟨htop, x, y, z, by rw [hr, hb], hy, ?_⟩
            by_cases h0' : rc'' = 0
            · rw [if_pos h0'] at h
              exact ⟨by rw [hl, h0', (ofAcquire_returned h).1], .inl h⟩
            · rw [if_neg h0'] at h
              cases h
              exact ⟨hl, .inr ⟨h0', rfl⟩⟩
      · rw [if_neg hb] at h
        cases h
        exact .inl ⟨htop, x, hr, hb, .inr ⟨h0, rfl⟩⟩

/-- What `pthread_mutex_trylock` can return. -/
theorem trylock_cases (h : pthreadMutexTrylock W c m s = .returned rc s') :
    ∃ x, W.realTrylock m s.world = (rc, x) ∧
      (rc = 0 ∧ s.tls.heldLockSlots.length = 0 ∧
          s' = acquireTopLevelMutexFast W c m ⟨x, s.tls⟩ ∨
        .ofAcquire (acquireMutex W c false m ⟨x, s.tls⟩) = Outcome.returned rc s' ∨
        rc ≠ 0 ∧ s' = ⟨x, s.tls⟩) := by
  unfold pthreadMutexTrylock at h
  obtain ⟨rc', x, hr⟩ : ∃ rc' x, W.realTrylock m s.world = (rc', x) := ⟨_, _, rfl⟩
  simp only [hr] at h
  by_cases h0 : rc' = 0
  · rw [if_pos h0] at h
    by_cases htop : s.tls.heldLockSlots.length = 0
    · rw [if_pos htop] at h
      cases h
      exact ⟨x, by rw [hr, h0], .inl ⟨rfl, htop, rfl⟩⟩
    · rw [if_neg htop] at h
      exact ⟨x, by rw [hr, h0, (ofAcquire_returned h).1], .inr (.inl h)⟩
  · rw [if_neg h0] at h
    cases h
    exact ⟨x, hr, .inr (.inr ⟨h0, rfl⟩)⟩

/-- What `pthread_mutex_unlock` can return. -/
theorem unlock_cases (h : pthreadMutexUnlock W c m s = .returned rc s') :
    ∃ x, W.realUnlock m s.world = (rc, x) ∧
      (rc = 0 ∧ s' = releaseMutex W c m ⟨x, s.tls⟩ ∨ rc ≠ 0 ∧ s' = ⟨x, s.tls⟩) := by
  unfold pthreadMutexUnlock at h
  obtain ⟨rc', x, hr⟩ : ∃ rc' x, W.realUnlock m s.world = (rc', x) := ⟨_, _, rfl⟩
  simp only [hr] at h
  by_cases h0 : rc' = 0
  · rw [if_pos h0] at h
    cases h
    exact ⟨x, by rw [hr, h0], .inl ⟨rfl, rfl⟩⟩
  · rw [if_neg h0] at h
    cases h
    exact ⟨x, hr, .inr ⟨h0, rfl⟩⟩

/-- **The stack follows the return code**, whatever path the hook took. -/
theorem call_tracked {k : Call} (h : call W c s k = .returned rc s') :
    s'.tls.heldLockSlots = tracked rc s.tls.heldLockSlots k := by
  cases k with
  | lock m =>
    rcases lock_cases h with ⟨htop, x, -, ⟨rfl, rfl⟩ | ⟨h0, rfl⟩⟩ |
      ⟨-, x, -, -, ha | ⟨h0, rfl⟩⟩ | ⟨-, x, y, z, -, -, -, ha | ⟨h0, rfl⟩⟩
    · simp [acquireTopLevelMutexFast, tracked, List.length_eq_zero_iff.mp htop]
    · simp [tracked, h0]
    · simpa [tracked, (ofAcquire_returned ha).1] using (ofAcquire_returned ha).2.1
    · simp [tracked, h0]
    · simpa [tracked, (ofAcquire_returned ha).1] using (ofAcquire_returned ha).2.1
    · simp [tracked, h0]
  | trylock m =>
    obtain ⟨x, -, ⟨rfl, htop, rfl⟩ | ha | ⟨h0, rfl⟩⟩ := trylock_cases h
    · simp [acquireTopLevelMutexFast, tracked, List.length_eq_zero_iff.mp htop]
    · simpa [tracked, (ofAcquire_returned ha).1] using (ofAcquire_returned ha).2.1
    · simp [tracked, h0]
  | unlock m =>
    obtain ⟨x, -, ⟨rfl, rfl⟩ | ⟨h0, rfl⟩⟩ := unlock_cases h
    · simp [releaseMutex, tracked, ThreadState.release_heldLockSlots]
    · simp [tracked, h0]

namespace Lawful

theorem collect (L : Lawful W holds) (selfSlot n : Nat) (w : Walk) (x : σ) :
    holds (collect W selfSlot n w x).2.2 = holds x := by
  induction n generalizing w x with
  | zero => rfl
  | succ n ih =>
    simp only [HookCalls.collect]
    split
    · exact L.loadOwner _ _
    · split
      · exact L.loadOwner _ _
      · split
        · rw [L.loadWaiting, L.loadOwner]
        · rw [ih, L.loadWaiting, L.loadOwner]

theorem beforeBlockingMutexLock (L : Lawful W holds) (m : Nat) (x : σ) :
    holds (beforeBlockingMutexLock W c m x).2 = holds x := by
  rw [HookCalls.beforeBlockingMutexLock, L.collect, L.storeWaiting]

theorem cancelWait (L : Lawful W holds) (x : σ) : holds (cancelWait W c x) = holds x :=
  L.storeWaiting _ _ _

theorem ofAcquire (L : Lawful W holds) {clear : Bool}
    (h : Outcome.ofAcquire (acquireMutex W c clear m s) = .returned rc s') :
    holds s'.world = holds s.world := by
  rw [(ofAcquire_returned h).2.2, L.storeOwner]
  split
  · exact L.cancelWait _
  · rfl

theorem trylock_owned (L : Lawful W holds) (h : W.realTrylock m x = (rc, x')) :
    holds x' = owned rc (holds x) (.trylock m) := by
  have ht := L.trylock m x
  rwa [h] at ht

/-- **The real holds follow the return code of the hook.** -/
theorem call_owned (L : Lawful W holds) {k : Call} (h : call W c s k = .returned rc s') :
    holds s'.world = owned rc (holds s.world) k := by
  cases k with
  | lock m =>
    rcases lock_cases h with ⟨-, x, hl, ⟨rfl, rfl⟩ | ⟨-, rfl⟩⟩ |
      ⟨-, x, ht, -, ha | ⟨-, rfl⟩⟩ | ⟨-, x, y, z, ht, hb, hl, ha | ⟨-, rfl⟩⟩
    · exact (L.storeOwner _ _ _).trans (L.lock _ _ _ _ hl)
    · exact L.lock _ _ _ _ hl
    · exact (L.ofAcquire ha).trans (L.trylock_owned ht)
    · exact L.trylock_owned ht
    all_goals
      -- `EBUSY` and the walk leave the holds alone
      have hx : holds x = holds s.world := L.trylock_owned ht
      have hy : holds y = holds x := by simpa [hb] using L.beforeBlockingMutexLock (c := c) m x
      have hz := L.lock _ _ _ _ hl
      rw [hy, hx] at hz
    · exact (L.ofAcquire ha).trans hz
    · exact (L.cancelWait _).trans hz
  | trylock m =>
    obtain ⟨x, ht, hs⟩ := trylock_cases h
    have hx := L.trylock_owned ht
    rcases hs with ⟨rfl, -, rfl⟩ | ha | ⟨-, rfl⟩
    · exact (L.storeOwner _ _ _).trans hx
    · exact (L.ofAcquire ha).trans hx
    · exact hx
  | unlock m =>
    obtain ⟨x, ht, hs⟩ := unlock_cases h
    have hx : holds x = owned rc (holds s.world) (.unlock m) := by
      simpa [ht] using L.unlock m s.world
    rcases hs with ⟨rfl, rfl⟩ | ⟨-, rfl⟩
    · exact (L.casOwner _ _ _).trans hx
    · exact hx

end Lawful

/-- The owner died in a real call of a hook that returned exactly when it returned
`EOWNERDEAD`. -/
theorem ownerDied_iff {k : Call} (h : call W c s k = .returned rc s') (hk : ∀ m, k ≠ .unlock m) :
    OwnerDied W c s k ↔ rc = eownerdead := by
  cases k with
  | lock m =>
    rcases lock_cases h with ⟨htop, x, hl, -⟩ | ⟨htop, x, ht, hb, -⟩ |
      ⟨htop, x, y, z, ht, hb, hl, -⟩
    · simp [OwnerDied, htop, hl]
    · simp [OwnerDied, htop, ht, hb]
    · simp [OwnerDied, htop, ht, hb, hl, ebusy, eownerdead]
  | trylock m =>
    obtain ⟨x, ht, -⟩ := trylock_cases h
    simp [OwnerDied, ht]
  | unlock m => exact absurd rfl (hk m)

theorem not_ownerDied {k : Call} (h : call W c s k = .returned rc s') (hrc : rc ≠ eownerdead) :
    ¬ OwnerDied W c s k := by
  cases k with
  | lock m => rwa [ownerDied_iff h (by simp)]
  | trylock m => rwa [ownerDied_iff h (by simp)]
  | unlock m => exact fun h => h

/-- A hook whose real call returns `EOWNERDEAD` returns it. -/
theorem returned_of_ownerDied {k : Call} (h : OwnerDied W c s k) :
    ∃ rc s', call W c s k = .returned rc s' := by
  cases k with
  | lock m =>
    by_cases htop : s.tls.heldLockSlots.length = 0
    · simp only [OwnerDied, if_pos htop, Option.map_eq_some_iff] at h
      obtain ⟨⟨_, x⟩, hl, rfl⟩ := h
      simp [call, pthreadMutexLock, htop, lockTopLevel, hl, eownerdead]
    · simp only [OwnerDied, if_neg htop, Option.map_eq_some_iff] at h
      rcases h with ht | ⟨ht, hb, ⟨_, x⟩, hl, rfl⟩
      · simp [call, pthreadMutexLock, htop, ht, eownerdead, ebusy]
      · simp [call, pthreadMutexLock, htop, ht, ebusy, lockBusy, hb, hl, eownerdead]
  | trylock m =>
    have ht : (W.realTrylock m s.world).1 = eownerdead := h
    simp [call, pthreadMutexTrylock, ht, eownerdead]
  | unlock m => exact absurd h (fun h => h)

/-- The two ways to count an acquiring code differ on `EOWNERDEAD` alone. -/
theorem appended_iff (rc : Int) (held : List Nat) (m : Nat) :
    (if rc = 0 then held ++ [m] else held) =
      (if rc = 0 ∨ rc = eownerdead then held ++ [m] else held) ↔ ¬ rc = eownerdead := by
  by_cases hd : rc = eownerdead
  · simp [hd, eownerdead]
  · simp only [hd, or_false, not_false_eq_true]

/-- **One call** keeps the stack in sync exactly when it does not meet a dead owner. -/
theorem inSync_iff (L : Lawful W holds) {k : Call} (hs : InSync holds s)
    (h : call W c s k = .returned rc s') : InSync holds s' ↔ ¬ OwnerDied W c s k := by
  have hheld := call_tracked h
  have hreal := L.call_owned h
  rw [InSync, hheld, hreal, hs]
  cases k with
  | lock m =>
    rw [ownerDied_iff h (by simp)]
    exact appended_iff rc (holds s.world) m
  | trylock m =>
    rw [ownerDied_iff h (by simp)]
    exact appended_iff rc (holds s.world) m
  | unlock m => simp [tracked, owned, OwnerDied]

/-- **The held stack and the real holds.**  Along every sequence of hooked calls the held
stack is the list of real holds exactly when no real lock or trylock that the hooks make
returns `EOWNERDEAD`. -/
theorem held_stack_in_sync (W : World σ) (holds : σ → List Nat) (L : Lawful W holds) (c : Setup)
    (s : State σ) (hs : InSync holds s) (ks : List Call) :
    AfterEach W c (InSync holds) s ks ↔ BeforeEach W c (fun s k => ¬ OwnerDied W c s k) s ks :=
  afterEach_iff_beforeEach (fun _ _ _ _ hs h => inSync_iff L hs h)
    (fun _ _ h => returned_of_ownerDied (not_not.mp h)) ks s hs

/-! ## A robust mutex -/

/-- Robust mutexes met by one thread: those it holds, those whose owner died holding them,
and the tables. -/
structure RobustWorld where
  holds : List Nat
  dead : List Nat
  owner : Nat → Option Nat
  waiting : Nat → Option Nat

namespace RobustWorld

def start (dead : List Nat) : RobustWorld := ⟨[], dead, fun _ => none, fun _ => none⟩

def lock (m : Nat) (x : RobustWorld) : Option (Int × RobustWorld) :=
  if m ∈ x.holds then none
  else if m ∈ x.dead then
    some (eownerdead, { x with holds := x.holds ++ [m], dead := x.dead.erase m })
  else some (0, { x with holds := x.holds ++ [m] })

def trylock (m : Nat) (x : RobustWorld) : Int × RobustWorld := (lock m x).getD (ebusy, x)

def unlock (m : Nat) (x : RobustWorld) : Int × RobustWorld :=
  if m ∈ x.holds then (0, { x with holds := removeHeld x.holds m }) else (1, x)

/-- The calls and accesses of a thread that runs alone. -/
def world : World RobustWorld where
  realLock := lock
  realTrylock := trylock
  realUnlock := unlock
  loadOwner l x := (x.owner l, x)
  storeOwner l v x := { x with owner := Function.update x.owner l v }
  casOwner l u x :=
    if x.owner l = some u then { x with owner := Function.update x.owner l none } else x
  loadWaiting u x := (x.waiting u, x)
  storeWaiting u v x := { x with waiting := Function.update x.waiting u v }

theorem lock_holds {m : Nat} {x x' : RobustWorld} {rc : Int} (h : lock m x = some (rc, x')) :
    x'.holds = owned rc x.holds (.lock m) := by
  unfold lock at h
  split at h
  · cases h
  · split at h <;> cases h <;> simp [owned]

theorem lawful : Lawful world RobustWorld.holds where
  lock _ _ _ _ h := lock_holds h
  trylock m x := by
    show (trylock m x).2.holds = owned (trylock m x).1 x.holds (.trylock m)
    cases h : lock m x with
    | none => simp [trylock, h, owned, ebusy, eownerdead]
    | some r =>
      rw [trylock, h]
      exact lock_holds h
  unlock m x := by
    show (unlock m x).2.holds = owned (unlock m x).1 x.holds (.unlock m)
    unfold unlock
    split <;> simp [owned]
  loadOwner _ _ := rfl
  storeOwner _ _ _ := rfl
  casOwner l u x := by
    show (if x.owner l = some u then _ else x).holds = x.holds
    split <;> rfl
  loadWaiting _ _ := rfl
  storeWaiting _ _ _ := rfl

end RobustWorld

/-- With no dead owner the stack stays in sync: nested, not last in first out, and with a
call that fails. -/
theorem held_stack_in_sync_nested :
    AfterEach RobustWorld.world ⟨.rb, 0⟩ (InSync RobustWorld.holds)
      ⟨RobustWorld.start [], ThreadState.initial⟩
        [.lock 1, .lock 2, .trylock 2, .unlock 1, .unlock 1] := by
  refine (held_stack_in_sync RobustWorld.world RobustWorld.holds RobustWorld.lawful ⟨.rb, 0⟩
    ⟨RobustWorld.start [], ThreadState.initial⟩ rfl _).mpr ?_
  refine beforeEach_cons rfl (not_ownerDied rfl (by decide)) ?_
  refine beforeEach_cons rfl (not_ownerDied rfl (by decide)) ?_
  refine beforeEach_cons rfl (not_ownerDied rfl (by decide)) ?_
  refine beforeEach_cons rfl (not_ownerDied rfl (by decide)) ?_
  exact beforeEach_cons rfl (not_ownerDied rfl (by decide)) trivial

/-- **A robust mutex whose owner died.**  The real lock returns `EOWNERDEAD` and the thread
holds the mutex; the stack stays empty. -/
theorem held_stack_out_of_sync :
    ¬ ∀ (σ : Type) (W : World σ) (holds : σ → List Nat) (c : Setup) (s : State σ),
      Lawful W holds → s.tls = ThreadState.initial → holds s.world = [] →
      ∀ ks, AfterEach W c (InSync holds) s ks := by
  intro h
  have hlock := h RobustWorld RobustWorld.world RobustWorld.holds ⟨.rb, 0⟩
    ⟨RobustWorld.start [0], ThreadState.initial⟩ RobustWorld.lawful rfl rfl [.lock 0] _ _ rfl
  have hsync : ([] : List Nat) = [0] := hlock.1
  cases hsync

end HookCalls

end ScaleLockDep
