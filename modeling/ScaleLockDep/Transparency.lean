import ScaleLockDep.HookCalls
import Mathlib.Algebra.BigOperators.Group.Finset.Piecewise
import Mathlib.Algebra.Order.BigOperators.Group.Finset

/-!
# Interposition of a sequential program

The hooks over the real functions of a program with one thread: normal, recursive and
error-checking mutexes under POSIX.

* `Synced`: the held stack counts the real locks, and the thread owns every mutex that it
  can block on;
* `agrees`: a hooked call does what the plain call does, and exits with 66 where the plain
  call never returns;
* `transparent_iff`: a run within the limits is transparent exactly when no error-checking
  mutex is locked again by its holder;
* `not_transparent`: the hook exits where the plain call returns `EDEADLK`.
-/

namespace ScaleLockDep

namespace HookCalls

open ThreadState (removeHeld)

/-! ## The real functions -/

inductive MutexKind
  | normal
  | recursive
  | errorcheck
  deriving DecidableEq, Repr

def eperm : Int := 1
def eagain : Int := 11

/-- The kinds of the mutexes, and what POSIX leaves open: how often a recursive mutex can
be locked, and what unlocking a free normal mutex returns. -/
structure Posix where
  kind : Nat → MutexKind
  recursionLimit : Nat
  undefinedUnlock : Nat → Int

namespace Posix

/-- The mutex `m` is locked once more; `r m` counts the locks of `m`. -/
def locked (r : Nat → Nat) (m : Nat) : Nat → Nat := Function.update r m (r m + 1)

def unlocked (r : Nat → Nat) (m : Nat) : Nat → Nat := Function.update r m (r m - 1)

def lockRecursive (P : Posix) (m : Nat) (r : Nat → Nat) : Int × (Nat → Nat) :=
  if r m < P.recursionLimit then (0, locked r m) else (eagain, r)

def lock (P : Posix) (m : Nat) (r : Nat → Nat) : Option (Int × (Nat → Nat)) :=
  match P.kind m with
  | .recursive => some (P.lockRecursive m r)
  | .normal => if r m = 0 then some (0, locked r m) else none
  | .errorcheck => some (if r m = 0 then (0, locked r m) else (edeadlk, r))

def trylock (P : Posix) (m : Nat) (r : Nat → Nat) : Int × (Nat → Nat) :=
  match P.kind m with
  | .recursive => P.lockRecursive m r
  | .normal | .errorcheck => if r m = 0 then (0, locked r m) else (ebusy, r)

def unlock (P : Posix) (m : Nat) (r : Nat → Nat) : Int × (Nat → Nat) :=
  if r m ≠ 0 then (0, unlocked r m)
  else
    match P.kind m with
    | .normal => (P.undefinedUnlock m, r)
    | .recursive | .errorcheck => (eperm, r)

/-- The un-interposed call; `none` if it never returns. -/
def plain (P : Posix) (r : Nat → Nat) : Call → Option (Int × (Nat → Nat))
  | .lock m => P.lock m r
  | .trylock m => some (P.trylock m r)
  | .unlock m => some (P.unlock m r)

/-- The mutexes and the tables of a program with one thread. -/
structure Solo where
  count : Nat → Nat
  owner : Nat → Option Nat
  waiting : Nat → Option Nat

def world (P : Posix) : World Solo where
  realLock m x := (P.lock m x.count).map fun r => (r.1, { x with count := r.2 })
  realTrylock m x := ((P.trylock m x.count).1, { x with count := (P.trylock m x.count).2 })
  realUnlock m x := ((P.unlock m x.count).1, { x with count := (P.unlock m x.count).2 })
  loadOwner l x := (x.owner l, x)
  storeOwner l v x := { x with owner := Function.update x.owner l v }
  casOwner l u x :=
    if x.owner l = some u then { x with owner := Function.update x.owner l none } else x
  loadWaiting u x := (x.waiting u, x)
  storeWaiting u v x := { x with waiting := Function.update x.waiting u v }

/-! ## Runs -/

/-- No mutex is locked, and the tables are as the constructor leaves them. -/
def start : State Solo :=
  ⟨⟨fun _ => 0, fun _ => none, fun _ => none⟩, ThreadState.initial⟩

/-- `Q` holds of every call of the un-interposed program in the state it is made in. -/
def Along (P : Posix) (Q : (Nat → Nat) → Call → Prop) : (Nat → Nat) → List Call → Prop
  | _, [] => True
  | r, k :: ks => Q r k ∧ ∀ rc r', P.plain r k = some (rc, r') → Along P Q r' ks

end Posix

def Call.mutex : Call → Nat
  | .lock m | .trylock m | .unlock m => m

namespace Posix

/-- The locks the thread holds, over all lock slots. -/
def holdCount (r : Nat → Nat) : Nat := ∑ m ∈ Finset.range maxLockSlots, r m

/-- Every mutex has a lock slot, and the thread never holds more than
`LOCKDEP_MAX_HELD_LOCK_SLOTS` locks. -/
def WithinLimits (P : Posix) : (Nat → Nat) → List Call → Prop :=
  P.Along fun r k => k.mutex < maxLockSlots ∧
    ∀ rc r', P.plain r k = some (rc, r') → holdCount r' ≤ maxHeldLockSlots

/-- The call locks an error-checking mutex that the thread already holds. -/
def CheckedRelock (P : Posix) (r : Nat → Nat) : Call → Prop
  | .lock m => P.kind m = .errorcheck ∧ r m ≠ 0
  | .trylock _ | .unlock _ => False

/-- The hooked call ends as the plain call does, or exits with 66 at a lock that never
returns. -/
def SameEffect (k : Call) : Option (Int × (Nat → Nat)) → Outcome Solo → Prop
  | some r, .returned rc s => rc = r.1 ∧ s.world.count = r.2
  | none, .blocked => True
  | none, .exited code => code = 66 ∧ ∃ m, k = .lock m
  | some _, .blocked => False
  | some _, .exited _ => False
  | none, .returned _ _ => False

/-- The hooked program in state `s` and the plain one with lock counts `r` do the same. -/
def Transparent (P : Posix) (c : Setup) : State Solo → (Nat → Nat) → List Call → Prop
  | _, _, [] => True
  | s, r, k :: ks => SameEffect k (P.plain r k) (call P.world c s k) ∧
      ∀ rc r' rc' s', P.plain r k = some (rc, r') → call P.world c s k = .returned rc' s' →
        Transparent P c s' r' ks

/-! ## The invariant -/

structure Synced (P : Posix) (c : Setup) (s : State Solo) : Prop where
  slots : ∀ m, m ∈ s.tls.heldLockSlots → m < maxLockSlots
  stack : ∀ m, s.tls.heldLockSlots.count m = s.world.count m
  single : ∀ m, P.kind m ≠ .recursive → s.world.count m ≤ 1
  owner : ∀ m, P.kind m ≠ .recursive → s.world.count m ≠ 0 →
    s.world.owner m = some c.selfSlot

variable {P : Posix} {c : Setup} {s s' : State Solo} {m : Nat} {r r' : Nat → Nat} {rc : Int}

theorem synced_start : Synced P c start where
  slots m hm := by cases hm
  stack _ := rfl
  single _ _ := Nat.zero_le _
  owner _ _ h := absurd rfl h

theorem Synced.length (h : Synced P c s) :
    s.tls.heldLockSlots.length = holdCount s.world.count := by
  have hsum := Multiset.sum_count_eq_card (s := Finset.range maxLockSlots)
    (m := (s.tls.heldLockSlots : Multiset Nat)) fun m hm => Finset.mem_range.mpr (h.slots m hm)
  simp only [Multiset.coe_count, Multiset.coe_card] at hsum
  rw [← hsum, holdCount]
  exact Finset.sum_congr rfl fun m _ => h.stack m

/-- The owner of a free mutex does not matter. -/
theorem Synced.congr (h : Synced P c s) (htls : s'.tls = s.tls)
    (hcount : s'.world.count = s.world.count)
    (howner : ∀ k, s.world.count k ≠ 0 → s'.world.owner k = s.world.owner k) :
    Synced P c s' where
  slots m hm := h.slots m (htls ▸ hm)
  stack m := by rw [htls, hcount, h.stack m]
  single m hm := by rw [hcount]; exact h.single m hm
  owner m hm h0 := by
    rw [hcount] at h0
    rw [howner m h0]
    exact h.owner m hm h0

/-- One more lock of `m`. -/
theorem Synced.acquire (h : Synced P c s) (hm : m < maxLockSlots)
    (hfree : P.kind m ≠ .recursive → s.world.count m = 0)
    (hheld : s'.tls.heldLockSlots = s.tls.heldLockSlots ++ [m])
    (hcount : s'.world.count = locked s.world.count m)
    (howner : s'.world.owner = Function.update s.world.owner m (some c.selfSlot)) :
    Synced P c s' where
  slots k hk := by
    rw [hheld, List.mem_append, List.mem_singleton] at hk
    rcases hk with hk | rfl
    · exact h.slots k hk
    · exact hm
  stack k := by
    rw [hheld, hcount, List.count_append, h.stack k, locked]
    by_cases hk : k = m
    · subst hk
      simp
    · have hzero : List.count k [m] = 0 := List.count_eq_zero.mpr (by simpa using hk)
      rw [Function.update_of_ne hk, hzero, Nat.add_zero]
  single k hk := by
    rw [hcount, locked]
    by_cases hkm : k = m
    · subst hkm
      rw [Function.update_self, hfree hk]
    · rw [Function.update_of_ne hkm]
      exact h.single k hk
  owner k hk h0 := by
    rw [howner]
    by_cases hkm : k = m
    · subst hkm
      rw [Function.update_self]
    · rw [hcount, locked, Function.update_of_ne hkm] at h0
      rw [Function.update_of_ne hkm]
      exact h.owner k hk h0

/-- One lock of `m` less. -/
theorem Synced.release (h : Synced P c s) (h0 : s.world.count m ≠ 0)
    (hd : s'.tls = s.tls.release c.mode m) (hcount : s'.world.count = unlocked s.world.count m)
    (howner : ∀ k, k ≠ m → s'.world.owner k = s.world.owner k) : Synced P c s' where
  slots k hk := by
    rw [hd, ThreadState.release_heldLockSlots] at hk
    exact h.slots k (ThreadState.mem_of_mem_removeHeld hk)
  stack k := by
    have hmem : m ∈ s.tls.heldLockSlots := by
      rw [← List.count_pos_iff, h.stack m]
      omega
    have hc := ThreadState.count_release c.mode s.tls m k hmem
    rw [h.stack k] at hc
    rw [hd, hcount, unlocked]
    by_cases hk : k = m
    · subst hk
      rw [Function.update_self]
      simp only [if_true] at hc
      omega
    · rw [Function.update_of_ne hk]
      rw [if_neg (Ne.symm hk)] at hc
      exact hc
  single k hk := by
    have hle := h.single k hk
    rw [hcount, unlocked]
    by_cases hkm : k = m
    · subst hkm
      rw [Function.update_self]
      omega
    · rwa [Function.update_of_ne hkm]
  owner k hk hne := by
    rw [hcount, unlocked] at hne
    by_cases hkm : k = m
    · subst hkm
      have hle := h.single k hk
      rw [Function.update_self] at hne
      omega
    · rw [Function.update_of_ne hkm] at hne
      rw [howner k hkm]
      exact h.owner k hk hne

/-! ## The simulation -/

/-- What lock and trylock do to a mutex of each kind and state. -/
theorem trylock_cases (P : Posix) (m : Nat) (r : Nat → Nat) :
    (P.trylock m r = (0, locked r m) ∧ P.lock m r = some (0, locked r m) ∧
      (P.kind m ≠ .recursive → r m = 0)) ∨
    (P.trylock m r = (eagain, r) ∧ P.lock m r = some (eagain, r)) ∨
    (P.trylock m r = (ebusy, r) ∧ P.kind m ≠ .recursive ∧ r m ≠ 0 ∧
      (P.kind m = .normal → P.lock m r = none)) := by
  cases hk : P.kind m with
  | recursive =>
    by_cases hlim : r m < P.recursionLimit
    · simp [trylock, lock, lockRecursive, hk, hlim]
    · simp [trylock, lock, lockRecursive, hk, hlim]
  | normal => by_cases h0 : r m = 0 <;> simp [trylock, lock, hk, h0]
  | errorcheck => by_cases h0 : r m = 0 <;> simp [trylock, lock, hk, h0]

theorem acquire_isSome {mode : LockdepMode} {ts : ThreadState}
    (h : ts.heldLockSlots.length < maxHeldLockSlots) : ∃ ts', ts.acquire mode m = some ts' := by
  unfold ThreadState.acquire ThreadState.pushHeldLockSlot
  split
  · exact ⟨_, rfl⟩
  · rw [if_neg (Nat.not_le.mpr h)]
    exact ⟨_, rfl⟩

/-- The end of a successful lock or trylock, on the fast or the general path. -/
theorem Synced.acquired (h : Synced P c s) (hm : m < maxLockSlots)
    (hfree : P.kind m ≠ .recursive → s.world.count m = 0)
    (hroom : holdCount (locked s.world.count m) ≤ maxHeldLockSlots) :
    let t : State Solo := { s with world := { s.world with count := locked s.world.count m } }
    (∃ s', Outcome.ofAcquire (acquireMutex P.world c false m t) = .returned 0 s' ∧
      s'.world.count = locked s.world.count m ∧ Synced P c s') ∧
    (s.tls.heldLockSlots.length = 0 →
      Synced P c (acquireTopLevelMutexFast P.world c m t)) := by
  intro t
  have htop (hzero : s.tls.heldLockSlots.length = 0) :
      Synced P c (acquireTopLevelMutexFast P.world c m t) :=
    h.acquire hm hfree (by simp [acquireTopLevelMutexFast, List.length_eq_zero_iff.mp hzero]) rfl
      rfl
  refine ⟨?_, htop⟩
  -- the stack after the push has as many entries as the thread then holds locks
  have hlen : s.tls.heldLockSlots.length < maxHeldLockSlots := by
    have hnext : Synced P c
        ⟨⟨locked s.world.count m, Function.update s.world.owner m (some c.selfSlot),
          s.world.waiting⟩, { s.tls with heldLockSlots := s.tls.heldLockSlots ++ [m] }⟩ :=
      h.acquire hm hfree rfl rfl rfl
    have hle := hnext.length
    simp only [List.length_append, List.length_singleton] at hle
    omega
  obtain ⟨ts, hts⟩ : ∃ ts, s.tls.acquire c.mode m = some ts := acquire_isSome hlen
  refine ⟨⟨P.world.storeOwner m (some c.selfSlot) t.world, ts⟩, ?_, rfl, ?_⟩
  · simp [acquireMutex, t, hts, Outcome.ofAcquire]
  · exact h.acquire hm hfree (ThreadState.acquire_held hts) rfl rfl

/-- A thread that finds itself as the owner reports a circle of one. -/
theorem beforeBlocking_self {x : Solo} (h : x.owner m = some c.selfSlot) :
    (beforeBlockingMutexLock P.world c m x).1 = true := by
  simp [beforeBlockingMutexLock, maxThreadSlots, collect, Hooks.Walk.start, world, h]

/-- **A busy mutex is the thread's own**, and the hook exits. -/
theorem lock_busy_exits (h : Synced P c s) (ht : P.trylock m s.world.count = (ebusy, s.world.count))
    (hk : P.kind m ≠ .recursive) (h0 : s.world.count m ≠ 0) :
    call P.world c s (.lock m) = .exited 66 := by
  have hheld : s.tls.heldLockSlots.length ≠ 0 := by
    intro hzero
    have hcount := h.stack m
    rw [List.length_eq_zero_iff.mp hzero] at hcount
    exact h0 hcount.symm
  have hreal : P.world.realTrylock m s.world = (ebusy, s.world) := by simp [world, ht]
  have hfound := beforeBlocking_self (P := P) (c := c) (h.owner m hk h0)
  simp [call, pthreadMutexLock, hheld, hreal, lockBusy, hfound, ebusy]

/-- What the hook and the plain call do in one step. -/
def Agree (P : Posix) (c : Setup) (s : State Solo) (k : Call) : Prop :=
  SameEffect k (P.plain s.world.count k) (call P.world c s k) ∧
    ∀ rc s', call P.world c s k = .returned rc s' → Synced P c s'

theorem agree_of_returned {k : Call} (hp : P.plain s.world.count k = some (rc, r'))
    (hc : call P.world c s k = .returned rc s') (hr : s'.world.count = r') (hs : Synced P c s') :
    Agree P c s k := by
  refine ⟨?_, fun rc' t ht => ?_⟩
  · rw [hp, hc]
    exact ⟨rfl, hr⟩
  · rw [hc] at ht
    cases ht
    exact hs

/-- **One call**: the hook does what the plain call does unless an error-checking mutex is
locked again. -/
theorem lock_simulates (h : Synced P c s) (hm : m < maxLockSlots)
    (hroom : ∀ rc r', P.lock m s.world.count = some (rc, r') → holdCount r' ≤ maxHeldLockSlots)
    (hk : ¬ P.CheckedRelock s.world.count (.lock m)) : Agree P c s (.lock m) := by
  rcases trylock_cases P m s.world.count with ⟨ht, hl, hfree⟩ | ⟨ht, hl⟩ | ⟨ht, hkind, h0, hl⟩
  · obtain ⟨⟨s', hs', hcount, hsync⟩, htop⟩ := h.acquired hm hfree (hroom _ _ hl)
    by_cases hzero : s.tls.heldLockSlots.length = 0
    · refine agree_of_returned hl ?_ rfl (htop hzero)
      simp [call, pthreadMutexLock, hzero, lockTopLevel, world, hl]
    · refine agree_of_returned hl ?_ hcount hsync
      simpa [call, pthreadMutexLock, hzero, world, ht] using hs'
  · refine agree_of_returned hl ?_ (Eq.refl s.world.count) h
    by_cases hzero : s.tls.heldLockSlots.length = 0
    · simp [call, pthreadMutexLock, hzero, lockTopLevel, world, hl, eagain]
    · simp [call, pthreadMutexLock, hzero, world, ht, eagain, ebusy]
  · -- the thread holds the mutex itself
    have hnormal : P.kind m = .normal := by
      cases hkm : P.kind m with
      | normal => rfl
      | recursive => exact absurd hkm hkind
      | errorcheck => exact absurd ⟨hkm, h0⟩ hk
    have hexit := lock_busy_exits h ht hkind h0
    refine ⟨?_, fun rc s' hs' => ?_⟩
    · rw [hexit, plain, hl hnormal]
      exact ⟨rfl, m, rfl⟩
    · rw [hexit] at hs'
      cases hs'

theorem trylock_simulates (h : Synced P c s) (hm : m < maxLockSlots)
    (hroom : holdCount (P.trylock m s.world.count).2 ≤ maxHeldLockSlots) :
    Agree P c s (.trylock m) := by
  have hp : P.plain s.world.count (.trylock m) = some (P.trylock m s.world.count) := rfl
  rcases trylock_cases P m s.world.count with ⟨ht, hl, hfree⟩ | ⟨ht, hl⟩ | ⟨ht, -⟩
  · rw [ht] at hp hroom
    obtain ⟨⟨s', hs', hcount, hsync⟩, htop⟩ := h.acquired hm hfree hroom
    by_cases hzero : s.tls.heldLockSlots.length = 0
    · refine agree_of_returned hp ?_ rfl (htop hzero)
      simp [call, pthreadMutexTrylock, hzero, world, ht]
    · refine agree_of_returned hp ?_ hcount hsync
      simpa [call, pthreadMutexTrylock, hzero, world, ht] using hs'
  · rw [ht] at hp
    refine agree_of_returned hp ?_ (Eq.refl s.world.count) h
    simp [call, pthreadMutexTrylock, world, ht, eagain]
  · rw [ht] at hp
    refine agree_of_returned hp ?_ (Eq.refl s.world.count) h
    simp [call, pthreadMutexTrylock, world, ht, ebusy]

theorem casOwner_owner (P : Posix) (x : Solo) {k : Nat} (hk : k ≠ m) :
    (P.world.casOwner m c.selfSlot x).owner k = x.owner k := by
  simp only [world]
  split
  · exact Function.update_of_ne hk _ _
  · rfl

theorem casOwner_count (P : Posix) (x : Solo) : (P.world.casOwner m c.selfSlot x).count = x.count := by
  simp only [world]
  split <;> rfl

theorem unlock_simulates (h : Synced P c s) : Agree P c s (.unlock m) := by
  obtain ⟨rc, r', hu⟩ : ∃ rc r', P.unlock m s.world.count = (rc, r') := ⟨_, _, rfl⟩
  have hp : P.plain s.world.count (.unlock m) = some (rc, r') := by rw [plain, hu]
  have hcall : call P.world c s (.unlock m) =
      if rc = 0 then .returned 0
        (releaseMutex P.world c m { s with world := { s.world with count := r' } })
      else .returned rc { s with world := { s.world with count := r' } } := by
    simp [call, pthreadMutexUnlock, world, hu]
  by_cases h0 : s.world.count m = 0
  · -- a free mutex: whatever is returned, nothing is released
    obtain rfl : r' = s.world.count := by
      rw [unlock, if_neg (not_not.mpr h0)] at hu
      split at hu <;> cases hu <;> rfl
    by_cases hrc : rc = 0
    · rw [if_pos hrc] at hcall
      subst hrc
      refine agree_of_returned hp hcall (casOwner_count P _) (h.congr ?_ (casOwner_count P _) ?_)
      · rcases ThreadState.release_held c.mode s.tls m with ⟨i, hi, -⟩ | ⟨-, hsame⟩
        · have hmem := List.count_pos_iff.mpr (List.mem_of_getElem? hi)
          rw [h.stack m, h0] at hmem
          exact absurd hmem (Nat.lt_irrefl 0)
        · exact hsame
      · intro k hk
        exact casOwner_owner P _ fun hkm => hk (hkm ▸ h0)
    · rw [if_neg hrc] at hcall
      exact agree_of_returned hp hcall rfl h
  · rw [unlock, if_pos h0] at hu
    cases hu
    rw [if_pos rfl] at hcall
    exact agree_of_returned hp hcall (casOwner_count P _)
      (h.release h0 rfl (casOwner_count P _) fun k hk => casOwner_owner P _ hk)

theorem agrees (h : Synced P c s) {k : Call} (hm : k.mutex < maxLockSlots)
    (hroom : ∀ rc r', P.plain s.world.count k = some (rc, r') → holdCount r' ≤ maxHeldLockSlots)
    (hk : ¬ P.CheckedRelock s.world.count k) : Agree P c s k := by
  cases k with
  | lock m => exact lock_simulates h hm hroom hk
  | trylock m => exact trylock_simulates h hm (hroom _ _ rfl)
  | unlock m => exact unlock_simulates h

/-! ## Whole runs -/

/-- **One call** agrees exactly when it is not the second lock of an error-checking mutex. -/
theorem sameEffect_iff (h : Synced P c s) {k : Call} (hm : k.mutex < maxLockSlots)
    (hroom : ∀ rc r', P.plain s.world.count k = some (rc, r') → holdCount r' ≤ maxHeldLockSlots) :
    SameEffect k (P.plain s.world.count k) (call P.world c s k) ↔
      ¬ P.CheckedRelock s.world.count k := by
  constructor
  · intro hsame hre
    cases k with
    | lock m =>
      obtain ⟨hk, h0⟩ := hre
      have ht : P.trylock m s.world.count = (ebusy, s.world.count) := by simp [trylock, hk, h0]
      rw [lock_busy_exits h ht (by rw [hk]; decide) h0] at hsame
      simp [plain, lock, hk, SameEffect] at hsame
    | trylock m => exact hre
    | unlock m => exact hre
  · intro hk
    exact (agrees h hm hroom hk).1

theorem transparent_from (hs : Synced P c s) (hr : s.world.count = r) {ks : List Call}
    (hlimits : P.WithinLimits r ks) :
    Transparent P c s r ks ↔ P.Along (fun r k => ¬ P.CheckedRelock r k) r ks := by
  induction ks generalizing s r with
  | nil => exact Iff.rfl
  | cons k ks ih =>
    subst hr
    obtain ⟨⟨hm, hroom⟩, hlater⟩ := hlimits
    have hiff := sameEffect_iff (c := c) hs hm hroom
    constructor
    · rintro ⟨hsame, hnext⟩
      have hk := hiff.mp hsame
      refine ⟨hk, fun rc r' hp => ?_⟩
      obtain ⟨s', hc, hcount⟩ : ∃ s', call P.world c s k = .returned rc s' ∧
          s'.world.count = r' := by
        rw [hp] at hsame
        cases hc : call P.world c s k with
        | returned rc' s' =>
          rw [hc] at hsame
          exact ⟨s', by rw [hsame.1], hsame.2⟩
        | blocked =>
          rw [hc] at hsame
          exact absurd hsame (fun h => h)
        | exited code =>
          rw [hc] at hsame
          exact absurd hsame (fun h => h)
      exact (ih ((agrees hs hm hroom hk).2 rc s' hc) hcount (hlater rc r' hp)).mp
        (hnext rc r' rc s' hp hc)
    · rintro ⟨hk, hnext⟩
      have hagree := agrees hs hm hroom hk
      refine ⟨hagree.1, fun rc r' rc' s' hp hc => ?_⟩
      have hsame := hagree.1
      rw [hp, hc] at hsame
      exact (ih (hagree.2 rc' s' hc) hsame.2 (hlater rc r' hp)).mpr (hnext rc r' hp)

/-- **Transparency.**  Within the slot and held-stack limits, the hooked program and the plain
one return the same codes and leave the mutexes in the same states, and the process exits
only at a lock that never returns, exactly when the program never locks an error-checking
mutex that it already holds. -/
theorem transparent_iff (P : Posix) (c : Setup) (ks : List Call)
    (hlimits : P.WithinLimits (fun _ => 0) ks) :
    Transparent P c start (fun _ => 0) ks ↔
      P.Along (fun r k => ¬ P.CheckedRelock r k) (fun _ => 0) ks :=
  transparent_from synced_start rfl hlimits

/-! ## Error-checking mutexes -/

theorem along_cons {Q : (Nat → Nat) → Call → Prop} {k : Call} {ks : List Call}
    (hp : P.plain r k = some (rc, r')) (hk : Q r k) (hks : P.Along Q r' ks) :
    P.Along Q r (k :: ks) := by
  refine ⟨hk, fun rc' r'' hp' => ?_⟩
  rw [hp] at hp'
  cases hp'
  exact hks

theorem plain_le {k : Call} (hp : P.plain r k = some (rc, r')) (i : Nat) :
    r' i ≤ r i + if i = k.mutex then 1 else 0 := by
  have hlocked (m : Nat) : locked r m i ≤ r i + if i = m then 1 else 0 := by
    by_cases hi : i = m <;> simp [locked, hi]
  have htry (m : Nat) : (P.trylock m r).2 i ≤ r i + if i = m then 1 else 0 := by
    rcases trylock_cases P m r with ⟨ht, -⟩ | ⟨ht, -⟩ | ⟨ht, -⟩ <;> rw [ht]
    · exact hlocked m
    · exact Nat.le_add_right _ _
    · exact Nat.le_add_right _ _
  cases k with
  | lock m =>
    rcases trylock_cases P m r with ⟨-, hl, -⟩ | ⟨-, hl⟩ | ⟨-, hk, h0, hl⟩
    · cases hl.symm.trans hp
      exact hlocked m
    · cases hl.symm.trans hp
      exact Nat.le_add_right _ _
    · cases hkm : P.kind m with
      | normal => cases (hl hkm).symm.trans hp
      | recursive => exact absurd hkm hk
      | errorcheck =>
        simp only [plain, lock, hkm, if_neg h0] at hp
        cases hp
        exact Nat.le_add_right _ _
  | trylock m =>
    have hr : P.trylock m r = (rc, r') := Option.some.inj hp
    have hle := htry m
    rwa [hr] at hle
  | unlock m =>
    have hr : P.unlock m r = (rc, r') := Option.some.inj hp
    have hle : (P.unlock m r).2 i ≤ r i := by
      unfold unlock
      split
      · by_cases hi : i = m <;> simp [unlocked, hi]
      · split <;> exact Nat.le_refl _
    rw [hr] at hle
    exact hle.trans (Nat.le_add_right _ _)

theorem holdCount_plain_le {k : Call} (hp : P.plain r k = some (rc, r')) :
    holdCount r' ≤ holdCount r + 1 := by
  have hle : holdCount r' ≤ ∑ i ∈ Finset.range maxLockSlots, (r i + if i = k.mutex then 1 else 0) :=
    Finset.sum_le_sum fun i _ => plain_le hp i
  rw [Finset.sum_add_distrib, Finset.sum_ite_eq'] at hle
  refine hle.trans (Nat.add_le_add_left ?_ _)
  split <;> omega

/-- A short program is within the limits. -/
theorem withinLimits_of_length {ks : List Call} (hm : ∀ k ∈ ks, k.mutex < maxLockSlots)
    (hlen : holdCount r + ks.length ≤ maxHeldLockSlots) : P.WithinLimits r ks := by
  induction ks generalizing r with
  | nil => trivial
  | cons k ks ih =>
    rw [List.length_cons] at hlen
    refine ⟨⟨hm k List.mem_cons_self, fun rc r' hp => ?_⟩, fun rc r' hp => ?_⟩
    · have hle := holdCount_plain_le hp
      omega
    · have hle := holdCount_plain_le hp
      exact ih (fun k hk => hm k (List.mem_cons_of_mem _ hk)) (by omega)

/-- Mutex 0 is normal, 1 recursive, 2 error-checking; glibc unlocks a free normal mutex. -/
def mixed : Posix where
  kind m := if m = 0 then .normal else if m = 1 then .recursive else .errorcheck
  recursionLimit := 2 ^ 32 - 1
  undefinedUnlock _ := 0

/-- Nested and not last in first out, with busy trylocks and a failing unlock, up to a lock
that never returns. -/
def mixedCalls : List Call :=
  [.lock 1, .lock 2, .trylock 1, .trylock 2, .lock 0, .unlock 1, .unlock 2, .unlock 2, .lock 0]

theorem transparent_mixed : Transparent mixed ⟨.global, 0⟩ start (fun _ => 0) mixedCalls := by
  refine (transparent_iff mixed ⟨.global, 0⟩ mixedCalls
    (withinLimits_of_length (by decide) (by simp [holdCount, mixedCalls, maxHeldLockSlots]))).mpr ?_
  refine along_cons rfl (fun h => absurd h.1 (by decide)) ?_
  refine along_cons rfl (fun h => h.2 rfl) ?_
  refine along_cons rfl (fun h => h) ?_
  refine along_cons rfl (fun h => h) ?_
  refine along_cons rfl (fun h => h.2 rfl) ?_
  refine along_cons rfl (fun h => h) ?_
  refine along_cons rfl (fun h => h) ?_
  refine along_cons rfl (fun h => h) ?_
  exact ⟨fun h => absurd h.1 (by decide), fun rc r' h => by cases h⟩

/-- **The hook exits where the plain call returns `EDEADLK`**: an error-checking mutex locked
twice. -/
theorem not_transparent :
    ¬ ∀ (P : Posix) (c : Setup) (ks : List Call), P.WithinLimits (fun _ => 0) ks →
      Transparent P c start (fun _ => 0) ks := by
  intro h
  have ht := h mixed ⟨.global, 0⟩ [.lock 2, .lock 2]
    (withinLimits_of_length (by decide) (by simp [holdCount, maxHeldLockSlots]))
  obtain ⟨hsame, -⟩ := ht.2 _ _ _ _ rfl rfl
  exact hsame

end Posix

end HookCalls

end ScaleLockDep
