import ScaleLockDep.HeldStack
import ScaleLockDep.Hooks
import ScaleLockDep.Programs
import ScaleLockDep.Registry

/-!
# The interposed mutex calls as programs

The hooks of `hook.c` with everything of `core.c`, `state.c` and `lockdep.h` below them, as
programs of atomic accesses that any number of threads run.  A real pthread call may return
any code.  The slot tables are read and extended under `g_meta_lock`, in one access.

A thread has the name that `gettid` gives it.  A thread may end, and a new one may get its
name.  `lockdep_potential_on_acquire` is a question: the backend behind it may
answer with any state of its own, and may change it at any time.
-/

namespace ScaleLockDep

namespace HookPrograms

open HeldStack (Tls Fault)
open Hooks (Walk)
open Programs
open Registry (CacheEntry cacheIndex)

/-! ## Slot tables -/

/-- The registered keys; the index is the slot. -/
structure SlotTable (limit : Nat) where
  keys : List Nat
  nodup : keys.Nodup
  bound : keys.length ≤ limit

namespace SlotTable

variable {limit : Nat}

def empty (limit : Nat) : SlotTable limit := ⟨[], List.nodup_nil, Nat.zero_le _⟩

def find (T : SlotTable limit) (key : Nat) : Option Nat := HeldStack.lookupLockSlot T.keys key

/-- The slot a registration gives; `none` when the table is full. -/
def slotFor (T : SlotTable limit) (key : Nat) : Option Nat :=
  match T.find key with
  | some k => some k
  | none => if T.keys.length < limit then some T.keys.length else none

/-- The table after a registration. -/
def register (T : SlotTable limit) (key : Nat) : SlotTable limit :=
  if h : key ∉ T.keys ∧ T.keys.length < limit then
    { keys := T.keys ++ [key]
      nodup := by
        rw [List.nodup_append]
        refine ⟨T.nodup, List.nodup_singleton key, ?_⟩
        rintro a ha b hb rfl
        exact h.1 (List.mem_singleton.1 hb ▸ ha)
      bound := by
        rw [List.length_append, List.length_singleton]
        exact h.2 }
  else T

end SlotTable

/-! ## States -/

/-- `β` is the state of the potential backend, with the lock-order graph. -/
structure Shared (β : Type) where
  locks : SlotTable maxLockSlots
  threads : SlotTable maxThreadSlots
  owner : Nat → Option Nat
  ownerPc : Nat → Nat
  waiting : Nat → Option Nat
  waitingPc : Nat → Nat
  backend : β

structure Local where
  tls : Tls
  threadSlot : Option Nat
  cache : Nat → CacheEntry

abbrev View (β : Type) := Local × Shared β

def Local.initial : Local := ⟨Tls.initial, none, fun _ => ⟨0, 0⟩⟩

/-- The tables are zero-filled. -/
def Shared.initial {β : Type} (b : β) : Shared β where
  locks := SlotTable.empty _
  threads := SlotTable.empty _
  owner := fun _ => some 0
  ownerPc := fun _ => 0
  waiting := fun _ => some 0
  waitingPc := fun _ => 0
  backend := b

namespace Shared

variable {β : Type}

def setOwner (s : Shared β) (l : Nat) (v : Option Nat) : Shared β :=
  { s with owner := Function.update s.owner l v }

def setOwnerPc (s : Shared β) (l pc : Nat) : Shared β :=
  { s with ownerPc := Function.update s.ownerPc l pc }

def setWaiting (s : Shared β) (k : Nat) (v : Option Nat) : Shared β :=
  { s with waiting := Function.update s.waiting k v }

def setWaitingPc (s : Shared β) (k pc : Nat) : Shared β :=
  { s with waitingPc := Function.update s.waitingPc k pc }

/-- The section of `lockdep_lookup_or_create_lock_slot` under `g_meta_lock`. -/
def registerLock (s : Shared β) (m : Nat) : Shared β :=
  if m ∉ s.locks.keys ∧ s.locks.keys.length < maxLockSlots then
    { s with
      locks := s.locks.register m
      owner := Function.update s.owner s.locks.keys.length none
      ownerPc := Function.update s.ownerPc s.locks.keys.length 0 }
  else s

/-- The section of `lockdep_get_or_register_thread_slot` under `g_meta_lock`. -/
def registerThread (s : Shared β) (t : Nat) : Shared β :=
  if t ∉ s.threads.keys ∧ s.threads.keys.length < maxThreadSlots then
    { s with
      threads := s.threads.register t
      waiting := Function.update s.waiting s.threads.keys.length none
      waitingPc := Function.update s.waitingPc s.threads.keys.length 0 }
  else s

end Shared

/-- The real functions, and `lockdep_potential_on_acquire`. -/
inductive Query
  | realLock (m : Nat)
  | realTrylock (m : Nat)
  | realUnlock (m : Nat)
  | potentialOnAcquire (threadSlot lockSlot acquirePc : Nat)
  deriving DecidableEq, Repr

/-- A return code, or the backend afterwards; `none` is its panic. -/
abbrev Query.Answer (β : Type) : Query → Type
  | .realLock _ | .realTrylock _ | .realUnlock _ => Int
  | .potentialOnAcquire _ _ _ => Option β

abbrev Code (β α : Type) := Prog (Query.Answer β) (View β) α

/-- The options, and what the program does. -/
structure Setup where
  mode : LockdepMode
  reportSites : Bool
  /-- a thread may end while it holds locks -/
  abandons : Bool
  deriving Repr

variable {β : Type}

/-! ## `state.c` -/

def panic {α : Type} : Code β α := .exit 1

/-- `lockdep_get_or_register_thread_slot` of the thread `tid`. -/
def getOrRegisterThreadSlot (tid : Nat) : Code β Nat := do
  match ← .get fun v => v.1.threadSlot with
  | some k => pure k
  | none => do
      let slot ← .exchange
        (fun v => ((v.2.threads.slotFor tid).elim v.1 fun k => { v.1 with threadSlot := some k },
          v.2.registerThread tid))
        fun v => v.2.threads.slotFor tid
      match slot with
      | some k => pure k
      | none => panic

/-- `lockdep_lookup_or_create_lock_slot`. -/
def lookupOrCreateLockSlot (m : Nat) : Code β Nat := do
  match ← .exchange (fun v => (v.1, v.2.registerLock m)) fun v => v.2.locks.slotFor m with
  | some l => pure l
  | none => panic

/-- `lockdep_lookup_lock_slot_in_cache`. -/
def lookupLockSlotInCache (m : Nat) : Code β (Option Nat) :=
  .get fun v =>
    if (v.1.cache (cacheIndex m)).mutex = m then some (v.1.cache (cacheIndex m)).lockSlot
    else none

/-- `lockdep_store_lock_slot_in_cache`. -/
def storeLockSlotInCache (m l : Nat) : Code β Unit :=
  .modify fun v => ({ v.1 with cache := Function.update v.1.cache (cacheIndex m) ⟨m, l⟩ }, v.2)

/-- `lockdep_lookup_or_create_lock_slot_cached`. -/
def lookupOrCreateLockSlotCached (m : Nat) : Code β Nat := do
  match ← lookupLockSlotInCache m with
  | some l => pure l
  | none => do
      let l ← lookupOrCreateLockSlot m
      storeLockSlotInCache m l
      pure l

/-- `lockdep_lookup_lock_slot_cached`, with `lockdep_lookup_lock_slot` inside. -/
def lookupLockSlotCached (m : Nat) : Code β (Option Nat) := do
  match ← lookupLockSlotInCache m with
  | some l => pure (some l)
  | none => do
      match ← .get fun v => v.2.locks.find m with
      | none => pure none
      | some l => do
          storeLockSlotInCache m l
          pure (some l)

/-- A change of `tls_thread_state`. -/
def updateTls (f : Tls → Except Fault Tls) : Code β Unit := do
  let r ← .exchange
    (fun v => ((match f v.1.tls with
      | .ok ts => { v.1 with tls := ts }
      | .error _ => v.1), v.2))
    fun v => f v.1.tls
  match r with
  | .ok _ => pure ()
  | .error .panic => panic
  | .error .outOfRange => .exit 139

/-- A read of `tls_thread_state` or of a table entry it names. -/
def readTls {α : Type} (f : View β → Except Fault α) : Code β α := do
  match ← .get f with
  | .ok a => pure a
  | .error .panic => panic
  | .error .outOfRange => .exit 139

/-! ## `lockdep.h` -/

def currentThreadSlot (tid : Nat) : Code β Nat := do
  match ← .get fun v => v.1.threadSlot with
  | some k => pure k
  | none => getOrRegisterThreadSlot tid

def storeOwnerAcquirePc (c : Setup) (l pc : Nat) : Code β Unit :=
  if c.reportSites = true then .modify fun v => (v.1, v.2.setOwnerPc l pc) else pure ()

def storeOwner (l k : Nat) : Code β Unit := .modify fun v => (v.1, v.2.setOwner l (some k))

/-- The compare-exchange from `k`, and `lockdep_clear_owner_acquire_pc` when it succeeds. -/
def clearOwner (c : Setup) (l k : Nat) : Code β Unit := do
  let hit ← .exchange
    (fun v => (v.1, if v.2.owner l = some k then v.2.setOwner l none else v.2))
    fun v => decide (v.2.owner l = some k)
  if hit = true then storeOwnerAcquirePc c l 0 else pure ()

def lookupLockSlotCachedFast (m : Nat) : Code β (Option Nat) := do
  match ← lookupLockSlotInCache m with
  | some l => pure (some l)
  | none => lookupLockSlotCached m

def lookupOrCreateLockSlotCachedFast (m : Nat) : Code β Nat := do
  match ← lookupLockSlotInCache m with
  | some l => pure l
  | none => lookupOrCreateLockSlotCached m

def acquireTopLevelMutexFast (c : Setup) (tid m acquirePc : Nat) : Code β Unit := do
  let selfSlot ← currentThreadSlot tid
  let lockSlot ← lookupOrCreateLockSlotCachedFast m
  updateTls (·.acquireTopLevel c.mode lockSlot)
  storeOwnerAcquirePc c lockSlot acquirePc
  storeOwner lockSlot selfSlot

def releaseTopLevelMutexFast (c : Setup) (tid m : Nat) : Code β Bool := do
  let count ← .get fun v => v.1.tls.heldLockSlotCount
  if count ≠ 1 then pure false
  else do
    let lockSlot ← readTls fun v => v.1.tls.load 0
    let addr ← readTls fun v => HeldStack.addr v.2.locks.keys lockSlot
    if addr ≠ some m then pure false
    else do
      let selfSlot ← currentThreadSlot tid
      clearOwner c lockSlot selfSlot
      updateTls fun ts => do
        let ts ← ts.noteThreadReleasesLockSlot c.mode lockSlot
        .ok { ts with heldLockSlotCount := 0 }
      pure true

/-! ## `core.c` -/

/-- The loop of `lockdep_collect_actual_deadlock_chain`, with the iterations that are left. -/
def collect (selfSlot : Nat) : Nat → Walk → Code β (Bool × Walk)
  | 0, w => pure (false, w)
  | n + 1, w => do
      match ← .get fun v => v.2.owner w.currentLockSlot with
      | none => pure (false, w)
      | some u =>
          let w' : Walk :=
            ⟨w.threadChain ++ [u], w.lockChain ++ [w.currentLockSlot], w.currentLockSlot⟩
          if u = selfSlot then pure (true, w')
          else do
            match ← .get fun v => v.2.waiting u with
            | none => pure (false, w')
            | some l => collect selfSlot n { w' with currentLockSlot := l }

/-- The store of `waiting_on_pc`. -/
def storeWaitingPc (c : Setup) (k pc : Nat) : Code β Unit :=
  if c.reportSites = true then .modify fun v => (v.1, v.2.setWaitingPc k pc) else pure ()

def storeWaiting (k : Nat) (v : Option Nat) : Code β Unit :=
  .modify fun w => (w.1, w.2.setWaiting k v)

def beforeBlockingMutexLock (c : Setup) (tid m waitingPc : Nat) : Code β Bool := do
  let selfSlot ← currentThreadSlot tid
  let target ← lookupOrCreateLockSlotCachedFast m
  storeWaiting selfSlot (some target)
  storeWaitingPc c selfSlot waitingPc
  let r ← collect selfSlot maxThreadSlots (Walk.start selfSlot target)
  pure r.1

/-- The stores of `lockdep_cancel_wait`, and of `lockdep_acquire_mutex` after a wait. -/
def clearWait (c : Setup) (selfSlot : Nat) : Code β Unit := do
  storeWaiting selfSlot none
  storeWaitingPc c selfSlot 0

def cancelWait (c : Setup) (tid : Nat) : Code β Unit := do
  let selfSlot ← currentThreadSlot tid
  clearWait c selfSlot

def potentialOnAcquire (selfSlot lockSlot acquirePc : Nat) : Code β Unit := do
  let b : Option β ← .query (Query.potentialOnAcquire selfSlot lockSlot acquirePc)
  match b with
  | some b => .modify fun v => (v.1, { v.2 with backend := b })
  | none => panic

def acquireMutex (c : Setup) (tid m : Nat) (clearWaitState : Bool) (acquirePc : Nat) :
    Code β Unit := do
  let selfSlot ← currentThreadSlot tid
  let lockSlot ← lookupOrCreateLockSlotCachedFast m
  let count ← .get fun v => v.1.tls.heldLockSlotCount
  if count = 0 then updateTls (·.acquireTopLevel c.mode lockSlot)
  else do
    potentialOnAcquire selfSlot lockSlot acquirePc
    updateTls (·.pushHeldLockSlot c.mode lockSlot)
  if clearWaitState = true then clearWait c selfSlot else pure ()
  storeOwnerAcquirePc c lockSlot acquirePc
  storeOwner lockSlot selfSlot

/-- `lockdep_release_mutex`; an unknown mutex only gets a warning. -/
def releaseMutex (c : Setup) (tid m : Nat) : Code β Unit := do
  let selfSlot ← currentThreadSlot tid
  let top ← readTls fun v => HeldStack.tryLookupTopHeldLockSlot v.2.locks.keys v.1.tls m
  let slot ← match top with
    | some l => pure (some l)
    | none => lookupLockSlotCachedFast m
  match slot with
  | none => pure ()
  | some l => do
      clearOwner c l selfSlot
      updateTls (·.releaseLockSlot c.mode l)

/-! ## `hook.c` -/

def realLock (m : Nat) : Code β Int := .query (Query.realLock m)
def realTrylock (m : Nat) : Code β Int := .query (Query.realTrylock m)
def realUnlock (m : Nat) : Code β Int := .query (Query.realUnlock m)

def ebusy : Int := 16

/-- `lockdep_capture_callsite_if_enabled`. -/
def captureCallsite (c : Setup) (callsite : Nat) : Nat := if c.reportSites = true then callsite else 0

/-- `pthread_mutex_lock` of a thread that holds nothing. -/
def lockTopLevel (c : Setup) (tid m callsite : Nat) : Code β Int := do
  let rc ← realLock m
  if rc = 0 then do
    acquireTopLevelMutexFast c tid m (captureCallsite c callsite)
    pure rc
  else pure rc

/-- `pthread_mutex_lock` once the trylock has returned `EBUSY`. -/
def lockBusy (c : Setup) (tid m callsite : Nat) : Code β Int := do
  let found ← beforeBlockingMutexLock c tid m (captureCallsite c callsite)
  if found = true then .exit 66
  else do
    let rc ← realLock m
    if rc = 0 then do
      acquireMutex c tid m true (captureCallsite c callsite)
      pure rc
    else do
      cancelWait c tid
      pure rc

def pthreadMutexLock (c : Setup) (tid m callsite : Nat) : Code β Int := do
  let count ← .get fun v => v.1.tls.heldLockSlotCount
  if count = 0 then lockTopLevel c tid m callsite
  else do
    let rc ← realTrylock m
    if rc = 0 then do
      acquireMutex c tid m false (captureCallsite c callsite)
      pure 0
    else if rc = ebusy then lockBusy c tid m callsite
    else pure rc

/-- What `pthread_mutex_unlock` does once the real call has returned 0. -/
def noteUnlock (c : Setup) (tid m : Nat) : Code β Unit := do
  let done ← releaseTopLevelMutexFast c tid m
  if done = true then pure () else releaseMutex c tid m

def pthreadMutexUnlock (c : Setup) (tid m : Nat) : Code β Int := do
  let rc ← realUnlock m
  if rc = 0 then do
    noteUnlock c tid m
    pure rc
  else pure rc

def pthreadMutexTrylock (c : Setup) (tid m callsite : Nat) : Code β Int := do
  let rc ← realTrylock m
  if rc = 0 then do
    let count ← .get fun v => v.1.tls.heldLockSlotCount
    if count = 0 then do
      acquireTopLevelMutexFast c tid m (captureCallsite c callsite)
      pure rc
    else do
      acquireMutex c tid m false (captureCallsite c callsite)
      pure rc
  else pure rc

/-! ## Threads -/

inductive Call
  | lock (m callsite : Nat)
  | trylock (m callsite : Nat)
  | unlock (m : Nat)
  deriving DecidableEq, Repr

def Call.mutex : Call → Nat
  | .lock m _ | .trylock m _ | .unlock m => m

def hook (c : Setup) (tid : Nat) : Call → Code β Int
  | .lock m callsite => pthreadMutexLock c tid m callsite
  | .trylock m callsite => pthreadMutexTrylock c tid m callsite
  | .unlock m => pthreadMutexUnlock c tid m

abbrev Config (β : Type) := Programs.Config (Query.Answer β) Call Local (Shared β) Int

/-- Any number of threads, none of which passes a NULL mutex. -/
def machine (c : Setup) (b : β) :
    Machine (Query.Answer β) Call Local (Shared β) Int Unit β where
  own := Local.initial
  shared := Shared.initial b
  code := hook c
  valid k := k.mutex ≠ 0
  between _ own :=
    if c.abandons = true ∨ own.tls.heldLockSlotCount = 0 then some Local.initial else none
  outside b s := { s with backend := b }

end HookPrograms

end ScaleLockDep
