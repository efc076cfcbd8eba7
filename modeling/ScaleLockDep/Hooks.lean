import ScaleLockDep.Runs
import ScaleLockDep.ThreadState

/-!
# The interposed mutex calls, step by step

The hooks of `hook.c` with the actual-deadlock part of `core.c`, as a transition
system over any number of threads.  One step is one access to shared state: a
call of a real pthread function, a load of the wait-chain walk, a store of
`waiting_on_lock_slot` or `owner_thread_slot`, the owner compare-exchange.
Thread-local work rides on the step before it.  The program is arbitrary: a
thread outside the hooks may call lock or trylock on any mutex, unlock on any
mutex it holds, and end.

A thread is named by its slot.  Registration looks the slot up by tid and nothing
frees it, so the next thread with the tid of an ended one takes over its slot,
the owner entries that name it included.

Stores go through a memory that is either sequentially consistent or buffers
them: `MemoryModel.buffered` keeps every release store in the storing thread's
FIFO buffer until a flush; the real pthread calls and the compare-exchange empty
the caller's buffer.

The lock-order part of `lockdep_acquire_mutex` touches none of this state; it is
modelled with its backends.
-/

namespace ScaleLockDep

namespace Hooks

open ThreadState

/-! ## Memory -/

inductive MemoryModel
  | sc
  | buffered
  deriving DecidableEq, Repr

/-- A release store of `owner_thread_slot` or `waiting_on_lock_slot`. -/
inductive Write
  | owner (l : Nat) (v : Option Nat)
  | waiting (t : Nat) (v : Option Nat)
  deriving DecidableEq, Repr

/-- `g_lock_slots[l].owner_thread_slot` and
`g_thread_slots[t].waiting_on_lock_slot`.  `pubAt t` is history: the position of
`t`'s last wait among all waits that became visible. -/
structure Memory where
  owner : Nat → Option Nat
  waiting : Nat → Option Nat
  clock : Nat
  pubAt : Nat → Nat

def Memory.apply (m : Memory) : Write → Memory
  | .owner l v => { m with owner := Function.update m.owner l v }
  | .waiting t none => { m with waiting := Function.update m.waiting t none }
  | .waiting t (some l) =>
      { m with
        waiting := Function.update m.waiting t (some l)
        clock := m.clock + 1
        pubAt := Function.update m.pubAt t m.clock }

def Memory.applyAll (m : Memory) (ws : List Write) : Memory := ws.foldl Memory.apply m

/-- The newest value `ws` stores to the owner of `l`, else `v`. -/
def ownerIn (ws : List Write) (l : Nat) (v : Option Nat) : Option Nat :=
  ws.foldl (fun v w => match w with
    | .owner k x => if k = l then x else v
    | .waiting _ _ => v) v

/-- The newest value `ws` stores to the awaited lock of `t`, else `v`. -/
def waitingIn (ws : List Write) (t : Nat) (v : Option Nat) : Option Nat :=
  ws.foldl (fun v w => match w with
    | .waiting u x => if u = t then x else v
    | .owner _ _ => v) v

/-! ## The wait-chain walk -/

/-- The locals of `lockdep_collect_actual_deadlock_chain`; `edge_count` is the
length of `lockChain`. -/
structure Walk where
  threadChain : List Nat
  lockChain : List Nat
  currentLockSlot : Nat
  deriving DecidableEq, Repr

def Walk.start (self target : Nat) : Walk := ⟨[self], [], target⟩

inductive WalkStep
  | done
  | closed (w : Walk)
  | more (w : Walk)

/-- The first half of an iteration, on the loaded owner. -/
def Walk.onOwner (self : Nat) (w : Walk) : Option Nat → WalkStep
  | none => .done
  | some u =>
      let w' : Walk :=
        ⟨w.threadChain ++ [u], w.lockChain ++ [w.currentLockSlot], w.currentLockSlot⟩
      if u = self then .closed w' else .more w'

/-- The second half, on the loaded awaited lock, with the loop condition of the
next iteration. -/
def Walk.onWaiting (w : Walk) : Option Nat → WalkStep
  | none => .done
  | some l =>
      if w.lockChain.length < maxThreadSlots then .more { w with currentLockSlot := l } else .done

/-- The thread whose wait is loaded next. -/
def Walk.lastThread (w : Walk) : Nat := w.threadChain.getLastD 0

/-! ## Program points of a thread -/

/-- `m` is the mutex of the call.  `top` marks the path of a thread that holds
no lock. -/
inductive Pc
  | outside
  /-- `pthread_mutex_lock`, about to call the real trylock -/
  | lockTry (m : Nat)
  /-- `lockdep_before_blocking_mutex_lock`, about to store the wait -/
  | publish (m : Nat)
  | loadOwner (m : Nat) (w : Walk)
  | loadWaiting (m : Nat) (w : Walk)
  /-- `lockdep_before_blocking_mutex_lock` returned 1; `_exit(66)` is next -/
  | reported (m : Nat) (w : Walk)
  /-- about to call the real lock -/
  | callLock (m : Nat) (top : Bool)
  /-- inside the real lock -/
  | blocked (m : Nat) (top : Bool)
  | cancelWait (m : Nat)
  /-- the real call returned 0; `lockdep_acquire_top_level_mutex_fast` is next -/
  | topAcquired (m : Nat)
  /-- the real call returned 0; `lockdep_acquire_mutex` is next -/
  | acquired (m : Nat) (clear : Bool)
  | clearWait (m : Nat)
  | storeOwner (m : Nat)
  /-- `pthread_mutex_trylock`, about to call the real trylock -/
  | tryCall (m : Nat)
  /-- `pthread_mutex_unlock`, about to call the real unlock -/
  | unlockCall (m : Nat)
  /-- the real unlock returned 0; the owner compare-exchange is next -/
  | released (m : Nat)
  deriving DecidableEq, Repr

structure Thread where
  pc : Pc
  tls : ThreadState

/-! ## States and steps -/

structure Setup where
  memory : MemoryModel
  mode : LockdepMode
  recursive : Nat → Bool

/-- `real m` is the holder of the real mutex `m` with its lock count; `abandoned m`:
its holder has ended, and nobody is granted it any more. -/
structure State where
  real : Nat → Option (Nat × Nat)
  abandoned : Nat → Bool
  mem : Memory
  buf : Nat → List Write
  thr : Nat → Thread
  exited : Option Nat

def initial : State where
  real := fun _ => none
  abandoned := fun _ => false
  mem := ⟨fun _ => none, fun _ => none, 1, fun _ => 0⟩
  buf := fun _ => []
  thr := fun _ => ⟨.outside, ThreadState.initial⟩
  exited := none

namespace State

def setPc (s : State) (t : Nat) (pc : Pc) : State :=
  { s with thr := Function.update s.thr t { s.thr t with pc := pc } }

def setThread (s : State) (t : Nat) (pc : Pc) (ts : ThreadState) : State :=
  { s with thr := Function.update s.thr t ⟨pc, ts⟩ }

def held (s : State) (t : Nat) : List Nat := (s.thr t).tls.heldLockSlots

/-- The process ends with this exit code. -/
def exit (s : State) (code : Nat) : State := { s with exited := some code }

/-- Empty the buffer of `t` into memory. -/
def drain (s : State) (t : Nat) : State :=
  { s with mem := s.mem.applyAll (s.buf t), buf := Function.update s.buf t [] }

/-- A release store by `t`; without buffering it is visible at once. -/
def store (c : Setup) (s : State) (t : Nat) (w : Write) : State :=
  let s' : State := { s with buf := Function.update s.buf t (s.buf t ++ [w]) }
  match c.memory with
  | .sc => s'.drain t
  | .buffered => s'

/-- The oldest buffered store `w` of `t` becomes visible; `ws` stay buffered. -/
def popStore (s : State) (t : Nat) (w : Write) (ws : List Write) : State :=
  { s with mem := s.mem.apply w, buf := Function.update s.buf t ws }

def loadOwner (s : State) (t l : Nat) : Option Nat := ownerIn (s.buf t) l (s.mem.owner l)

def loadWaiting (s : State) (t u : Nat) : Option Nat := waitingIn (s.buf t) u (s.mem.waiting u)

/-- The real mutex would be granted to `t` at once. -/
def grantable (c : Setup) (s : State) (t m : Nat) : Bool :=
  !s.abandoned m &&
    match s.real m with
    | none => true
    | some (u, _) => c.recursive m && u == t

def lockCount (s : State) (t m : Nat) : Nat :=
  match s.real m with
  | none => 0
  | some (u, k) => if u = t then k else 0

/-- The real mutex `m` is locked once more by `t`. -/
def grant (s : State) (t m : Nat) : State :=
  { s with real := Function.update s.real m (some (t, s.lockCount t m + 1)) }

/-- The real mutex `m` is unlocked once by `t`. -/
def ungrant (s : State) (t m : Nat) : State :=
  { s with
    real := Function.update s.real m
      (if s.lockCount t m ≤ 1 then none else some (t, s.lockCount t m - 1)) }

/-- The real mutexes that `t` holds are never unlocked again. -/
def abandon (s : State) (t : Nat) : State :=
  { s with
    real := fun m => if s.lockCount t m = 0 then s.real m else none
    abandoned := fun m => s.abandoned m || s.lockCount t m != 0 }

/-- The strong compare-exchange of the release paths. -/
def casOwner (s : State) (t m : Nat) : State :=
  if s.mem.owner m = some t then { s with mem := s.mem.apply (.owner m none) } else s

end State

/-- `lock`, `trylock` and `unlock` start a hooked call; `run` takes the next step
of the current hook; `fail` lets the real call return an error code other than
`EBUSY`; `flush` makes the oldest buffered store visible; `ends` ends the thread, and
from then on the slot is that of the next thread with its tid. -/
inductive Move
  | lock (m : Nat)
  | trylock (m : Nat)
  | unlock (m : Nat)
  | run
  | fail
  | flush
  | ends
  deriving DecidableEq, Repr

structure Act where
  tid : Nat
  move : Move
  deriving DecidableEq, Repr

open State

/-- The walk goes on, reports, or lets the hook call the real lock. -/
def afterWalk (m : Nat) (next : Nat → Walk → Pc) : WalkStep → Pc
  | .done => .callLock m false
  | .closed w => .reported m w
  | .more w => next m w

/-- The next step of the hook `t` is in; `none` while the real lock blocks. -/
def runStep (c : Setup) (s : State) (t : Nat) : Option State :=
  match (s.thr t).pc with
  | .outside => none
  | .lockTry m =>
      if s.grantable c t m then some (((s.drain t).grant t m).setPc t (.acquired m false))
      else some ((s.drain t).setPc t (.publish m))
  | .publish m =>
      some ((s.store c t (.waiting t (some m))).setPc t (.loadOwner m (Walk.start t m)))
  | .loadOwner m w =>
      some (s.setPc t
        (afterWalk m .loadWaiting (w.onOwner t (s.loadOwner t w.currentLockSlot))))
  | .loadWaiting m w =>
      some (s.setPc t (afterWalk m .loadOwner (w.onWaiting (s.loadWaiting t w.lastThread))))
  | .reported _ _ => some (s.exit 66)
  | .callLock m top => some ((s.drain t).setPc t (.blocked m top))
  | .blocked m top =>
      if s.grantable c t m then
        some (((s.drain t).grant t m).setPc t (if top then .topAcquired m else .acquired m true))
      else none
  | .cancelWait _ => some ((s.store c t (.waiting t none)).setPc t .outside)
  | .topAcquired m =>
      some ((s.store c t (.owner m (some t))).setThread t .outside
        ((s.thr t).tls.acquireTopLevel c.mode m))
  | .acquired m clear =>
      match (s.thr t).tls.acquire c.mode m with
      | none => some (s.exit 1)
      | some ts => some (s.setThread t (if clear then .clearWait m else .storeOwner m) ts)
  | .clearWait m => some ((s.store c t (.waiting t none)).setPc t (.storeOwner m))
  | .storeOwner m => some ((s.store c t (.owner m (some t))).setPc t .outside)
  | .tryCall m =>
      if s.grantable c t m then
        some (((s.drain t).grant t m).setPc t
          (if s.held t = [] then .topAcquired m else .acquired m false))
      else some ((s.drain t).setPc t .outside)
  | .unlockCall m => some (((s.drain t).ungrant t m).setPc t (.released m))
  | .released m =>
      some (((s.drain t).casOwner t m).setThread t .outside ((s.thr t).tls.release c.mode m))

/-- The real call `t` is in returns an error code. -/
def failStep (s : State) (t : Nat) : Option State :=
  match (s.thr t).pc with
  | .lockTry _ | .tryCall _ | .unlockCall _ => some ((s.drain t).setPc t .outside)
  | .blocked m top => some ((s.drain t).setPc t (if top then .outside else .cancelWait m))
  | _ => none

def flushStep (s : State) (t : Nat) : Option State :=
  match s.buf t with
  | [] => none
  | w :: ws => some (s.popStore t w ws)

def callStep (s : State) (t : Nat) (pc : Pc) : Option State :=
  if (s.thr t).pc = .outside then some (s.setPc t pc) else none

/-- The thread ends with its stores visible; the next one starts with fresh thread-local
state. -/
def endStep (s : State) (t : Nat) : Option State :=
  if (s.thr t).pc = .outside then
    some (((s.drain t).abandon t).setThread t .outside ThreadState.initial)
  else none

def step (c : Setup) (s : State) (a : Act) : Option State :=
  if s.exited ≠ none ∨ maxThreadSlots ≤ a.tid then none
  else
    match a.move with
    | .lock m =>
        callStep s a.tid (if s.held a.tid = [] then .callLock m true else .lockTry m)
    | .trylock m => callStep s a.tid (.tryCall m)
    | .unlock m => if s.lockCount a.tid m = 0 then none else callStep s a.tid (.unlockCall m)
    | .run => runStep c s a.tid
    | .fail => failStep s a.tid
    | .flush => flushStep s a.tid
    | .ends => endStep s a.tid

/-- The hooks under setup `c`. -/
def system (c : Setup) : Runs.System State Act := ⟨initial, step c⟩

theorem step_run {c : Setup} {s : State} {t : Nat} (hx : s.exited = none)
    (ht : t < maxThreadSlots) : (system c).step s ⟨t, .run⟩ = runStep c s t := by
  simp [system, step, hx, ht]

/-! ## Step inversion -/

/-- What one step of thread `t` can do on the move `mv`. -/
inductive Step (c : Setup) (s : State) (t : Nat) (mv : Move) : State → Prop
  | call (pc : Pc) (h : (s.thr t).pc = .outside)
      (hpc : (∃ m, mv = .lock m ∧ pc = .callLock m true ∧ s.held t = []) ∨
        (∃ m, mv = .lock m ∧ pc = .lockTry m ∧ s.held t ≠ []) ∨
        (∃ m, mv = .trylock m ∧ pc = .tryCall m) ∨
        ∃ m, mv = .unlock m ∧ pc = .unlockCall m ∧ s.lockCount t m ≠ 0) : Step c s t mv (s.setPc t pc)
  | granted (m : Nat) (pc : Pc) (hg : s.grantable c t m = true)
      (hpc : ((s.thr t).pc = .lockTry m ∧ pc = .acquired m false) ∨
        ((s.thr t).pc = .blocked m true ∧ pc = .topAcquired m) ∨
        ((s.thr t).pc = .blocked m false ∧ pc = .acquired m true) ∨
        ((s.thr t).pc = .tryCall m ∧ s.held t = [] ∧ pc = .topAcquired m) ∨
        ((s.thr t).pc = .tryCall m ∧ s.held t ≠ [] ∧ pc = .acquired m false)) :
      Step c s t mv (((s.drain t).grant t m).setPc t pc)
  | busy (m : Nat) (hg : s.grantable c t m = false) (pc : Pc)
      (hpc : ((s.thr t).pc = .lockTry m ∧ pc = .publish m) ∨
        ((s.thr t).pc = .tryCall m ∧ pc = .outside)) :
      Step c s t mv ((s.drain t).setPc t pc)
  | fail (m : Nat) (pc : Pc)
      (hpc : ((s.thr t).pc = .lockTry m ∧ pc = .outside) ∨
        ((s.thr t).pc = .tryCall m ∧ pc = .outside) ∨
        ((s.thr t).pc = .unlockCall m ∧ pc = .outside) ∨
        ((s.thr t).pc = .blocked m true ∧ pc = .outside) ∨
        ((s.thr t).pc = .blocked m false ∧ pc = .cancelWait m)) :
      Step c s t mv ((s.drain t).setPc t pc)
  | publish (m : Nat) (h : (s.thr t).pc = .publish m) :
      Step c s t mv ((s.store c t (.waiting t (some m))).setPc t (.loadOwner m (Walk.start t m)))
  | loadOwner (m : Nat) (w : Walk) (h : (s.thr t).pc = .loadOwner m w) (hmv : mv = .run) :
      Step c s t mv (s.setPc t
        (afterWalk m .loadWaiting (w.onOwner t (s.loadOwner t w.currentLockSlot))))
  | loadWaiting (m : Nat) (w : Walk) (h : (s.thr t).pc = .loadWaiting m w) :
      Step c s t mv (s.setPc t
        (afterWalk m .loadOwner (w.onWaiting (s.loadWaiting t w.lastThread))))
  | exit (code : Nat) (h : (∃ m w, (s.thr t).pc = .reported m w ∧ code = 66) ∨
        (∃ m clear, (s.thr t).pc = .acquired m clear ∧ code = 1)) : Step c s t mv (s.exit code)
  | enter (m : Nat) (top : Bool) (h : (s.thr t).pc = .callLock m top) :
      Step c s t mv ((s.drain t).setPc t (.blocked m top))
  | cancelWait (m : Nat) (h : (s.thr t).pc = .cancelWait m) :
      Step c s t mv ((s.store c t (.waiting t none)).setPc t .outside)
  | topAcquired (m : Nat) (h : (s.thr t).pc = .topAcquired m) :
      Step c s t mv ((s.store c t (.owner m (some t))).setThread t .outside
        ((s.thr t).tls.acquireTopLevel c.mode m))
  | push (m : Nat) (clear : Bool) (ts : ThreadState) (h : (s.thr t).pc = .acquired m clear)
      (hts : (s.thr t).tls.acquire c.mode m = some ts) :
      Step c s t mv (s.setThread t (if clear then .clearWait m else .storeOwner m) ts)
  | clearWait (m : Nat) (h : (s.thr t).pc = .clearWait m) :
      Step c s t mv ((s.store c t (.waiting t none)).setPc t (.storeOwner m))
  | storeOwner (m : Nat) (h : (s.thr t).pc = .storeOwner m) :
      Step c s t mv ((s.store c t (.owner m (some t))).setPc t .outside)
  | ungrant (m : Nat) (h : (s.thr t).pc = .unlockCall m) :
      Step c s t mv (((s.drain t).ungrant t m).setPc t (.released m))
  | released (m : Nat) (h : (s.thr t).pc = .released m) :
      Step c s t mv (((s.drain t).casOwner t m).setThread t .outside
        ((s.thr t).tls.release c.mode m))
  | flush (w : Write) (ws : List Write) (h : s.buf t = w :: ws) :
      Step c s t mv (s.popStore t w ws)
  | ends (h : (s.thr t).pc = .outside) (hmv : mv = .ends) :
      Step c s t mv (((s.drain t).abandon t).setThread t .outside ThreadState.initial)

theorem callStep_cases {s s' : State} {t : Nat} {pc : Pc} (h : callStep s t pc = some s') :
    (s.thr t).pc = .outside ∧ s' = s.setPc t pc := by
  unfold callStep at h
  split at h
  · rename_i hp
    exact ⟨hp, (Option.some.inj h).symm⟩
  · cases h

theorem runStep_cases {c : Setup} {s s' : State} {t : Nat} {mv : Move}
    (h : runStep c s t = some s') (hmv : mv = .run) : Step c s t mv s' := by
  unfold runStep at h
  split at h
  case h_1 => cases h
  case h_2 m hp =>
    split at h
    · rename_i hg
      cases h; exact .granted m _ hg (Or.inl ⟨hp, rfl⟩)
    · rename_i hg
      cases h; exact .busy m (by simpa using hg) _ (Or.inl ⟨hp, rfl⟩)
  case h_3 m hp => cases h; exact .publish m hp
  case h_4 m w hp => cases h; exact .loadOwner m w hp hmv
  case h_5 m w hp => cases h; exact .loadWaiting m w hp
  case h_6 m w hp => cases h; exact .exit 66 (Or.inl ⟨m, w, hp, rfl⟩)
  case h_7 m top hp => cases h; exact .enter m top hp
  case h_8 m top hp =>
    split at h
    · rename_i hg
      cases h
      cases top
      · exact .granted m _ hg (Or.inr (Or.inr (Or.inl ⟨hp, rfl⟩)))
      · exact .granted m _ hg (Or.inr (Or.inl ⟨hp, rfl⟩))
    · cases h
  case h_9 m hp => cases h; exact .cancelWait m hp
  case h_10 m hp => cases h; exact .topAcquired m hp
  case h_11 m clear hp =>
    split at h
    · cases h; exact .exit 1 (Or.inr ⟨m, clear, hp, rfl⟩)
    · rename_i ts hts
      cases h; exact .push m clear ts hp hts
  case h_12 m hp => cases h; exact .clearWait m hp
  case h_13 m hp => cases h; exact .storeOwner m hp
  case h_14 m hp =>
    split at h
    · rename_i hg
      cases h
      by_cases hh : s.held t = []
      · rw [if_pos hh]
        exact .granted m _ hg (Or.inr (Or.inr (Or.inr (Or.inl ⟨hp, hh, rfl⟩))))
      · rw [if_neg hh]
        exact .granted m _ hg (Or.inr (Or.inr (Or.inr (Or.inr ⟨hp, hh, rfl⟩))))
    · rename_i hg
      cases h; exact .busy m (by simpa using hg) _ (Or.inr ⟨hp, rfl⟩)
  case h_15 m hp => cases h; exact .ungrant m hp
  case h_16 m hp => cases h; exact .released m hp

theorem failStep_cases {c : Setup} {s s' : State} {t : Nat} {mv : Move}
    (h : failStep s t = some s') : Step c s t mv s' := by
  unfold failStep at h
  split at h
  case h_1 m hp => cases h; exact .fail m _ (Or.inl ⟨hp, rfl⟩)
  case h_2 m hp => cases h; exact .fail m _ (Or.inr (Or.inl ⟨hp, rfl⟩))
  case h_3 m hp => cases h; exact .fail m _ (Or.inr (Or.inr (Or.inl ⟨hp, rfl⟩)))
  case h_4 m top hp =>
    cases h
    cases top
    · exact .fail m _ (Or.inr (Or.inr (Or.inr (Or.inr ⟨hp, rfl⟩))))
    · exact .fail m _ (Or.inr (Or.inr (Or.inr (Or.inl ⟨hp, rfl⟩))))
  case h_5 => cases h

/-- **Step inversion.** -/
theorem step_cases {c : Setup} {s s' : State} {a : Act} (h : (system c).step s a = some s') :
    s.exited = none ∧ a.tid < maxThreadSlots ∧ Step c s a.tid a.move s' := by
  change step c s a = some s' at h
  unfold step at h
  split at h
  · cases h
  · rename_i hok
    simp only [ne_eq, not_or, not_not, not_le] at hok
    refine ⟨hok.1, hok.2, ?_⟩
    split at h
    case h_1 m hm =>
      obtain ⟨hp, rfl⟩ := callStep_cases h
      refine .call _ hp ?_
      by_cases hh : s.held a.tid = []
      · exact Or.inl ⟨m, hm, by simp [hh], hh⟩
      · exact Or.inr (Or.inl ⟨m, hm, by simp [hh], hh⟩)
    case h_2 m hm =>
      obtain ⟨hp, rfl⟩ := callStep_cases h
      exact .call _ hp (Or.inr (Or.inr (Or.inl ⟨m, hm, rfl⟩)))
    case h_3 m hm =>
      split at h
      · cases h
      · rename_i hc
        obtain ⟨hp, rfl⟩ := callStep_cases h
        exact .call _ hp (Or.inr (Or.inr (Or.inr ⟨m, hm, rfl, hc⟩)))
    case h_4 hm => exact runStep_cases h hm
    case h_5 => exact failStep_cases h
    case h_6 =>
      unfold flushStep at h
      split at h
      · cases h
      · rename_i w ws hb
        cases h; exact .flush w ws hb
    case h_7 hm =>
      unfold endStep at h
      split at h
      · rename_i hp
        cases h; exact .ends hp hm
      · cases h

end Hooks

end ScaleLockDep
