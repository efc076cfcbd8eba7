import ScaleLockDep.AppendTable
import ScaleLockDep.Runs
import ScaleLockDep.ThreadState

/-!
# Slot registries and lock-slot caches, step by step

The registration and lookup functions of `state.c` and `lockdep.h`, called by any number
of threads.  One step is one access to shared memory: the test-and-set of `g_meta_lock`,
the load of a count, one comparison of a scan, one store.

* `run`, `step`: one step of a thread inside its call, and of any thread;
* `step_cases`: what one step can do.
-/

namespace ScaleLockDep.Registry

def tlsLockCacheSize : Nat := 64

/-- `lockdep_tls_lock_cache_index`. -/
def cacheIndex (mutex : Nat) : Nat := (mutex >>> 3) &&& (tlsLockCacheSize - 1)

/-! ## States -/

/-- What a thread does under `g_meta_lock`: `lockdep_lookup_lock_slot`,
`lockdep_lookup_or_create_lock_slot` (`cached` when the slot goes into the cache then), or
`lockdep_get_or_register_thread_slot`. -/
inductive Goal
  | lockSlot (create cached : Bool) (mutex : Nat)
  | threadSlot
  deriving DecidableEq, Repr

inductive Pc
  | outside
  /-- the test inlined by the `_cached_fast` functions -/
  | fast (create : Bool) (mutex : Nat)
  /-- `lockdep_lookup_lock_slot_in_cache` -/
  | cache (create : Bool) (mutex : Nat)
  /-- the test-and-set of `lockdep_meta_lock` -/
  | metaLock (g : Goal)
  | loadCount (g : Goal)
  /-- about to compare entry `i` of `n` -/
  | scan (g : Goal) (i n : Nat)
  | storeEntry (g : Goal) (n : Nat)
  | storeCount (g : Goal) (n : Nat)
  /-- the store of `tls_thread_slot` -/
  | storeSlot (l : Nat)
  | unlock (g : Goal) (slot : Option Nat)
  /-- `lockdep_meta_unlock` before the panic -/
  | unlockFull (g : Goal)
  /-- `lockdep_store_lock_slot_in_cache` -/
  | storeCache (mutex l : Nat)
  | panic (g : Goal)
  deriving DecidableEq, Repr

structure CacheEntry where
  mutex : Nat
  lockSlot : Nat

structure Thread where
  pc : Pc
  threadSlot : Option Nat
  cache : Nat → CacheEntry

/-- History: a lookup of `mutex` was decided when `count` slots were assigned. -/
structure Result where
  thread : Nat
  create : Bool
  mutex : Nat
  slot : Option Nat
  count : Nat
  deriving DecidableEq, Repr

/-- `locks` is `g_lock_slots[].addr` with `g_lock_slot_count`, `threads` is
`g_thread_slots[].tid` with `g_thread_slot_count`. -/
structure State where
  locks : AppendTable Nat
  threads : AppendTable Nat
  metaLock : Bool
  thr : Nat → Thread
  results : List Result
  panicked : Bool

def initial : State where
  locks := ⟨fun _ => 0, 0⟩
  threads := ⟨fun _ => 0, 0⟩
  metaLock := false
  thr := fun _ => ⟨.outside, none, fun _ => ⟨0, 0⟩⟩
  results := []
  panicked := false

namespace Goal

/-- What is looked for; `tid` is what `gettid` returns. -/
def key (tid : Nat) : Goal → Nat
  | .lockSlot _ _ mutex => mutex
  | .threadSlot => tid

def creates : Goal → Bool
  | .lockSlot create _ _ => create
  | .threadSlot => true

def limit : Goal → Nat
  | .lockSlot _ _ _ => maxLockSlots
  | .threadSlot => maxThreadSlots

/-- Slot `l` was found or assigned. -/
def found (l : Nat) : Goal → Pc
  | .lockSlot create cached mutex => .unlock (.lockSlot create cached mutex) (some l)
  | .threadSlot => .storeSlot l

/-- What follows `lockdep_meta_unlock`. -/
def afterUnlock (slot : Option Nat) : Goal → Pc
  | .lockSlot _ true mutex => slot.elim .outside (.storeCache mutex)
  | _ => .outside

/-- The result of a lookup. -/
def results (t count : Nat) (slot : Option Nat) : Goal → List Result
  | .lockSlot create _ mutex => [⟨t, create, mutex, slot, count⟩]
  | .threadSlot => []

end Goal

namespace State

def table (s : State) : Goal → AppendTable Nat
  | .lockSlot _ _ _ => s.locks
  | .threadSlot => s.threads

def setTable (s : State) (T : AppendTable Nat) : Goal → State
  | .lockSlot _ _ _ => { s with locks := T }
  | .threadSlot => { s with threads := T }

def setThread (s : State) (t : Nat) (th : Thread) : State :=
  { s with thr := Function.update s.thr t th }

def setPc (s : State) (t : Nat) (pc : Pc) : State := s.setThread t { s.thr t with pc := pc }

/-- The cache entry of a mutex. -/
def cached (s : State) (t mutex : Nat) : CacheEntry := (s.thr t).cache (cacheIndex mutex)

end State

/-! ## Steps -/

inductive Api
  | uncached
  | cached
  | fast
  deriving DecidableEq, Repr

inductive Call
  | lockSlot (create : Bool) (api : Api) (mutex : Nat)
  | threadSlot
  deriving DecidableEq, Repr

inductive Move
  | call (c : Call)
  | run
  deriving DecidableEq, Repr

structure Act where
  thread : Nat
  move : Move
  deriving DecidableEq, Repr

/-- The first step of a call; a registered thread has its slot at once. -/
def startPc (th : Thread) : Call → Pc
  | .lockSlot create .uncached mutex => .metaLock (.lockSlot create false mutex)
  | .lockSlot create .cached mutex => .cache create mutex
  | .lockSlot create .fast mutex => .fast create mutex
  | .threadSlot => if th.threadSlot = none then .metaLock .threadSlot else .outside

/-- No call is made with a NULL mutex. -/
def Call.valid : Call → Bool
  | .lockSlot _ _ mutex => mutex ≠ 0
  | .threadSlot => true

/-- A test of the cache. -/
def testCache (s : State) (t : Nat) (create : Bool) (mutex : Nat) (miss : Pc) : State :=
  if (s.cached t mutex).mutex = mutex then
    { s.setPc t .outside with
      results := s.results ++
        [⟨t, create, mutex, some (s.cached t mutex).lockSlot, s.locks.count⟩] }
  else s.setPc t miss

def run (tid : Nat → Nat) (s : State) (t : Nat) : Option State :=
  match (s.thr t).pc with
  | .outside => none
  | .fast create mutex => some (testCache s t create mutex (.cache create mutex))
  | .cache create mutex =>
      some (testCache s t create mutex (.metaLock (.lockSlot create true mutex)))
  | .metaLock g =>
      if s.metaLock then some s else some { s.setPc t (.loadCount g) with metaLock := true }
  | .loadCount g => some (s.setPc t (.scan g 0 (s.table g).count))
  | .scan g i n =>
      if i < n then
        if (s.table g).entry i = g.key (tid t) then some (s.setPc t (g.found i))
        else some (s.setPc t (.scan g (i + 1) n))
      else if g.creates then
        if n ≥ g.limit then some (s.setPc t (.unlockFull g))
        else some (s.setPc t (.storeEntry g n))
      else some (s.setPc t (.unlock g none))
  | .storeEntry g n =>
      some ((s.setTable { s.table g with
        entry := Function.update (s.table g).entry n (g.key (tid t)) } g).setPc t (.storeCount g n))
  | .storeCount g n =>
      some ((s.setTable { s.table g with count := n + 1 } g).setPc t (g.found n))
  | .storeSlot l =>
      some (s.setThread t { s.thr t with
        pc := .unlock .threadSlot (some l)
        threadSlot := some l })
  | .unlock g slot =>
      some { s.setPc t (g.afterUnlock slot) with
        metaLock := false
        results := s.results ++ g.results t s.locks.count slot }
  | .unlockFull g => some { s.setPc t (.panic g) with metaLock := false }
  | .storeCache mutex l =>
      some (s.setThread t { s.thr t with
        pc := .outside
        cache := Function.update (s.thr t).cache (cacheIndex mutex) ⟨mutex, l⟩ })
  | .panic _ => some { s with panicked := true }

def step (tid : Nat → Nat) (s : State) (a : Act) : Option State :=
  if s.panicked then none
  else
    match a.move with
    | .call c =>
        if (s.thr a.thread).pc = .outside ∧ c.valid then
          some (s.setPc a.thread (startPc (s.thr a.thread) c))
        else none
    | .run => run tid s a.thread

/-- The threads with these ids. -/
def system (tid : Nat → Nat) : Runs.System State Act := ⟨initial, step tid⟩

/-! ## Step inversion -/

/-- What one step of thread `t` can do. -/
inductive Step (tid : Nat → Nat) (s : State) (t : Nat) : State → Prop
  | call (c : Call) (h : (s.thr t).pc = .outside) (hc : c.valid = true) :
      Step tid s t (s.setPc t (startPc (s.thr t) c))
  | hit (create : Bool) (mutex : Nat)
      (h : (s.thr t).pc = .fast create mutex ∨ (s.thr t).pc = .cache create mutex)
      (hm : (s.cached t mutex).mutex = mutex) :
      Step tid s t { s.setPc t .outside with
        results := s.results ++
          [⟨t, create, mutex, some (s.cached t mutex).lockSlot, s.locks.count⟩] }
  | miss (create : Bool) (mutex : Nat) (pc : Pc)
      (h : ((s.thr t).pc = .fast create mutex ∧ pc = .cache create mutex) ∨
        ((s.thr t).pc = .cache create mutex ∧ pc = .metaLock (.lockSlot create true mutex))) :
      Step tid s t (s.setPc t pc)
  | spin (g : Goal) (h : (s.thr t).pc = .metaLock g) : Step tid s t s
  | lock (g : Goal) (h : (s.thr t).pc = .metaLock g) (hl : s.metaLock = false) :
      Step tid s t { s.setPc t (.loadCount g) with metaLock := true }
  | loadCount (g : Goal) (h : (s.thr t).pc = .loadCount g) :
      Step tid s t (s.setPc t (.scan g 0 (s.table g).count))
  | found (g : Goal) (i n : Nat) (h : (s.thr t).pc = .scan g i n) (hi : i < n)
      (he : (s.table g).entry i = g.key (tid t)) : Step tid s t (s.setPc t (g.found i))
  | next (g : Goal) (i n : Nat) (h : (s.thr t).pc = .scan g i n) (hi : i < n)
      (he : (s.table g).entry i ≠ g.key (tid t)) : Step tid s t (s.setPc t (.scan g (i + 1) n))
  | full (g : Goal) (i n : Nat) (h : (s.thr t).pc = .scan g i n) (hi : n ≤ i)
      (hc : g.creates = true) (hn : g.limit ≤ n) : Step tid s t (s.setPc t (.unlockFull g))
  | new (g : Goal) (i n : Nat) (h : (s.thr t).pc = .scan g i n) (hi : n ≤ i)
      (hc : g.creates = true) (hn : n < g.limit) : Step tid s t (s.setPc t (.storeEntry g n))
  | unknown (g : Goal) (i n : Nat) (h : (s.thr t).pc = .scan g i n) (hi : n ≤ i)
      (hc : g.creates = false) : Step tid s t (s.setPc t (.unlock g none))
  | storeEntry (g : Goal) (n : Nat) (h : (s.thr t).pc = .storeEntry g n) :
      Step tid s t ((s.setTable { s.table g with
        entry := Function.update (s.table g).entry n (g.key (tid t)) } g).setPc t
          (.storeCount g n))
  | storeCount (g : Goal) (n : Nat) (h : (s.thr t).pc = .storeCount g n) :
      Step tid s t ((s.setTable { s.table g with count := n + 1 } g).setPc t (g.found n))
  | storeSlot (l : Nat) (h : (s.thr t).pc = .storeSlot l) :
      Step tid s t (s.setThread t { s.thr t with
        pc := .unlock .threadSlot (some l)
        threadSlot := some l })
  | unlock (g : Goal) (slot : Option Nat) (h : (s.thr t).pc = .unlock g slot) :
      Step tid s t { s.setPc t (g.afterUnlock slot) with
        metaLock := false
        results := s.results ++ g.results t s.locks.count slot }
  | unlockFull (g : Goal) (h : (s.thr t).pc = .unlockFull g) :
      Step tid s t { s.setPc t (.panic g) with metaLock := false }
  | storeCache (mutex l : Nat) (h : (s.thr t).pc = .storeCache mutex l) :
      Step tid s t (s.setThread t { s.thr t with
        pc := .outside
        cache := Function.update (s.thr t).cache (cacheIndex mutex) ⟨mutex, l⟩ })
  | panic (g : Goal) (h : (s.thr t).pc = .panic g) : Step tid s t { s with panicked := true }

variable {tid : Nat → Nat} {s s' : State} {a : Act} {t u : Nat}

theorem run_cases (h : run tid s t = some s') : Step tid s t s' := by
  unfold run at h
  split at h
  case h_1 => cases h
  case h_2 create mutex hp =>
    cases h
    unfold testCache
    split
    · rename_i hm
      exact .hit create mutex (Or.inl hp) hm
    · exact .miss create mutex _ (Or.inl ⟨hp, rfl⟩)
  case h_3 create mutex hp =>
    cases h
    unfold testCache
    split
    · rename_i hm
      exact .hit create mutex (Or.inr hp) hm
    · exact .miss create mutex _ (Or.inr ⟨hp, rfl⟩)
  case h_4 g hp =>
    split at h
    · cases h
      exact .spin g hp
    · rename_i hl
      cases h
      exact .lock g hp (by simpa using hl)
  case h_5 g hp =>
    cases h
    exact .loadCount g hp
  case h_6 g i n hp =>
    split at h
    · rename_i hi
      split at h
      · rename_i he
        cases h
        exact .found g i n hp hi he
      · rename_i he
        cases h
        exact .next g i n hp hi he
    · rename_i hi
      split at h
      · rename_i hc
        split at h
        · rename_i hn
          cases h
          exact .full g i n hp (Nat.not_lt.mp hi) hc hn
        · rename_i hn
          cases h
          exact .new g i n hp (Nat.not_lt.mp hi) hc (Nat.not_le.mp hn)
      · rename_i hc
        cases h
        exact .unknown g i n hp (Nat.not_lt.mp hi) (by simpa using hc)
  case h_7 g n hp =>
    cases h
    exact .storeEntry g n hp
  case h_8 g n hp =>
    cases h
    exact .storeCount g n hp
  case h_9 l hp =>
    cases h
    exact .storeSlot l hp
  case h_10 g slot hp =>
    cases h
    exact .unlock g slot hp
  case h_11 g hp =>
    cases h
    exact .unlockFull g hp
  case h_12 mutex l hp =>
    cases h
    exact .storeCache mutex l hp
  case h_13 g hp =>
    cases h
    exact .panic g hp

/-- **Step inversion.** -/
theorem step_cases (h : (system tid).step s a = some s') :
    s.panicked = false ∧ Step tid s a.thread s' := by
  change step tid s a = some s' at h
  unfold step at h
  split at h
  · cases h
  · rename_i hp
    refine ⟨by simpa using hp, ?_⟩
    split at h
    · rename_i c hc
      split at h
      · rename_i hok
        cases h
        exact .call c hok.1 hok.2
      · cases h
    · exact run_cases h

end ScaleLockDep.Registry
