import ScaleLockDep.RbGraph
import ScaleLockDep.SpscRing
import Mathlib.Data.Fin.Basic
import Mathlib.Data.List.FinRange

/-!
# The ring-buffer backend, step by step

`lockdep_potential_on_acquire` in `rb` mode, called by any number of threads at
once, with the worker `lockdep_rb_worker_main` and `lockdep_potential_shutdown`.
One step is one access to shared memory: a load of a snapshot word, a step of a
ring, an exchange, a semaphore operation, or one insertion into the tables only
the worker touches.

* `threadStep_cases`, `workerStep_cases`, `shutdownStep_cases`: what one step of
  each party can do;
* `ring_step`: the rings move by their own steps only.
-/

namespace ScaleLockDep.RbBackend

open ThreadState

/-! ## Events and rings -/

/-- `lockdep_potential_event_t`. -/
structure Event where
  toLockSlot : Nat
  threadSlot : Nat
  acquirePc : Nat
  fromBits : Fin graphWords → BitVec 64

namespace Event

def zero : Event := ⟨0, 0, 0, fun _ => 0#64⟩

/-- `from_bits` as a word set. -/
def bits (e : Event) : WordSet := fun w => if h : w < graphWords then e.fromBits ⟨w, h⟩ else 0#64

def storeWord (e : Event) (w : Fin graphWords) (cell : Event) : Event :=
  { cell with fromBits := Function.update cell.fromBits w (e.fromBits w) }

/-- The stores of `lockdep_rb_enqueue_edge_batch` into the cell. -/
def stores (e : Event) : List (Event → Event) :=
  [fun cell => { cell with toLockSlot := e.toLockSlot },
    fun cell => { cell with threadSlot := e.threadSlot },
    fun cell => { cell with acquirePc := e.acquirePc }] ++
  (List.finRange graphWords).map e.storeWord

theorem storeAll_storeWord (e : Event) (ws : List (Fin graphWords)) (cell : Event) :
    SpscRing.storeAll (ws.map e.storeWord) cell =
      { cell with fromBits := fun w => if w ∈ ws then e.fromBits w else cell.fromBits w } := by
  induction ws generalizing cell with
  | nil => simp [SpscRing.storeAll]
  | cons w ws ih =>
    have h := ih (e.storeWord w cell)
    simp only [SpscRing.storeAll, List.map_cons, List.foldl_cons] at h ⊢
    rw [h]
    simp only [storeWord, List.mem_cons, Event.mk.injEq, true_and]
    funext x
    by_cases hx : x ∈ ws
    · simp [hx]
    · by_cases hw : x = w
      · subst hw
        simp
      · simp [hx, hw]

/-- The stores write the whole event. -/
theorem storeAll_stores (e cell : Event) : SpscRing.storeAll e.stores cell = e := by
  have h := storeAll_storeWord e (List.finRange graphWords)
    { cell with toLockSlot := e.toLockSlot, threadSlot := e.threadSlot, acquirePc := e.acquirePc }
  simp only [List.mem_finRange, if_true] at h
  exact h

end Event

structure Config where
  /-- `g_rb_full_policy` is `LOCKDEP_RB_FULL_DROP` -/
  drops : Bool
  /-- `g_report_sites_enabled` -/
  reportSites : Bool
  deriving DecidableEq, Repr

def ringParams (cfg : Config) : SpscRing.Params Event := ⟨rbCapacity, Event.stores, cfg.drops⟩

theorem ringParams_lawful (cfg : Config) : (ringParams cfg).Lawful where
  pos := (by decide : 0 < rbCapacity)
  dvd := (by decide : rbCapacity ∣ 2 ^ 32)
  small := (by decide : rbCapacity < 2 ^ 32)
  writes := Event.storeAll_stores

abbrev Ring : Type := SpscRing.State Event

/-! ## The worker's batch -/

/-- The locals of `lockdep_rb_drain_once`; a lock slot is touched when it occurs
in `toLocks`. -/
structure Batch where
  madeProgress : Bool
  fromBits : Nat → WordSet
  toLocks : List Nat

def Batch.empty : Batch := ⟨false, fun _ => WordSet.empty, []⟩

/-- One dequeued event. -/
def Batch.add (b : Batch) (e : Event) : Batch :=
  if maxLockSlots ≤ e.toLockSlot then { b with madeProgress := true }
  else
    { madeProgress := true
      fromBits := Function.update b.fromBits e.toLockSlot ((b.fromBits e.toLockSlot).union e.bits)
      toLocks := if e.toLockSlot ∈ b.toLocks then b.toLocks else b.toLocks ++ [e.toLockSlot] }

/-- `g_rb_pending_edge_info` after the event: the pairs that are new to the batch. -/
def notePending (info : Nat → Nat → EdgeInfo) (b : Batch) (e : Event) : Nat → Nat → EdgeInfo :=
  if e.toLockSlot < maxLockSlots ∧ e.acquirePc ≠ 0 then
    Function.update info e.toLockSlot fun u =>
      if e.bits.test u && !(b.fromBits e.toLockSlot).test u then ⟨some e.threadSlot, e.acquirePc⟩
      else info e.toLockSlot u
  else info

/-! ## States -/

inductive EnsurePc
  | loadState
  | compareExchange
  | semInit
  | storeStop
  | storePending
  | create
  | storeState
  /-- another thread starts the worker -/
  | spin
  deriving DecidableEq, Repr

/-- Why the worker is signalled. -/
inductive Why
  | published
  | stalled
  | dropped
  deriving DecidableEq, Repr

inductive Pc
  | outside
  /-- `lockdep_rb_collect_unknown_predecessors`, before the load of word `w` -/
  | collect (c : Call) (bits : WordSet) (w : Nat)
  /-- `lockdep_rb_ensure_worker_started` -/
  | ensure (c : Call) (e : Event) (pc : EnsurePc)
  /-- before `lockdep_rb_enqueue_edge_batch` -/
  | enqueue (c : Call) (e : Event)
  /-- in `lockdep_rb_enqueue_edge_batch` -/
  | ring (c : Call) (e : Event)
  /-- the exchange of `lockdep_rb_signal_worker` -/
  | exchange (c : Call) (e : Event) (why : Why)
  /-- the `sem_post` of `lockdep_rb_signal_worker` -/
  | post (c : Call) (e : Event) (why : Why)
  /-- `lockdep_push_held_lock_slot` -/
  | push (c : Call)

instance (pc : Pc) : Decidable (pc = .outside) :=
  match pc with
  | .outside => isTrue rfl
  | .collect .. | .ensure .. | .enqueue .. | .ring .. | .exchange .. | .post .. | .push .. =>
      isFalse nofun

/-- Where `lockdep_rb_worker_main` is; `second` marks the drain after the store of 0
to `g_rb_work_pending`. -/
inductive WorkerPc
  /-- dequeue from the ring of `thread` -/
  | drain (second : Bool) (thread : Nat) (b : Batch)
  /-- `lockdep_rb_process_edge_bits` for the targets `rest` -/
  | target (second : Bool) (b : Batch) (rest : List Nat)
  /-- the edges from `todo` to `v`, then the targets `rest` -/
  | edges (second : Bool) (b : Batch) (v : Nat) (todo rest : List Nat)
  | storeIdle
  | storeBusy
  | loadStop
  /-- `lockdep_rb_all_queues_empty`, at the ring of `thread` -/
  | scan (thread : Nat)
  | semWait
  /-- not created yet, or returned -/
  | exited

instance (pc : WorkerPc) : Decidable (pc = .exited) :=
  match pc with
  | .exited => isTrue rfl
  | .drain .. | .target .. | .edges .. | .storeIdle | .storeBusy | .loadStop | .scan _
  | .semWait => isFalse nofun

inductive WorkerState
  | none
  | starting
  | started
  deriving DecidableEq, Repr

inductive ShutdownPc
  | idle
  | loadState
  | storeStop
  | post
  | join
  | destroy
  | storeState
  | returned
  deriving DecidableEq, Repr

/-- `hist` is history: the completed calls of the thread. -/
structure Thread where
  pc : Pc
  tls : ThreadState
  hist : List Op

/-- `worker i` is the worker created by the `i`-th `pthread_create`.  `stopMark` is
history: the events accepted when `g_rb_worker_should_stop` was set. -/
structure State where
  graph : RbGraph
  lockSlotCount : Nat
  thr : Nat → Thread
  ring : Nat → Ring
  pendingEdgeInfo : Nat → Nat → EdgeInfo
  workerState : WorkerState
  shouldStop : Bool
  workPending : Bool
  sem : Nat
  worker : Nat → WorkerPc
  created : Nat
  shutdown : ShutdownPc
  reports : List Report
  exited : Bool
  stopMark : Nat → Nat

def initial : State where
  graph := RbGraph.initial
  lockSlotCount := 0
  thr := fun _ => ⟨.outside, ThreadState.initial, []⟩
  ring := fun _ => SpscRing.initial Event.zero
  pendingEdgeInfo := fun _ _ => ⟨some 0, 0⟩
  workerState := .none
  shouldStop := false
  workPending := false
  sem := 0
  worker := fun _ => .exited
  created := 0
  shutdown := .idle
  reports := []
  exited := false
  stopMark := fun _ => 0

namespace State

@[simps graph lockSlotCount ring pendingEdgeInfo workerState shouldStop workPending sem worker
  created shutdown reports exited stopMark]
def setPc (s : State) (t : Nat) (pc : Pc) : State :=
  { s with thr := Function.update s.thr t { s.thr t with pc := pc } }

/-- The call `op` of `t` is complete. -/
@[simps graph lockSlotCount ring pendingEdgeInfo workerState shouldStop workPending sem worker
  created shutdown reports exited stopMark]
def complete (s : State) (t : Nat) (ts : ThreadState) (op : Op) : State :=
  { s with thr := Function.update s.thr t ⟨.outside, ts, (s.thr t).hist ++ [op]⟩ }

@[simps graph lockSlotCount thr pendingEdgeInfo workerState shouldStop workPending sem worker
  created shutdown reports exited stopMark]
def setRing (s : State) (t : Nat) (r : Ring) : State :=
  { s with ring := Function.update s.ring t r }

@[simps graph lockSlotCount thr ring pendingEdgeInfo workerState shouldStop workPending sem
  created shutdown reports exited stopMark]
def setWorker (s : State) (i : Nat) (pc : WorkerPc) : State :=
  { s with worker := Function.update s.worker i pc }

def held (s : State) (t : Nat) : List Nat := (s.thr t).tls.heldLockSlots

end State

inductive Act
  | thread (t : Nat) (mv : Move)
  | worker (i : Nat)
  | shutdown
  deriving DecidableEq, Repr

open State

/-! ## Application threads -/

/-- What follows `lockdep_rb_signal_worker`: a stalled producer tries again. -/
def afterSignal (c : Call) (e : Event) : Why → Pc
  | .stalled => .ring c e
  | .published | .dropped => .push c

def eventOf (t : Nat) (c : Call) (bits : WordSet) : Event :=
  ⟨c.lockSlot, t, c.acquirePc, fun w => bits w⟩

def ensureRun (s : State) (t : Nat) (c : Call) (e : Event) : EnsurePc → State
  | .loadState =>
      if s.workerState = .started then s.setPc t (.enqueue c e)
      else s.setPc t (.ensure c e .compareExchange)
  | .compareExchange =>
      if s.workerState = .none then
        { s.setPc t (.ensure c e .semInit) with workerState := .starting }
      else s.setPc t (.ensure c e .spin)
  | .semInit => { s.setPc t (.ensure c e .storeStop) with sem := 0 }
  | .storeStop => { s.setPc t (.ensure c e .storePending) with shouldStop := false }
  | .storePending => { s.setPc t (.ensure c e .create) with workPending := false }
  | .create =>
      { (s.setPc t (.ensure c e .storeState)).setWorker s.created (.drain false 0 .empty) with
        created := s.created + 1 }
  | .storeState => { s.setPc t (.enqueue c e) with workerState := .started }
  | .spin =>
      if s.workerState = .started then s.setPc t (.enqueue c e)
      else s.setPc t (.ensure c e .spin)

/-- One step of the loop of `lockdep_rb_enqueue_edge_batch`. -/
def ringRun (cfg : Config) (s : State) (t : Nat) (c : Call) (e : Event) : Option State :=
  (SpscRing.step (ringParams cfg) (s.ring t) .produce).map fun r =>
    match (s.ring t).producer with
    | .loadHead _ tail =>
        if (tail - (s.ring t).head).toNat < rbCapacity then s.setRing t r
        else (s.setRing t r).setPc t (.exchange c e (if cfg.drops then .dropped else .stalled))
    | .write _ _ [] => (s.setRing t r).setPc t (.exchange c e .published)
    | _ => s.setRing t r

def threadRun (cfg : Config) (s : State) (t : Nat) : Option State :=
  match (s.thr t).pc with
  | .outside => none
  | .collect c bits w =>
      if w < graphWords then
        some (s.setPc t (.collect c (Function.update bits w
          ((s.thr t).tls.heldLockBits w &&& ~~~ s.graph.predecessorSnapshot c.lockSlot w)) (w + 1)))
      else if (bits.clear c.lockSlot).hasAnyBits graphWords then
        some (s.setPc t (.ensure c (eventOf t c (bits.clear c.lockSlot)) .loadState))
      else some (s.setPc t (.push c))
  | .ensure c e pc => some (ensureRun s t c e pc)
  | .enqueue c e =>
      (SpscRing.step (ringParams cfg) (s.ring t) (.enqueue e)).map fun r =>
        (s.setRing t r).setPc t (.ring c e)
  | .ring c e => ringRun cfg s t c e
  | .exchange c e why =>
      if s.workPending then some (s.setPc t (afterSignal c e why))
      else some { s.setPc t (.post c e why) with workPending := true }
  | .post c e why => some { s.setPc t (afterSignal c e why) with sem := s.sem + 1 }
  | .push c =>
      match (s.thr t).tls.pushHeldLockSlot .rb c.lockSlot with
      | none => some { s with exited := true }
      | some ts => some (s.complete t ts (.acquire c.api c.lockSlot))

def threadStep (cfg : Config) (s : State) (t : Nat) : Move → Option State
  | .register =>
      if s.lockSlotCount < maxLockSlots then some { s with lockSlotCount := s.lockSlotCount + 1 }
      else none
  | .acquire c =>
      if (s.thr t).pc = .outside ∧ c.lockSlot < s.lockSlotCount then
        -- the first lock of a thread goes on the stack at once
        if s.held t = [] then
          some (s.complete t ((s.thr t).tls.acquireTopLevel .rb c.lockSlot)
            (.acquire c.api c.lockSlot))
        else some (s.setPc t (.collect c .empty 0))
      else none
  | .release l =>
      if (s.thr t).pc = .outside ∧ l ∈ s.held t then
        some (s.complete t ((s.thr t).tls.release .rb l) (.release l))
      else none
  | .run => threadRun cfg s t

/-! ## The worker -/

/-- What follows a call of `lockdep_rb_drain_once`. -/
def afterDrain : Bool → Bool → WorkerPc
  | false, true => .drain false 0 .empty
  | false, false => .storeIdle
  | true, true => .storeBusy
  | true, false => .loadStop

/-- One step of the dequeue loop at the ring of `t`. -/
def drainRun (cfg : Config) (s : State) (i : Nat) (second : Bool) (t : Nat) (b : Batch) :
    Option State :=
  match (s.ring t).consumer with
  | .idle => (SpscRing.step (ringParams cfg) (s.ring t) .dequeue).map (s.setRing t)
  | .loadTail head =>
      (SpscRing.step (ringParams cfg) (s.ring t) .consume).map fun r =>
        if head = (s.ring t).tail then (s.setRing t r).setWorker i (.drain second (t + 1) b)
        else s.setRing t r
  | .copy _ => (SpscRing.step (ringParams cfg) (s.ring t) .consume).map (s.setRing t)
  | .storeHead _ e =>
      (SpscRing.step (ringParams cfg) (s.ring t) .consume).map fun r =>
        { (s.setRing t r).setWorker i (.drain second t (b.add e)) with
          pendingEdgeInfo := notePending s.pendingEdgeInfo b e }

/-- The edge info the worker passes on. -/
def edgeInfoOf (cfg : Config) (s : State) (u v : Nat) : EdgeInfo :=
  if cfg.reportSites then s.pendingEdgeInfo v u else ⟨none, 0⟩

def workerStep (cfg : Config) (s : State) (i : Nat) : Option State :=
  match s.worker i with
  | .drain second t b =>
      if t < maxThreadSlots then drainRun cfg s i second t b
      else some (s.setWorker i (.target second b b.toLocks))
  | .target second b [] => some (s.setWorker i (afterDrain second b.madeProgress))
  | .target second b (v :: rest) =>
      some (s.setWorker i (.edges second b v
        (s.graph.edgeTodo s.lockSlotCount v (b.fromBits v)) rest))
  | .edges second b _ [] rest => some (s.setWorker i (.target second b rest))
  | .edges second b v (u :: todo) rest =>
      let r := s.graph.addEdgeIfNew s.lockSlotCount u v (edgeInfoOf cfg s u v)
      some { s.setWorker i (.edges second b v todo rest) with
        graph := r.1
        reports := s.reports ++ r.2.toList }
  | .storeIdle => some { s.setWorker i (.drain true 0 .empty) with workPending := false }
  | .storeBusy => some { s.setWorker i (.drain false 0 .empty) with workPending := true }
  | .loadStop => some (s.setWorker i (if s.shouldStop then .scan 0 else .semWait))
  | .scan t =>
      if t < maxThreadSlots then
        some (s.setWorker i (if (s.ring t).head = (s.ring t).tail then .scan (t + 1) else .semWait))
      else some (s.setWorker i .exited)
  | .semWait =>
      if s.sem = 0 then none
      else some { s.setWorker i (.drain false 0 .empty) with sem := s.sem - 1 }
  | .exited => none

/-! ## The shutdown -/

def shutdownStep (s : State) : Option State :=
  match s.shutdown with
  | .idle => some { s with shutdown := .loadState }
  | .loadState =>
      some { s with shutdown := if s.workerState = .started then .storeStop else .returned }
  | .storeStop =>
      some { s with
        shutdown := .post
        shouldStop := true
        stopMark := fun t => (s.ring t).accepted.length }
  | .post => some { s with shutdown := .join, sem := s.sem + 1 }
  | .join =>
      -- `pthread_join` returns when the last worker created has returned
      match s.worker (s.created - 1) with
      | .exited => some { s with shutdown := .destroy }
      | _ => none
  | .destroy => some { s with shutdown := .storeState }
  | .storeState => some { s with shutdown := .returned, workerState := .none }
  | .returned => none

def step (cfg : Config) (s : State) (a : Act) : Option State :=
  if s.exited then none
  else
    match a with
    | .thread t mv => if t < maxThreadSlots then threadStep cfg s t mv else none
    | .worker i => workerStep cfg s i
    | .shutdown => shutdownStep s

def system (cfg : Config) : Runs.System State Act := ⟨initial, step cfg⟩

end ScaleLockDep.RbBackend
