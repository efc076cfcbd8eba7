import ScaleLockDep.RbBackend

/-!
# What one step of the ring-buffer backend can do

One inversion lemma for each party, with the guard of every step and its effect on
the rings given by their histories.

* `threadStep_cases`, `workerStep_cases`, `shutdownStep_cases`;
* `Step`, `step_cases`: one step of the whole system;
* `ring_step`: every ring moves by its own steps only.
-/

namespace ScaleLockDep.RbBackend

open ThreadState State

/-! ## Steps of one ring -/

/-- The event the producer is storing. -/
@[simp] def producing : SpscRing.ProducerPc Event → Option Event
  | .idle => none
  | .loadTail e | .loadHead e _ | .write e _ _ => some e

/-- A step that neither publishes nor delivers an event. -/
structure Unmoved (r r' : Ring) : Prop where
  accepted : r'.accepted = r.accepted
  delivered : r'.delivered = r.delivered

/-! ## Application threads -/

/-- What one step of thread `t` can do. -/
inductive ThreadStep (cfg : Config) (s : State) (t : Nat) (mv : Move) : State → Prop
  | register (h : s.lockSlotCount < maxLockSlots) :
      ThreadStep cfg s t mv { s with lockSlotCount := s.lockSlotCount + 1 }
  | top (c : Call) (h : (s.thr t).pc = .outside) (hl : c.lockSlot < s.lockSlotCount)
      (hnil : s.held t = []) (hmv : mv = .acquire c) :
      ThreadStep cfg s t mv (s.complete t ((s.thr t).tls.acquireTopLevel .rb c.lockSlot)
        (.acquire c.api c.lockSlot))
  | nested (c : Call) (h : (s.thr t).pc = .outside) (hl : c.lockSlot < s.lockSlotCount)
      (hnil : s.held t ≠ []) (hmv : mv = .acquire c) :
      ThreadStep cfg s t mv (s.setPc t (.collect c .empty 0))
  | release (l : Nat) (h : (s.thr t).pc = .outside) (hl : l ∈ s.held t) :
      ThreadStep cfg s t mv (s.complete t ((s.thr t).tls.release .rb l) (.release l))
  | load (c : Call) (bits : WordSet) (w : Nat) (h : (s.thr t).pc = .collect c bits w)
      (hw : w < graphWords) :
      ThreadStep cfg s t mv (s.setPc t (.collect c (Function.update bits w
        ((s.thr t).tls.heldLockBits w &&& ~~~ s.graph.predecessorSnapshot c.lockSlot w)) (w + 1)))
  | unknown (c : Call) (bits : WordSet) (w : Nat) (h : (s.thr t).pc = .collect c bits w)
      (hw : graphWords ≤ w) (hb : (bits.clear c.lockSlot).hasAnyBits graphWords = true) :
      ThreadStep cfg s t mv
        (s.setPc t (.ensure c (eventOf t c (bits.clear c.lockSlot)) .loadState))
  | known (c : Call) (bits : WordSet) (w : Nat) (h : (s.thr t).pc = .collect c bits w)
      (hw : graphWords ≤ w) (hb : (bits.clear c.lockSlot).hasAnyBits graphWords = false) :
      ThreadStep cfg s t mv (s.setPc t (.push c))
  | started (c : Call) (e : Event) (p : EnsurePc) (h : (s.thr t).pc = .ensure c e p)
      (hp : p = .loadState ∨ p = .spin) (hs : s.workerState = .started) :
      ThreadStep cfg s t mv (s.setPc t (.enqueue c e))
  | ensure (c : Call) (e : Event) (p q : EnsurePc) (h : (s.thr t).pc = .ensure c e p)
      (hp : p = .loadState ∨ p = .compareExchange ∨ p = .spin)
      (hq : q = .compareExchange ∨ q = .spin) :
      ThreadStep cfg s t mv (s.setPc t (.ensure c e q))
  | claim (c : Call) (e : Event) (h : (s.thr t).pc = .ensure c e .compareExchange)
      (hs : s.workerState = .none) :
      ThreadStep cfg s t mv { s.setPc t (.ensure c e .semInit) with workerState := .starting }
  | semInit (c : Call) (e : Event) (h : (s.thr t).pc = .ensure c e .semInit) :
      ThreadStep cfg s t mv { s.setPc t (.ensure c e .storeStop) with sem := 0 }
  | storeStop (c : Call) (e : Event) (h : (s.thr t).pc = .ensure c e .storeStop) :
      ThreadStep cfg s t mv { s.setPc t (.ensure c e .storePending) with shouldStop := false }
  | storePending (c : Call) (e : Event) (h : (s.thr t).pc = .ensure c e .storePending) :
      ThreadStep cfg s t mv { s.setPc t (.ensure c e .create) with workPending := false }
  | create (c : Call) (e : Event) (h : (s.thr t).pc = .ensure c e .create) :
      ThreadStep cfg s t mv
        { (s.setPc t (.ensure c e .storeState)).setWorker s.created (.drain false 0 .empty) with
          created := s.created + 1 }
  | storeState (c : Call) (e : Event) (h : (s.thr t).pc = .ensure c e .storeState) :
      ThreadStep cfg s t mv { s.setPc t (.enqueue c e) with workerState := .started }
  | enqueue (c : Call) (e : Event) (r : Ring) (h : (s.thr t).pc = .enqueue c e)
      (hr : SpscRing.step (ringParams cfg) (s.ring t) (.enqueue e) = some r)
      (hu : Unmoved (s.ring t) r) (hp : producing r.producer = some e) :
      ThreadStep cfg s t mv ((s.setRing t r).setPc t (.ring c e))
  | ring (c : Call) (e : Event) (r : Ring) (h : (s.thr t).pc = .ring c e)
      (hr : SpscRing.step (ringParams cfg) (s.ring t) .produce = some r)
      (hu : Unmoved (s.ring t) r) (hp : producing r.producer = producing (s.ring t).producer) :
      ThreadStep cfg s t mv (s.setRing t r)
  | full (c : Call) (e : Event) (r : Ring) (h : (s.thr t).pc = .ring c e)
      (hr : SpscRing.step (ringParams cfg) (s.ring t) .produce = some r)
      (hu : Unmoved (s.ring t) r)
      (hp : producing r.producer = if cfg.drops then none else producing (s.ring t).producer) :
      ThreadStep cfg s t mv
        ((s.setRing t r).setPc t (.exchange c e (if cfg.drops then .dropped else .stalled)))
  | publish (c : Call) (e x : Event) (r : Ring) (h : (s.thr t).pc = .ring c e)
      (hr : SpscRing.step (ringParams cfg) (s.ring t) .produce = some r)
      (hx : producing (s.ring t).producer = some x)
      (hacc : r.accepted = (s.ring t).accepted ++ [x])
      (hdel : r.delivered = (s.ring t).delivered) (hp : producing r.producer = none) :
      ThreadStep cfg s t mv ((s.setRing t r).setPc t (.exchange c e .published))
  | signalled (c : Call) (e : Event) (why : Why) (h : (s.thr t).pc = .exchange c e why)
      (hw : s.workPending = true) : ThreadStep cfg s t mv (s.setPc t (afterSignal c e why))
  | exchange (c : Call) (e : Event) (why : Why) (h : (s.thr t).pc = .exchange c e why)
      (hw : s.workPending = false) :
      ThreadStep cfg s t mv { s.setPc t (.post c e why) with workPending := true }
  | post (c : Call) (e : Event) (why : Why) (h : (s.thr t).pc = .post c e why) :
      ThreadStep cfg s t mv { s.setPc t (afterSignal c e why) with sem := s.sem + 1 }
  | push (c : Call) (h : (s.thr t).pc = .push c) (ts : ThreadState)
      (hts : (s.thr t).tls.pushHeldLockSlot .rb c.lockSlot = some ts) :
      ThreadStep cfg s t mv (s.complete t ts (.acquire c.api c.lockSlot))
  | overflow (c : Call) (h : (s.thr t).pc = .push c) :
      ThreadStep cfg s t mv { s with exited := true }

theorem ensureRun_cases {cfg : Config} {s : State} {t : Nat} {mv : Move} {c : Call} {e : Event}
    {p : EnsurePc} (h : (s.thr t).pc = .ensure c e p) :
    ThreadStep cfg s t mv (ensureRun s t c e p) := by
  cases p with
  | loadState =>
    simp only [ensureRun]
    split
    · rename_i hs
      exact .started c e _ h (Or.inl rfl) hs
    · exact .ensure c e _ _ h (Or.inl rfl) (Or.inl rfl)
  | compareExchange =>
    simp only [ensureRun]
    split
    · rename_i hs
      exact .claim c e h hs
    · exact .ensure c e _ _ h (Or.inr (Or.inl rfl)) (Or.inr rfl)
  | semInit => exact .semInit c e h
  | storeStop => exact .storeStop c e h
  | storePending => exact .storePending c e h
  | create => exact .create c e h
  | storeState => exact .storeState c e h
  | spin =>
    simp only [ensureRun]
    split
    · rename_i hs
      exact .started c e _ h (Or.inr rfl) hs
    · exact .ensure c e _ _ h (Or.inr (Or.inr rfl)) (Or.inr rfl)

theorem ringRun_cases {cfg : Config} {s s' : State} {t : Nat} {mv : Move} {c : Call} {e : Event}
    (h : (s.thr t).pc = .ring c e) (hs : ringRun cfg s t c e = some s') :
    ThreadStep cfg s t mv s' := by
  obtain ⟨r, hr, hs⟩ := Option.map_eq_some_iff.mp hs
  have hr₀ := hr
  unfold SpscRing.step at hr
  cases hpc : (s.ring t).producer with
  | idle => simp [hpc] at hr
  | loadTail x =>
    simp only [hpc, Option.some.injEq] at hr hs
    subst hr hs
    exact .ring c e _ h hr₀ ⟨rfl, rfl⟩ (by rw [hpc]; rfl)
  | loadHead x tail =>
    simp only [hpc] at hr hs
    split at hs
    · rename_i hroom
      rw [if_pos (show (tail - (s.ring t).head).toNat < (ringParams cfg).capacity from hroom)] at hr
      simp only [Option.some.injEq] at hr
      subst hr hs
      exact .ring c e _ h hr₀ ⟨rfl, rfl⟩ (by rw [hpc]; rfl)
    · rename_i hroom
      rw [if_neg (show ¬ (tail - (s.ring t).head).toNat < (ringParams cfg).capacity
        from hroom)] at hr
      have hd : (ringParams cfg).drops = cfg.drops := rfl
      rw [hd] at hr
      cases hdrops : cfg.drops with
      | true =>
        simp only [hdrops, if_true, Option.some.injEq] at hr hs
        subst hr hs
        have : ThreadStep cfg s t mv _ := .full c e _ h hr₀ ⟨rfl, rfl⟩ (by simp [hdrops])
        simpa [hdrops] using this
      | false =>
        simp only [hdrops, Bool.false_eq_true, if_false, Option.some.injEq] at hr hs
        subst hr hs
        have : ThreadStep cfg s t mv _ := .full c e _ h hr₀ ⟨rfl, rfl⟩ (by simp [hdrops, hpc])
        simpa [hdrops] using this
  | write x tail todo =>
    cases todo with
    | nil =>
      simp only [hpc, Option.some.injEq] at hr hs
      subst hr hs
      exact .publish c e x _ h hr₀ (by rw [hpc]; rfl) rfl rfl rfl
    | cons f todo =>
      simp only [hpc, Option.some.injEq] at hr hs
      subst hr hs
      exact .ring c e _ h hr₀ ⟨rfl, rfl⟩ (by rw [hpc]; rfl)

theorem threadRun_cases {cfg : Config} {s s' : State} {t : Nat} {mv : Move}
    (h : threadRun cfg s t = some s') : ThreadStep cfg s t mv s' := by
  unfold threadRun at h
  split at h
  case h_1 => cases h
  case h_2 c bits w hp =>
    split at h
    · rename_i hw
      cases h; exact .load c bits w hp hw
    · rename_i hw
      split at h
      · rename_i hb
        cases h; exact .unknown c bits w hp (Nat.le_of_not_lt hw) hb
      · rename_i hb
        cases h; exact .known c bits w hp (Nat.le_of_not_lt hw) (by simpa using hb)
  case h_3 c e p hp => cases h; exact ensureRun_cases hp
  case h_4 c e hp =>
    obtain ⟨r, hr, h⟩ := Option.map_eq_some_iff.mp h
    have hr₀ := hr
    unfold SpscRing.step at hr
    split at hr
    case h_1 x he =>
      obtain rfl : x = e := by injection he.symm
      split at hr
      · cases hr; cases h
        exact .enqueue c x _ hp hr₀ ⟨rfl, rfl⟩ rfl
      · cases hr
    all_goals rename_i he; cases he
  case h_5 c e hp => exact ringRun_cases hp h
  case h_6 c e why hp =>
    split at h
    · rename_i hw
      cases h; exact .signalled c e why hp hw
    · rename_i hw
      cases h; exact .exchange c e why hp (by simpa using hw)
  case h_7 c e why hp => cases h; exact .post c e why hp
  case h_8 c hp =>
    split at h
    · cases h; exact .overflow c hp
    · rename_i ts hts
      cases h; exact .push c hp ts hts

theorem threadStep_cases {cfg : Config} {s s' : State} {t : Nat} {mv : Move}
    (h : threadStep cfg s t mv = some s') : ThreadStep cfg s t mv s' := by
  unfold threadStep at h
  split at h
  case h_1 =>
    split at h
    · rename_i hn
      cases h; exact .register hn
    · cases h
  case h_2 c =>
    split at h
    · rename_i hc
      split at h
      · rename_i hnil
        cases h; exact .top c hc.1 hc.2 hnil rfl
      · rename_i hnil
        cases h; exact .nested c hc.1 hc.2 hnil rfl
    · cases h
  case h_3 l =>
    split at h
    · rename_i hc
      cases h; exact .release l hc.1 hc.2
    · cases h
  case h_4 => exact threadRun_cases h

/-! ## The worker -/

/-- What one step of worker `i` can do. -/
inductive WorkerStep (cfg : Config) (s : State) (i : Nat) : State → Prop
  | read (second : Bool) (t : Nat) (b : Batch) (r : Ring) (a : SpscRing.Act Event)
      (h : s.worker i = .drain second t b) (ht : t < maxThreadSlots)
      (hr : SpscRing.step (ringParams cfg) (s.ring t) a = some r) (hu : Unmoved (s.ring t) r)
      (hp : r.producer = (s.ring t).producer) :
      WorkerStep cfg s i (s.setRing t r)
  | next (second : Bool) (t : Nat) (b : Batch) (r : Ring) (head : UInt32)
      (h : s.worker i = .drain second t b) (ht : t < maxThreadSlots)
      (hr : SpscRing.step (ringParams cfg) (s.ring t) .consume = some r)
      (hu : Unmoved (s.ring t) r) (hp : r.producer = (s.ring t).producer)
      (hc : (s.ring t).consumer = .loadTail head) (hempty : head = (s.ring t).tail) :
      WorkerStep cfg s i ((s.setRing t r).setWorker i (.drain second (t + 1) b))
  | pop (second : Bool) (t : Nat) (b : Batch) (r : Ring) (e : Event)
      (h : s.worker i = .drain second t b) (ht : t < maxThreadSlots)
      (hr : SpscRing.step (ringParams cfg) (s.ring t) .consume = some r)
      (hacc : r.accepted = (s.ring t).accepted)
      (hdel : r.delivered = (s.ring t).delivered ++ [e]) (hp : r.producer = (s.ring t).producer) :
      WorkerStep cfg s i
        { (s.setRing t r).setWorker i (.drain second t (b.add e)) with
          pendingEdgeInfo := notePending s.pendingEdgeInfo b e }
  | drained (second : Bool) (t : Nat) (b : Batch) (h : s.worker i = .drain second t b)
      (ht : maxThreadSlots ≤ t) : WorkerStep cfg s i (s.setWorker i (.target second b b.toLocks))
  | processed (second : Bool) (b : Batch) (h : s.worker i = .target second b []) :
      WorkerStep cfg s i (s.setWorker i (afterDrain second b.madeProgress))
  | pick (second : Bool) (b : Batch) (v : Nat) (rest : List Nat)
      (h : s.worker i = .target second b (v :: rest)) :
      WorkerStep cfg s i (s.setWorker i (.edges second b v
        (s.graph.edgeTodo s.lockSlotCount v (b.fromBits v)) rest))
  | picked (second : Bool) (b : Batch) (v : Nat) (rest : List Nat)
      (h : s.worker i = .edges second b v [] rest) :
      WorkerStep cfg s i (s.setWorker i (.target second b rest))
  | insert (second : Bool) (b : Batch) (v u : Nat) (todo rest : List Nat)
      (h : s.worker i = .edges second b v (u :: todo) rest) (r : RbGraph × Option Report)
      (hr : r = s.graph.addEdgeIfNew s.lockSlotCount u v (edgeInfoOf cfg s u v)) :
      WorkerStep cfg s i
        { s.setWorker i (.edges second b v todo rest) with
          graph := r.1
          reports := s.reports ++ r.2.toList }
  | storeIdle (h : s.worker i = .storeIdle) :
      WorkerStep cfg s i { s.setWorker i (.drain true 0 .empty) with workPending := false }
  | storeBusy (h : s.worker i = .storeBusy) :
      WorkerStep cfg s i { s.setWorker i (.drain false 0 .empty) with workPending := true }
  | stop (h : s.worker i = .loadStop) (hs : s.shouldStop = true) :
      WorkerStep cfg s i (s.setWorker i (.scan 0))
  | noStop (h : s.worker i = .loadStop) (hs : s.shouldStop = false) :
      WorkerStep cfg s i (s.setWorker i .semWait)
  | scanNext (t : Nat) (h : s.worker i = .scan t) (ht : t < maxThreadSlots)
      (hempty : (s.ring t).head = (s.ring t).tail) :
      WorkerStep cfg s i (s.setWorker i (.scan (t + 1)))
  | scanFound (t : Nat) (h : s.worker i = .scan t) (ht : t < maxThreadSlots)
      (hne : (s.ring t).head ≠ (s.ring t).tail) : WorkerStep cfg s i (s.setWorker i .semWait)
  | scanDone (t : Nat) (h : s.worker i = .scan t) (ht : maxThreadSlots ≤ t) :
      WorkerStep cfg s i (s.setWorker i .exited)
  | wait (h : s.worker i = .semWait) (hsem : s.sem ≠ 0) :
      WorkerStep cfg s i { s.setWorker i (.drain false 0 .empty) with sem := s.sem - 1 }

theorem drainRun_cases {cfg : Config} {s s' : State} {i t : Nat} {second : Bool} {b : Batch}
    (h : s.worker i = .drain second t b) (ht : t < maxThreadSlots)
    (hs : drainRun cfg s i second t b = some s') : WorkerStep cfg s i s' := by
  unfold drainRun at hs
  split at hs
  case h_1 hc =>
    obtain ⟨r, hr, rfl⟩ := Option.map_eq_some_iff.mp hs
    have hr₀ := hr
    simp only [SpscRing.step, hc, Option.some.injEq] at hr
    subst hr
    exact .read second t b _ _ h ht hr₀ ⟨rfl, rfl⟩ rfl
  case h_2 head hc =>
    obtain ⟨r, hr, hs⟩ := Option.map_eq_some_iff.mp hs
    have hr₀ := hr
    simp only [SpscRing.step, hc] at hr
    split at hs
    · rename_i hempty
      rw [if_pos hempty, Option.some.injEq] at hr
      subst hr hs
      exact .next second t b _ head h ht hr₀ ⟨rfl, rfl⟩ rfl hc hempty
    · rename_i hne
      rw [if_neg hne, Option.some.injEq] at hr
      subst hr hs
      exact .read second t b _ _ h ht hr₀ ⟨rfl, rfl⟩ rfl
  case h_3 head hc =>
    obtain ⟨r, hr, rfl⟩ := Option.map_eq_some_iff.mp hs
    have hr₀ := hr
    simp only [SpscRing.step, hc, Option.some.injEq] at hr
    subst hr
    exact .read second t b _ _ h ht hr₀ ⟨rfl, rfl⟩ rfl
  case h_4 head e hc =>
    obtain ⟨r, hr, hs⟩ := Option.map_eq_some_iff.mp hs
    have hr₀ := hr
    simp only [SpscRing.step, hc, Option.some.injEq] at hr
    subst hr hs
    exact .pop second t b _ e h ht hr₀ rfl rfl rfl

theorem workerStep_cases {cfg : Config} {s s' : State} {i : Nat}
    (h : workerStep cfg s i = some s') : WorkerStep cfg s i s' := by
  unfold workerStep at h
  split at h
  case h_1 second t b hp =>
    split at h
    · rename_i ht
      exact drainRun_cases hp ht h
    · rename_i ht
      cases h; exact .drained second t b hp (Nat.le_of_not_lt ht)
  case h_2 second b hp => cases h; exact .processed second b hp
  case h_3 second b v rest hp => cases h; exact .pick second b v rest hp
  case h_4 second b v rest hp => cases h; exact .picked second b v rest hp
  case h_5 second b v u todo rest hp => cases h; exact .insert second b v u todo rest hp _ rfl
  case h_6 hp => cases h; exact .storeIdle hp
  case h_7 hp => cases h; exact .storeBusy hp
  case h_8 hp =>
    cases h
    split
    · rename_i hs
      exact .stop hp hs
    · rename_i hs
      exact .noStop hp (by simpa using hs)
  case h_9 t hp =>
    split at h
    · rename_i ht
      cases h
      split
      · rename_i hempty
        exact .scanNext t hp ht hempty
      · rename_i hne
        exact .scanFound t hp ht hne
    · rename_i ht
      cases h; exact .scanDone t hp (Nat.le_of_not_lt ht)
  case h_10 hp =>
    split at h
    · cases h
    · rename_i hsem
      cases h; exact .wait hp hsem
  case h_11 => cases h

/-! ## The shutdown -/

/-- What one step of the shutdown can do. -/
inductive ShutdownStep (s : State) : State → Prop
  | start (h : s.shutdown = .idle) : ShutdownStep s { s with shutdown := .loadState }
  | load (h : s.shutdown = .loadState) (hs : s.workerState = .started) :
      ShutdownStep s { s with shutdown := .storeStop }
  | skip (h : s.shutdown = .loadState) (hs : s.workerState ≠ .started) :
      ShutdownStep s { s with shutdown := .returned }
  | storeStop (h : s.shutdown = .storeStop) :
      ShutdownStep s { s with
        shutdown := .post
        shouldStop := true
        stopMark := fun t => (s.ring t).accepted.length }
  | post (h : s.shutdown = .post) : ShutdownStep s { s with shutdown := .join, sem := s.sem + 1 }
  | join (h : s.shutdown = .join) (hw : s.worker (s.created - 1) = .exited) :
      ShutdownStep s { s with shutdown := .destroy }
  | destroy (h : s.shutdown = .destroy) : ShutdownStep s { s with shutdown := .storeState }
  | storeState (h : s.shutdown = .storeState) :
      ShutdownStep s { s with shutdown := .returned, workerState := .none }

theorem shutdownStep_cases {s s' : State} (h : shutdownStep s = some s') : ShutdownStep s s' := by
  unfold shutdownStep at h
  split at h
  case h_1 hp => cases h; exact .start hp
  case h_2 hp =>
    cases h
    by_cases hs : s.workerState = .started
    · rw [if_pos hs]
      exact .load hp hs
    · rw [if_neg hs]
      exact .skip hp hs
  case h_3 hp => cases h; exact .storeStop hp
  case h_4 hp => cases h; exact .post hp
  case h_5 hp =>
    split at h
    · rename_i hw
      cases h; exact .join hp hw
    · cases h
  case h_6 hp => cases h; exact .destroy hp
  case h_7 hp => cases h; exact .storeState hp
  case h_8 => cases h

/-! ## The whole system -/

inductive Step (cfg : Config) (s : State) : Act → State → Prop
  | thread {s' : State} (t : Nat) (mv : Move) (ht : t < maxThreadSlots)
      (h : ThreadStep cfg s t mv s') : Step cfg s (.thread t mv) s'
  | worker {s' : State} (i : Nat) (h : WorkerStep cfg s i s') : Step cfg s (.worker i) s'
  | shutdown {s' : State} (h : ShutdownStep s s') : Step cfg s .shutdown s'

/-- **Step inversion.** -/
theorem step_cases {cfg : Config} {s s' : State} {a : Act}
    (h : (system cfg).step s a = some s') : s.exited = false ∧ Step cfg s a s' := by
  change step cfg s a = some s' at h
  unfold step at h
  split at h
  · cases h
  · rename_i hex
    refine ⟨by simpa using hex, ?_⟩
    split at h
    case h_1 t mv =>
      split at h
      · rename_i ht
        exact .thread t mv ht (threadStep_cases h)
      · cases h
    case h_2 i => exact .worker i (workerStep_cases h)
    case h_3 => exact .shutdown (shutdownStep_cases h)

/-! ## What the operations do -/

namespace State
variable (s : State) (t u i j : Nat) (pc : Pc) (wpc : WorkerPc) (ts : ThreadState) (op : Op)
  (r : Ring)

@[grind =] theorem setPc_pc : ((s.setPc t pc).thr u).pc = if u = t then pc else (s.thr u).pc := by
  by_cases h : u = t
  · subst h; simp [setPc]
  · simp [setPc, h]

theorem setPc_at : ((s.setPc t pc).thr t).pc = pc := by
  rw [setPc_pc, if_pos rfl]

@[simp, grind =] theorem setPc_tls : ((s.setPc t pc).thr u).tls = (s.thr u).tls := by
  by_cases h : u = t
  · subst h; simp [setPc]
  · simp [setPc, h]

@[simp, grind =] theorem setPc_hist : ((s.setPc t pc).thr u).hist = (s.thr u).hist := by
  by_cases h : u = t
  · subst h; simp [setPc]
  · simp [setPc, h]

@[simp, grind =] theorem setPc_held : (s.setPc t pc).held u = s.held u := by simp [held]

@[grind =] theorem complete_pc :
    ((s.complete t ts op).thr u).pc = if u = t then .outside else (s.thr u).pc := by
  by_cases h : u = t
  · subst h; simp [complete]
  · simp [complete, h]

@[grind =] theorem complete_tls :
    ((s.complete t ts op).thr u).tls = if u = t then ts else (s.thr u).tls := by
  by_cases h : u = t
  · subst h; simp [complete]
  · simp [complete, h]

@[grind =] theorem complete_held :
    (s.complete t ts op).held u = if u = t then ts.heldLockSlots else s.held u := by
  by_cases h : u = t
  · subst h; simp [complete, held]
  · simp [complete, held, h]

@[grind =] theorem complete_hist : ((s.complete t ts op).thr u).hist =
    if u = t then (s.thr t).hist ++ [op] else (s.thr u).hist := by
  by_cases h : u = t
  · subst h; simp [complete]
  · simp [complete, h]

@[grind =] theorem setRing_ring : (s.setRing t r).ring u = if u = t then r else s.ring u := by
  simp [setRing, Function.update_apply]

/-- What the new ring keeps, all rings keep. -/
theorem setRing_keeps {γ : Type} (f : Ring → γ) (h : f r = f (s.ring t)) :
    f ((s.setRing t r).ring u) = f (s.ring u) := by
  rw [setRing_ring]
  split
  · rename_i hu
    rw [hu, h]
  · rfl

@[grind =] theorem setWorker_worker :
    (s.setWorker i wpc).worker j = if j = i then wpc else s.worker j := by
  simp [setWorker, Function.update_apply]

theorem setWorker_at : (s.setWorker i wpc).worker i = wpc := by
  rw [setWorker_worker, if_pos rfl]

@[simp, grind =] theorem setRing_held : (s.setRing t r).held u = s.held u := rfl
@[simp, grind =] theorem setWorker_held : (s.setWorker i wpc).held u = s.held u := rfl

end State

/-! ## The rings -/

/-- **Every ring moves by its own steps only.** -/
theorem ring_step {cfg : Config} {s s' : State} {a : Act} (h : Step cfg s a s') (t : Nat) :
    s'.ring t = s.ring t ∨
      ∃ x, SpscRing.step (ringParams cfg) (s.ring t) x = some (s'.ring t) := by
  have hset : ∀ {u : Nat} {r : Ring} {x : SpscRing.Act Event} {s₁ : State},
      SpscRing.step (ringParams cfg) (s.ring u) x = some r → s₁.ring = (s.setRing u r).ring →
      s₁.ring t = s.ring t ∨
        ∃ x, SpscRing.step (ringParams cfg) (s.ring t) x = some (s₁.ring t) := by
    intro u r x s₁ hr h₁
    rw [h₁, setRing_ring]
    by_cases hu : t = u
    · subst hu
      rw [if_pos rfl]
      exact Or.inr ⟨x, hr⟩
    · rw [if_neg hu]
      exact Or.inl rfl
  cases h with
  | thread u mv hu h =>
    cases h with
    | enqueue c e r h hr => exact hset hr rfl
    | ring c e r h hr => exact hset hr rfl
    | full c e r h hr => exact hset hr rfl
    | publish c e x r h hr => exact hset hr rfl
    | _ => exact Or.inl rfl
  | worker i h =>
    cases h with
    | read second u b r a h hu hr => exact hset hr rfl
    | next second u b r head h hu hr => exact hset hr rfl
    | pop second u b r e h hu hr => exact hset hr rfl
    | _ => exact Or.inl rfl
  | shutdown h => cases h <;> exact Or.inl rfl

/-- A ring of the system runs as a ring of its own. -/
theorem ring_reachable {cfg : Config} {G : State → Act → Prop} {s : State}
    (h : Runs.ReachableBy (system cfg) G s) (t : Nat) :
    Runs.Reachable (SpscRing.system (ringParams cfg) Event.zero) (s.ring t) := by
  induction h with
  | init => exact .init
  | step hr hg hs ih =>
    rcases ring_step (step_cases hs).2 t with he | ⟨x, hx⟩
    · rw [he]
      exact ih
    · exact .step ih trivial hx

theorem ringInv {cfg : Config} {G : State → Act → Prop} {s : State}
    (h : Runs.ReachableBy (system cfg) G s) (t : Nat) :
    SpscRing.RingInv (ringParams cfg) (s.ring t) :=
  SpscRing.ringInv (ringParams_lawful cfg) (ring_reachable h t)

/-! ## Past the empty rings -/

/-- The next ring the worker looks at. -/
def atRing : WorkerPc → Nat
  | .drain _ t _ | .scan t => t
  | _ => maxThreadSlots

/-- The ring is empty and nobody dequeues from it. -/
def Drained (r : Ring) : Prop := r.consumer = .idle ∧ r.head = r.tail

instance (r : Ring) : Decidable (Drained r) := inferInstanceAs (Decidable (_ ∧ _))

/-- Worker `i` past the rings it has not looked at. -/
def State.skip (s : State) (i : Nat) : State :=
  match s.worker i with
  | .drain second _ b => s.setWorker i (.drain second maxThreadSlots b)
  | .scan _ => s.setWorker i (.scan maxThreadSlots)
  | _ => s

section
variable {cfg : Config} {G : State → Act → Prop} {s : State} {i : Nat}

theorem setWorker_self {pc : WorkerPc} (h : s.worker i = pc) : s.setWorker i pc = s := by
  subst h
  simp [State.setWorker]

/-- Two steps of a drain at an empty ring. -/
theorem drain_empty_steps (hex : s.exited = false) {second : Bool} {k : Nat} {b : Batch}
    (hw : s.worker i = .drain second k b) (hk : k < maxThreadSlots) (hd : Drained (s.ring k)) :
    ∃ s₁, step cfg s (.worker i) = some s₁ ∧ s₁.worker i = .drain second k b ∧
      step cfg s₁ (.worker i) = some (s.setWorker i (.drain second (k + 1) b)) := by
  obtain ⟨hidle, hempty⟩ := hd
  have h₁ : step cfg s (.worker i) =
      some (s.setRing k { s.ring k with consumer := .loadTail (s.ring k).head }) := by
    simp [step, hex, workerStep, hw, hk, drainRun, hidle, SpscRing.step]
  refine ⟨_, h₁, hw, ?_⟩
  -- the second step puts the ring back
  have hback : (s.setRing k { s.ring k with consumer := .loadTail (s.ring k).head }).setRing k
      { s.ring k with consumer := .idle } = s := by
    have hring : { s.ring k with consumer := .idle } = s.ring k := by rw [← hidle]
    rw [hring]
    simp [setRing]
  simp only [step, workerStep, setRing_worker, hw, hk, drainRun, setRing_ring, if_true,
    SpscRing.step, hempty]
  simpa [hempty, hex] using
    congrArg (fun s₁ : State => some (s₁.setWorker i (.drain second (k + 1) b))) hback

theorem drain_empty (hG : ∀ s i, G s (.worker i)) (h : Runs.ReachableBy (system cfg) G s)
    (hex : s.exited = false) {second : Bool} {k : Nat} {b : Batch}
    (hw : s.worker i = .drain second k b) (hk : k < maxThreadSlots) (hd : Drained (s.ring k)) :
    Runs.ReachableBy (system cfg) G (s.setWorker i (.drain second (k + 1) b)) := by
  obtain ⟨s₁, h₁, -, h₂⟩ := drain_empty_steps hex hw hk hd
  exact .step (.step h (hG _ _) h₁) (hG _ _) h₂

/-- The rest of a drain over empty rings. -/
theorem drain_skip (hG : ∀ s i, G s (.worker i)) (n : Nat) (h : Runs.ReachableBy (system cfg) G s)
    (hex : s.exited = false) {second : Bool} {k : Nat} {b : Batch}
    (hw : s.worker i = .drain second k b) (hn : k + n = maxThreadSlots)
    (hd : ∀ t, k ≤ t → t < maxThreadSlots → Drained (s.ring t)) :
    Runs.ReachableBy (system cfg) G (s.setWorker i (.drain second maxThreadSlots b)) := by
  induction n generalizing s k with
  | zero => rwa [setWorker_self (hw.trans (by rw [← hn, Nat.add_zero]))]
  | succ n ih =>
    have hnext := drain_empty hG h hex hw (by omega) (hd k le_rfl (by omega))
    have := ih (k := k + 1) hnext hex (by simp [setWorker]) (by omega) fun t ht =>
      hd t (by omega)
    simpa [setWorker] using this

/-- The rest of a scan over empty rings. -/
theorem scan_skip (hG : ∀ s i, G s (.worker i)) (n : Nat) (h : Runs.ReachableBy (system cfg) G s)
    (hex : s.exited = false) {k : Nat} (hw : s.worker i = .scan k) (hn : k + n = maxThreadSlots)
    (hd : ∀ t, k ≤ t → t < maxThreadSlots → Drained (s.ring t)) :
    Runs.ReachableBy (system cfg) G (s.setWorker i (.scan maxThreadSlots)) := by
  induction n generalizing s k with
  | zero => rwa [setWorker_self (hw.trans (by rw [← hn, Nat.add_zero]))]
  | succ n ih =>
    have hk : k < maxThreadSlots := by omega
    have hstep : (system cfg).step s (.worker i) = some (s.setWorker i (.scan (k + 1))) := by
      change step cfg s (.worker i) = _
      simp [step, hex, workerStep, hw, hk, (hd k le_rfl hk).2]
    have := ih (k := k + 1) (.step h (hG _ _) hstep) hex (by simp [setWorker]) (by omega)
      fun t ht => hd t (by omega)
    simpa [setWorker] using this

theorem skip_reachable (hG : ∀ s i, G s (.worker i)) (h : Runs.ReachableBy (system cfg) G s)
    (hex : s.exited = false) (hle : atRing (s.worker i) ≤ maxThreadSlots)
    (hd : ∀ t, atRing (s.worker i) ≤ t → t < maxThreadSlots → Drained (s.ring t)) :
    Runs.ReachableBy (system cfg) G (s.skip i) := by
  unfold State.skip
  split
  · rename_i second k b hw
    rw [hw] at hle hd
    exact drain_skip hG (maxThreadSlots - k) h hex hw (Nat.add_sub_of_le hle) hd
  · rename_i k hw
    rw [hw] at hle hd
    exact scan_skip hG (maxThreadSlots - k) h hex hw (Nat.add_sub_of_le hle) hd
  · exact h

end

/-- Execute the legs of a run; after each of them worker 0 goes past the rest of the
rings, all of them empty. -/
def execLegs (cfg : Config) (g : State → Act → Bool) (s : State) : List (List Act) → Option State
  | [] => some s
  | leg :: legs =>
      (Runs.execBy (system cfg) g s leg).bind fun s₁ =>
        if s₁.exited = false ∧ atRing (s₁.worker 0) ≤ maxThreadSlots ∧
            ∀ t, t < maxThreadSlots → atRing (s₁.worker 0) ≤ t → Drained (s₁.ring t) then
          execLegs cfg g (s₁.skip 0) legs
        else none

theorem execLegs_reachable {cfg : Config} {g : State → Act → Bool} {s s' : State}
    (hg : ∀ s i, g s (.worker i) = true) {legs : List (List Act)}
    (hs : Runs.ReachableBy (system cfg) (fun s a => g s a = true) s)
    (h : execLegs cfg g s legs = some s') :
    Runs.ReachableBy (system cfg) (fun s a => g s a = true) s' := by
  induction legs generalizing s with
  | nil =>
    cases h
    exact hs
  | cons leg legs ih =>
    obtain ⟨s₁, h₁, h⟩ := Option.bind_eq_some_iff.mp h
    split at h
    · rename_i hd
      have hr := Runs.ReachableBy.execBy (fun _ _ => id) hs h₁
      exact ih (skip_reachable hg hr hd.1 hd.2.1 fun t hle ht => hd.2.2 t ht hle) h
    · cases h

end ScaleLockDep.RbBackend
