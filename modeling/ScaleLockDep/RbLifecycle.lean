import ScaleLockDep.RbSteps

/-!
# At most one worker

`lockdep_rb_ensure_worker_started` from any number of threads against one
`lockdep_potential_shutdown`.

* `LifeInv`: one thread at a time is past the compare-exchange, and only the
  worker created last can be alive;
* `ring_fifo_one_consumer`: every ring is a FIFO queue, and never two workers are
  alive.
-/

namespace ScaleLockDep.RbBackend

open ThreadState State

/-- How far a thread is in starting the worker. -/
inductive Phase
  | none
  | preparing
  | creating
  deriving DecidableEq

/-- The phase of the steps of `lockdep_rb_ensure_worker_started`. -/
def EnsurePc.phase : EnsurePc → Phase
  | .semInit | .storeStop | .storePending | .create => .preparing
  | .storeState => .creating
  | .loadState | .compareExchange | .spin => .none

def phase : Pc → Phase
  | .ensure _ _ p => p.phase
  | _ => .none

@[simp] theorem phase_afterSignal (c : Call) (e : Event) (why : Why) :
    phase (afterSignal c e why) = .none := by
  cases why <;> rfl

/-- The shutdown has seen the worker started and not yet given it up. -/
def stopping : ShutdownPc → Prop
  | .storeStop | .post | .join | .destroy | .storeState => True
  | .idle | .loadState | .returned => False

/-- The shutdown has joined the worker. -/
def joined : ShutdownPc → Prop
  | .destroy | .storeState => True
  | .idle | .loadState | .storeStop | .post | .join | .returned => False

structure LifeInv (s : State) : Prop where
  starting : ∀ t, phase (s.thr t).pc ≠ .none → s.workerState = .starting
  unique : ∀ t t', phase (s.thr t).pc ≠ .none → phase (s.thr t').pc ≠ .none → t = t'
  starter : s.workerState = .starting → ∃ t, phase (s.thr t).pc ≠ .none
  latest : ∀ i, s.worker i ≠ .exited → i + 1 = s.created
  preparing : ∀ t, phase (s.thr t).pc = .preparing → ∀ i, s.worker i = .exited
  none : s.workerState = .none → ∀ i, s.worker i = .exited
  stopping : stopping s.shutdown → s.workerState = .started
  joined : joined s.shutdown → ∀ i, s.worker i = .exited
  created : s.workerState = .started → 0 < s.created
  first : s.workerState = .none → s.shutdown ≠ .returned → s.created = 0
  creating : ∀ t, phase (s.thr t).pc = .creating → 0 < s.created

theorem lifeInv_initial : LifeInv initial where
  starting _ h := absurd rfl h
  unique _ _ h := absurd rfl h
  starter h := by cases h
  latest _ h := absurd rfl h
  preparing _ h := by cases h
  none _ _ := rfl
  stopping h := h.elim
  joined h := h.elim
  created h := by cases h
  first _ _ := rfl
  creating _ h := by cases h

/-- What a thread step means for the life of the workers. -/
inductive Starts (s : State) (t : Nat) (s' : State) : Prop
  | same (h : s'.workerState = s.workerState) (hc : s'.created = s.created)
      (hp : phase (s'.thr t).pc = phase (s.thr t).pc) (hw : s'.worker = s.worker)
  | claim (h : s.workerState = .none) (h' : s'.workerState = .starting)
      (hc : s'.created = s.created) (hp : phase (s.thr t).pc = .none)
      (hp' : phase (s'.thr t).pc = .preparing) (hw : s'.worker = s.worker)
  | create (h : s'.workerState = s.workerState) (hc : s'.created = s.created + 1)
      (hp : phase (s.thr t).pc = .preparing) (hp' : phase (s'.thr t).pc = .creating)
      (hw : s'.worker = Function.update s.worker s.created (.drain false 0 .empty))
  | finish (h' : s'.workerState = .started) (hc : s'.created = s.created)
      (hp : phase (s.thr t).pc = .creating) (hp' : phase (s'.thr t).pc = .none)
      (hw : s'.worker = s.worker)

theorem ThreadStep.starts {cfg : Config} {s s' : State} {t : Nat} {mv : Move}
    (h : ThreadStep cfg s t mv s') : Starts s t s' := by
  cases h with
  | claim c e h hs =>
    exact .claim hs rfl rfl (by rw [h]; rfl) (by simp [setPc_pc]; rfl) rfl
  | create c e h =>
    exact .create rfl rfl (by rw [h]; rfl) (by simp [setPc_pc]; rfl) rfl
  | storeState c e h =>
    exact .finish rfl rfl (by rw [h]; rfl) (by simp [setPc_pc]; rfl) rfl
  | ensure c e p q h hp hq =>
    refine .same rfl rfl ?_ rfl
    rw [h, setPc_pc, if_pos rfl]
    rcases hp with rfl | rfl | rfl <;> rcases hq with rfl | rfl <;> rfl
  | started c e p h hp hs =>
    refine .same rfl rfl ?_ rfl
    rw [h, setPc_pc, if_pos rfl]
    rcases hp with rfl | rfl <;> rfl
  | register h | overflow c h | ring c e r h hr hu hp => exact .same rfl rfl rfl rfl
  | top c h hl hnil hmv | release l h hl | push c h ts hts =>
    exact .same rfl rfl (by simp [h, complete_pc, phase]) rfl
  | unknown c bits w h hw hb | semInit c e h | storeStop c e h | storePending c e h =>
    exact .same rfl rfl (by simp [h, setPc_pc, phase, EnsurePc.phase]) rfl
  | nested c h hl hnil hmv | load c bits w h hw | known c bits w h hw hb
  | enqueue c e r h hr hu hp | full c e r h hr hu hp | publish c e x r h hr hx hacc hdel hp
  | exchange c e why h hw =>
    exact .same rfl rfl (by simp [h, setPc_pc, phase]) rfl
  | signalled c e why h hw | post c e why h =>
    exact .same rfl rfl (by simp [h, setPc_pc]; rfl) rfl

theorem thr_other {cfg : Config} {s s' : State} {t u : Nat} {mv : Move}
    (h : ThreadStep cfg s t mv s') (hu : u ≠ t) : s'.thr u = s.thr u := by
  cases h <;> simp [setPc, State.complete, setRing, setWorker, hu]

theorem shutdown_thread {cfg : Config} {s s' : State} {t : Nat} {mv : Move}
    (h : ThreadStep cfg s t mv s') : s'.shutdown = s.shutdown := by
  cases h <;> rfl

/-- While a thread starts the worker, no other thread does. -/
theorem LifeInv.others {s : State} {t u : Nat} (I : LifeInv s) (hp : phase (s.thr t).pc ≠ .none)
    (hu : u ≠ t) : phase (s.thr u).pc = .none := by
  by_contra hne
  exact hu (I.unique u t hne hp)

section
variable {s s' : State} {t : Nat} (I : LifeInv s)
  (hother : ∀ u, u ≠ t → phase (s'.thr u).pc = phase (s.thr u).pc)
  (hsd : s'.shutdown = s.shutdown)
include hother

/-- In a thread step nobody else comes to start the worker. -/
theorem starter_only (hp : ∀ u, u ≠ t → phase (s.thr u).pc = .none) {u : Nat}
    (hu : phase (s'.thr u).pc ≠ .none) : u = t := by
  by_contra hne
  exact hu ((hother u hne).trans (hp u hne))

include I hsd

theorem lifeInv_same (h : s'.workerState = s.workerState) (hc : s'.created = s.created)
    (hp : phase (s'.thr t).pc = phase (s.thr t).pc) (hw : s'.worker = s.worker) : LifeInv s' := by
  have hphase : ∀ u, phase (s'.thr u).pc = phase (s.thr u).pc := fun u => by
    by_cases hu : u = t
    · exact hu ▸ hp
    · exact hother u hu
  constructor <;> simp only [h, hc, hw, hsd, hphase]
  · exact I.starting
  · exact I.unique
  · exact I.starter
  · exact I.latest
  · exact I.preparing
  · exact I.none
  · exact I.stopping
  · exact I.joined
  · exact I.created
  · exact I.first
  · exact I.creating

/-- The compare-exchange is won. -/
theorem lifeInv_claim (h : s.workerState = .none) (h' : s'.workerState = .starting)
    (hc : s'.created = s.created) (hp' : phase (s'.thr t).pc = .preparing)
    (hw : s'.worker = s.worker) : LifeInv s' := by
  have hnone : ∀ u, phase (s.thr u).pc = .none := fun u => by
    by_contra hu
    have := I.starting u hu
    rw [h] at this
    cases this
  have honly : ∀ u, phase (s'.thr u).pc ≠ .none → u = t := fun u =>
    starter_only hother fun u _ => hnone u
  have hnst : ¬ stopping s.shutdown := fun hs => by
    have := I.stopping hs
    rw [h] at this
    cases this
  refine ⟨fun _ _ => h', fun u u' hu hu' => (honly u hu).trans (honly u' hu').symm,
    fun _ => ⟨t, by rw [hp']; simp⟩, ?_, ?_, ?_, ?_, ?_, ?_, ?_, ?_⟩
  · rw [hw, hc]
    exact I.latest
  · rw [hw]
    exact fun _ _ => I.none h
  · rw [h']
    simp
  · rw [hsd]
    exact fun hs => absurd hs hnst
  · rw [hw]
    exact fun _ => I.none h
  · rw [h']
    simp
  · rw [h']
    simp
  · intro u hu
    obtain rfl := honly u (by rw [hu]; simp)
    rw [hp'] at hu
    cases hu

/-- `pthread_create` -/
theorem lifeInv_create (h : s'.workerState = s.workerState) (hc : s'.created = s.created + 1)
    (hp : phase (s.thr t).pc = .preparing) (hp' : phase (s'.thr t).pc = .creating)
    (hw : s'.worker = Function.update s.worker s.created (.drain false 0 .empty)) :
    LifeInv s' := by
  have hne : phase (s.thr t).pc ≠ .none := by rw [hp]; simp
  have hst : s.workerState = .starting := I.starting t hne
  have hdead := I.preparing t hp
  have honly : ∀ u, phase (s'.thr u).pc ≠ .none → u = t := fun u =>
    starter_only hother fun u => I.others hne
  have hnst : ¬ stopping s.shutdown := fun hs => by
    have := I.stopping hs
    rw [hst] at this
    cases this
  refine ⟨fun _ _ => h.trans hst, fun u u' hu hu' => (honly u hu).trans (honly u' hu').symm,
    fun _ => ⟨t, by rw [hp']; simp⟩, fun i hi => ?_, fun u hu => ?_, ?_, ?_, ?_, ?_, ?_, ?_⟩
  · rw [hw, Function.update_apply] at hi
    split at hi
    · rename_i hi₀
      rw [hi₀, hc]
    · exact absurd (hdead i) hi
  · obtain rfl := honly u (by rw [hu]; simp)
    rw [hp'] at hu
    cases hu
  · rw [h, hst]
    simp
  · rw [hsd]
    exact fun hs => absurd hs hnst
  · rw [hsd]
    refine fun hs => absurd ?_ hnst
    revert hs
    cases s.shutdown <;> simp [RbBackend.joined, RbBackend.stopping]
  · rw [h, hst]
    simp
  · rw [h, hst]
    simp
  · intro _ _
    omega

/-- The worker is started. -/
theorem lifeInv_finish (h' : s'.workerState = .started) (hc : s'.created = s.created)
    (hp : phase (s.thr t).pc = .creating) (hp' : phase (s'.thr t).pc = .none)
    (hw : s'.worker = s.worker) : LifeInv s' := by
  have hnone : ∀ u, phase (s'.thr u).pc = .none := fun u => by
    by_cases hu : u = t
    · exact hu ▸ hp'
    · rw [hother u hu]
      exact I.others (by rw [hp]; simp) hu
  refine ⟨fun u hu => absurd (hnone u) hu, fun u _ hu => absurd (hnone u) hu, ?_, ?_,
    fun u hu => ?_, ?_, fun _ => h', ?_, ?_, ?_, fun u hu => ?_⟩
  · rw [h']
    simp
  · rw [hw, hc]
    exact I.latest
  · rw [hnone u] at hu
    cases hu
  · rw [h']
    simp
  · rw [hw, hsd]
    exact I.joined
  · rw [hc]
    exact fun _ => I.creating t hp
  · rw [h']
    simp
  · rw [hnone u] at hu
    cases hu

end

theorem lifeInv_thread {cfg : Config} {s s' : State} {t : Nat} {mv : Move} (I : LifeInv s)
    (h : ThreadStep cfg s t mv s') : LifeInv s' := by
  have hother : ∀ u, u ≠ t → phase (s'.thr u).pc = phase (s.thr u).pc := fun u hu => by
    rw [thr_other h hu]
  have hsd := shutdown_thread h
  cases h.starts with
  | same h hc hp hw => exact lifeInv_same I hother hsd h hc hp hw
  | claim h h' hc hp hp' hw => exact lifeInv_claim I hother hsd h h' hc hp' hw
  | create h hc hp hp' hw => exact lifeInv_create I hother hsd h hc hp hp' hw
  | finish h' hc hp hp' hw => exact lifeInv_finish I hother hsd h' hc hp hp' hw

/-- A worker step concerns the worker alone, and a worker never comes back. -/
theorem WorkerStep.life {cfg : Config} {s s' : State} {i : Nat} (h : WorkerStep cfg s i s') :
    s'.thr = s.thr ∧ s'.workerState = s.workerState ∧ s'.created = s.created ∧
      s'.shutdown = s.shutdown ∧ s.worker i ≠ .exited ∧ ∀ j, j ≠ i → s'.worker j = s.worker j := by
  cases h <;> simp_all [setWorker, setRing]

theorem lifeInv_worker {cfg : Config} {s s' : State} {i : Nat} (I : LifeInv s)
    (h : WorkerStep cfg s i s') : LifeInv s' := by
  obtain ⟨hthr, hst, hc, hsd, halive, hother⟩ := h.life
  have hback : ∀ j, s.worker j = .exited → s'.worker j = .exited := fun j hj => by
    rw [hother j, hj]
    rintro rfl
    exact halive hj
  refine ⟨?_, ?_, ?_, fun j hj => ?_, ?_, ?_, ?_, ?_, ?_, ?_, ?_⟩
  · rw [hthr, hst]
    exact I.starting
  · rw [hthr]
    exact I.unique
  · rw [hthr, hst]
    exact I.starter
  · rw [hc]
    exact I.latest j fun he => hj (hback j he)
  · rw [hthr]
    exact fun t ht j => hback j (I.preparing t ht j)
  · rw [hst]
    exact fun hn j => hback j (I.none hn j)
  · rw [hsd, hst]
    exact I.stopping
  · rw [hsd]
    exact fun hj j => hback j (I.joined hj j)
  · rw [hst, hc]
    exact I.created
  · rw [hst, hsd, hc]
    exact I.first
  · rw [hthr, hc]
    exact I.creating

theorem lifeInv_shutdown {s s' : State} (I : LifeInv s) (h : ShutdownStep s s') : LifeInv s' := by
  cases h with
  | start h =>
    exact ⟨I.starting, I.unique, I.starter, I.latest, I.preparing, I.none, fun hs => hs.elim,
      fun hs => hs.elim, I.created, fun hn _ => I.first hn (by rw [h]; simp), I.creating⟩
  | load h hs =>
    exact ⟨I.starting, I.unique, I.starter, I.latest, I.preparing, I.none, fun _ => hs,
      fun hs => hs.elim, I.created, fun hn _ => I.first hn (by rw [h]; simp), I.creating⟩
  | skip h hs =>
    exact ⟨I.starting, I.unique, I.starter, I.latest, I.preparing, I.none, fun hs => hs.elim,
      fun hs => hs.elim, I.created, fun _ hr => absurd rfl hr, I.creating⟩
  | storeStop h =>
    have hst := I.stopping (by rw [h]; trivial)
    exact ⟨I.starting, I.unique, I.starter, I.latest, I.preparing, I.none, fun _ => hst,
      fun hs => hs.elim, I.created, fun hn _ => I.first hn (by rw [h]; simp), I.creating⟩
  | post h =>
    have hst := I.stopping (by rw [h]; trivial)
    exact ⟨I.starting, I.unique, I.starter, I.latest, I.preparing, I.none, fun _ => hst,
      fun hs => hs.elim, I.created, fun hn _ => I.first hn (by rw [h]; simp), I.creating⟩
  | join h hw =>
    have hst := I.stopping (by rw [h]; trivial)
    refine ⟨I.starting, I.unique, I.starter, I.latest, I.preparing, I.none, fun _ => hst,
      fun _ i => ?_, I.created, fun hn _ => I.first hn (by rw [h]; simp), I.creating⟩
    by_contra hi
    have hc := I.latest i hi
    rw [show s.created - 1 = i by omega] at hw
    exact hi hw
  | destroy h =>
    have hst := I.stopping (by rw [h]; trivial)
    exact ⟨I.starting, I.unique, I.starter, I.latest, I.preparing, I.none, fun _ => hst,
      fun _ => I.joined (by rw [h]; trivial), I.created,
      fun hn _ => I.first hn (by rw [h]; simp), I.creating⟩
  | storeState h =>
    have hst := I.stopping (by rw [h]; trivial)
    have hdead := I.joined (by rw [h]; trivial)
    have hnone : ∀ t, phase (s.thr t).pc = .none := fun t => by
      by_contra ht
      have := I.starting t ht
      rw [hst] at this
      cases this
    refine ⟨fun t ht => absurd (hnone t) ht, I.unique, fun hn => ?_, I.latest, I.preparing,
      fun _ => hdead, fun hs => hs.elim, fun hs => hs.elim, fun hn => ?_, fun _ hr => absurd rfl hr,
      I.creating⟩
    · cases hn
    · cases hn

theorem lifeInv_step {cfg : Config} {s s' : State} {a : Act} (I : LifeInv s)
    (h : Step cfg s a s') : LifeInv s' := by
  cases h with
  | thread t mv ht h => exact lifeInv_thread I h
  | worker i h => exact lifeInv_worker I h
  | shutdown h => exact lifeInv_shutdown I h

theorem lifeInv {cfg : Config} {G : State → Act → Prop} {s : State}
    (h : Runs.ReachableBy (system cfg) G s) : LifeInv s :=
  h.invariant lifeInv_initial fun _ _ _ _ I _ hs => lifeInv_step I (step_cases hs).2

/-- Never two workers. -/
theorem LifeInv.one {s : State} (I : LifeInv s) {i j : Nat} (hi : s.worker i ≠ .exited)
    (hj : s.worker j ≠ .exited) : i = j := by
  have := I.latest i hi
  have := I.latest j hj
  omega

/-- While a worker makes a step, no other is alive. -/
theorem worker_only {cfg : Config} {s s' : State} {i : Nat} (L : LifeInv s)
    (h : WorkerStep cfg s i s') (j : Nat) (hj : s'.worker j ≠ .exited) : j = i := by
  obtain ⟨-, -, -, -, halive, hother⟩ := h.life
  by_contra hne
  rw [hother j hne] at hj
  exact hne (L.one hj halive)

/-- **Every ring is a FIFO queue with one consumer**: for any number of operations,
threads and interleavings, with one shutdown. -/
theorem ring_fifo_one_consumer (cfg : Config) :
    (∀ r, Runs.Reachable (SpscRing.system (ringParams cfg) Event.zero) r →
      SpscRing.Fifo (ringParams cfg) r ∧
      ∀ a r', SpscRing.step (ringParams cfg) r a = some r' →
        SpscRing.QueueStep rbCapacity (SpscRing.queue r) (SpscRing.queue r')) ∧
    (∀ s, Runs.Reachable (system cfg) s →
      (∀ t, SpscRing.Fifo (ringParams cfg) (s.ring t)) ∧
      (∀ i j, s.worker i ≠ .exited → s.worker j ≠ .exited → i = j)) :=
  have hp := ringParams_lawful cfg
  ⟨fun _ h => ⟨SpscRing.ring_fifo hp h, fun _ _ hs =>
      SpscRing.ring_refines (SpscRing.ringInv hp h) (SpscRing.ringInv hp (.step h trivial hs)) hs⟩,
    fun _ h => ⟨fun t => SpscRing.ring_fifo hp (ring_reachable h t),
      fun _ _ => (lifeInv h).one⟩⟩

/-- Two events go in and one comes out. -/
def twoInOneOut : List (SpscRing.Act Event) :=
  .enqueue ⟨1, 0, 0, fun _ => 1#64⟩ :: List.replicate 10 .produce ++
    .enqueue ⟨2, 0, 0, fun _ => 2#64⟩ :: List.replicate 10 .produce ++
      .dequeue :: List.replicate 3 .consume

/-- Thread 0 locks 0 and then 1, up to the creation of the worker; thread 1 does the
same and waits for it. -/
def startWorker : List Act :=
  [.thread 0 .register, .thread 0 .register] ++
    [.thread 0 (.acquire ⟨.lock, 0, 0⟩), .thread 0 (.acquire ⟨.lock, 1, 0⟩)] ++
    List.replicate 7 (.thread 0 .run) ++
    [.thread 1 (.acquire ⟨.lock, 0, 0⟩), .thread 1 (.acquire ⟨.lock, 1, 0⟩)] ++
    List.replicate 9 (.thread 1 .run) ++ List.replicate 4 (.thread 0 .run)

theorem twoInOneOut_runs : (Runs.exec (SpscRing.system (ringParams ⟨false, false⟩) Event.zero)
    (SpscRing.initial Event.zero) twoInOneOut).isSome = true := by decide

theorem startWorker_runs :
    (Runs.exec (system ⟨false, false⟩) initial startWorker).isSome = true := by decide

theorem ring_fifo_one_consumer_started :
    (∃ r, Runs.exec (SpscRing.system (ringParams ⟨false, false⟩) Event.zero)
        (SpscRing.initial Event.zero) twoInOneOut = some r ∧
      r.tail = 2 ∧ r.head = 1 ∧ SpscRing.Fifo (ringParams ⟨false, false⟩) r) ∧
    (∃ s, Runs.exec (system ⟨false, false⟩) initial startWorker = some s ∧
      s.created = 1 ∧ s.workerState = .starting ∧
      ∀ i j, s.worker i ≠ .exited → s.worker j ≠ .exited → i = j) := by
  have hr := (Option.some_get twoInOneOut_runs).symm
  have hs := (Option.some_get startWorker_runs).symm
  have h := ring_fifo_one_consumer ⟨false, false⟩
  exact ⟨⟨_, hr, by decide, by decide, (h.1 _ (Runs.ReachableBy.exec .init hr)).1⟩,
    ⟨_, hs, by decide, by decide, (h.2 _ (Runs.ReachableBy.exec .init hs)).2⟩⟩

end ScaleLockDep.RbBackend
