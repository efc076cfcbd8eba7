import ScaleLockDep.RbLifecycle

/-!
# The wakeup protocol

The flag `g_rb_work_pending`, the semaphore, the rings and the stop flag, between
producers, worker and shutdown.

* `WakeInv`: since the worker stored 0, an event it has not seen is announced by
  the flag or about to be, and the flag stands for a post;
* `wakeInv`: it holds in every reachable state.
-/

namespace ScaleLockDep.RbBackend

open ThreadState State

/-- The events in the ring of `t`. -/
def waiting (s : State) (t : Nat) : List Event := SpscRing.contents (s.ring t)

/-- The worker has stored 0 to the flag and found the ring of `u` empty since. -/
def passed : WorkerPc → Nat → Prop
  | .drain true t b, u => b.madeProgress = false ∧ u < t
  | .target true b _, _ | .edges true b _ _ _, _ => b.madeProgress = false
  | .loadStop, _ | .scan _, _ | .semWait, _ => True
  | _, _ => False

/-- The worker has stored 0 to the flag and is on its way to `sem_wait`. -/
def idling : WorkerPc → Prop
  | .drain true _ _ | .target true _ _ | .edges true _ _ _ _ => True
  | .loadStop | .scan _ | .semWait => True
  | _ => False

/-- The thread has published an event and not yet set the flag. -/
def announcing : Pc → Prop
  | .exchange _ _ .published => True
  | _ => False

/-- The thread has set the flag and not yet posted. -/
def posting : Pc → Prop
  | .post _ _ _ => True
  | _ => False

structure WakeInv (s : State) : Prop where
  announced : ∀ i u, passed (s.worker i) u → u < maxThreadSlots → waiting s u ≠ [] →
    announcing (s.thr u).pc ∨ s.workPending = true
  posted : ∀ i, idling (s.worker i) → s.workPending = true →
    0 < s.sem ∨ ∃ t, posting (s.thr t).pc
  stop : ∀ i, s.worker i = .semWait → s.shouldStop = true →
    s.shutdown = .post ∨ 0 < s.sem ∨ ∃ t, t < maxThreadSlots ∧ waiting s t ≠ []

theorem wakeInv_initial : WakeInv initial where
  announced _ _ h := h.elim
  posted _ h := h.elim
  stop _ h := by cases h

theorem passed_alive {pc : WorkerPc} {u : Nat} (h : passed pc u) : pc ≠ .exited := by
  rintro rfl
  exact h

theorem idling_alive {pc : WorkerPc} (h : idling pc) : pc ≠ .exited := by
  rintro rfl
  exact h

/-! ## Application threads -/

/-- What a thread step means for the wakeup. -/
inductive Signals (s : State) (t : Nat) (s' : State) : Prop
  /-- nothing -/
  | quiet (hr : ∀ u, waiting s' u = waiting s u) (hp : s'.workPending = s.workPending)
      (hs : s'.sem = s.sem) (hstop : s'.shouldStop = s.shouldStop)
      (ha : announcing (s.thr t).pc → announcing (s'.thr t).pc)
      (hpost : posting (s.thr t).pc → posting (s'.thr t).pc)
  /-- the worker is being prepared -/
  | prepare (hp : phase (s.thr t).pc = .preparing) (hw : s'.worker = s.worker)
  | publish (hr : ∀ u, u ≠ t → waiting s' u = waiting s u) (hp : s'.workPending = s.workPending)
      (hs : s'.sem = s.sem) (hstop : s'.shouldStop = s.shouldStop)
      (hgrow : waiting s' t ≠ [])
      (ha : announcing (s'.thr t).pc) (hpost : ¬ posting (s.thr t).pc)
  /-- the exchange finds the flag set -/
  | signalled (hr : ∀ u, waiting s' u = waiting s u) (hp : s.workPending = true)
      (hp' : s'.workPending = true) (hs : s'.sem = s.sem) (hstop : s'.shouldStop = s.shouldStop)
      (hpost : ¬ posting (s.thr t).pc)
  /-- the exchange sets the flag -/
  | exchange (hr : ∀ u, waiting s' u = waiting s u) (hp' : s'.workPending = true)
      (hs : s'.sem = s.sem) (hstop : s'.shouldStop = s.shouldStop) (hpost : posting (s'.thr t).pc)
  | post (hr : ∀ u, waiting s' u = waiting s u) (hp : s'.workPending = s.workPending)
      (hs : 0 < s'.sem) (hstop : s'.shouldStop = s.shouldStop) (ha : ¬ announcing (s.thr t).pc)

theorem waiting_of_ring {s s' : State} {u : Nat} (h : s'.ring u = s.ring u) :
    waiting s' u = waiting s u := by
  rw [waiting, waiting, h]

theorem waiting_setRing (s : State) (t : Nat) (r : Ring) (u : Nat) :
    waiting (s.setRing t r) u = if u = t then SpscRing.contents r else waiting s u := by
  simp only [waiting, setRing_ring]
  split <;> rfl

theorem Unmoved.waiting {s : State} {t : Nat} {r : Ring} (h : Unmoved (s.ring t) r) (u : Nat) :
    waiting (s.setRing t r) u = waiting s u := by
  rw [waiting_setRing]
  split
  · rename_i hu
    rw [hu]
    exact SpscRing.contents_same h.accepted h.delivered
  · rfl

theorem ThreadStep.signals {cfg : Config} {s s' : State} {t : Nat} {mv : Move}
    (R : ∀ u, SpscRing.RingInv (ringParams cfg) (s.ring u)) (h : ThreadStep cfg s t mv s') :
    Signals s t s' := by
  cases h with
  | semInit c e h | storeStop c e h | storePending c e h => exact .prepare (by rw [h]; rfl) rfl
  | publish c e x r h hr hx hacc hdel hp =>
    have hw : ∀ u, RbBackend.waiting ((s.setRing t r).setPc t (.exchange c e .published)) u =
        RbBackend.waiting (s.setRing t r) u := fun u => rfl
    refine .publish (fun u hu => ?_) rfl rfl rfl ?_ (by simp [setPc_pc, announcing])
      (by simp [h, posting])
    · rw [hw, waiting_setRing, if_neg hu]
    · rw [hw, waiting_setRing, if_pos rfl, (R t).contents_publish hacc hdel]
      simp
  | signalled c e why h hw =>
    exact .signalled (fun _ => rfl) hw hw rfl rfl (by simp [h, posting])
  | exchange c e why h hw =>
    exact .exchange (fun _ => rfl) rfl rfl rfl (by simp [setPc_pc, posting])
  | post c e why h =>
    exact .post (fun _ => rfl) rfl (Nat.succ_pos _) rfl (by simp [h, announcing])
  | ring c e r h hr hu hp => exact .quiet hu.waiting rfl rfl rfl (fun ha => ha) (fun hp => hp)
  | enqueue c e r h hr hu hp | full c e r h hr hu hp =>
    exact .quiet hu.waiting rfl rfl rfl (by simp [h, announcing]) (by simp [h, posting])
  | register h | overflow c h =>
    exact .quiet (fun _ => rfl) rfl rfl rfl (fun ha => ha) (fun hp => hp)
  | top c h hl hnil hmv | nested c h hl hnil hmv | release l h hl | load c bits w h hw
  | unknown c bits w h hw hb | known c bits w h hw hb | started c e p h hp hs
  | ensure c e p q h hp hq | claim c e h hs | create c e h | storeState c e h | push c h ts hts =>
    exact .quiet (fun _ => rfl) rfl rfl rfl (by simp [h, announcing]) (by simp [h, posting])

/-- A worker that is new after a thread step has only just begun. -/
theorem worker_thread {cfg : Config} {s s' : State} {t : Nat} {mv : Move} (L : LifeInv s)
    (h : ThreadStep cfg s t mv s') (i : Nat) : s'.worker i = s.worker i ∨
      s.worker i = .exited ∧ s'.worker i = .drain false 0 .empty := by
  obtain ⟨_, _, _, hw⟩ | ⟨_, _, _, _, _, hw⟩ | ⟨_, _, hp, _, hw⟩ | ⟨_, _, _, _, hw⟩ := h.starts
  · rw [hw]
    exact Or.inl rfl
  · rw [hw]
    exact Or.inl rfl
  · rw [hw, Function.update_apply]
    split
    · exact Or.inr ⟨L.preparing t hp i, rfl⟩
    · exact Or.inl rfl
  · rw [hw]
    exact Or.inl rfl

theorem wakeInv_thread {cfg : Config} {s s' : State} {t : Nat} {mv : Move}
    (R : ∀ u, SpscRing.RingInv (ringParams cfg) (s.ring u)) (L : LifeInv s) (I : WakeInv s)
    (h : ThreadStep cfg s t mv s') : WakeInv s' := by
  have hother : ∀ u, u ≠ t → s'.thr u = s.thr u := fun u hu => thr_other h hu
  have hpass : ∀ i u, passed (s'.worker i) u → passed (s.worker i) u := fun i u hp => by
    rcases worker_thread L h i with hw | ⟨-, hw⟩ <;> rw [hw] at hp
    · exact hp
    · exact hp.elim
  have hidle : ∀ i, idling (s'.worker i) → idling (s.worker i) := fun i hp => by
    rcases worker_thread L h i with hw | ⟨-, hw⟩ <;> rw [hw] at hp
    · exact hp
    · exact hp.elim
  have hwait : ∀ i, s'.worker i = .semWait → s.worker i = .semWait := fun i hp => by
    rcases worker_thread L h i with hw | ⟨-, hw⟩ <;> rw [hw] at hp
    · exact hp
    · cases hp
  have hsd := shutdown_thread h
  -- whoever was about to post still is, unless it is `t` and has done so
  have hkeep : (posting (s.thr t).pc → posting (s'.thr t).pc) →
      (∃ u, posting (s.thr u).pc) → ∃ u, posting (s'.thr u).pc := fun hp ⟨u, hu⟩ => by
    by_cases hut : u = t
    · subst hut
      exact ⟨u, hp hu⟩
    · exact ⟨u, by rwa [hother u hut]⟩
  obtain ⟨hr, hp, hs, hstop, ha, hpost⟩ | ⟨hp, hw⟩ | ⟨hr, hp, hs, hstop, hgrow, ha, hpost⟩ |
    ⟨hr, hp, hp', hs, hstop, hpost⟩ | ⟨hr, hp', hs, hstop, hpost⟩ | ⟨hr, hp, hs, hstop, ha⟩ :=
    h.signals R
  · refine ⟨fun i u hi hu hne => ?_, fun i hi hf => ?_, fun i hi hf => ?_⟩
    · rw [hr] at hne
      rw [hp]
      refine (I.announced i u (hpass i u hi) hu hne).imp_left fun hann => ?_
      by_cases hut : u = t
      · subst hut
        exact ha hann
      · rwa [hother u hut]
    · rw [hp] at hf
      rw [hs]
      exact (I.posted i (hidle i hi) hf).imp_right (hkeep hpost)
    · rw [hstop] at hf
      simp only [hsd, hs, hr]
      exact I.stop i (hwait i hi) hf
  · have hdead : ∀ i, s'.worker i = .exited := fun i => by
      rw [hw]
      exact L.preparing t hp i
    exact ⟨fun i u hi => absurd (hdead i) (passed_alive hi),
      fun i hi => absurd (hdead i) (idling_alive hi),
      fun i hi => by rw [hdead i] at hi; cases hi⟩
  · refine ⟨fun i u hi hu hne => ?_, fun i hi hf => ?_, fun i hi hf => ?_⟩
    · by_cases hut : u = t
      · subst hut
        exact Or.inl ha
      · rw [hr u hut] at hne
        rw [hp, hother u hut]
        exact I.announced i u (hpass i u hi) hu hne
    · rw [hp] at hf
      rw [hs]
      exact (I.posted i (hidle i hi) hf).imp_right (hkeep fun h => absurd h hpost)
    · rw [hstop] at hf
      rw [hsd, hs]
      rcases I.stop i (hwait i hi) hf with h | h | ⟨u, hu, hne⟩
      · exact Or.inl h
      · exact Or.inr (Or.inl h)
      · refine Or.inr (Or.inr ⟨u, hu, ?_⟩)
        by_cases hut : u = t
        · rwa [hut]
        · rwa [hr u hut]
  · refine ⟨fun i u hi hu hne => Or.inr hp', fun i hi hf => ?_, fun i hi hf => ?_⟩
    · rw [hs]
      exact (I.posted i (hidle i hi) hp).imp_right (hkeep fun h => absurd h hpost)
    · rw [hstop] at hf
      simp only [hsd, hs, hr]
      exact I.stop i (hwait i hi) hf
  · refine ⟨fun i u hi hu hne => Or.inr hp', fun i hi hf => Or.inr ⟨t, hpost⟩, fun i hi hf => ?_⟩
    rw [hstop] at hf
    simp only [hsd, hs, hr]
    exact I.stop i (hwait i hi) hf
  · refine ⟨fun i u hi hu hne => ?_, fun i hi hf => Or.inl hs,
      fun i hi hf => Or.inr (Or.inl hs)⟩
    rw [hr] at hne
    rw [hp]
    refine (I.announced i u (hpass i u hi) hu hne).imp_left fun hann => ?_
    by_cases hut : u = t
    · subst hut
      exact absurd hann ha
    · rwa [hother u hut]

/-! ## The worker -/

theorem waiting_nil {p : SpscRing.Params Event} {r : Ring} (hp : p.Lawful)
    (R : SpscRing.RingInv p r) : SpscRing.contents r = [] ↔ r.head = r.tail := by
  have hcount := R.count hp
  rw [SpscRing.contents, List.drop_eq_nil_iff]
  constructor
  · intro hle
    have : r.accepted.length = r.delivered.length := Nat.le_antisymm hle R.le
    rw [R.head, R.tail, this]
  · intro h
    have : (r.tail - r.head).toNat = 0 := by
      rw [h, UInt32.sub_self]
      rfl
    omega

@[simp] theorem add_madeProgress (b : Batch) (e : Event) : (b.add e).madeProgress = true := by
  unfold Batch.add
  split <;> rfl

/-- What the invariant says of worker `i`; the threads are those of `s`. -/
structure Wakes (s s' : State) (i : Nat) : Prop where
  announced : ∀ u, passed (s'.worker i) u → u < maxThreadSlots → waiting s' u ≠ [] →
    announcing (s.thr u).pc ∨ s'.workPending = true
  posted : idling (s'.worker i) → s'.workPending = true → 0 < s'.sem ∨ ∃ t, posting (s.thr t).pc
  stop : s'.worker i = .semWait → s'.shouldStop = true →
    s.shutdown = .post ∨ 0 < s'.sem ∨ ∃ t, t < maxThreadSlots ∧ waiting s' t ≠ []

/-- A worker that is not about to sleep. -/
theorem Wakes.busy {s s' : State} {i : Nat} {pc : WorkerPc} (hpc : s'.worker i = pc)
    (hp : ∀ u, ¬ passed pc u) (hi : ¬ idling pc) (hw : pc ≠ .semWait) : Wakes s s' i where
  announced u h := absurd (hpc ▸ h) (hp u)
  posted h := absurd (hpc ▸ h) hi
  stop h := absurd (hpc ▸ h) hw

/-- A step on in the same part of the loop. -/
theorem Wakes.on {s s' : State} {i : Nat} {pc : WorkerPc} (I : WakeInv s) (hpc : s'.worker i = pc)
    (hwait : ∀ u, waiting s' u = waiting s u) (hpend : s'.workPending = s.workPending)
    (hsem : s'.sem = s.sem)
    (hp : ∀ u, u < maxThreadSlots → passed pc u → passed (s.worker i) u)
    (hi : idling pc → idling (s.worker i)) (hw : pc ≠ .semWait) : Wakes s s' i where
  announced u h hu := by
    rw [hwait, hpend]
    exact I.announced i u (hp u hu (hpc ▸ h)) hu
  posted h := by
    rw [hpend, hsem]
    exact I.posted i (hi (hpc ▸ h))
  stop h := absurd (hpc ▸ h) hw

theorem wakes_worker {cfg : Config} {s s' : State} {i : Nat}
    (R : ∀ t, SpscRing.RingInv (ringParams cfg) (s.ring t)) (I : WakeInv s)
    (h : WorkerStep cfg s i s') : Wakes s s' i := by
  have hp := ringParams_lawful cfg
  cases h with
  | read second t b r a h ht hr hu hpr =>
    exact .on I h hu.waiting rfl rfl (by rw [h]; exact fun _ _ => id) (by rw [h]; exact id) (by simp)
  | next second t b r head h ht hr hu hpr hc hempty =>
    have hC := (R t).consumer
    simp only [SpscRing.ConsumerOk, hc] at hC
    have hnil : waiting s t = [] := (waiting_nil hp (R t)).mpr (hC ▸ hempty)
    refine ⟨fun u hpu hum hne => ?_, fun hid => I.posted i ?_, fun hw => ?_⟩
    · change waiting (s.setRing t r) u ≠ [] at hne
      rw [hu.waiting] at hne
      simp only [setWorker_worker, if_true] at hpu
      cases second with
      | false => exact hpu.elim
      | true =>
        obtain ⟨hprog, hlt⟩ := hpu
        rcases Nat.lt_succ_iff_lt_or_eq.mp hlt with hlt | rfl
        · exact I.announced i u (h ▸ ⟨hprog, hlt⟩) hum hne
        · exact absurd hnil hne
    · rw [h]
      simp only [setWorker_worker, if_true] at hid
      cases second <;> exact hid
    · simp only [setWorker_worker, if_true] at hw
      cases hw
  | pop second t b r e h ht hr hacc hdel hpr =>
    refine ⟨fun u hpu => ?_, fun hid => I.posted i ?_, fun hw => ?_⟩
    · simp only [setWorker_worker, if_true] at hpu
      cases second with
      | false => exact hpu.elim
      | true =>
        rw [passed, add_madeProgress] at hpu
        cases hpu.1
    · rw [h]
      simp only [setWorker_worker, if_true] at hid
      cases second <;> exact hid
    · simp only [setWorker_worker, if_true] at hw
      cases hw
  | drained second t b h ht =>
    refine .on I (setWorker_at _ _ _) (fun _ => rfl) rfl rfl (fun u hu hpu => ?_) (fun hid => ?_)
      (by simp)
    · rw [h]
      cases second with
      | false => exact hpu.elim
      | true => exact ⟨hpu, by omega⟩
    · rw [h]
      cases second <;> exact hid
  | processed second b h =>
    cases second <;> cases hb : b.madeProgress
    · exact .busy (setWorker_at _ _ _) (fun _ => id) id (by simp [afterDrain])
    · exact .busy (setWorker_at _ _ _) (fun _ => id) id (by simp [afterDrain])
    · exact .on I (setWorker_at _ _ _) (fun _ => rfl) rfl rfl (fun _ _ _ => h ▸ hb)
        (fun _ => h ▸ trivial) (by simp [afterDrain])
    · exact .busy (setWorker_at _ _ _) (fun _ => id) id (by simp [afterDrain])
  | pick second b v rest h | picked second b v rest h =>
    exact .on I (setWorker_at _ _ _) (fun _ => rfl) rfl rfl
      (by rw [h]; cases second <;> exact fun _ _ => id)
      (by rw [h]; cases second <;> exact id) (by simp)
  | insert second b v u todo rest h r hr =>
    exact .on I (setWorker_at _ _ _) (fun _ => rfl) rfl rfl
      (by rw [h]; cases second <;> exact fun _ _ => id)
      (by rw [h]; cases second <;> exact id) (by simp)
  | storeIdle h =>
    refine ⟨fun u hpu => ?_, fun _ hf => ?_, fun hw => ?_⟩
    · simp only [setWorker_worker, if_true] at hpu
      exact absurd hpu.2 (Nat.not_lt_zero u)
    · cases hf
    · simp only [setWorker_worker, if_true] at hw
      cases hw
  | storeBusy h => exact .busy (setWorker_at _ _ _) (fun _ => id) id (by simp)
  | stop h hs | scanNext t h ht hempty =>
    exact .on I (setWorker_at _ _ _) (fun _ => rfl) rfl rfl (by rw [h]; exact fun _ _ => id)
      (by rw [h]; exact id) (by simp)
  | noStop h hs =>
    refine ⟨fun u _ => I.announced i u (h ▸ trivial), fun _ => I.posted i (h ▸ trivial),
      fun _ hf => ?_⟩
    rw [setWorker_shouldStop, hs] at hf
    cases hf
  | scanFound t h ht hne =>
    exact ⟨fun u _ => I.announced i u (h ▸ trivial), fun _ => I.posted i (h ▸ trivial),
      fun _ _ => Or.inr (Or.inr ⟨t, ht, mt (waiting_nil hp (R t)).mp hne⟩)⟩
  | scanDone t h ht => exact .busy (setWorker_at _ _ _) (fun _ => id) id (by simp)
  | wait h hsem => exact .busy (setWorker_at _ _ _) (fun _ => id) id (by simp)

theorem wakeInv_worker {cfg : Config} {s s' : State} {i : Nat}
    (R : ∀ t, SpscRing.RingInv (ringParams cfg) (s.ring t)) (L : LifeInv s) (I : WakeInv s)
    (h : WorkerStep cfg s i s') : WakeInv s' := by
  obtain ⟨hthr, -, -, hsd, -, -⟩ := h.life
  have honly := worker_only L h
  have W := wakes_worker R I h
  refine ⟨fun j u hj => ?_, fun j hj => ?_, fun j hj => ?_⟩
  · obtain rfl := honly j (passed_alive hj)
    rw [hthr]
    exact W.announced u hj
  · obtain rfl := honly j (idling_alive hj)
    simp only [hthr]
    exact W.posted hj
  · obtain rfl := honly j (by rw [hj]; simp)
    rw [hsd]
    exact W.stop hj

/-! ## The shutdown -/

theorem wakeInv_shutdown {s s' : State} (I : WakeInv s) (h : ShutdownStep s s') : WakeInv s' := by
  have hstop : ∀ i, s.worker i = .semWait → s.shouldStop = true → s.shutdown ≠ .post →
      0 < s.sem ∨ ∃ t, t < maxThreadSlots ∧ waiting s t ≠ [] :=
    fun i hi hf hne => (I.stop i hi hf).resolve_left hne
  cases h with
  | storeStop h => exact ⟨I.announced, I.posted, fun i _ _ => Or.inl rfl⟩
  | post h =>
    exact ⟨I.announced, fun i _ _ => Or.inl (Nat.succ_pos _),
      fun i _ _ => Or.inr (Or.inl (Nat.succ_pos _))⟩
  | start h | load h hs | skip h hs | join h hw | destroy h | storeState h =>
    exact ⟨I.announced, I.posted, fun i hi hf => Or.inr (hstop i hi hf (by rw [h]; simp))⟩

theorem wakeInv {cfg : Config} {G : State → Act → Prop} {s : State}
    (h : Runs.ReachableBy (system cfg) G s) : WakeInv s :=
  h.invariant wakeInv_initial fun _ _ _ hr I _ hs => by
    cases (step_cases hs).2 with
    | thread t mv ht h => exact wakeInv_thread (ringInv hr) (lifeInv hr) I h
    | worker i h => exact wakeInv_worker (ringInv hr) (lifeInv hr) I h
    | shutdown h => exact wakeInv_shutdown I h

end ScaleLockDep.RbBackend
