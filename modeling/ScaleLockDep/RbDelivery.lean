import ScaleLockDep.RbEdges

/-!
# Nothing is lost on the way to the worker

* `InWork`, `inWork_step`: a pair in a batch stays there until its edge is in the
  tables;
* `DeliveryInv`: an event taken out of a ring is in work;
* `StopInv`: what had been published before the stop has been worked off when a
  worker leaves its loop;
* `wakeup_loses_no_work`: the wakeup protocol.
-/

namespace ScaleLockDep.RbBackend

open ThreadState State RbGraph Relation

variable {cfg : Config} {s s' : State} {a : Act} {u v : Nat}

/-! ## Batches -/

/-- The targets of a batch being filled are in its list. -/
def Touched : WorkerPc → Prop
  | .drain _ _ b => ∀ u v, (b.fromBits v).test u = true → v ∈ b.toLocks
  | _ => True

theorem touched_empty (second : Bool) : Touched (.drain second 0 .empty) := fun u v h =>
  absurd h (not_holds_empty second u v)

theorem touched_add {second : Bool} {t : Nat} {b : Batch} (h : Touched (.drain second t b))
    (e : Event) : Touched (.drain second t (b.add e)) := by
  intro u v hb
  unfold Batch.add
  split
  · rename_i he
    exact h u v ((holds_add_of_le he).mp (show Holds (.drain second t (b.add e)) u v from hb))
  · rename_i he
    have hb' : Holds (.drain second t (b.add e)) u v := hb
    rcases (holds_add (Nat.lt_of_not_le he)).mp hb' with hb | ⟨rfl, -⟩
    · have hv := h u v hb
      dsimp only
      split
      · exact hv
      · exact List.mem_append_left _ hv
    · dsimp only
      split
      · assumption
      · simp

theorem touched_worker {i : Nat} (h : WorkerStep cfg s i s') (hT : Touched (s.worker i)) :
    Touched (s'.worker i) := by
  cases h with
  | read second t b r x h ht hr hu hp => exact hT
  | next second t b r head h ht hr hu hp hc hempty =>
    simp only [setWorker_worker, if_true]
    rw [h] at hT
    exact hT
  | pop second t b r e h ht hr hacc hdel hp =>
    simp only [setWorker_worker, if_true]
    rw [h] at hT
    exact touched_add hT e
  | processed second b h =>
    simp only [setWorker_worker, if_true]
    cases second <;> cases b.madeProgress <;> first | exact touched_empty _ | trivial
  | storeIdle h | storeBusy h | wait h hsem =>
    simp only [setWorker_worker, if_true]
    exact touched_empty _
  | _ =>
    simp only [setWorker_worker, if_true]
    trivial

theorem touched {G : State → Act → Prop} (h : Runs.ReachableBy (system cfg) G s) :
    ∀ i, Touched (s.worker i) :=
  h.invariant (P := fun s => ∀ i, Touched (s.worker i))
    (fun _ => show Touched .exited from trivial)
    fun s s' a hr hT _ hs i => by
      cases (step_cases hs).2 with
      | thread t mv ht h =>
        rcases worker_thread (lifeInv hr) h i with hw | ⟨-, hw⟩ <;> rw [hw]
        · exact hT i
        · exact touched_empty _
      | worker j h =>
        by_cases hij : i = j
        · subst hij
          exact touched_worker h (hT i)
        · rw [h.life.2.2.2.2.2 i hij]
          exact hT i
      | shutdown h => cases h <;> exact hT i

/-! ## Work in progress -/

/-- The edge is in the tables or in a batch on its way there. -/
def InWork (s : State) (u v : Nat) : Prop := s.graph.E u v ∨ ∃ i, Holds (s.worker i) u v

/-- A worker keeps the pairs of its batch or puts them into the tables. -/
theorem holds_goes_on {i : Nat} (E : EdgeInv s) (hT : Touched (s.worker i))
    (h : WorkerStep cfg s i s') (hh : Holds (s.worker i) u v) :
    s'.graph.E u v ∨ Holds (s'.worker i) u v := by
  have hp := E.batch i u v hh
  cases h with
  | read second t b r x h ht hr hu hp => exact Or.inr hh
  | next second t b r head h ht hr hu hp hc hempty =>
    right
    simp only [setWorker_worker, if_true]
    rw [h] at hh
    exact hh
  | pop second t b r e h ht hr hacc hdel hp =>
    right
    simp only [setWorker_worker, if_true]
    rw [h] at hh
    rcases Nat.lt_or_ge e.toLockSlot maxLockSlots with he | he
    · exact (holds_add he).mpr (Or.inl hh)
    · exact (holds_add_of_le he).mpr hh
  | drained second t b h ht =>
    right
    simp only [setWorker_worker, if_true]
    rw [h] at hh hT
    exact ⟨hT u v hh, hh⟩
  | processed second b h =>
    rw [h] at hh
    cases hh.1
  | pick second b tgt rest h =>
    simp only [setWorker_worker, if_true]
    rw [h] at hh
    obtain ⟨hv, hb⟩ := hh
    rcases List.mem_cons.mp hv with rfl | hv
    · by_cases he : s.graph.E u v
      · exact Or.inl he
      · exact Or.inr (Or.inl ⟨rfl, (mem_edgeTodo E.wf E.count).mpr ⟨hp.source, hb, he⟩⟩)
    · exact Or.inr (Or.inr ⟨hv, hb⟩)
  | picked second b tgt rest h =>
    right
    simp only [setWorker_worker, if_true]
    rw [h] at hh
    rcases hh with ⟨-, hu⟩ | hh
    · cases hu
    · exact hh
  | insert second b tgt x todo rest h r hr =>
    subst hr
    simp only [setWorker_worker, if_true]
    rw [h] at hh
    rcases hh with ⟨rfl, hu⟩ | hh
    · rcases List.mem_cons.mp hu with rfl | hu
      · exact Or.inl (((insert_graph E hp).2 u v).mpr (Or.inr ⟨rfl, rfl⟩))
      · exact Or.inr (Or.inl ⟨rfl, hu⟩)
    · exact Or.inr (Or.inr hh)
  | storeIdle h | storeBusy h | stop h hs | noStop h hs | scanNext t h ht hempty
  | scanFound t h ht hne | scanDone t h ht | wait h hsem =>
    rw [h] at hh
    exact hh.elim

theorem holds_alive {pc : WorkerPc} (h : Holds pc u v) : pc ≠ .exited := by
  rintro rfl
  exact h

/-- **Work in progress is never lost.** -/
theorem inWork_step (E : EdgeInv s) (L : LifeInv s) (hT : ∀ i, Touched (s.worker i))
    (h : Step cfg s a s') (hw : InWork s u v) : InWork s' u v := by
  rcases hw with he | ⟨i, hh⟩
  · exact Or.inl (edge_step E h he)
  · cases h with
    | thread t mv ht h =>
      rcases worker_thread L h i with hw | ⟨hw, -⟩
      · exact Or.inr ⟨i, by rwa [hw]⟩
      · exact absurd hw (holds_alive hh)
    | worker j h =>
      by_cases hij : i = j
      · subst hij
        exact (holds_goes_on E (hT i) h hh).imp_right fun hh => ⟨i, hh⟩
      · exact Or.inr ⟨i, by rwa [h.life.2.2.2.2.2 i hij]⟩
    | shutdown h => exact Or.inr ⟨i, by cases h <;> exact hh⟩

/-! ## Delivered events -/

/-- An event the worker has taken out is in work. -/
def DeliveryInv (s : State) : Prop :=
  ∀ t e u v, e ∈ (s.ring t).delivered → Carries e u v → InWork s u v

/-- The events delivered after a step: those before, and one the worker has put into
its batch. -/
theorem delivered_step (E : EdgeInv s)
    (R' : ∀ t, SpscRing.RingInv (ringParams cfg) (s'.ring t)) (h : Step cfg s a s') {t : Nat}
    {e : Event} (he : e ∈ (s'.ring t).delivered) :
    e ∈ (s.ring t).delivered ∨ ∀ u v, Carries e u v → InWork s' u v := by
  cases h with
  | thread w mv hw h => exact Or.inl (delivered_thread h ▸ he)
  | worker i h =>
    have hset : ∀ {w : Nat} {r : Ring}, Unmoved (s.ring w) r →
        e ∈ ((s.setRing w r).ring t).delivered → e ∈ (s.ring t).delivered := fun hu hmem =>
      setRing_keeps s _ t _ SpscRing.State.delivered hu.delivered ▸ hmem
    cases h with
    | read second w b r x h hw hr hu hp => exact Or.inl (hset hu he)
    | next second w b r head h hw hr hu hp => exact Or.inl (hset hu he)
    | pop second w b r x h hw hr hacc hdel hp =>
      have hring : ({ (s.setRing w r).setWorker i (.drain second w (b.add x)) with
          pendingEdgeInfo := notePending s.pendingEdgeInfo b x }).ring t =
          if t = w then r else s.ring t := setRing_ring s w t r
      have he' := he
      rw [hring] at he'
      split at he'
      · rename_i ht
        subst ht
        rw [hdel, List.mem_append, List.mem_singleton] at he'
        refine he'.imp id ?_
        rintro rfl u v hc
        have hmem : e ∈ r.accepted := by
          have := (R' t).order
          rw [hring, if_pos rfl, hdel] at this
          exact this.subset (by simp)
        have hp := E.accepted t e u v (hacc ▸ hmem) hc
        refine Or.inr ⟨i, ?_⟩
        simp only [setWorker_worker, if_true]
        refine (holds_add ?_).mpr (Or.inr hc)
        have := hp.target
        have := E.count
        rw [hc.1]
        omega
      · exact Or.inl he'
    | _ => exact Or.inl he
  | shutdown h => cases h <;> exact Or.inl he

theorem deliveryInv {G : State → Act → Prop} (h : Runs.ReachableBy (system cfg) G s) :
    DeliveryInv s :=
  h.invariant (P := DeliveryInv) (fun _ _ _ _ h => by cases h)
    fun s s' a hr I hg hs t e u v he hc => by
      rcases delivered_step (edgeInv hr) (ringInv (.step hr hg hs)) (step_cases hs).2 he with he | hn
      · exact inWork_step (edgeInv hr) (lifeInv hr) (touched hr) (step_cases hs).2
          (I t e u v he hc)
      · exact hn u v hc

/-! ## Leaving the loop -/

/-- The shutdown has set the stop flag, or has had no worker to stop. -/
def afterStop : ShutdownPc → Prop
  | .post | .join | .destroy | .storeState | .returned => True
  | .idle | .loadState | .storeStop => False

structure StopInv (s : State) : Prop where
  flag : s.shouldStop = true → afterStop s.shutdown
  finished : ∀ i, i < s.created → s.worker i = .exited → afterStop s.shutdown
  marked : ∀ t, s.stopMark t ≤ (s.ring t).accepted.length
  scanning : ∀ i k, s.worker i = .scan k → s.shouldStop = true ∧
    ∀ t, t < k → s.stopMark t ≤ (s.ring t).delivered.length
  done : ∀ i, i < s.created → s.worker i = .exited → ∀ t, t < maxThreadSlots →
    s.stopMark t ≤ (s.ring t).delivered.length ∧
    ∀ e, e ∈ (s.ring t).delivered.take (s.stopMark t) → ∀ u v, Carries e u v → s.graph.E u v

theorem stopInv_initial : StopInv initial where
  flag h := by cases h
  finished _ h := absurd h (Nat.not_lt_zero _)
  marked _ := Nat.le_refl _
  scanning _ _ h := by cases h
  done _ h := absurd h (Nat.not_lt_zero _)

/-- The histories of a ring only grow. -/
theorem ring_grows (h : Step cfg s a s') (t : Nat) :
    (s.ring t).accepted <+: (s'.ring t).accepted ∧
      (s.ring t).delivered <+: (s'.ring t).delivered := by
  rcases ring_step h t with he | ⟨x, hx⟩
  · rw [he]
    exact ⟨List.prefix_refl _, List.prefix_refl _⟩
  · revert hx
    generalize s'.ring t = r'
    intro hx
    unfold SpscRing.step at hx
    split at hx <;> split at hx <;> try (split at hx <;> try split at hx)
    all_goals cases hx
    all_goals first
      | exact ⟨List.prefix_refl _, List.prefix_refl _⟩
      | exact ⟨List.prefix_append _ _, List.prefix_refl _⟩
      | exact ⟨List.prefix_refl _, List.prefix_append _ _⟩

theorem take_eq_of_grows {β : Type} {l l' : List β} {n : Nat} (h : l <+: l') (hn : n ≤ l.length) :
    l'.take n = l.take n := by
  obtain ⟨r, rfl⟩ := h
  exact List.take_append_of_le_length hn

/-- A step that leaves stop flag and mark alone, and finishes no worker. -/
theorem StopInv.congr (I : StopInv s) (E : EdgeInv s) (h : Step cfg s a s')
    (hflag : s'.shouldStop = true → s.shouldStop = true)
    (hsd : afterStop s.shutdown → afterStop s'.shutdown) (hmark : s'.stopMark = s.stopMark)
    (hdone : ∀ i, i < s'.created → s'.worker i = .exited → i < s.created ∧ s.worker i = .exited)
    (hscan : ∀ i k, s'.worker i = .scan k → s'.shouldStop = true ∧
      ∀ t, t < k → s.stopMark t ≤ (s'.ring t).delivered.length) : StopInv s' where
  flag hf := hsd (I.flag (hflag hf))
  finished i hi hw := hsd (I.finished i (hdone i hi hw).1 (hdone i hi hw).2)
  marked t := by
    rw [hmark]
    exact (I.marked t).trans (ring_grows h t).1.length_le
  scanning i k hw := by
    rw [hmark]
    exact hscan i k hw
  done i hi hw t ht := by
    obtain ⟨hle, hE⟩ := I.done i (hdone i hi hw).1 (hdone i hi hw).2 t ht
    have hgrow := (ring_grows h t).2
    rw [hmark, take_eq_of_grows hgrow hle]
    exact ⟨hle.trans hgrow.length_le, fun e he u v hc => edge_step E h (hE e he u v hc)⟩

/-- Only a thread that starts the worker touches the stop flag. -/
theorem shouldStop_thread {t : Nat} {mv : Move} (h : ThreadStep cfg s t mv s') :
    s'.shouldStop = s.shouldStop ∨ s'.shouldStop = false ∧ phase (s.thr t).pc = .preparing := by
  cases h with
  | storeStop c e h => exact Or.inr ⟨rfl, by rw [h]; rfl⟩
  | _ => exact Or.inl rfl

theorem created_thread {t : Nat} {mv : Move} (h : ThreadStep cfg s t mv s') {i : Nat}
    (hi : i < s'.created) (hw : s'.worker i = .exited) : i < s.created ∧ s.worker i = .exited := by
  obtain ⟨_, hc, _, hw'⟩ | ⟨_, _, hc, _, _, hw'⟩ | ⟨_, hc, _, _, hw'⟩ | ⟨_, hc, _, _, hw'⟩ :=
    h.starts
  · exact ⟨hc ▸ hi, hw' ▸ hw⟩
  · exact ⟨hc ▸ hi, hw' ▸ hw⟩
  · rw [hw', Function.update_apply] at hw
    split at hw
    · cases hw
    · exact ⟨by omega, hw⟩
  · exact ⟨hc ▸ hi, hw' ▸ hw⟩

theorem stopInv_thread {t : Nat} {mv : Move} (L : LifeInv s) (E : EdgeInv s) (I : StopInv s)
    (h : ThreadStep cfg s t mv s') (h₁ : Step cfg s a s') : StopInv s' := by
  have hsd := shutdown_thread h
  refine I.congr E h₁ (fun hf => ?_) (fun ha => hsd ▸ ha) (by cases h <;> rfl)
    (fun i => created_thread h) fun i k hw => ?_
  · rcases shouldStop_thread h with he | ⟨he, -⟩
    · rwa [← he]
    · rw [he] at hf
      cases hf
  · have hold : s.worker i = .scan k := by
      rcases worker_thread L h i with he | ⟨-, he⟩ <;> rw [he] at hw
      · exact hw
      · cases hw
    obtain ⟨hf, hle⟩ := I.scanning i k hold
    refine ⟨?_, fun t ht => (hle t ht).trans (ring_grows h₁ t).2.length_le⟩
    rcases shouldStop_thread h with he | ⟨-, hp⟩
    · rwa [he]
    · have := L.preparing t hp i
      rw [hold] at this
      cases this

theorem shouldStop_worker {i : Nat} (h : WorkerStep cfg s i s') :
    s'.shouldStop = s.shouldStop ∧ s'.stopMark = s.stopMark := by
  cases h <;> exact ⟨rfl, rfl⟩

/-- A drain is followed by another part of the loop. -/
theorem afterDrain_loops (second progress : Bool) :
    afterDrain second progress ≠ .exited ∧ ∀ k, afterDrain second progress ≠ .scan k := by
  cases second <;> cases progress <;> exact ⟨nofun, fun _ => nofun⟩

/-- A worker leaves its loop from the end of its scan only. -/
theorem exits_worker {i : Nat} (h : WorkerStep cfg s i s') (hw : s'.worker i = .exited) :
    ∃ t, s.worker i = .scan t ∧ maxThreadSlots ≤ t ∧ s' = s.setWorker i .exited := by
  cases h with
  | scanDone t h ht => exact ⟨t, h, ht, rfl⟩
  | read second t b r x h ht hr hu hp =>
    change s.worker i = _ at hw
    rw [h] at hw
    cases hw
  | processed second b h =>
    simp only [setWorker_worker, if_true] at hw
    exact absurd hw (afterDrain_loops second b.madeProgress).1
  | _ =>
    simp only [setWorker_worker, if_true] at hw
    cases hw

/-- The scan goes on past empty rings. -/
theorem scans_worker {i k : Nat} (R : ∀ t, SpscRing.RingInv (ringParams cfg) (s.ring t))
    (I : StopInv s) (h : WorkerStep cfg s i s') (hw : s'.worker i = .scan k) :
    s.shouldStop = true ∧ ∀ t, t < k → s.stopMark t ≤ (s.ring t).delivered.length := by
  cases h with
  | stop h hs =>
    simp only [setWorker_worker, if_true] at hw
    cases hw
    exact ⟨hs, fun t ht => absurd ht (Nat.not_lt_zero t)⟩
  | scanNext t h ht hempty =>
    simp only [setWorker_worker, if_true] at hw
    cases hw
    obtain ⟨hf, hle⟩ := I.scanning i t h
    refine ⟨hf, fun w hwt => ?_⟩
    rcases Nat.lt_succ_iff_lt_or_eq.mp hwt with hwt | rfl
    · exact hle w hwt
    · have hnil := (waiting_nil (ringParams_lawful cfg) (R w)).mpr hempty
      exact (I.marked w).trans (List.drop_eq_nil_iff.mp hnil)
  | read second t b r x h ht hr hu hp =>
    change s.worker i = _ at hw
    rw [h] at hw
    cases hw
  | processed second b h =>
    simp only [setWorker_worker, if_true] at hw
    exact absurd hw ((afterDrain_loops second b.madeProgress).2 k)
  | _ =>
    simp only [setWorker_worker, if_true] at hw
    cases hw

/-- **A worker leaves its loop with empty hands.** -/
theorem stopInv_exit {i k : Nat} (L : LifeInv s) (D : DeliveryInv s) (I : StopInv s)
    (hscan : s.worker i = .scan k) (hk : maxThreadSlots ≤ k) :
    StopInv (s.setWorker i .exited) := by
  obtain ⟨hf, hle⟩ := I.scanning i k hscan
  -- no other worker is alive, and this one holds nothing
  have hnone : ∀ j u v, ¬ Holds (s.worker j) u v := fun j u v hh => by
    obtain rfl := L.one (holds_alive hh) (show s.worker i ≠ .exited by rw [hscan]; simp)
    rw [hscan] at hh
    exact hh
  refine ⟨I.flag, fun _ _ _ => I.flag hf, I.marked, fun j x hj => ?_, fun j _ _ t ht => ?_⟩
  · rw [setWorker_worker] at hj
    split at hj
    · cases hj
    · exact I.scanning j x hj
  · refine ⟨hle t (by omega), fun e he u v hc => ?_⟩
    exact (D t e u v (List.mem_of_mem_take he) hc).resolve_right fun ⟨j, hj⟩ => hnone j u v hj

theorem stopInv_worker {i : Nat} (R : ∀ t, SpscRing.RingInv (ringParams cfg) (s.ring t))
    (L : LifeInv s) (E : EdgeInv s) (D : DeliveryInv s) (I : StopInv s)
    (h : WorkerStep cfg s i s') (h₁ : Step cfg s a s') : StopInv s' := by
  obtain ⟨-, -, hc, hsd, -, hother⟩ := h.life
  obtain ⟨hf, hm⟩ := shouldStop_worker h
  by_cases hex : s'.worker i = .exited
  · obtain ⟨k, hscan, hk, rfl⟩ := exits_worker h hex
    exact stopInv_exit L D I hscan hk
  · refine I.congr E h₁ (fun hs => hf ▸ hs) (fun ha => hsd ▸ ha) hm (fun j hj hw => ?_)
      fun j k hw => ?_
    · have hji : j ≠ i := by
        rintro rfl
        exact hex hw
      exact ⟨hc ▸ hj, hother j hji ▸ hw⟩
    · have hold : s.shouldStop = true ∧ ∀ t, t < k → s.stopMark t ≤ (s.ring t).delivered.length := by
        by_cases hji : j = i
        · subst hji
          exact scans_worker R I h hw
        · exact I.scanning j k (hother j hji ▸ hw)
      exact ⟨hf ▸ hold.1, fun t ht => (hold.2 t ht).trans (ring_grows h₁ t).2.length_le⟩

theorem stopInv_shutdown (E : EdgeInv s) (I : StopInv s) (h : ShutdownStep s s')
    (h₁ : Step cfg s a s') : StopInv s' := by
  have hsame : (afterStop s.shutdown → afterStop s'.shutdown) → s'.shouldStop = s.shouldStop →
      s'.stopMark = s.stopMark → s'.created = s.created → s'.worker = s.worker →
      s'.ring = s.ring → StopInv s' := fun hsd hf hm hc hw hr =>
    I.congr E h₁ (fun hs => hf ▸ hs) hsd hm (fun i hi he => ⟨hc ▸ hi, hw ▸ he⟩)
      fun i k he => by
        rw [hf, hr]
        exact I.scanning i k (hw ▸ he)
  cases h with
  | start h | load h hs =>
    exact hsame (fun ha => by rw [h] at ha; exact ha.elim) rfl rfl rfl rfl rfl
  | skip h hs => exact hsame (fun ha => trivial) rfl rfl rfl rfl rfl
  | storeStop h =>
    have hno : ¬ afterStop s.shutdown := by
      rw [h]
      exact fun ha => ha
    exact ⟨fun _ => trivial, fun _ _ _ => trivial, fun _ => Nat.le_refl _,
      fun i k hw => absurd (I.flag (I.scanning i k hw).1) hno,
      fun i hi hw => absurd (I.finished i hi hw) hno⟩
  | post h | join h hw | destroy h | storeState h =>
    exact hsame (fun ha => trivial) rfl rfl rfl rfl rfl

theorem stopInv {G : State → Act → Prop} (h : Runs.ReachableBy (system cfg) G s) : StopInv s :=
  h.invariant stopInv_initial fun _ _ _ hr I _ hs => by
    have h₁ := (step_cases hs).2
    cases (step_cases hs).2 with
    | thread t mv ht h => exact stopInv_thread (lifeInv hr) (edgeInv hr) I h h₁
    | worker i h =>
      exact stopInv_worker (ringInv hr) (lifeInv hr) (edgeInv hr) (deliveryInv hr) I h h₁
    | shutdown h => exact stopInv_shutdown (edgeInv hr) I h h₁

/-! ## The wakeup protocol -/

/-- **The wakeup protocol loses no work**, for any number of producers and any
interleaving with the worker and the shutdown.  A worker asleep beside a waiting
event is about to be woken; a stopped worker is not asleep; and a worker that has
left its loop has worked off what was published before the stop. -/
theorem wakeup_loses_no_work (h : Runs.Reachable (system cfg) s) :
    (∀ i, s.worker i = .semWait → s.sem = 0 →
      (∃ t, t < maxThreadSlots ∧ (s.ring t).head ≠ (s.ring t).tail) →
      (∃ t c e why, (s.thr t).pc = .post c e why ∧ (why = .dropped → cfg.drops = true)) ∨
        (s.workPending = false ∧ ∃ t c e, (s.thr t).pc = .exchange c e .published)) ∧
    (∀ i, s.worker i = .semWait → s.shouldStop = true → s.shutdown ≠ .post →
      (∀ t, t < maxThreadSlots → (s.ring t).head = (s.ring t).tail) → s.sem ≠ 0) ∧
    (∀ i, i < s.created → s.worker i = .exited → ∀ t, t < maxThreadSlots →
      s.stopMark t ≤ (s.ring t).delivered.length ∧
      ∀ e, e ∈ (s.ring t).accepted.take (s.stopMark t) → ∀ u, e.bits.test u = true →
        s.graph.edge u e.toLockSlot = true) := by
  have hp := ringParams_lawful cfg
  have R := ringInv h
  have W := wakeInv h
  refine ⟨fun i hi hsem ⟨t, ht, hne⟩ => ?_, fun i hi hf hsd hempty hsem => ?_,
    fun i hi hw t ht => ?_⟩
  · have hwait : waiting s t ≠ [] := mt (waiting_nil hp (R t)).mp hne
    have hposting : s.workPending = true →
        ∃ t c e why, (s.thr t).pc = .post c e why ∧ (why = .dropped → cfg.drops = true) := by
      intro hpend
      rcases W.posted i (by rw [hi]; trivial) hpend with h0 | ⟨w, hw⟩
      · omega
      · cases hpc : (s.thr w).pc with
        | post c e why => exact ⟨w, c, e, why, hpc, (threadOk h w).policy c e why (Or.inr hpc)⟩
        | _ =>
          rw [hpc] at hw
          exact hw.elim
    cases hpend : s.workPending with
    | true => exact Or.inl (hposting hpend)
    | false =>
      right
      rcases W.announced i t (by rw [hi]; trivial) ht hwait with ha | ha
      · refine ⟨rfl, t, ?_⟩
        cases hpc : (s.thr t).pc with
        | exchange c e why =>
          rw [hpc] at ha
          cases why with
          | published => exact ⟨c, e, rfl⟩
          | stalled => exact ha.elim
          | dropped => exact ha.elim
        | _ =>
          rw [hpc] at ha
          exact ha.elim
      · rw [hpend] at ha
        cases ha
  · rcases W.stop i hi hf with h0 | h0 | ⟨t, ht, hne⟩
    · exact hsd h0
    · omega
    · exact hne ((waiting_nil hp (R t)).mpr (hempty t ht))
  · obtain ⟨hle, hE⟩ := (stopInv h).done i hi hw t ht
    refine ⟨hle, fun e he u hu => hE e ?_ u _ ⟨rfl, hu⟩⟩
    rwa [take_eq_of_grows (R t).order hle] at he

/-- Thread 0 locks 0 and starts to lock 1, up to its first enqueue, and the worker
goes to sleep. -/
def asleep : List (List Act) :=
  [[.thread 0 .register, .thread 0 .register, .thread 0 (.acquire ⟨.lock, 0, 0⟩),
      .thread 0 (.acquire ⟨.lock, 1, 0⟩)] ++ List.replicate 12 (.thread 0 .run),
    List.replicate 3 (.worker 0), List.replicate 3 (.worker 0)]

/-- The event is in the ring. -/
def published : List (List Act) := asleep ++ [List.replicate 11 (.thread 0 .run)]

/-- The worker is told to stop. -/
def told : List (List Act) := asleep ++ [List.replicate 4 .shutdown]

/-- The worker is woken for the event, records the edge, and is told to stop. -/
def worked : List (List Act) :=
  published ++ [List.replicate 3 (.thread 0 .run) ++ List.replicate 7 (.worker 0),
    List.replicate 5 (.worker 0), List.replicate 3 (.worker 0),
    List.replicate 4 .shutdown ++ List.replicate 3 (.worker 0), [.worker 0]]

/-- The state after a run of worker 0 without any guard. -/
def after (legs : List (List Act)) : Option State :=
  execLegs ⟨false, false⟩ (fun _ _ => true) initial legs

theorem after_reachable {legs : List (List Act)} (h : after legs = some s) :
    Runs.Reachable (system ⟨false, false⟩) s :=
  (execLegs_reachable (fun _ _ => rfl) .init h).reachable

theorem published_runs : (after published).isSome = true := by decide +kernel

theorem told_runs : (after told).isSome = true := by decide +kernel

theorem worked_runs : (after worked).isSome = true := by decide +kernel

theorem wakeup_loses_no_work_runs :
    (∃ s, after published = some s ∧ s.sem = 0 ∧
      ((∃ t c e why, (s.thr t).pc = .post c e why ∧ (why = .dropped → false = true)) ∨
        (s.workPending = false ∧ ∃ t c e, (s.thr t).pc = .exchange c e .published))) ∧
    (∃ s, after told = some s ∧ s.shouldStop = true ∧ s.sem ≠ 0) ∧
    (∃ s, after worked = some s ∧ s.stopMark 0 = 1 ∧ 1 ≤ (s.ring 0).delivered.length ∧
      s.graph.edge 0 1 = true) := by
  have h₁ := (Option.some_get published_runs).symm
  have h₂ := (Option.some_get told_runs).symm
  have h₃ := (Option.some_get worked_runs).symm
  refine ⟨⟨_, h₁, by decide +kernel, ?_⟩, ⟨_, h₂, by decide +kernel, ?_⟩,
    ⟨_, h₃, ?_⟩⟩
  · exact (wakeup_loses_no_work (after_reachable h₁)).1 0 rfl (by decide +kernel)
      ⟨0, by decide, by decide +kernel⟩
  · exact (wakeup_loses_no_work (after_reachable h₂)).2.1 0 rfl (by decide +kernel)
      (by decide +kernel) (by decide +kernel)
  · obtain ⟨e, he, hv, hu⟩ : ∃ e, e ∈ (((after worked).get worked_runs).ring 0).accepted.take
        (((after worked).get worked_runs).stopMark 0) ∧ e.toLockSlot = 1 ∧
        e.bits.test 0 = true := by decide +kernel
    have h := (wakeup_loses_no_work (after_reachable h₃)).2.2 0 (by decide +kernel)
      (by decide +kernel) 0 (by decide)
    have hedge := h.2 e he 0 hu
    rw [hv] at hedge
    have hone : ((after worked).get worked_runs).stopMark 0 = 1 := by decide +kernel
    exact ⟨hone, hone ▸ h.1, hedge⟩

end ScaleLockDep.RbBackend
