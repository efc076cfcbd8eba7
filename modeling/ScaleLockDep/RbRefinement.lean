import ScaleLockDep.RbDelivery
import ScaleLockDep.GlobalRuns

/-!
# The ring-buffer backend refines the global backend

* `Known`, `known_step`: a pair once published is never lost;
* `CompleteInv`: with a stalling ring every acquired pair is known, or its thread is
  about to publish it;
* `rb_refines_global`: after the shutdown the tables hold the edges the global
  backend has for the same calls, and there is a report in one exactly when there is
  one in the other.
-/

namespace ScaleLockDep.RbBackend

open ThreadState State RbGraph Cycles Relation

variable {cfg : Config} {s s' : State} {a : Act} {u v : Nat}

/-! ## Published pairs -/

/-- The pair is in work or waits in a ring. -/
def Known (s : State) (u v : Nat) : Prop :=
  InWork s u v ∨ ∃ t e, e ∈ waiting s t ∧ Carries e u v

/-- A waiting event goes on waiting, or is delivered. -/
theorem waiting_step (R : ∀ t, SpscRing.RingInv (ringParams cfg) (s.ring t))
    (R' : ∀ t, SpscRing.RingInv (ringParams cfg) (s'.ring t)) (h : Step cfg s a s') {t : Nat}
    {e : Event} (he : e ∈ waiting s t) : e ∈ waiting s' t ∨ e ∈ (s'.ring t).delivered := by
  rcases ring_step h t with hr | ⟨x, hx⟩
  · exact Or.inl (by rwa [waiting_of_ring hr])
  · have hq := SpscRing.ring_refines (R t) (R' t) hx
    unfold waiting at he ⊢
    generalize hw : SpscRing.queue (s.ring t) = q at hq
    generalize hw' : SpscRing.queue (s'.ring t) = q' at hq
    have h1 : SpscRing.contents (s.ring t) = q.1 := congrArg Prod.fst hw
    have h2 : SpscRing.contents (s'.ring t) = q'.1 := congrArg Prod.fst hw'
    have h3 : (s'.ring t).delivered = q'.2 := congrArg Prod.snd hw'
    rw [h1] at he
    rw [h2, h3]
    cases hq with
    | stay => exact Or.inl he
    | push w out x hlt => exact Or.inl (List.mem_append_left _ he)
    | pop w out x =>
      rcases List.mem_cons.mp he with rfl | he
      · exact Or.inr (by simp)
      · exact Or.inl he

theorem known_step {G : State → Act → Prop} (hr : Runs.ReachableBy (system cfg) G s)
    (hr' : Runs.ReachableBy (system cfg) G s') (h : Step cfg s a s') (hk : Known s u v) :
    Known s' u v := by
  rcases hk with hk | ⟨t, e, he, hc⟩
  · exact Or.inl (inWork_step (edgeInv hr) (lifeInv hr) (touched hr) h hk)
  · rcases waiting_step (ringInv hr) (ringInv hr') h he with he | he
    · exact Or.inr ⟨t, e, he, hc⟩
    · exact Or.inl (deliveryInv hr' t e u v he hc)

/-! ## Completeness -/

/-- The thread itself still takes care of held lock `u`. -/
def Pending : Pc → Nat → Prop
  | .collect _ bits w, u => bits.test u = true ∨ w ≤ u / 64
  | .ensure _ e _, u | .enqueue _ e, u | .ring _ e, u | .exchange _ e .stalled, u
  | .post _ e .stalled, u => e.bits.test u = true
  | _, _ => False

structure CompleteInv (s : State) : Prop where
  progress : ∀ t c u, calling (s.thr t).pc = some c → u ∈ s.held t → u ≠ c.lockSlot →
    Pending (s.thr t).pc u ∨ Known s u c.lockSlot
  complete : ∀ t u v, Dependency (s.thr t).hist u v → Known s u v

theorem completeInv_initial : CompleteInv initial where
  progress _ _ _ h := by cases h
  complete _ _ _ h := by
    obtain ⟨api, h⟩ := h
    exact (not_acquired_nil _ _ _ h).elim

theorem pending_afterSignal {c : Call} {e : Event} {why : Why}
    (h : Pending (.exchange c e why) u ∨ Pending (.post c e why) u) :
    Pending (afterSignal c e why) u := by
  cases why with
  | stalled => exact h.elim id id
  | published => exact (h.elim id id).elim
  | dropped => exact (h.elim id id).elim

/-- A load of the snapshot collects a held lock of its word unless its edge is there. -/
theorem load_or_edge {t w v : Nat} {bits : WordSet} (T : ThreadOk cfg s t) (E : EdgeInv s)
    (hu : u ∈ s.held t) (hp : bits.test u = true ∨ w ≤ u / 64) :
    (WordSet.test (Function.update bits w
        ((s.thr t).tls.heldLockBits w &&& ~~~ s.graph.predecessorSnapshot v w)) u = true ∨
      w + 1 ≤ u / 64) ∨ s.graph.E u v := by
  by_cases huw : u / 64 = w
  · -- the word of `u` is loaded by this step
    have hbit : (s.thr t).tls.heldLockBits.test u = true := by
      rw [T.mirrors.bits]
      exact decide_eq_true hu
    cases hs : (s.graph.predecessorSnapshot v).test u with
    | true =>
      rw [E.wf.snapshot] at hs
      exact Or.inr hs
    | false =>
      left
      left
      rw [test_update_word, if_pos huw, hbit, hs]
      rfl
  · left
    rcases hp with hp | hp
    · left
      rwa [test_update_word, if_neg huw]
    · right
      omega

/-- After the last load every bit is there that was to be collected. -/
theorem collected_test {t w v : Nat} {bits : WordSet} (T : ThreadOk cfg s t) (E : EdgeInv s)
    (hw : graphWords ≤ w) (hu : u ∈ s.held t) (hne : u ≠ v)
    (hp : bits.test u = true ∨ w ≤ u / 64) : u < maxLockSlots ∧ (bits.clear v).test u = true := by
  have hlt := (T.heldBound u hu).trans_le E.count
  have hm : maxLockSlots = 256 := rfl
  have hg : graphWords = 4 := rfl
  have hbit : bits.test u = true := hp.resolve_right (by omega)
  refine ⟨hlt, ?_⟩
  rw [WordSet.test_clear, hbit]
  simp [hne]

/-- A load of the snapshot finds every known predecessor of its word. -/
theorem pending_load {t w : Nat} {c : Call} {bits : WordSet} (T : ThreadOk cfg s t) (E : EdgeInv s)
    (I : CompleteInv s) (h : (s.thr t).pc = .collect c bits w) (hu : u ∈ s.held t)
    (hne : u ≠ c.lockSlot) :
    Pending (.collect c (Function.update bits w
      ((s.thr t).tls.heldLockBits w &&& ~~~ s.graph.predecessorSnapshot c.lockSlot w)) (w + 1)) u ∨
      Known s u c.lockSlot := by
  rcases I.progress t c u (by rw [h]; rfl) hu hne with hp | hk
  · rw [h] at hp
    exact (load_or_edge T E hu hp).imp_right fun he => Or.inl (Or.inl he)
  · exact Or.inr hk

/-- After the last load, what is not collected is known. -/
theorem collected_or_known {t w : Nat} {c : Call} {bits : WordSet} (T : ThreadOk cfg s t)
    (E : EdgeInv s) (I : CompleteInv s) (h : (s.thr t).pc = .collect c bits w)
    (hw : graphWords ≤ w) (hu : u ∈ s.held t) (hne : u ≠ c.lockSlot) :
    u < maxLockSlots ∧ (bits.clear c.lockSlot).test u = true ∨ Known s u c.lockSlot := by
  refine (I.progress t c u (by rw [h]; rfl) hu hne).imp_left fun hp => ?_
  rw [h] at hp
  exact collected_test T E hw hu hne hp

/-- A published event is known. -/
theorem known_publish {t : Nat} {c : Call} {e : Event} {r : Ring} (T : ThreadOk cfg s t)
    (R : SpscRing.RingInv (ringParams cfg) (s.ring t)) (h : (s.thr t).pc = .ring c e)
    (hacc : r.accepted = (s.ring t).accepted ++ [e]) (hdel : r.delivered = (s.ring t).delivered)
    (hp : Pending (s.thr t).pc u) :
    Known ((s.setRing t r).setPc t (.exchange c e .published)) u c.lockSlot := by
  rw [h] at hp
  have htgt := T.target e (by rw [h]; rfl)
  rw [h] at htgt
  refine Or.inr ⟨t, e, ?_, (Option.some.inj htgt).symm, hp⟩
  rw [waiting, setPc_ring, setRing_ring, if_pos rfl, R.contents_publish hacc hdel]
  simp

/-- What the thread takes care of is published in time. -/
theorem progress_own {t : Nat} {mv : Move} (hd : cfg.drops = false) (T : ThreadOk cfg s t)
    (E : EdgeInv s) (R : SpscRing.RingInv (ringParams cfg) (s.ring t)) (I : CompleteInv s)
    (h : ThreadStep cfg s t mv s') (hknown : ∀ u v, Known s u v → Known s' u v) {c : Call}
    (hc : calling (s'.thr t).pc = some c) (hu : u ∈ s'.held t) (hne : u ≠ c.lockSlot) :
    Pending (s'.thr t).pc u ∨ Known s' u c.lockSlot := by
  -- a step that keeps the call and what the thread takes care of
  have hgo : ∀ {pc : Pc}, (s'.thr t).pc = pc → calling (s.thr t).pc = calling pc →
      s'.held t = s.held t → (Pending (s.thr t).pc u → Pending pc u) →
      Pending (s'.thr t).pc u ∨ Known s' u c.lockSlot := by
    intro pc hpc hcall hheld hpend
    rw [hpc] at hc ⊢
    rw [hheld] at hu
    exact (I.progress t c u (hcall.trans hc) hu hne).imp hpend (hknown _ _)
  cases h with
  | register h => exact hgo rfl rfl rfl id
  | overflow d h => exact hgo rfl rfl rfl id
  | ring d e r h hr hu' hp => exact hgo rfl rfl rfl id
  | top d h hl hnil hmv => simp [complete_pc] at hc
  | release l h hl => simp [complete_pc] at hc
  | push d h ts hts => simp [complete_pc] at hc
  | nested d h hl hnil hmv =>
    rw [setPc_at]
    exact Or.inl (Or.inr (Nat.zero_le _))
  | load d bits w h hw =>
    rw [setPc_at] at hc ⊢
    obtain rfl : d = c := by simpa using hc
    rw [setPc_held] at hu
    exact (pending_load T E I h hu hne).imp_right (hknown _ _)
  | unknown d bits w h hw hb =>
    rw [setPc_at] at hc ⊢
    obtain rfl : d = c := by simpa using hc
    rw [setPc_held] at hu
    refine (collected_or_known T E I h hw hu hne).imp (fun ⟨hlt, hbit⟩ => ?_) (hknown _ _)
    change (eventOf t d (bits.clear d.lockSlot)).bits.test u = true
    rw [test_eventOf, hbit]
    simp [hlt]
  | known d bits w h hw hb =>
    rw [setPc_at] at hc ⊢
    obtain rfl : d = c := by simpa using hc
    rw [setPc_held] at hu
    refine Or.inr ((collected_or_known T E I h hw hu hne).elim (fun ⟨hlt, hbit⟩ => ?_) (hknown _ _))
    have hm : maxLockSlots = 64 * graphWords := rfl
    rw [WordSet.hasAnyBits_iff.mpr ⟨u, by omega, hbit⟩] at hb
    cases hb
  | started d e p h hp hs =>
    exact hgo (setPc_at _ _ _) (by rw [h]; rfl) (setPc_held _ _ _ _) (by rw [h]; exact id)
  | ensure d e p q h hp hq =>
    exact hgo (setPc_at _ _ _) (by rw [h]; rfl) (setPc_held _ _ _ _) (by rw [h]; exact id)
  | claim d e h hs =>
    exact hgo (setPc_at _ _ _) (by rw [h]; rfl) (setPc_held _ _ _ _) (by rw [h]; exact id)
  | semInit d e h =>
    exact hgo (setPc_at _ _ _) (by rw [h]; rfl) (setPc_held _ _ _ _) (by rw [h]; exact id)
  | storeStop d e h =>
    exact hgo (setPc_at _ _ _) (by rw [h]; rfl) (setPc_held _ _ _ _) (by rw [h]; exact id)
  | storePending d e h =>
    exact hgo (setPc_at _ _ _) (by rw [h]; rfl) (setPc_held _ _ _ _) (by rw [h]; exact id)
  | create d e h =>
    exact hgo (setPc_at _ _ _) (by rw [h]; rfl) (setPc_held _ _ _ _) (by rw [h]; exact id)
  | storeState d e h =>
    exact hgo (setPc_at _ _ _) (by rw [h]; rfl) (setPc_held _ _ _ _) (by rw [h]; exact id)
  | enqueue d e r h hr hu' hp =>
    exact hgo (by rw [setPc_pc, if_pos rfl]) (by rw [h]; rfl) (setPc_held _ _ _ _)
      (by rw [h]; exact id)
  | full d e r h hr hu' hp =>
    refine @hgo (.exchange d e .stalled) ?_ (by rw [h]; rfl) (setPc_held _ _ _ _)
      (by rw [h]; exact id)
    rw [setPc_pc, if_pos rfl, hd]
    rfl
  | publish d e x r h hr hx hacc hdel hp =>
    rw [setPc_pc, if_pos rfl] at hc
    obtain rfl : d = c := by simpa using hc
    rw [setPc_held, setRing_held] at hu
    obtain rfl : e = x := by
      have := T.sync
      rw [h, hx] at this
      exact (Option.some.inj this).symm
    exact Or.inr ((I.progress t d u (by rw [h]; rfl) hu hne).elim
      (known_publish T R h hacc hdel) (hknown _ _))
  | signalled d e why h hw =>
    exact hgo (setPc_at _ _ _) (by rw [h, calling_afterSignal]; rfl) (setPc_held _ _ _ _)
      (by rw [h]; exact fun hp => pending_afterSignal (Or.inl hp))
  | exchange d e why h hw =>
    exact hgo (setPc_at _ _ _) (by rw [h]; rfl) (setPc_held _ _ _ _)
      (by rw [h]; cases why <;> exact id)
  | post d e why h =>
    exact hgo (setPc_at _ _ _) (by rw [h, calling_afterSignal]; rfl) (setPc_held _ _ _ _)
      (by rw [h]; exact fun hp => pending_afterSignal (Or.inr hp))

/-- A completed acquisition has published its pairs. -/
theorem complete_own {t : Nat} {mv : Move} (T : ThreadOk cfg s t) (I : CompleteInv s)
    (h : ThreadStep cfg s t mv s') (hknown : ∀ u v, Known s u v → Known s' u v)
    (hdep : Dependency (s'.thr t).hist u v) : Known s' u v := by
  have hold : Dependency (s.thr t).hist u v → Known s' u v := fun hdep =>
    hknown _ _ (I.complete t u v hdep)
  cases h with
  | top c h hl hnil hmv =>
    rw [complete_hist, if_pos rfl, dependency_concat, ← T.heldHist, hnil] at hdep
    rcases hdep with hdep | ⟨-, -, hu⟩
    · exact hold hdep
    · cases hu
  | release l h hl =>
    rw [complete_hist, if_pos rfl, dependency_concat] at hdep
    rcases hdep with hdep | ⟨⟨_, ho⟩, -⟩
    · exact hold hdep
    · cases ho
  | push c h ts hts =>
    rw [complete_hist, if_pos rfl, dependency_concat, ← T.heldHist] at hdep
    rcases hdep with hdep | ⟨⟨_, ho⟩, hne, hu⟩
    · exact hold hdep
    · cases ho
      rcases I.progress t c u (by rw [h]; rfl) hu hne with hp | hk
      · rw [h] at hp
        exact hp.elim
      · exact hknown _ _ hk
  | _ => exact hold (by simpa using hdep)

theorem completeInv (hd : cfg.drops = false) {G : State → Act → Prop}
    (h : Runs.ReachableBy (system cfg) G s) : CompleteInv s :=
  h.invariant completeInv_initial fun s s' a hr I hg hs => by
    have hstep := (step_cases hs).2
    have hr' : Runs.ReachableBy (system cfg) G s' := .step hr hg hs
    have hknown : ∀ u v, Known s u v → Known s' u v := fun u v => known_step hr hr' hstep
    have hsame : s'.thr = s.thr → CompleteInv s' := fun hthr =>
      ⟨fun t c u hc hu hne => by
        rw [State.held, hthr] at hu
        rw [hthr] at hc ⊢
        exact (I.progress t c u hc hu hne).imp_right (hknown _ _),
        fun t u v hdep => hknown _ _ (I.complete t u v (hthr ▸ hdep))⟩
    cases hstep with
    | thread w mv hw h =>
      constructor
      · intro t c u hc hu hne
        by_cases ht : t = w
        · subst ht
          exact progress_own hd (threadOk hr t) (edgeInv hr) (ringInv hr t) I h hknown hc hu hne
        · rw [State.held, thr_other h ht] at hu
          rw [thr_other h ht] at hc ⊢
          exact (I.progress t c u hc hu hne).imp_right (hknown _ _)
      · intro t u v hdep
        by_cases ht : t = w
        · subst ht
          exact complete_own (threadOk hr t) I h hknown hdep
        · rw [thr_other h ht] at hdep
          exact hknown _ _ (I.complete t u v hdep)
    | worker i h => exact hsame h.life.1
    | shutdown h => exact hsame (by cases h <;> rfl)

/-! ## Before the worker is started -/

/-- The thread has seen the worker started. -/
def sawStarted : Pc → Prop
  | .enqueue _ _ | .ring _ _ | .exchange _ _ _ | .post _ _ _ => True
  | _ => False

structure EarlyInv (s : State) : Prop where
  seen : ∀ t, sawStarted (s.thr t).pc → 0 < s.created
  published : ∀ t e, e ∈ (s.ring t).accepted → 0 < s.created
  slots : ∀ t e, e ∈ (s.ring t).accepted → t < maxThreadSlots

theorem earlyInv_initial : EarlyInv initial where
  seen _ h := h.elim
  published _ _ h := by cases h
  slots _ _ h := by cases h

theorem created_step (h : Step cfg s a s') : s.created ≤ s'.created := by
  cases h with
  | thread t mv ht h =>
    obtain ⟨_, hc, _, _⟩ | ⟨_, _, hc, _, _, _⟩ | ⟨_, hc, _, _, _⟩ | ⟨_, hc, _, _, _⟩ := h.starts <;>
      omega
  | worker i h => rw [h.life.2.2.1]
  | shutdown h => cases h <;> exact Nat.le_refl _

/-- The thread is at its check of the worker state. -/
def checking : Pc → Prop
  | .ensure _ _ .loadState | .ensure _ _ .spin => True
  | _ => False

/-- A thread comes to see the worker started by its check, or by starting it. -/
theorem sawStarted_thread {t : Nat} {mv : Move} (h : ThreadStep cfg s t mv s')
    (hs : sawStarted (s'.thr t).pc) : sawStarted (s.thr t).pc ∨
      s'.workerState = .started ∧ (checking (s.thr t).pc ∨ phase (s.thr t).pc = .creating) := by
  cases h with
  | started c e p h hp hst =>
    refine Or.inr ⟨hst, Or.inl ?_⟩
    rw [h]
    rcases hp with rfl | rfl <;> trivial
  | storeState c e h => exact Or.inr ⟨rfl, Or.inr (by rw [h]; rfl)⟩
  | register h | overflow c h | ring c e r h hr hu hp => exact Or.inl hs
  | enqueue c e r h hr hu hp | full c e r h hr hu hp | publish c e x r h hr hx hacc hdel hp
  | signalled c e why h hw | exchange c e why h hw | post c e why h =>
    exact Or.inl (by rw [h]; trivial)
  | _ => simp [setPc_pc, complete_pc, sawStarted] at hs

theorem earlyInv {G : State → Act → Prop} (h : Runs.ReachableBy (system cfg) G s) : EarlyInv s :=
  h.invariant earlyInv_initial fun s s' a hr I hg hs => by
    have hstep := (step_cases hs).2
    have hcreated := (lifeInv (.step hr hg hs)).created
    have hnew : ∀ t e, e ∈ (s'.ring t).accepted →
        e ∈ (s.ring t).accepted ∨ t < maxThreadSlots ∧ sawStarted (s.thr t).pc := by
      intro t e he
      rcases accepted_step (threadOk hr) hstep he with he | ⟨ht, c, hc⟩
      · exact Or.inl he
      · exact Or.inr ⟨ht, by rw [hc]; trivial⟩
    have hseen : ∀ t, sawStarted (s.thr t).pc → 0 < s'.created := fun t ht =>
      (I.seen t ht).trans_le (created_step hstep)
    refine ⟨fun t ht => ?_, fun t e he => ?_, fun t e he => ?_⟩
    · cases hstep with
      | thread w mv hw h =>
        by_cases htw : t = w
        · subst htw
          exact (sawStarted_thread h ht).elim (hseen t) fun hnew => hcreated hnew.1
        · rw [thr_other h htw] at ht
          exact hseen t ht
      | worker i h =>
        rw [h.life.1] at ht
        exact hseen t ht
      | shutdown h => exact hseen t (by cases h <;> exact ht)
    · rcases hnew t e he with he | ⟨-, hs⟩
      · exact (I.published t e he).trans_le (created_step hstep)
      · exact hseen t hs
    · rcases hnew t e he with he | ⟨ht, -⟩
      · exact I.slots t e he
      · exact ht

/-! ## The shutdown of a finished program -/

/-- No thread is in a hook. -/
def Quiet (s : State) : Prop := ∀ t, (s.thr t).pc = .outside

/-- The threads have finished their hooks before the shutdown is called. -/
def FinishedFirst (s : State) : Act → Prop
  | .thread _ _ => s.shutdown = .idle
  | .worker _ => True
  | .shutdown => s.shutdown = .idle → Quiet s

/-- The stop mark has been set. -/
def stopped : ShutdownPc → Prop
  | .post | .join | .destroy | .storeState => True
  | _ => False

structure FinishedInv (s : State) : Prop where
  quiet : s.shutdown ≠ .idle → Quiet s
  mark : stopped s.shutdown → ∀ t, s.stopMark t = (s.ring t).accepted.length
  returned : s.shutdown = .returned → (∀ i, s.worker i = .exited) ∧
    (0 < s.created → ∀ t, s.stopMark t = (s.ring t).accepted.length)

theorem finishedInv_initial : FinishedInv initial where
  quiet h := absurd rfl h
  mark h := h.elim
  returned h := by cases h

theorem finishedInv_shutdown (L : LifeInv s) (I : FinishedInv s) (hg : FinishedFirst s .shutdown)
    (h : ShutdownStep s s') : FinishedInv s' := by
  have hq : s.shutdown ≠ .idle → ∀ t, (s.thr t).pc = .outside := I.quiet
  cases h with
  | start h => exact ⟨fun _ => hg h, fun hs => hs.elim, fun hr => by cases hr⟩
  | load h hs =>
    exact ⟨fun _ => hq (by rw [h]; simp), fun hs => hs.elim, fun hr => by cases hr⟩
  | skip h hs =>
    -- nobody is starting the worker, so there never was one
    have hquiet := hq (by rw [h]; simp)
    have hnone : s.workerState = .none := by
      cases hst : s.workerState with
      | none => rfl
      | started => exact absurd hst hs
      | starting =>
        obtain ⟨t, ht⟩ := L.starter hst
        rw [hquiet t] at ht
        exact absurd rfl ht
    have hzero := L.first hnone (by rw [h]; simp)
    exact ⟨fun _ => hquiet, fun hs => hs.elim, fun _ => ⟨L.none hnone, fun hc => by
      change 0 < s.created at hc
      omega⟩⟩
  | storeStop h =>
    exact ⟨fun _ => hq (by rw [h]; simp), fun _ _ => rfl, fun hr => by cases hr⟩
  | post h | join h hw | destroy h =>
    exact ⟨fun _ => hq (by rw [h]; simp), fun _ => I.mark (by rw [h]; trivial),
      fun hr => by cases hr⟩
  | storeState h =>
    exact ⟨fun _ => hq (by rw [h]; simp), fun hs => hs.elim,
      fun _ => ⟨L.joined (by rw [h]; trivial), fun _ => I.mark (by rw [h]; trivial)⟩⟩

theorem finishedInv (h : Runs.ReachableBy (system cfg) FinishedFirst s) : FinishedInv s :=
  h.invariant finishedInv_initial fun s s' a hr I hg hs => by
    cases (step_cases hs).2 with
    | thread t mv ht h =>
      -- the shutdown has not been called
      have hidle : s'.shutdown = .idle := (shutdown_thread h).trans hg
      refine ⟨fun hne => absurd hidle hne, fun hst => ?_, fun hr => ?_⟩
      · rw [hidle] at hst
        exact hst.elim
      · rw [hidle] at hr
        cases hr
    | worker i h =>
      obtain ⟨hthr, -, hc, hsd, halive, -⟩ := h.life
      have hmark := (shouldStop_worker h).2
      refine ⟨fun hne t => ?_, fun hst t => ?_, fun hret => ?_⟩
      · rw [hthr]
        exact I.quiet (hsd ▸ hne) t
      · rw [hmark, accepted_worker h]
        exact I.mark (hsd ▸ hst) t
      · exact absurd ((I.returned (hsd ▸ hret)).1 i) halive
    | shutdown h => exact finishedInv_shutdown (lifeInv hr) I hg h

/-- **After the shutdown nothing is on its way.** -/
theorem known_returned (h : Runs.ReachableBy (system cfg) FinishedFirst s)
    (hret : s.shutdown = .returned) (hk : Known s u v) : s.graph.E u v := by
  obtain ⟨hdead, hmark⟩ := (finishedInv h).returned hret
  rcases hk with (he | ⟨i, hh⟩) | ⟨t, e, he, hc⟩
  · exact he
  · exact absurd (hdead i) (holds_alive hh)
  · exfalso
    have hmem : e ∈ (s.ring t).accepted := List.mem_of_mem_drop he
    have hcreated := (earlyInv h).published t e hmem
    have hlt := (earlyInv h).slots t e hmem
    have hle := ((stopInv h).done (s.created - 1) (by omega) (hdead _) t hlt).1
    rw [hmark hcreated t] at hle
    have hnil : waiting s t = [] := List.drop_eq_nil_iff.mpr hle
    rw [hnil] at he
    cases he

/-- The recorded edges of a finished program. -/
theorem edge_returned (hd : cfg.drops = false)
    (h : Runs.ReachableBy (system cfg) FinishedFirst s) (hret : s.shutdown = .returned)
    (u v : Nat) : s.graph.E u v ↔ ∃ t, Dependency (s.thr t).hist u v := by
  constructor
  · intro he
    rcases ((edgeInv h).sound u v he).claimed with ⟨t, api, -, ha⟩ | ⟨t, c, hc, -⟩
    · exact ⟨t, api, ha⟩
    · have hq := (finishedInv h).quiet (by rw [hret]; simp) t
      simp only [activity, hq] at hc
      cases hc
  · rintro ⟨t, hdep⟩
    exact known_returned h hret ((completeInv hd h).complete t u v hdep)

theorem ReportInv.cycle_iff (I : ReportInv s) :
    s.reports ≠ [] ↔ ∃ u, TransGen s.graph.E u u := by
  rw [← I.marked.cycle_iff]
  constructor
  · intro hne
    obtain ⟨r, hr⟩ := List.exists_mem_of_ne_nil _ hne
    exact ⟨_, _, r, hr, rfl, rfl⟩
  · rintro ⟨_, _, r, hr, -, -⟩ hnil
    rw [hnil] at hr
    cases hr

/-! ## The same calls in the global backend -/

theorem wellFormed_own {t : Nat} {mv : Move} (T : ThreadOk cfg s t) (h : ThreadStep cfg s t mv s')
    (hwf : WellFormed s.lockSlotCount (s.thr t).hist) :
    WellFormed s'.lockSlotCount (s'.thr t).hist := by
  refine WellFormed.mono ?_ (lockSlotCount_thread h)
  have hheld := T.heldHist
  cases h with
  | top c h hl hnil hmv =>
    rw [complete_hist, if_pos rfl]
    refine .acquire c.api c.lockSlot hwf hl ?_
    rw [← hheld, hnil]
    decide
  | release l h hl =>
    rw [complete_hist, if_pos rfl]
    exact .release l hwf (hheld ▸ hl)
  | push c h ts hts =>
    rw [complete_hist, if_pos rfl]
    refine .acquire c.api c.lockSlot hwf (T.callBound c (by rw [h]; rfl)) ?_
    rw [← hheld]
    unfold ThreadState.pushHeldLockSlot at hts
    split at hts
    · cases hts
    · rename_i hroom
      exact Nat.lt_of_not_le hroom
  | _ => simpa using hwf

/-- The histories are within the limits. -/
theorem wellFormed {G : State → Act → Prop} (h : Runs.ReachableBy (system cfg) G s) :
    (∀ t, WellFormed s.lockSlotCount (s.thr t).hist) ∧
      ∀ t, maxThreadSlots ≤ t → (s.thr t).hist = [] :=
  h.invariant (P := fun s => (∀ t, WellFormed s.lockSlotCount (s.thr t).hist) ∧
      ∀ t, maxThreadSlots ≤ t → (s.thr t).hist = []) ⟨fun _ => .nil, fun _ _ => rfl⟩
    fun s s' a hr I _ hs => by
      have hstep := (step_cases hs).2
      have hsame : ∀ t, s'.thr t = s.thr t → WellFormed s'.lockSlotCount (s'.thr t).hist ∧
          (maxThreadSlots ≤ t → (s'.thr t).hist = []) := fun t ht => by
        rw [ht]
        exact ⟨(I.1 t).mono (lockSlotCount_step hstep), I.2 t⟩
      have hall : ∀ t, WellFormed s'.lockSlotCount (s'.thr t).hist ∧
          (maxThreadSlots ≤ t → (s'.thr t).hist = []) := by
        intro t
        cases hstep with
        | thread w mv hw h =>
          by_cases ht : t = w
          · subst ht
            exact ⟨wellFormed_own (threadOk hr t) h (I.1 t), fun hle => by omega⟩
          · exact hsame t (thr_other h ht)
        | worker i h => exact hsame t (by rw [h.life.1])
        | shutdown h => exact hsame t (by cases h <;> rfl)
      exact ⟨fun t => (hall t).1, fun t => (hall t).2⟩

/-- **The ring-buffer backend refines the global backend.**  With a stalling ring,
for every run whose threads have finished their hooks before the shutdown: the global
backend has runs with the same calls, and each of them ends with the same edges and
agrees on whether there is a report. -/
theorem rb_refines_global (hd : cfg.drops = false)
    (h : Runs.ReachableBy (system cfg) FinishedFirst s) (hret : s.shutdown = .returned) :
    (∃ g, Runs.Reachable GlobalBackend.system g ∧ GlobalBackend.Quiet g ∧
      ∀ t, (g.thr t).hist = (s.thr t).hist) ∧
    (∀ u v, s.graph.edge u v = true ↔ ∃ t, Dependency (s.thr t).hist u v) ∧
    (Acyclic fun u v => s.graph.E u v ∧ ¬ Reported s u v) ∧
    ∀ g, Runs.Reachable GlobalBackend.system g → GlobalBackend.Quiet g →
      (∀ t, (g.thr t).hist = (s.thr t).hist) →
      (∀ u v, s.graph.edge u v = g.graph.edge u v) ∧
      (s.reports ≠ [] ↔ g.reports ≠ []) ∧
      (Acyclic fun u v => g.graph.E u v ∧ ¬ GlobalBackend.Reported g u v) := by
  have hedge := edge_returned hd h hret
  obtain ⟨hwf, hslots⟩ := wellFormed h
  refine ⟨GlobalBackend.exists_run (edgeInv h).count (fun t => (s.thr t).hist) hwf hslots, hedge,
    (reportInv h).marked.acyclic, fun g hg hq hh => ?_⟩
  obtain ⟨-, -, -, hglobal⟩ := GlobalBackend.global_exact hg
  obtain ⟨hgedge, -, hgacyclic, hgreports⟩ := hglobal hq
  have hsame : ∀ u v, s.graph.E u v ↔ g.graph.E u v := fun u v => by
    rw [hedge]
    simp only [← hh]
    exact (hgedge u v).symm
  have hE : s.graph.E = g.graph.E := by
    funext u v
    exact propext (hsame u v)
  refine ⟨fun u v => Bool.eq_iff_iff.mpr (hsame u v), ?_, hgacyclic⟩
  rw [(reportInv h).cycle_iff, hE, hgreports]

/-! ## Two locks in both orders -/

/-- Thread `t` locks `a`, then `b`, and unlocks both; `n` is the number of steps
of the nested call. -/
def lockPair (t a b n : Nat) : List Act :=
  [.thread t (.acquire ⟨.lock, a, 7⟩), .thread t (.acquire ⟨.lock, b, 7⟩)] ++
    List.replicate n (.thread t .run) ++ [.thread t (.release b), .thread t (.release a)]

/-- Thread 0 locks 0 then 1, thread 1 locks 1 then 0, the worker records both edges,
and the shutdown stops it. -/
def inverted : List (List Act) :=
  [[.thread 0 .register, .thread 0 .register] ++ lockPair 0 0 1 26 ++ lockPair 1 1 0 19 ++
      List.replicate 12 (.worker 0),
    List.replicate 8 (.worker 0), List.replicate 3 (.worker 0),
    List.replicate 4 .shutdown ++ List.replicate 3 (.worker 0),
    .worker 0 :: List.replicate 3 .shutdown]

/-- `FinishedFirst`, computed. -/
def finishedFirst (s : State) : Act → Bool
  | .thread _ _ => s.shutdown = .idle
  | .worker _ => true
  | .shutdown => s.shutdown = .idle → ∀ t, t < maxThreadSlots → (s.thr t).pc = .outside

/-- There are no other threads. -/
theorem thr_free {G : State → Act → Prop} (h : Runs.ReachableBy (system cfg) G s) {t : Nat}
    (ht : maxThreadSlots ≤ t) : s.thr t = initial.thr t :=
  h.invariant (P := fun s => s.thr t = initial.thr t) rfl fun _ _ _ _ I _ hs => by
    cases (step_cases hs).2 with
    | thread w mv hw h => exact (thr_other h (by omega)).trans I
    | worker i h => rw [h.life.1, I]
    | shutdown h => cases h <;> exact I

theorem finishedFirst_reachable {legs : List (List Act)}
    (h : execLegs cfg finishedFirst initial legs = some s) :
    Runs.ReachableBy (system cfg) FinishedFirst s := by
  refine (execLegs_reachable (fun _ _ => rfl) .init h).mono_of fun s a hr _ hg => ?_
  cases a with
  | thread t mv => exact of_decide_eq_true (p := s.shutdown = .idle) hg
  | worker i => trivial
  | shutdown =>
    intro hidle t
    by_cases ht : t < maxThreadSlots
    · exact of_decide_eq_true
        (p := s.shutdown = .idle → ∀ t, t < maxThreadSlots → (s.thr t).pc = .outside) hg hidle t ht
    · rw [thr_free hr (Nat.le_of_not_lt ht)]
      rfl

theorem inverted_runs :
    (execLegs ⟨false, true⟩ finishedFirst initial inverted).isSome = true := by decide +kernel

theorem rb_refines_global_inverted : ∃ s g,
    execLegs ⟨false, true⟩ finishedFirst initial inverted = some s ∧
      Runs.Reachable GlobalBackend.system g ∧ (∀ t, (g.thr t).hist = (s.thr t).hist) ∧
      s.reports = [⟨1, 0, [0, 1], ⟨some 1, 7⟩, [⟨some 0, 7⟩]⟩] ∧ g.reports ≠ [] ∧
      s.graph.edge 0 1 = true ∧ g.graph.edge 0 1 = true := by
  have hs := (Option.some_get inverted_runs).symm
  obtain ⟨⟨g, hg, hq, hh⟩, -, -, h⟩ :=
    rb_refines_global rfl (finishedFirst_reachable hs) (by decide +kernel)
  obtain ⟨hedge, hreports, -⟩ := h g hg hq hh
  have h01 : ((execLegs ⟨false, true⟩ finishedFirst initial inverted).get
      inverted_runs).graph.edge 0 1 = true := by decide +kernel
  exact ⟨_, g, hs, hg, hh, by decide +kernel, hreports.mp (by decide +kernel), h01,
    hedge 0 1 ▸ h01⟩

end ScaleLockDep.RbBackend
