import ScaleLockDep.RbWakeup
import ScaleLockDep.LockActivity

/-!
# What the threads of the ring-buffer backend know

* `ThreadOk`: the held bits mirror the completed calls, and a collected event holds
  other locks of the thread only;
* `threadOk`: it holds of every thread in every reachable state;
* `activity_step`: every step as an activity of the threads.
-/

namespace ScaleLockDep.RbBackend

open ThreadState State

/-- The call a thread is recording. -/
@[simp] def calling : Pc → Option Call
  | .outside => none
  | .collect c _ _ | .ensure c _ _ | .enqueue c _ | .ring c _ | .exchange c _ _ | .post c _ _
  | .push c => some c

/-- The event a thread has collected and not published. -/
@[simp] def carried : Pc → Option Event
  | .ensure _ e _ | .enqueue _ e | .ring _ e | .exchange _ e .stalled | .post _ e .stalled => some e
  | _ => none

/-- The event a thread is putting into its ring. -/
@[simp] def inRing : Pc → Option Event
  | .ring _ e | .exchange _ e .stalled | .post _ e .stalled => some e
  | _ => none

theorem calling_afterSignal (c : Call) (e : Event) (why : Why) :
    calling (afterSignal c e why) = some c := by
  cases why <;> rfl

/-- The activity of the threads. -/
def activity (s : State) : Activity := ⟨fun t => (s.thr t).hist, fun t => calling (s.thr t).pc⟩

structure ThreadOk (cfg : Config) (s : State) (t : Nat) : Prop where
  heldHist : s.held t = heldAfter (s.thr t).hist
  mirrors : Mirrors (s.thr t).tls
  heldBound : ∀ l, l ∈ s.held t → l < s.lockSlotCount
  callBound : ∀ c, calling (s.thr t).pc = some c → c.lockSlot < s.lockSlotCount
  collected : ∀ c bits w, (s.thr t).pc = .collect c bits w → w ≤ graphWords ∧
    ∀ u, bits.test u = true → u ∈ s.held t
  target : ∀ e, carried (s.thr t).pc = some e →
    (calling (s.thr t).pc).map Call.lockSlot = some e.toLockSlot
  sources : ∀ e, carried (s.thr t).pc = some e → ∀ u, e.bits.test u = true →
    u ∈ s.held t ∧ u ≠ e.toLockSlot
  sync : producing (s.ring t).producer = inRing (s.thr t).pc
  policy : ∀ c e why, (s.thr t).pc = .exchange c e why ∨ (s.thr t).pc = .post c e why →
    (why = .dropped → cfg.drops = true)

theorem threadOk_initial (cfg : Config) (t : Nat) : ThreadOk cfg initial t where
  heldHist := rfl
  mirrors := initial_mirrors
  heldBound _ h := by cases h
  callBound _ h := by cases h
  collected _ _ _ h := by cases h
  target _ h := by cases h
  sources _ h := by cases h
  sync := rfl
  policy _ _ _ h := by rcases h with h | h <;> cases h

/-! ## Words and events -/

/-- A word set after one word is replaced. -/
theorem test_update_word (b : WordSet) (w : Nat) (x y : WordSet) (u : Nat) :
    WordSet.test (Function.update b w (x w &&& ~~~ y w)) u =
      if u / 64 = w then x.test u && !y.test u else b.test u := by
  have hu : u % 64 < 64 := Nat.mod_lt _ (by decide)
  simp only [WordSet.test_eq_getLsbD, Function.update_apply]
  split
  · rename_i h
    subst h
    simp [hu]
  · rfl

theorem test_eventOf (t : Nat) (c : Call) (b : WordSet) (u : Nat) :
    (eventOf t c b).bits.test u = (decide (u < maxLockSlots) && b.test u) := by
  have hw : graphWords = 4 := rfl
  have hm : maxLockSlots = 256 := rfl
  rw [WordSet.test_eq_getLsbD, WordSet.test_eq_getLsbD, Event.bits]
  by_cases hu : u < maxLockSlots
  · rw [dif_pos (show u / 64 < graphWords by omega)]
    simp [hu, eventOf]
  · rw [dif_neg (show ¬ u / 64 < graphWords by omega)]
    simp [hu]

/-! ## Application threads -/

variable {cfg : Config} {s s' : State} {t : Nat} {mv : Move}

theorem lockSlotCount_thread (h : ThreadStep cfg s t mv s') :
    s.lockSlotCount ≤ s'.lockSlotCount := by
  cases h with
  | register h => exact Nat.le_succ _
  | _ => exact Nat.le_refl _

/-- A step that changes the position of the thread only. -/
theorem ThreadOk.setPc {pc : Pc} (I : ThreadOk cfg s t)
    (hthr : s'.thr t = { s.thr t with pc := pc }) (hcount : s.lockSlotCount = s'.lockSlotCount)
    (hcall : ∀ c, calling pc = some c → c.lockSlot < s.lockSlotCount)
    (hcollect : ∀ c bits w, pc = .collect c bits w → w ≤ graphWords ∧
      ∀ u, bits.test u = true → u ∈ s.held t)
    (htarget : ∀ e, carried pc = some e → (calling pc).map Call.lockSlot = some e.toLockSlot)
    (hsources : ∀ e, carried pc = some e → ∀ u, e.bits.test u = true →
      u ∈ s.held t ∧ u ≠ e.toLockSlot)
    (hsync : producing (s'.ring t).producer = inRing pc)
    (hpolicy : ∀ c e why, pc = .exchange c e why ∨ pc = .post c e why →
      (why = .dropped → cfg.drops = true)) : ThreadOk cfg s' t := by
  have hheld : s'.held t = s.held t := by rw [State.held, hthr, State.held]
  constructor <;> simp only [hthr, hheld, ← hcount]
  · exact I.heldHist
  · exact I.mirrors
  · exact I.heldBound
  · exact hcall
  · exact hcollect
  · exact htarget
  · exact hsources
  · exact hsync
  · exact hpolicy

/-- A step on with the same call and event. -/
theorem ThreadOk.go {pc : Pc} (I : ThreadOk cfg s t) (hthr : s'.thr t = { s.thr t with pc := pc })
    (hcount : s.lockSlotCount = s'.lockSlotCount) (hcall : calling pc = calling (s.thr t).pc)
    (hcollect : ∀ c bits w, pc ≠ .collect c bits w)
    (hcarried : ∀ e, carried pc = some e → carried (s.thr t).pc = some e)
    (hsync : producing (s'.ring t).producer = inRing pc)
    (hpolicy : ∀ c e why, pc = .exchange c e why ∨ pc = .post c e why →
      (why = .dropped → cfg.drops = true)) : ThreadOk cfg s' t :=
  I.setPc hthr hcount (fun c hc => I.callBound c (hcall ▸ hc))
    (fun c bits w hpc => absurd hpc (hcollect c bits w))
    (fun e he => hcall ▸ I.target e (hcarried e he)) (fun e he => I.sources e (hcarried e he))
    hsync hpolicy

/-- A step of `lockdep_rb_ensure_worker_started`. -/
theorem ThreadOk.ensure {c : Call} {e : Event} {p : EnsurePc} {pc : Pc} (I : ThreadOk cfg s t)
    (h : (s.thr t).pc = .ensure c e p) (hpc : (∃ q, pc = .ensure c e q) ∨ pc = .enqueue c e)
    (hthr : s'.thr t = { s.thr t with pc := pc }) (hcount : s.lockSlotCount = s'.lockSlotCount)
    (hring : s'.ring t = s.ring t) : ThreadOk cfg s' t := by
  have hsync := I.sync
  rw [h] at hsync
  rcases hpc with ⟨q, rfl⟩ | rfl
  · exact I.go hthr hcount (by rw [h]; rfl) (fun _ _ _ => nofun) (by rw [h]; exact fun e he => he)
      (hring ▸ hsync) (by rintro _ _ _ (h | h) <;> cases h)
  · exact I.go hthr hcount (by rw [h]; rfl) (fun _ _ _ => nofun) (by rw [h]; exact fun e he => he)
      (hring ▸ hsync) (by rintro _ _ _ (h | h) <;> cases h)

theorem setPc_thr_self (s : State) (t : Nat) (pc : Pc) :
    (s.setPc t pc).thr t = { s.thr t with pc := pc } := by
  simp [State.setPc]

/-- A call is complete. -/
theorem ThreadOk.complete {ts : ThreadState} {op : Op} (I : ThreadOk cfg s t)
    (hin : inRing (s.thr t).pc = none)
    (hheld : ts.heldLockSlots = op.apply (s.held t)) (hm : Mirrors ts)
    (hb : ∀ l, l ∈ ts.heldLockSlots → l < s.lockSlotCount) :
    ThreadOk cfg (s.complete t ts op) t := by
  have hthr : (s.complete t ts op).thr t = ⟨.outside, ts, (s.thr t).hist ++ [op]⟩ := by
    simp [State.complete]
  have hheld' : (s.complete t ts op).held t = ts.heldLockSlots := by rw [State.held, hthr]
  constructor <;> simp only [hthr, hheld', complete_lockSlotCount, complete_ring]
  · rw [hheld, I.heldHist, heldAfter_concat]
  · exact hm
  · exact hb
  · intro c hc
    cases hc
  · intro c bits w hc
    cases hc
  · intro e he
    cases he
  · intro e he
    cases he
  · exact I.sync.trans hin
  · rintro c e why (h | h) <;> cases h

theorem ThreadOk.sync_outside (I : ThreadOk cfg s t) (h : (s.thr t).pc = .outside) :
    producing (s.ring t).producer = none := by
  rw [I.sync, h]
  rfl

theorem threadOk_own (I : ThreadOk cfg s t) (h : ThreadStep cfg s t mv s') :
    ThreadOk cfg s' t := by
  have hsync := I.sync
  have hpol := I.policy
  cases h with
  | register h =>
    exact ⟨I.heldHist, I.mirrors, fun l hl => (I.heldBound l hl).trans (Nat.lt_succ_self _),
      fun c hc => (I.callBound c hc).trans (Nat.lt_succ_self _), I.collected, I.target, I.sources,
      I.sync, I.policy⟩
  | overflow c h =>
    exact ⟨I.heldHist, I.mirrors, I.heldBound, I.callBound, I.collected, I.target, I.sources,
      I.sync, I.policy⟩
  | top c h hl hnil hmv =>
    refine I.complete (by rw [h]; rfl) ?_ (acquireTopLevel_mirrors I.mirrors hnil _) ?_
    · rw [acquireTopLevel_held, hnil]
      rfl
    · simpa using hl
  | release l h hl =>
    refine I.complete (by rw [h]; rfl) (release_heldLockSlots _ _ _) (release_mirrors I.mirrors l)
      fun k hk => ?_
    rw [release_heldLockSlots] at hk
    exact I.heldBound k (mem_of_mem_removeHeld hk)
  | push c h ts hts =>
    refine I.complete (by rw [h]; rfl) (pushHeldLockSlot_held hts)
      (pushHeldLockSlot_mirrors I.mirrors hts) fun k hk => ?_
    rw [pushHeldLockSlot_held hts, List.mem_append, List.mem_singleton] at hk
    rcases hk with hk | rfl
    · exact I.heldBound k hk
    · exact I.callBound c (by rw [h]; rfl)
  | nested c h hl hnil hmv =>
    refine I.setPc (setPc_thr_self _ _ _) rfl (fun d hd => ?_) (fun d bits w hd => ?_)
      (fun e he => by cases he) (fun e he => by cases he) (I.sync_outside h)
      (by rintro _ _ _ (h | h) <;> cases h)
    · cases hd
      exact hl
    · cases hd
      exact ⟨Nat.zero_le _, fun u hu => by simp at hu⟩
  | load c bits w h hw =>
    refine I.setPc (setPc_thr_self _ _ _) rfl (fun d hd => ?_) (fun d b x hd => ?_)
      (fun e he => by cases he) (fun e he => by cases he) (by rw [h] at hsync; exact hsync)
      (by rintro _ _ _ (h | h) <;> cases h)
    · cases hd
      exact I.callBound c (by rw [h]; rfl)
    · cases hd
      refine ⟨hw, fun u hu => ?_⟩
      rw [test_update_word] at hu
      split at hu
      · rw [Bool.and_eq_true, I.mirrors.bits, decide_eq_true_eq] at hu
        exact hu.1
      · exact (I.collected c bits w h).2 u hu
  | unknown c bits w h hw hb =>
    refine I.setPc (setPc_thr_self _ _ _) rfl (fun d hd => ?_) (fun d b x hd => by cases hd)
      (fun e he => ?_) (fun e he u hu => ?_) (by rw [h] at hsync; exact hsync)
      (by rintro _ _ _ (h | h) <;> cases h)
    · cases hd
      exact I.callBound c (by rw [h]; rfl)
    · cases he
      rfl
    · cases he
      rw [test_eventOf, WordSet.test_clear, Bool.and_eq_true, Bool.and_eq_true,
        decide_eq_true_eq, decide_eq_true_eq] at hu
      exact ⟨(I.collected c bits w h).2 u hu.2.1, hu.2.2⟩
  | known c bits w h hw hb =>
    rw [h] at hsync
    exact I.go (setPc_thr_self _ _ _) rfl (by rw [h]; rfl) (fun _ _ _ => nofun)
      (fun e he => by cases he) hsync (by rintro _ _ _ (h | h) <;> cases h)
  | started c e p h hp hs => exact I.ensure h (Or.inr rfl) (setPc_thr_self _ _ _) rfl rfl
  | ensure c e p q h hp hq => exact I.ensure h (Or.inl ⟨_, rfl⟩) (setPc_thr_self _ _ _) rfl rfl
  | claim c e h hs | semInit c e h | storeStop c e h | storePending c e h | create c e h =>
    exact I.ensure h (Or.inl ⟨_, rfl⟩) (setPc_thr_self _ _ _) rfl rfl
  | storeState c e h => exact I.ensure h (Or.inr rfl) (setPc_thr_self _ _ _) rfl rfl
  | enqueue c e r h hr hu hp =>
    exact I.go (setPc_thr_self _ _ _) rfl (by rw [h]; rfl) (fun _ _ _ => nofun)
      (by rw [h]; exact fun e he => he) (by rw [setPc_ring, setRing_ring, if_pos rfl]; exact hp)
      (by rintro _ _ _ (h | h) <;> cases h)
  | ring c e r h hr hu hp =>
    refine ⟨I.heldHist, I.mirrors, I.heldBound, I.callBound, I.collected, I.target, I.sources, ?_,
      I.policy⟩
    rw [setRing_ring, if_pos rfl, hp]
    exact hsync
  | full c e r h hr hu hp =>
    have hpr : producing (s.ring t).producer = some e := by rw [hsync, h]; rfl
    rw [hpr] at hp
    cases hd : cfg.drops with
    | true =>
      simp only [hd, if_true] at hp ⊢
      exact I.go (setPc_thr_self _ _ _) rfl (by rw [h]; rfl) (fun _ _ _ => nofun)
        (fun e he => by cases he) (by rw [setPc_ring, setRing_ring, if_pos rfl]; exact hp)
        (fun _ _ _ _ _ => hd)
    | false =>
      simp only [hd, Bool.false_eq_true, if_false] at hp ⊢
      exact I.go (setPc_thr_self _ _ _) rfl (by rw [h]; rfl) (fun _ _ _ => nofun)
        (by rw [h]; exact fun e he => he) (by rw [setPc_ring, setRing_ring, if_pos rfl]; exact hp)
        (by rintro _ _ _ (h | h) hw <;> cases h; cases hw)
  | publish c e x r h hr hx hacc hdel hp =>
    exact I.go (setPc_thr_self _ _ _) rfl (by rw [h]; rfl) (fun _ _ _ => nofun)
      (fun e he => by cases he) (by rw [setPc_ring, setRing_ring, if_pos rfl]; exact hp)
      (by rintro _ _ _ (h | h) hw <;> cases h; cases hw)
  | signalled c e why h hw | post c e why h =>
    rw [h] at hsync
    refine I.go (setPc_thr_self _ _ _) rfl (by rw [h, calling_afterSignal]; rfl)
      (fun _ _ _ => ?_) (fun x hx => ?_) ?_ (fun _ _ _ hpc => ?_)
    · cases why <;> nofun
    · rw [h]
      cases why <;> exact hx
    · cases why <;> exact hsync
    · cases why <;> rcases hpc with hpc | hpc <;> cases hpc
  | exchange c e why h hw =>
    rw [h] at hsync
    refine I.go (setPc_thr_self _ _ _) rfl (by rw [h]; rfl) (fun _ _ _ => nofun) (fun x hx => ?_) ?_
      (fun d x w hpc => ?_)
    · rw [h]
      cases why <;> exact hx
    · cases why <;> exact hsync
    · rcases hpc with hpc | hpc <;> cases hpc
      exact hpol c e why (Or.inl h)

/-! ## All steps -/

/-- A step of another party: it leaves the thread alone, and the producer of its
ring. -/
theorem ThreadOk.congr (I : ThreadOk cfg s t) (hthr : s'.thr t = s.thr t)
    (hcount : s.lockSlotCount ≤ s'.lockSlotCount)
    (hring : (s'.ring t).producer = (s.ring t).producer) : ThreadOk cfg s' t := by
  have hheld : s'.held t = s.held t := by rw [State.held, hthr, State.held]
  constructor <;> simp only [hthr, hheld, hring]
  · exact I.heldHist
  · exact I.mirrors
  · exact fun l hl => (I.heldBound l hl).trans_le hcount
  · exact fun c hc => (I.callBound c hc).trans_le hcount
  · exact I.collected
  · exact I.target
  · exact I.sources
  · exact I.sync
  · exact I.policy

theorem ring_other {u : Nat} (h : ThreadStep cfg s t mv s') (hu : u ≠ t) :
    s'.ring u = s.ring u := by
  cases h <;> simp [setRing_ring, hu]

theorem producer_worker {i u : Nat} (h : WorkerStep cfg s i s') :
    (s'.ring u).producer = (s.ring u).producer := by
  cases h with
  | read second w b r a h ht hr hu hp => exact setRing_keeps s w u r SpscRing.State.producer hp
  | next second w b r head h ht hr hu hp hc hempty =>
    exact setRing_keeps s w u r SpscRing.State.producer hp
  | pop second w b r e h ht hr hacc hdel hp =>
    exact setRing_keeps s w u r SpscRing.State.producer hp
  | _ => rfl

theorem accepted_worker {i u : Nat} (h : WorkerStep cfg s i s') :
    (s'.ring u).accepted = (s.ring u).accepted := by
  cases h with
  | read second w b r a h ht hr hu hp =>
    exact setRing_keeps s w u r SpscRing.State.accepted hu.accepted
  | next second w b r head h ht hr hu hp hc hempty =>
    exact setRing_keeps s w u r SpscRing.State.accepted hu.accepted
  | pop second w b r e h ht hr hacc hdel hp =>
    exact setRing_keeps s w u r SpscRing.State.accepted hacc
  | _ => rfl

theorem delivered_thread {u : Nat} (h : ThreadStep cfg s t mv s') :
    (s'.ring u).delivered = (s.ring u).delivered := by
  cases h with
  | enqueue c e r h hr hu hp =>
    exact setRing_keeps s t u r SpscRing.State.delivered hu.delivered
  | ring c e r h hr hu hp => exact setRing_keeps s t u r SpscRing.State.delivered hu.delivered
  | full c e r h hr hu hp => exact setRing_keeps s t u r SpscRing.State.delivered hu.delivered
  | publish c e x r h hr hx hacc hdel hp =>
    exact setRing_keeps s t u r SpscRing.State.delivered hdel
  | _ => rfl

theorem lockSlotCount_worker {i : Nat} (h : WorkerStep cfg s i s') :
    s'.lockSlotCount = s.lockSlotCount := by
  cases h <;> rfl

theorem threadOk_step {a : Act} (I : ∀ t, ThreadOk cfg s t) (h : Step cfg s a s') (t : Nat) :
    ThreadOk cfg s' t := by
  cases h with
  | thread u mv hu h =>
    by_cases ht : t = u
    · subst ht
      exact threadOk_own (I t) h
    · exact (I t).congr (thr_other h ht) (lockSlotCount_thread h) (by rw [ring_other h ht])
  | worker i h =>
    exact (I t).congr (by rw [h.life.1]) (lockSlotCount_worker h).ge (producer_worker h)
  | shutdown h =>
    exact (I t).congr (by cases h <;> rfl) (by cases h <;> exact Nat.le_refl _)
      (by cases h <;> rfl)

theorem threadOk {G : State → Act → Prop} (h : Runs.ReachableBy (system cfg) G s) :
    ∀ t, ThreadOk cfg s t :=
  h.invariant (P := fun s => ∀ t, ThreadOk cfg s t) (threadOk_initial cfg)
    fun _ _ _ _ I _ hs => threadOk_step I (step_cases hs).2

/-! ## The activity of the threads -/

theorem ThreadOk.held_activity (I : ThreadOk cfg s t) : (activity s).held t = s.held t :=
  I.heldHist.symm

/-- **A thread step as an activity of the threads.** -/
theorem activity_thread (I : ThreadOk cfg s t) (h : ThreadStep cfg s t mv s') :
    (activity s).Step t mv (activity s') := by
  refine ⟨?_, fun u hu => by simp only [activity, thr_other h hu, and_self]⟩
  have hheld := I.heldHist
  cases h with
  | top c h hl hnil hmv =>
    exact .top c (hheld.symm.trans hnil) (by simp [activity, h]) (by simp [activity, complete_hist])
      (by simp [activity, complete_pc])
  | nested c h hl hnil hmv =>
    exact .start c hmv (by simp [activity, h]) (by simp [activity]) (by simp [activity, setPc_pc])
  | release l h hl =>
    exact .release l (by simp [activity, h]) (by simp [activity, complete_hist])
      (by simp [activity, complete_pc])
  | push c h ts hts =>
    exact .finish c (by simp [activity, h]) (by simp [activity, complete_hist])
      (by simp [activity, complete_pc])
  | register h => exact .stay rfl rfl
  | overflow c h => exact .stay rfl rfl
  | ring c e r h hr hu hp => exact .stay rfl rfl
  | load c bits w h hw => exact .stay (by simp [activity]) (by simp [activity, h, setPc_pc])
  | unknown c bits w h hw hb => exact .stay (by simp [activity]) (by simp [activity, h, setPc_pc])
  | known c bits w h hw hb => exact .stay (by simp [activity]) (by simp [activity, h, setPc_pc])
  | started c e p h hp hs => exact .stay (by simp [activity]) (by simp [activity, h, setPc_pc])
  | ensure c e p q h hp hq => exact .stay (by simp [activity]) (by simp [activity, h, setPc_pc])
  | claim c e h hs => exact .stay (by simp [activity]) (by simp [activity, h, setPc_pc])
  | semInit c e h => exact .stay (by simp [activity]) (by simp [activity, h, setPc_pc])
  | storeStop c e h => exact .stay (by simp [activity]) (by simp [activity, h, setPc_pc])
  | storePending c e h => exact .stay (by simp [activity]) (by simp [activity, h, setPc_pc])
  | create c e h => exact .stay (by simp [activity]) (by simp [activity, h, setPc_pc])
  | storeState c e h => exact .stay (by simp [activity]) (by simp [activity, h, setPc_pc])
  | enqueue c e r h hr hu hp => exact .stay (by simp [activity]) (by simp [activity, h, setPc_pc])
  | full c e r h hr hu hp => exact .stay (by simp [activity]) (by simp [activity, h, setPc_pc])
  | publish c e x r h hr hx hacc hdel hp =>
    exact .stay (by simp [activity]) (by simp [activity, h, setPc_pc])
  | signalled c e why h hw =>
    refine .stay (by simp [activity]) ?_
    simp only [activity, h, setPc_pc, if_true, calling_afterSignal]
    rfl
  | exchange c e why h hw => exact .stay (by simp [activity]) (by simp [activity, h, setPc_pc])
  | post c e why h =>
    refine .stay (by simp [activity]) ?_
    simp only [activity, h, setPc_pc, if_true, calling_afterSignal]
    rfl

/-- The thread and the move of an action; the other parties move no thread. -/
def Act.mover : Act → Nat × Move
  | .thread t mv => (t, mv)
  | .worker _ | .shutdown => (0, .run)

/-- **A step as an activity of the threads.** -/
theorem activity_step {a : Act} (I : ∀ t, ThreadOk cfg s t) (h : Step cfg s a s') :
    (activity s).Step a.mover.1 a.mover.2 (activity s') := by
  cases h with
  | thread t mv ht h => exact activity_thread (I t) h
  | worker i h =>
    have : activity s' = activity s := by simp only [activity, h.life.1]
    rw [this]
    exact .refl _ _ _
  | shutdown h =>
    have : activity s' = activity s := by cases h <;> rfl
    rw [this]
    exact .refl _ _ _

end ScaleLockDep.RbBackend
