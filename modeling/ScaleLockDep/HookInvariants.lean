import ScaleLockDep.HookMemory

/-!
# Invariants of the hooks

For every number of threads and every interleaving:

* `HoldInv`: the held stack of a thread counts its locks on the real mutexes;
* `OwnerInv`: as long as no thread unlocks a mutex it holds twice, the owner a
  thread reads for a lock it holds is the thread itself, and a recorded owner
  holds the lock or has ended with it;
* `none_abandoned`: no mutex is abandoned where no thread ends while it holds one.
-/

namespace ScaleLockDep.Hooks

open ThreadState State

/-! ## Held stacks and real mutexes -/

/-- Locks granted by a real call that the held stack does not show yet. -/
def granted : Pc → Nat → Nat
  | .topAcquired m, l | .acquired m _, l => if m = l then 1 else 0
  | _, _ => 0

/-- Locks given back by the real unlock that the held stack still shows. -/
def releasing : Pc → Nat → Nat
  | .released m, l => if m = l then 1 else 0
  | _, _ => 0

/-- What a program point says about the held stack. -/
def PcHeld (held : List Nat) : Pc → Prop
  | .topAcquired _ | .callLock _ true | .blocked _ true => held = []
  | .unlockCall m | .released m | .clearWait m | .storeOwner m => m ∈ held
  | _ => True

/-- **The held stack counts the real locks.** -/
structure HoldInv (c : Setup) (s : State) : Prop where
  count : ∀ t l, (s.held t).count l + granted (s.thr t).pc l =
    s.lockCount t l + releasing (s.thr t).pc l
  pos : ∀ l t k, s.real l = some (t, k) → 0 < k
  single : ∀ l t k, c.recursive l = false → s.real l = some (t, k) → k = 1
  gone : ∀ l, s.abandoned l = true → s.real l = none
  pcHeld : ∀ t, PcHeld (s.held t) (s.thr t).pc

/-- A thread that shows a lock and is not giving it back really holds it. -/
theorem HoldInv.holds {c : Setup} {s : State} (I : HoldInv c s) {t l : Nat}
    (hl : l ∈ s.held t) (hr : releasing (s.thr t).pc l = 0) : s.lockCount t l ≠ 0 := by
  have hc := I.count t l
  have : 0 < (s.held t).count l := List.count_pos_iff.mpr hl
  omega

theorem HoldInv.holds_granted {c : Setup} {s : State} (I : HoldInv c s) {t l : Nat}
    (hg : granted (s.thr t).pc l ≠ 0) (hr : releasing (s.thr t).pc l = 0) :
    s.lockCount t l ≠ 0 := by
  have hc := I.count t l
  omega

theorem lockCount_grant {c : Setup} {s : State} {t m : Nat} (hg : s.grantable c t m = true)
    (u l : Nat) : (s.grant t m).lockCount u l = s.lockCount u l + if u = t ∧ l = m then 1 else 0 := by
  unfold grantable at hg
  by_cases hl : l = m
  · subst hl
    cases hr : s.real l with
    | none => simp [lockCount, grant, hr]; grind
    | some p => simp [hr] at hg; simp [lockCount, grant, hr]; grind
  · simp [lockCount, grant, hl]

theorem lockCount_ungrant {s : State} {t m : Nat} (hk : s.lockCount t m ≠ 0) (u l : Nat) :
    (s.ungrant t m).lockCount u l + (if u = t ∧ l = m then 1 else 0) = s.lockCount u l := by
  by_cases hl : l = m
  · subst hl
    cases hr : s.real l with
    | none => simp [lockCount, hr] at hk
    | some p => simp [lockCount, hr] at hk; simp [lockCount, ungrant, hr]; grind
  · simp [lockCount, ungrant, hl]

theorem afterWalk_granted (m : Nat) (x : WalkStep) (l : Nat) :
    granted (afterWalk m .loadWaiting x) l = 0 ∧ granted (afterWalk m .loadOwner x) l = 0 ∧
    releasing (afterWalk m .loadWaiting x) l = 0 ∧ releasing (afterWalk m .loadOwner x) l = 0 := by
  cases x <;> exact ⟨rfl, rfl, rfl, rfl⟩

theorem count_step {c : Setup} {s s' : State} {t : Nat} {mv : Move} (I : HoldInv c s)
    (h : Step c s t mv s') :
    ∀ u l, (s'.held u).count l + granted (s'.thr u).pc l =
      s'.lockCount u l + releasing (s'.thr u).pc l := by
  intro u l
  have hc := I.count u l
  cases h with
  | granted m pc hg hpc =>
    have hl := lockCount_grant (s := s.drain t) hg u l
    grind [granted, releasing]
  | loadOwner m w h =>
    have := afterWalk_granted m (w.onOwner t (s.loadOwner t w.currentLockSlot)) l
    grind [granted, releasing]
  | loadWaiting m w h =>
    have := afterWalk_granted m (w.onWaiting (s.loadWaiting t w.lastThread)) l
    grind [granted, releasing]
  | topAcquired m h =>
    have := I.pcHeld t
    grind [granted, releasing, PcHeld, acquireTopLevel_held]
  | push m clear ts h hts =>
    have := count_acquire hts l
    cases clear <;> grind [granted, releasing, held]
  | ungrant m h =>
    have hm := I.pcHeld t
    have hct := I.count t m
    have hk : (s.drain t).lockCount t m ≠ 0 := by
      rw [h] at hm hct
      have : 0 < (s.held t).count m := List.count_pos_iff.mpr hm
      simp only [granted, releasing] at hct
      simp only [drain_lockCount]
      omega
    have hl := lockCount_ungrant hk u l
    grind [granted, releasing]
  | released m h =>
    have := count_release c.mode (s.thr t).tls m l
    have := I.pcHeld t
    grind [granted, releasing, PcHeld, held]
  | flush w ws h => exact hc
  | ends h =>
    have : ThreadState.initial.heldLockSlots = [] := rfl
    grind [granted, releasing]
  | _ => grind [granted, releasing]

theorem real_pos_step {c : Setup} {s s' : State} {t : Nat} {mv : Move} (I : HoldInv c s)
    (h : Step c s t mv s') :
    ∀ l u k, s'.real l = some (u, k) → 0 < k ∧ (c.recursive l = false → k = 1) := by
  intro l u k
  have hpos : ∀ u k, s.real l = some (u, k) → 0 < k ∧ (c.recursive l = false → k = 1) :=
    fun u k hr => ⟨I.pos l u k hr, fun hn => I.single l u k hn hr⟩
  cases h with
  | granted m pc hg hpc =>
    simp only [setPc_real]
    unfold State.grant State.grantable at *
    grind [State.lockCount]
  | ungrant m h =>
    simp only [setPc_real]
    unfold State.ungrant
    grind [State.lockCount]
  | flush w ws h => exact hpos u k
  | ends h =>
    simp only [setThread_real]
    unfold State.abandon
    grind
  | _ => grind

theorem gone_step {c : Setup} {s s' : State} {t : Nat} {mv : Move} (I : HoldInv c s)
    (h : Step c s t mv s') : ∀ l, s'.abandoned l = true → s'.real l = none := by
  intro l ha
  have hg := I.gone l
  cases h with
  | granted m pc hgr hpc =>
    have hm : l ≠ m := by
      rintro rfl
      have ha : s.abandoned l = true := ha
      simp [grantable, ha] at hgr
    simpa [State.grant, hm] using hg ha
  | ungrant m h =>
    have hp := I.pcHeld t
    rw [h] at hp
    have hk := I.holds hp (by simp [h, releasing])
    have hm : l ≠ m := by
      rintro rfl
      simp [lockCount, hg ha] at hk
    simpa [State.ungrant, hm] using hg ha
  | ends h =>
    have ha : s.abandoned l = true ∨ s.lockCount t l ≠ 0 :=
      (abandon_abandoned (s.drain t) t l).mp ha
    have hr : ((s.drain t).abandon t).real l =
        if s.lockCount t l = 0 then s.real l else none := rfl
    rw [setThread_real, hr]
    split
    · rename_i hk
      exact hg (ha.resolve_right fun hne => hne hk)
    · rfl
  | _ => simpa using hg (by simpa using ha)

theorem afterWalk_pcHeld (m : Nat) (x : WalkStep) (held : List Nat) :
    PcHeld held (afterWalk m .loadWaiting x) ∧ PcHeld held (afterWalk m .loadOwner x) := by
  cases x <;> exact ⟨trivial, trivial⟩

theorem pcHeld_step {c : Setup} {s s' : State} {t : Nat} {mv : Move} (I : HoldInv c s)
    (h : Step c s t mv s') :
    ∀ u, PcHeld (s'.held u) (s'.thr u).pc := by
  intro u
  have hp := I.pcHeld u
  cases h with
  | call pc h hpc =>
    have hct := fun l => I.count t l
    have hmem : ∀ m, s.lockCount t m ≠ 0 → m ∈ s.held t := by
      intro m hm
      have := hct m
      rw [h] at this
      simp only [granted, releasing] at this
      exact List.count_pos_iff.mp (by omega)
    grind [PcHeld]
  | loadOwner m w h =>
    have := afterWalk_pcHeld m (w.onOwner t (s.loadOwner t w.currentLockSlot)) (s.held u)
    grind
  | loadWaiting m w h =>
    have := afterWalk_pcHeld m (w.onWaiting (s.loadWaiting t w.lastThread)) (s.held u)
    grind
  | topAcquired m h => grind [PcHeld, acquireTopLevel_held]
  | push m clear ts h hts =>
    have := acquire_held hts
    cases clear <;> grind [PcHeld, held]
  | enter m top h => cases top <;> grind [PcHeld]
  | flush w ws h => exact hp
  | _ => grind [PcHeld]

theorem holdInv_step {c : Setup} {s s' : State} {t : Nat} {mv : Move} (I : HoldInv c s)
    (h : Step c s t mv s') :
    HoldInv c s' where
  count := count_step I h
  pos l u k hr := (real_pos_step I h l u k hr).1
  single l u k hn hr := (real_pos_step I h l u k hr).2 hn
  gone := gone_step I h
  pcHeld := pcHeld_step I h

theorem holdInv_initial (c : Setup) : HoldInv c initial where
  count _ _ := rfl
  pos _ _ _ h := by cases h
  single _ _ _ _ h := by cases h
  gone _ h := by cases h
  pcHeld _ := trivial

theorem holdInv {c : Setup} {G : State → Act → Prop} {s : State}
    (h : Runs.ReachableBy (system c) G s) : HoldInv c s :=
  h.invariant (holdInv_initial c) fun _ _ _ _ I _ hs => holdInv_step I (step_cases hs).2.2

theorem lockCount_unique {s : State} {t u l : Nat} (ht : s.lockCount t l ≠ 0)
    (hu : s.lockCount u l ≠ 0) : t = u := by
  unfold State.lockCount at ht hu
  cases hr : s.real l with
  | none => simp [hr] at ht
  | some p =>
    simp only [hr] at ht hu
    grind

/-! ## Recorded owners -/

/-- The owner of `l` is about to be stored or cleared by the thread. -/
def unsettled : Pc → Nat → Prop
  | .clearWait m, l | .storeOwner m, l | .released m, l => m = l
  | _, _ => False

/-- No thread unlocks a mutex that it has locked more than once. -/
def SingleUnlock (s : State) (a : Act) : Prop :=
  ∀ m, a.move = .unlock m → (s.held a.tid).count m ≤ 1

structure OwnerInv (s : State) : Prop where
  once : ∀ t m, (s.thr t).pc = .unlockCall m ∨ (s.thr t).pc = .released m →
    (s.held t).count m ≤ 1
  clean : ∀ t m, (s.thr t).pc = .released m → s.buf t = []
  bufOwner : ∀ t l v, .owner l v ∈ s.buf t → v = some t ∧ l ∈ s.held t
  settled : ∀ t l, l ∈ s.held t → ¬ unsettled (s.thr t).pc l → s.loadOwner t l = some t
  owned : ∀ t l, s.mem.owner l = some t → l ∈ s.held t ∨ s.abandoned l = true

theorem ownerInv_initial : OwnerInv initial where
  once _ _ _ := by simp [State.held, initial, ThreadState.initial]
  clean _ _ _ := rfl
  bufOwner _ _ _ h := by cases h
  settled _ _ h := by cases h
  owned _ _ h := by cases h

/-- The owner stores of a thread are for locks it really holds. -/
theorem OwnerInv.buf_holds {c : Setup} {s : State} (I : HoldInv c s) (O : OwnerInv s)
    {t l : Nat} {v : Option Nat} (h : .owner l v ∈ s.buf t) : s.lockCount t l ≠ 0 := by
  apply I.holds (O.bufOwner t l v h).2
  have := O.clean t
  unfold releasing
  grind

theorem OwnerInv.no_other_store {c : Setup} {s : State} (I : HoldInv c s) (O : OwnerInv s)
    {t u l : Nat} (hu : u ≠ t) (hl : l ∈ s.held u) (hr : releasing (s.thr u).pc l = 0) :
    ∀ v, .owner l v ∉ s.buf t :=
  fun _ hv => hu (lockCount_unique (I.holds hl hr) (O.buf_holds I hv))

theorem releasing_of_settled {pc : Pc} {l : Nat} (h : ¬ unsettled pc l) : releasing pc l = 0 := by
  cases pc <;> simp_all [unsettled, releasing]

/-- The store `t` is about to make to the owner of `l` is for a lock it holds. -/
theorem HoldInv.storing {c : Setup} {s : State} (I : HoldInv c s) {t m : Nat}
    (h : (s.thr t).pc = .storeOwner m ∨ (s.thr t).pc = .topAcquired m) : s.lockCount t m ≠ 0 := by
  rcases h with h | h
  · have := I.pcHeld t
    exact I.holds (by grind [PcHeld]) (by simp [h, releasing])
  · exact I.holds_granted (by simp [h, granted]) (by simp [h, releasing])

/-- Steps of `t` leave what another thread reads for its own locks. -/
theorem other_loadOwner {c : Setup} {s s' : State} {t u l : Nat} {mv : Move}
    (I : HoldInv c s) (O : OwnerInv s) (h : Step c s t mv s') (hu : u ≠ t) (hl : l ∈ s.held u)
    (hr : ¬ unsettled (s.thr u).pc l) : s'.loadOwner u l = s.loadOwner u l := by
  have hrel := releasing_of_settled hr
  have hno := O.no_other_store I hu hl hrel
  have hdrain : (s.drain t).loadOwner u l = s.loadOwner u l := drain_loadOwner_other hu hno
  have hwait : ∀ k v, (s.store c t (.waiting k v)).loadOwner u l = s.loadOwner u l :=
    fun k v => store_loadOwner_other hu (by simpa using hno)
  have hstore : ∀ m v, s.lockCount t m ≠ 0 →
      (s.store c t (.owner m v)).loadOwner u l = s.loadOwner u l := by
    intro m v hm
    have : l ≠ m := fun e => hu (lockCount_unique (I.holds hl hrel) (e ▸ hm))
    exact store_loadOwner_other hu (by simp [hno, this])
  cases h with
  | topAcquired m h => simpa using hstore m _ (I.storing (Or.inr h))
  | storeOwner m h => simpa using hstore m _ (I.storing (Or.inl h))
  | released m h =>
    have hs := O.settled u l hl hr
    rw [setThread_loadOwner, hs]
    exact casOwner_loadOwner_other hu (hdrain.trans hs)
  | flush w ws hb =>
    apply popStore_loadOwner_other hu
    rintro v rfl
    exact hno v (by simp [hb])
  | _ => simp [hdrain, hwait]

theorem step_thr_other {c : Setup} {s s' : State} {t u : Nat} {mv : Move}
    (h : Step c s t mv s') (hu : u ≠ t) :
    s'.thr u = s.thr u := by
  cases h with
  | topAcquired m h => simp [setThread_thr_other, hu]
  | push m clear ts h hts => simp [setThread_thr_other, hu]
  | released m h => simp [setThread_thr_other, hu]
  | ends h => simp [setThread_thr_other, hu]
  | exit code h => rfl
  | flush w ws h => rfl
  | _ => simp [setPc_thr_other, hu]

theorem step_held_other {c : Setup} {s s' : State} {t u : Nat} {mv : Move}
    (h : Step c s t mv s') (hu : u ≠ t) :
    s'.held u = s.held u := by
  simp only [State.held, step_thr_other h hu]

theorem step_buf_other {c : Setup} {s s' : State} {t u : Nat} {mv : Move}
    (h : Step c s t mv s') (hu : u ≠ t) :
    s'.buf u = s.buf u := by
  cases h <;> simp [store_buf_other, drain_buf, popStore_buf, hu]

/-- A hook reaches the real unlock and its end only through the call. -/
theorem step_unlocking {c : Setup} {s s' : State} {a : Act} {m : Nat}
    (hs : (system c).step s a = some s')
    (hp : (s'.thr a.tid).pc = .unlockCall m ∨ (s'.thr a.tid).pc = .released m) :
    (a.move = .unlock m ∨ (s.thr a.tid).pc = .unlockCall m ∨ (s.thr a.tid).pc = .released m) ∧
      s'.held a.tid = s.held a.tid := by
  obtain ⟨-, -, h⟩ := step_cases hs
  cases h with
  | loadOwner k w h =>
    cases hw : w.onOwner a.tid (s.loadOwner a.tid w.currentLockSlot) <;>
      simp [setPc_pc, hw, afterWalk] at hp
  | loadWaiting k w h =>
    cases hw : w.onWaiting (s.loadWaiting a.tid w.lastThread) <;>
      simp [setPc_pc, hw, afterWalk] at hp
  | push k clear ts h hts => cases clear <;> simp [setThread_pc] at hp
  | flush w ws h => exact ⟨Or.inr hp, rfl⟩
  | _ => grind

theorem once_step {c : Setup} {s s' : State} {a : Act} (O : OwnerInv s) (hg : SingleUnlock s a)
    (hs : (system c).step s a = some s') : ∀ u m,
    (s'.thr u).pc = .unlockCall m ∨ (s'.thr u).pc = .released m → (s'.held u).count m ≤ 1 := by
  intro u m hp
  have h := (step_cases hs).2.2
  by_cases hu : u = a.tid
  · subst hu
    obtain ⟨hm, hh⟩ := step_unlocking hs hp
    rw [hh]
    rcases hm with hm | hm
    · exact hg m hm
    · exact O.once _ m hm
  · rw [step_thr_other h hu] at hp
    rw [step_held_other h hu]
    exact O.once u m hp

/-- A lock held once is not held after its release; the others are as before. -/
theorem mem_of_mem_release {c : Setup} {s : State} {t m l : Nat} (hm : m ∈ s.held t)
    (hone : (s.held t).count m ≤ 1)
    (hl : l ∈ ((s.thr t).tls.release c.mode m).heldLockSlots) : l ∈ s.held t ∧ m ≠ l := by
  have hc := count_release c.mode (s.thr t).tls m l hm
  have hpos := List.count_pos_iff.mpr hl
  simp only [State.held] at hone ⊢
  constructor
  · rw [← List.count_pos_iff]
    omega
  · rintro rfl
    simp only [if_true] at hc
    omega

theorem settled_step {c : Setup} {s s' : State} {t : Nat} {mv : Move} (I : HoldInv c s)
    (O : OwnerInv s) (h : Step c s t mv s') : ∀ u l, l ∈ s'.held u → ¬ unsettled (s'.thr u).pc l →
      s'.loadOwner u l = some u := by
  intro u l hl hns
  by_cases hu : u = t
  · subst hu
    have hs := O.settled u l
    have hwait : ∀ k, (s.store c u (.waiting u k)).loadOwner u l = s.loadOwner u l := fun k => by
      simp [store_loadOwner_self, ownerIn]
    cases h with
    | topAcquired m h =>
      have : l = m := by simpa [setThread_held] using hl
      simp [store_loadOwner_self, ownerIn, this]
    | storeOwner m h =>
      simp only [setPc_loadOwner, store_loadOwner_self, ownerIn, List.foldl_cons, List.foldl_nil]
      split
      · rfl
      · rename_i hne
        exact hs (by simpa using hl) (by simpa [h, unsettled] using hne)
    | push m clear ts h hts =>
      have hh := acquire_held hts
      have hne : m ≠ l := by
        cases clear <;> simpa [setThread_pc, unsettled] using hns
      refine hs ?_ (by simp [h, unsettled])
      rw [setThread_held, if_pos rfl, hh, List.mem_append, List.mem_singleton] at hl
      exact hl.resolve_right (Ne.symm hne)
    | released m h =>
      have hm : m ∈ s.held u := by
        have := I.pcHeld u
        rwa [h] at this
      obtain ⟨hlu, hne⟩ := mem_of_mem_release hm (O.once u m (Or.inr h))
        (show l ∈ ((s.thr u).tls.release c.mode m).heldLockSlots by simpa [setThread_held] using hl)
      have hb : s.buf u = [] := O.clean u m h
      have := hs hlu (by simpa [h, unsettled] using hne)
      rw [loadOwner_of_nil hb] at this
      rw [setThread_loadOwner, loadOwner_of_nil (by simp [drain_buf]), casOwner_owner,
        if_neg (fun h => hne h.1.symm), drain_owner, loadOwner_of_nil hb, this]
    | flush w ws hb =>
      rw [popStore_loadOwner_self hb]
      exact hs hl hns
    | ends h =>
      rw [setThread_held, if_pos rfl] at hl
      cases hl
    | call pc h hpc => exact hs (by simpa using hl) (by simp [h, unsettled])
    | exit code h => exact hs hl hns
    | publish m h => simpa [hwait] using hs (by simpa using hl) (by simp [h, unsettled])
    | cancelWait m h => simpa [hwait] using hs (by simpa using hl) (by simp [h, unsettled])
    | clearWait m h =>
      have hne : ¬ m = l := by simpa [setPc_pc, unsettled] using hns
      simpa [hwait] using hs (by simpa using hl) (by simpa [h, unsettled] using hne)
    | loadOwner m w h => exact hs (by simpa using hl) (by simp [h, unsettled])
    | loadWaiting m w h => exact hs (by simpa using hl) (by simp [h, unsettled])
    | _ =>
      have hold : ¬ unsettled (s.thr u).pc l := by grind [unsettled]
      simpa [drain_loadOwner_self] using hs (by simpa using hl) hold
  · rw [step_held_other h hu] at hl
    rw [step_thr_other h hu] at hns
    rw [other_loadOwner I O h hu hl hns]
    exact O.settled u l hl hns

theorem clean_step {c : Setup} {s s' : State} {t : Nat} {mv : Move} (O : OwnerInv s)
    (h : Step c s t mv s') : ∀ u m, (s'.thr u).pc = .released m → s'.buf u = [] := by
  intro u m hp
  by_cases hu : u = t
  · subst hu
    have hc := O.clean u m
    cases h with
    | loadOwner k w h =>
      cases hw : w.onOwner u (s.loadOwner u w.currentLockSlot) <;> grind [afterWalk]
    | loadWaiting k w h =>
      cases hw : w.onWaiting (s.loadWaiting u w.lastThread) <;> grind [afterWalk]
    | push k clear ts h hts => cases clear <;> grind
    | _ => grind
  · rw [step_buf_other h hu]
    rw [step_thr_other h hu] at hp
    exact O.clean u m hp

theorem bufOwner_step {c : Setup} {s s' : State} {t : Nat} {mv : Move} (I : HoldInv c s)
    (O : OwnerInv s) (h : Step c s t mv s') :
    ∀ u l v, .owner l v ∈ s'.buf u → v = some u ∧ l ∈ s'.held u := by
  intro u l v hv
  by_cases hu : u = t
  · subst hu
    have hb := O.bufOwner u l v
    have hp := I.pcHeld u
    have hwait : ∀ k, .owner l v ∈ (s.store c u (.waiting u k)).buf u →
        v = some u ∧ l ∈ s.held u := by
      intro k hv
      rcases store_buf_mem hv with hv | ⟨-, hv⟩
      · exact hb hv
      · cases hv
    cases h with
    | publish m h => simpa using hwait _ (by simpa using hv)
    | cancelWait m h => simpa using hwait _ (by simpa using hv)
    | clearWait m h => simpa using hwait _ (by simpa using hv)
    | storeOwner m h =>
      rcases store_buf_mem (by simpa using hv) with hv | ⟨-, hv⟩
      · simpa using hb hv
      · cases hv
        simpa [h, PcHeld] using hp
    | topAcquired m h =>
      rw [h] at hp
      rcases store_buf_mem (by simpa using hv) with hv | ⟨-, hv⟩
      · exact absurd (hb hv).2 (by simp [show s.held u = [] from hp])
      · cases hv
        simp [setThread_held]
    | push m clear ts h hts =>
      have hh := acquire_held hts
      obtain ⟨rfl, hl⟩ := hb (by simpa using hv)
      refine ⟨rfl, ?_⟩
      rw [setThread_held, if_pos rfl, hh]
      exact List.mem_append_left _ hl
    | released m h => simp [drain_buf] at hv
    | flush w ws h =>
      simp only [popStore_buf, if_true] at hv
      simpa using hb (by simp [h, hv])
    | exit code h => exact hb hv
    | _ => grind
  · rw [step_buf_other h hu] at hv
    rw [step_held_other h hu]
    exact O.bufOwner u l v hv

/-- Where the owner that a step leaves in memory comes from. -/
theorem owner_step {c : Setup} {s s' : State} {t : Nat} {mv : Move} (h : Step c s t mv s')
    (l : Nat) : s'.mem.owner l = s.mem.owner l ∨ .owner l (s'.mem.owner l) ∈ s.buf t ∨
      (((s.thr t).pc = .storeOwner l ∨ (s.thr t).pc = .topAcquired l) ∧
        s'.mem.owner l = some t) ∨
      ((s.thr t).pc = .released l ∧ s'.mem.owner l = none) := by
  have hd := drain_owner_or s t l
  have hst := fun w => store_owner_or c s t l w
  have hwait : ∀ v, (s.store c t (.waiting t v)).mem.owner l = s.mem.owner l ∨
      .owner l ((s.store c t (.waiting t v)).mem.owner l) ∈ s.buf t := fun v => by
    simpa using hst (.waiting t v)
  have howner : ∀ m, (s.store c t (.owner m (some t))).mem.owner l = s.mem.owner l ∨
      .owner l ((s.store c t (.owner m (some t))).mem.owner l) ∈ s.buf t ∨
      l = m ∧ (s.store c t (.owner m (some t))).mem.owner l = some t := fun m => by
    simpa using hst (.owner m (some t))
  cases h with
  | publish m h => exact (hwait _).imp id Or.inl
  | cancelWait m h => exact (hwait _).imp id Or.inl
  | clearWait m h => exact (hwait _).imp id Or.inl
  | storeOwner m h =>
    rcases howner m with hs | hs | ⟨rfl, hs⟩
    · exact Or.inl hs
    · exact Or.inr (Or.inl hs)
    · exact Or.inr (Or.inr (Or.inl ⟨Or.inl h, hs⟩))
  | topAcquired m h =>
    rcases howner m with hs | hs | ⟨rfl, hs⟩
    · exact Or.inl hs
    · exact Or.inr (Or.inl hs)
    · exact Or.inr (Or.inr (Or.inl ⟨Or.inr h, hs⟩))
  | released m h =>
    simp only [setThread_mem, casOwner_owner]
    split
    · rename_i hm
      exact Or.inr (Or.inr (Or.inr ⟨hm.1 ▸ h, rfl⟩))
    · rcases hd with hd | hd
      · exact Or.inl hd
      · exact Or.inr (Or.inl hd)
  | flush w ws h =>
    rcases popStore_owner_or (s := s) (t := t) (w := w) (l := l) ws with hp | hp
    · exact Or.inl hp
    · exact Or.inr (Or.inl (by rw [hp, h]; exact List.mem_cons_self))
  | exit code h => exact Or.inl rfl
  | call pc h hpc => exact Or.inl rfl
  | push m clear ts h hts => exact Or.inl rfl
  | loadOwner m w h => exact Or.inl rfl
  | loadWaiting m w h => exact Or.inl rfl
  | _ => grind

/-- Only the end of an unlock and the end of the thread take a lock off the held stack. -/
theorem mem_held_step {c : Setup} {s s' : State} {t l : Nat} {mv : Move} (I : HoldInv c s)
    (h : Step c s t mv s') (hl : l ∈ s.held t) :
    (l ∈ s'.held t ∨ s'.abandoned l = true) ∨ (s.thr t).pc = .released l := by
  have hp := I.pcHeld t
  cases h with
  | topAcquired m h =>
    rw [h] at hp
    simp [show s.held t = [] from hp] at hl
  | push m clear ts h hts =>
    left; left
    rw [setThread_held, if_pos rfl, acquire_held hts]
    exact List.mem_append_left _ hl
  | released m h =>
    rw [h] at hp
    have hc := count_release c.mode (s.thr t).tls m l hp
    by_cases hm : m = l
    · exact Or.inr (hm ▸ h)
    · left; left
      rw [setThread_held, if_pos rfl]
      have : 0 < (s.held t).count l := List.count_pos_iff.mpr hl
      simp only [State.held] at this
      rw [if_neg hm] at hc
      rw [← List.count_pos_iff]
      omega
  | ends h =>
    have hk := I.holds hl (by simp [h, releasing])
    exact Or.inl (Or.inr ((abandon_abandoned (s.drain t) t l).mpr (Or.inr hk)))
  | exit code h => exact Or.inl (Or.inl hl)
  | flush w ws h => exact Or.inl (Or.inl hl)
  | _ => left; left; simpa using hl

theorem abandoned_mono {c : Setup} {s s' : State} {t l : Nat} {mv : Move} (h : Step c s t mv s')
    (ha : s.abandoned l = true) : s'.abandoned l = true := by
  cases h with
  | ends h => exact (abandon_abandoned (s.drain t) t l).mpr (Or.inl ha)
  | _ => simpa using ha

/-- After the compare-exchange the releasing thread owns the lock no more. -/
theorem owner_released {c : Setup} {s s' : State} {t l : Nat} {mv : Move} (O : OwnerInv s)
    (h : Step c s t mv s') (hp : (s.thr t).pc = .released l) : s'.mem.owner l ≠ some t := by
  intro hs
  have hb := O.clean t l hp
  cases h with
  | released m h =>
    obtain rfl : m = l := by simpa [h] using hp
    rw [setThread_mem, casOwner_owner] at hs
    split at hs
    · cases hs
    · rename_i hn
      exact hn ⟨rfl, hs⟩
  | flush w ws h => simp [hb] at h
  | _ => grind

theorem owned_step {c : Setup} {s s' : State} {t : Nat} {mv : Move} (I : HoldInv c s)
    (O : OwnerInv s) (h : Step c s t mv s') :
    ∀ u l, s'.mem.owner l = some u → l ∈ s'.held u ∨ s'.abandoned l = true := by
  intro u l ho
  by_cases hu : u = t
  · subst hu
    have hin : l ∈ s.held u → l ∈ s'.held u ∨ s'.abandoned l = true := fun hl =>
      (mem_held_step I h hl).resolve_right fun hp => owner_released O h hp ho
    have hold : s.mem.owner l = some u → l ∈ s'.held u ∨ s'.abandoned l = true := fun hs =>
      (O.owned u l hs).elim hin fun ha => Or.inr (abandoned_mono h ha)
    have hp := I.pcHeld u
    rcases owner_step h l with hs | hs | ⟨hs | hs, -⟩ | ⟨-, hs⟩
    · exact hold (hs ▸ ho)
    · exact hin (O.bufOwner u l _ hs).2
    · rw [hs] at hp
      exact hin hp
    · cases h with
      | topAcquired m h =>
        obtain rfl : m = l := by simpa [h] using hs
        simp [setThread_held]
      | flush w ws hb =>
        rcases popStore_owner_or (s := s) (t := u) (w := w) (l := l) ws with hq | hq
        · exact hold (hq ▸ ho)
        · exact hin (O.bufOwner u l _ (by rw [hq, hb]; exact List.mem_cons_self)).2
      | _ => grind
    · rw [hs] at ho
      cases ho
  · rw [step_held_other h hu]
    rcases owner_step h l with hs | hs | ⟨-, hs⟩ | ⟨-, hs⟩
    · exact (O.owned u l (hs ▸ ho)).imp_right (abandoned_mono h)
    · have := (O.bufOwner t l _ hs).1
      rw [this] at ho
      exact absurd (Option.some.inj ho).symm hu
    · rw [hs] at ho
      exact absurd (Option.some.inj ho).symm hu
    · rw [hs] at ho
      cases ho

theorem ownerInv_step {c : Setup} {s s' : State} {a : Act} (I : HoldInv c s) (O : OwnerInv s)
    (hg : SingleUnlock s a) (hs : (system c).step s a = some s') : OwnerInv s' :=
  have h := (step_cases hs).2.2
  { once := fun u m => once_step O hg hs u m
    clean := clean_step O h
    bufOwner := bufOwner_step I O h
    settled := settled_step I O h
    owned := owned_step I O h }

/-- **Recorded owners, over all runs** in which no thread unlocks a mutex it
holds twice. -/
theorem ownerInv {c : Setup} {s : State} (h : Runs.ReachableBy (system c) SingleUnlock s) :
    OwnerInv s :=
  h.invariant ownerInv_initial fun _ _ _ hr O hg hs => ownerInv_step (holdInv hr) O hg hs

/-! ## Ends of threads -/

/-- No thread ends while it holds a mutex. -/
def EndsFree (s : State) (a : Act) : Prop := a.move = .ends → s.held a.tid = []

/-- Outside the hooks an empty held stack means that the thread holds no mutex. -/
theorem HoldInv.held_nil_iff {c : Setup} {s : State} {t : Nat} (I : HoldInv c s)
    (h : (s.thr t).pc = .outside) : s.held t = [] ↔ ∀ m, s.lockCount t m = 0 := by
  have hc : ∀ m, (s.held t).count m = s.lockCount t m := by
    intro m
    have := I.count t m
    rwa [h] at this
  constructor
  · intro hnil m
    rw [← hc m, hnil]
    rfl
  · intro hz
    refine List.eq_nil_iff_forall_not_mem.mpr fun m hm => ?_
    have : 0 < (s.held t).count m := List.count_pos_iff.mpr hm
    rw [hc m, hz m] at this
    omega

theorem none_abandoned {c : Setup} {s : State} (h : Runs.ReachableBy (system c) EndsFree s) :
    ∀ l, s.abandoned l = false := by
  refine h.invariant (P := fun s => ∀ l, s.abandoned l = false) (fun _ => rfl) ?_
  intro s s' a hr hnone hg hs l
  cases (step_cases hs).2.2 with
  | ends hp hmv =>
    have hz := ((holdInv hr).held_nil_iff hp).mp (hg hmv) l
    simp [State.abandon, hnone l, hz]
  | _ => simpa using hnone l

/-! ## Normal mutexes -/

/-- A normal mutex is locked at most once. -/
theorem HoldInv.lockCount_le_one {c : Setup} {s : State} (I : HoldInv c s)
    (hn : ∀ m, c.recursive m = false) (t m : Nat) : s.lockCount t m ≤ 1 := by
  unfold State.lockCount
  split
  · omega
  · rename_i u k hr
    have := I.single m u k (hn m) hr
    split <;> omega

/-- Where all mutexes are normal, every unlock is of a mutex held once. -/
theorem singleUnlock_of_normal {c : Setup} {s s' : State} {a : Act}
    (hn : ∀ m, c.recursive m = false) (I : HoldInv c s) (hs : (system c).step s a = some s') :
    SingleUnlock s a := by
  intro m hm
  have hc := I.count a.tid m
  have hone := I.lockCount_le_one hn a.tid m
  change step c s a = some s' at hs
  unfold step at hs
  split at hs
  · cases hs
  · simp only [hm] at hs
    split at hs
    · cases hs
    · obtain ⟨hp, -⟩ := callStep_cases hs
      rw [hp] at hc
      simp only [granted, releasing] at hc
      omega

theorem singleUnlock_run {c : Setup} {G : State → Act → Prop} {s : State}
    (hn : ∀ m, c.recursive m = false) (h : Runs.ReachableBy (system c) G s) :
    Runs.ReachableBy (system c) SingleUnlock s := by
  induction h with
  | init => exact .init
  | step hr _ hs ih => exact .step ih (singleUnlock_of_normal hn (holdInv hr) hs) hs

end ScaleLockDep.Hooks
