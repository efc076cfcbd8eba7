import ScaleLockDep.HookInvariants

/-!
# Published waits

What memory and the store buffers say about the waits of the threads.

* `WaitInv`: the wait a thread reads for itself is the mutex of its nested lock
  call, and only the thread itself stores it;
* `sc_buf`: without buffering every store is visible at once;
* `BufInv`: with buffering, when each wait has left its buffer before the first
  load of the walk, nothing stays buffered during the rest of the walk and the
  blocking call.
-/

namespace ScaleLockDep.Hooks

open ThreadState State

/-! ## Stores that become visible in one step -/

theorem store_mem (c : Setup) (s : State) (t : Nat) (w : Write) :
    ∃ ws, (s.store c t w).mem = s.mem.applyAll ws ∧ ∀ x ∈ ws, x ∈ s.buf t ∨ x = w := by
  unfold store
  split
  · exact ⟨s.buf t ++ [w], by simp [drain], by simp⟩
  · exact ⟨[], rfl, by simp⟩

theorem casOwner_mem (s : State) (t m : Nat) :
    ∃ ws, (s.casOwner t m).mem = s.mem.applyAll ws ∧ ∀ x ∈ ws, x = .owner m none := by
  unfold casOwner
  split
  · exact ⟨[.owner m none], rfl, by simp⟩
  · exact ⟨[], rfl, by simp⟩

/-- **What one step makes visible**: buffered stores of the thread and at most
one new store. -/
theorem mem_step {c : Setup} {s s' : State} {t : Nat} {mv : Move} (h : Step c s t mv s') :
    ∃ ws, s'.mem = s.mem.applyAll ws ∧ ∀ w ∈ ws, w ∈ s.buf t ∨
      (∃ m, (s.thr t).pc = .publish m ∧ w = .waiting t (some m)) ∨ w = .waiting t none ∨
      ∃ l v, w = .owner l v := by
  cases h with
  | publish m h =>
    obtain ⟨ws, hm, hw⟩ := store_mem c s t (.waiting t (some m))
    exact ⟨ws, hm, fun w hx => (hw w hx).imp id fun e => Or.inl ⟨m, h, e⟩⟩
  | cancelWait m h =>
    obtain ⟨ws, hm, hw⟩ := store_mem c s t (.waiting t none)
    exact ⟨ws, hm, fun w hx => (hw w hx).imp id fun e => Or.inr (Or.inl e)⟩
  | clearWait m h =>
    obtain ⟨ws, hm, hw⟩ := store_mem c s t (.waiting t none)
    exact ⟨ws, hm, fun w hx => (hw w hx).imp id fun e => Or.inr (Or.inl e)⟩
  | storeOwner m h =>
    obtain ⟨ws, hm, hw⟩ := store_mem c s t (.owner m (some t))
    exact ⟨ws, hm, fun w hx => (hw w hx).imp id fun e => Or.inr (Or.inr ⟨_, _, e⟩)⟩
  | topAcquired m h =>
    obtain ⟨ws, hm, hw⟩ := store_mem c s t (.owner m (some t))
    exact ⟨ws, hm, fun w hx => (hw w hx).imp id fun e => Or.inr (Or.inr ⟨_, _, e⟩)⟩
  | released m h =>
    obtain ⟨ws, hm, hw⟩ := casOwner_mem (s.drain t) t m
    refine ⟨s.buf t ++ ws, ?_, fun w hx => ?_⟩
    · rw [setThread_mem, hm, Memory.applyAll, Memory.applyAll, List.foldl_append]
      rfl
    · rcases List.mem_append.mp hx with hx | hx
      · exact Or.inl hx
      · exact Or.inr (Or.inr (Or.inr ⟨_, _, hw w hx⟩))
  | flush w ws h =>
    refine ⟨[w], rfl, fun x hx => ?_⟩
    rw [List.mem_singleton.mp hx, h]
    exact Or.inl List.mem_cons_self
  | granted m pc hg hpc => exact ⟨s.buf t, rfl, fun w => Or.inl⟩
  | busy m hg pc hpc => exact ⟨s.buf t, rfl, fun w => Or.inl⟩
  | fail m pc hpc => exact ⟨s.buf t, rfl, fun w => Or.inl⟩
  | enter m top h => exact ⟨s.buf t, rfl, fun w => Or.inl⟩
  | ungrant m h => exact ⟨s.buf t, rfl, fun w => Or.inl⟩
  | ends h => exact ⟨s.buf t, rfl, fun w => Or.inl⟩
  | _ => exact ⟨[], rfl, by simp⟩

theorem applyAll_other (m : Memory) {ws : List Write} {u : Nat} (h : ∀ v, .waiting u v ∉ ws) :
    (m.applyAll ws).waiting u = m.waiting u ∧ (m.applyAll ws).pubAt u = m.pubAt u := by
  induction ws generalizing m with
  | nil => exact ⟨rfl, rfl⟩
  | cons w ws ih =>
    have hw : (m.apply w).waiting u = m.waiting u ∧ (m.apply w).pubAt u = m.pubAt u := by
      rcases w with _ | ⟨k, _ | l⟩
      · exact ⟨rfl, rfl⟩
      · have : u ≠ k := fun e => h none (by simp [e])
        simp [Memory.apply, this]
      · have : u ≠ k := fun e => h (some l) (by simp [e])
        simp [Memory.apply, this]
    have := ih (m.apply w) (fun v hv => h v (List.mem_cons_of_mem _ hv))
    exact ⟨this.1.trans hw.1, this.2.trans hw.2⟩

theorem applyAll_pubAt_lt (m : Memory) (ws : List Write) (h : ∀ u, m.pubAt u < m.clock) (u : Nat) :
    (m.applyAll ws).pubAt u < (m.applyAll ws).clock := by
  induction ws generalizing m with
  | nil => exact h u
  | cons w ws ih =>
    refine ih (m.apply w) fun v => ?_
    rcases w with _ | ⟨k, _ | l⟩
    · exact h v
    · exact h v
    · have := h v
      simp only [Memory.apply, Function.update_apply]
      split <;> omega

/-! ## Waits -/

/-- The mutex whose wait is stored and not yet cleared. -/
def awaiting : Pc → Option Nat
  | .loadOwner m _ | .loadWaiting m _ | .reported m _ | .callLock m false | .blocked m false
  | .acquired m true | .cancelWait m | .clearWait m => some m
  | _ => none

structure WaitInv (s : State) : Prop where
  self : ∀ t, s.loadWaiting t t = awaiting (s.thr t).pc
  bufWaiting : ∀ t u v, .waiting u v ∈ s.buf t → u = t
  pubAt : ∀ t, s.mem.pubAt t < s.mem.clock
  bounded : ∀ t, (s.thr t).pc ≠ .outside → t < maxThreadSlots

theorem afterWalk_awaiting (m : Nat) (x : WalkStep) :
    awaiting (afterWalk m .loadWaiting x) = some m ∧ awaiting (afterWalk m .loadOwner x) = some m := by
  cases x <;> exact ⟨rfl, rfl⟩

/-- The stores of `t` that become visible leave the waits of the others. -/
theorem WaitInv.mem_other {c : Setup} {s s' : State} {t u : Nat} {mv : Move} (W : WaitInv s)
    (h : Step c s t mv s') (hu : u ≠ t) :
    s'.mem.waiting u = s.mem.waiting u ∧ s'.mem.pubAt u = s.mem.pubAt u := by
  obtain ⟨ws, hm, hw⟩ := mem_step h
  rw [hm]
  apply applyAll_other
  intro v hv
  rcases hw _ hv with hv | ⟨m, -, hv⟩ | hv | ⟨l, x, hv⟩
  · exact hu (W.bufWaiting t u v hv)
  · cases hv
    exact hu rfl
  · cases hv
    exact hu rfl
  · cases hv

theorem bufWaiting_step {c : Setup} {s s' : State} {t : Nat} {mv : Move} (W : WaitInv s)
    (h : Step c s t mv s') : ∀ u k v, .waiting k v ∈ s'.buf u → k = u := by
  intro u k v hv
  by_cases hu : u = t
  · subst hu
    have hb := W.bufWaiting u k v
    have hstore : ∀ w, .waiting k v ∈ (s.store c u w).buf u → k = u ∨ w = .waiting k v := by
      intro w hw
      rcases store_buf_mem hw with hw | ⟨-, hw⟩
      · exact Or.inl (hb hw)
      · exact Or.inr hw.symm
    cases h with
    | flush w ws h =>
      simp only [popStore_buf, if_true] at hv
      exact hb (by simp [h, hv])
    | exit code h => exact hb hv
    | _ => grind
  · rw [step_buf_other h hu] at hv
    exact W.bufWaiting u k v hv

theorem wait_self_step {c : Setup} {s s' : State} {t : Nat} {mv : Move} (W : WaitInv s)
    (h : Step c s t mv s') : s'.loadWaiting t t = awaiting (s'.thr t).pc := by
  have hs := W.self t
  cases h with
  | loadOwner m w h =>
    rw [setPc_loadWaiting, hs, h, setPc_pc, if_pos rfl]
    exact (afterWalk_awaiting m _).1.symm
  | loadWaiting m w h =>
    rw [setPc_loadWaiting, hs, h, setPc_pc, if_pos rfl]
    exact (afterWalk_awaiting m _).2.symm
  | publish m h => simp [store_loadWaiting_self, waitingIn, setPc_pc, awaiting]
  | cancelWait m h => simp [store_loadWaiting_self, waitingIn, setPc_pc, awaiting]
  | clearWait m h => simp [store_loadWaiting_self, waitingIn, setPc_pc, awaiting]
  | storeOwner m h =>
    rw [h] at hs
    simpa [store_loadWaiting_self, waitingIn, setPc_pc, awaiting] using hs
  | topAcquired m h =>
    rw [h] at hs
    simpa [store_loadWaiting_self, waitingIn, setThread_pc, awaiting] using hs
  | push m clear ts h hts =>
    rw [h] at hs
    cases clear <;> simpa [setThread_pc, awaiting] using hs
  | released m h =>
    rw [h] at hs
    have hw : ((s.drain t).casOwner t m).loadWaiting t t = s.loadWaiting t t := by
      rw [loadWaiting_of_nil (by simp [drain_buf]), casOwner_waiting, drain_waiting]
    simpa [setThread_pc, hw, awaiting] using hs
  | flush w ws hb => simpa [popStore_loadWaiting_self hb] using hs
  | exit code h => exact hs
  | enter m top h =>
    rw [h] at hs
    cases top <;> simpa [drain_loadWaiting_self, setPc_pc, awaiting] using hs
  | call pc h hpc =>
    rw [h] at hs
    rcases hpc with ⟨m, -, rfl, -⟩ | ⟨m, -, rfl, -⟩ | ⟨m, -, rfl⟩ | ⟨m, -, rfl, -⟩ <;>
      simpa [setPc_pc, awaiting] using hs
  | granted m pc hg hpc =>
    rcases hpc with ⟨h, rfl⟩ | ⟨h, rfl⟩ | ⟨h, rfl⟩ | ⟨h, -, rfl⟩ | ⟨h, -, rfl⟩ <;> rw [h] at hs <;>
      simpa [drain_loadWaiting_self, setPc_pc, awaiting] using hs
  | busy m hg pc hpc =>
    rcases hpc with ⟨h, rfl⟩ | ⟨h, rfl⟩ <;> rw [h] at hs <;>
      simpa [drain_loadWaiting_self, setPc_pc, awaiting] using hs
  | fail m pc hpc =>
    rcases hpc with ⟨h, rfl⟩ | ⟨h, rfl⟩ | ⟨h, rfl⟩ | ⟨h, rfl⟩ | ⟨h, rfl⟩ <;> rw [h] at hs <;>
      simpa [drain_loadWaiting_self, setPc_pc, awaiting] using hs
  | ungrant m h =>
    rw [h] at hs
    simpa [drain_loadWaiting_self, setPc_pc, awaiting] using hs
  | ends h =>
    rw [h] at hs
    simpa [drain_loadWaiting_self, setThread_pc, awaiting] using hs

theorem waitInv_initial : WaitInv initial where
  self _ := rfl
  bufWaiting _ _ _ h := by cases h
  pubAt _ := Nat.zero_lt_one
  bounded _ h := absurd rfl h

theorem waitInv_step {c : Setup} {s s' : State} {t : Nat} {mv : Move} (W : WaitInv s)
    (ht : t < maxThreadSlots) (h : Step c s t mv s') : WaitInv s' where
  self u := by
    by_cases hu : u = t
    · exact hu ▸ wait_self_step W h
    · rw [loadWaiting, step_buf_other h hu, (W.mem_other h hu).1, step_thr_other h hu]
      exact W.self u
  bufWaiting := bufWaiting_step W h
  pubAt u := by
    obtain ⟨ws, hm, -⟩ := mem_step h
    rw [hm]
    exact applyAll_pubAt_lt _ _ W.pubAt u
  bounded u hp := by
    by_cases hu : u = t
    · exact hu ▸ ht
    · exact W.bounded u (by rwa [step_thr_other h hu] at hp)

theorem waitInv {c : Setup} {G : State → Act → Prop} {s : State}
    (h : Runs.ReachableBy (system c) G s) : WaitInv s :=
  h.invariant waitInv_initial fun _ _ _ _ W _ hs =>
    waitInv_step W (step_cases hs).2.1 (step_cases hs).2.2

/-! ## Store buffers -/

/-- Without buffering nothing is ever buffered. -/
theorem sc_buf {c : Setup} {G : State → Act → Prop} {s : State} (hsc : c.memory = .sc)
    (h : Runs.ReachableBy (system c) G s) : ∀ t, s.buf t = [] := by
  refine h.invariant (P := fun s => ∀ t, s.buf t = []) (fun _ => rfl) ?_
  intro s s' a _ hb _ hs t
  have h := (step_cases hs).2.2
  by_cases ht : t = a.tid
  · subst ht
    have := hb a.tid
    cases h with
    | publish m h => simp [store_buf_sc hsc]
    | cancelWait m h => simp [store_buf_sc hsc]
    | clearWait m h => simp [store_buf_sc hsc]
    | storeOwner m h => simp [store_buf_sc hsc]
    | topAcquired m h => simp [store_buf_sc hsc]
    | exit code h => exact this
    | _ => grind
  · rw [step_buf_other h ht]
    exact hb t

/-- The wait of a thread has become visible when its walk makes its first load. -/
def FlushedBeforeWalk (s : State) (a : Act) : Prop :=
  ∀ m w, a.move = .run → (s.thr a.tid).pc = .loadOwner m w → w.lockChain = [] → s.buf a.tid = []

/-- Program points at which nothing is buffered. -/
def Quiet : Pc → Prop
  | .publish _ | .loadWaiting _ _ | .reported _ _ | .callLock _ false | .blocked _ _
  | .acquired _ _ | .topAcquired _ | .released _ | .cancelWait _ | .clearWait _ => True
  | .loadOwner _ w => w.lockChain ≠ []
  | _ => False

structure BufInv (s : State) : Prop where
  quiet : ∀ t, Quiet (s.thr t).pc → s.buf t = []
  start : ∀ t m w, (s.thr t).pc = .loadOwner m w → w.lockChain = [] →
    w = Walk.start t m ∧ (s.buf t = [] ∨ s.buf t = [.waiting t (some m)])
  walking : ∀ t m w, (s.thr t).pc = .loadWaiting m w → w.lockChain ≠ []

theorem bufInv_initial : BufInv initial where
  quiet _ _ := rfl
  start _ _ _ h := by cases h
  walking _ _ _ h := by cases h

theorem store_buf_self {c : Setup} {s : State} {t : Nat} {w : Write} (hb : s.buf t = []) :
    (s.store c t w).buf t = [] ∨ (s.store c t w).buf t = [w] := by
  unfold store
  split
  · simp [drain_buf]
  · simp [hb]

theorem bufInv_self {c : Setup} {s s' : State} {a : Act} (B : BufInv s)
    (hg : FlushedBeforeWalk s a) (h : Step c s a.tid a.move s') :
    (Quiet (s'.thr a.tid).pc → s'.buf a.tid = []) ∧
    (∀ m w, (s'.thr a.tid).pc = .loadOwner m w → w.lockChain = [] →
      w = Walk.start a.tid m ∧ (s'.buf a.tid = [] ∨ s'.buf a.tid = [.waiting a.tid (some m)])) ∧
    ∀ m w, (s'.thr a.tid).pc = .loadWaiting m w → w.lockChain ≠ [] := by
  have hq := B.quiet a.tid
  cases h with
  | publish m h =>
    refine ⟨fun hp => ?_, fun m' w hp hw => ?_, fun m' w hp => ?_⟩
    · simp [setPc_pc, Quiet, Walk.start] at hp
    · simp only [setPc_pc, if_true, Pc.loadOwner.injEq] at hp
      obtain ⟨rfl, rfl⟩ := hp
      exact ⟨rfl, store_buf_self (hq (by simp [h, Quiet]))⟩
    · simp [setPc_pc] at hp
  | loadOwner m w h hmv =>
    have hb : s.buf a.tid = [] := by
      by_cases hw : w.lockChain = []
      · exact hg m w hmv h hw
      · exact hq (by simpa [h, Quiet] using hw)
    refine ⟨fun _ => hb, fun m' w' hp => ?_, fun m' w' hp => ?_⟩
    · simp only [setPc_pc, if_true] at hp
      cases hx : w.onOwner a.tid (s.loadOwner a.tid w.currentLockSlot) <;> simp [hx, afterWalk] at hp
    · simp only [setPc_pc, if_true] at hp
      cases ho : s.loadOwner a.tid w.currentLockSlot with
      | none => simp [ho, Walk.onOwner, afterWalk] at hp
      | some u =>
        simp only [ho, Walk.onOwner] at hp
        split at hp
        · cases hp
        · simp only [afterWalk, Pc.loadWaiting.injEq] at hp
          simp [← hp.2]
  | loadWaiting m w h =>
    have hb : s.buf a.tid = [] := hq (by simp [h, Quiet])
    have hne := B.walking a.tid m w h
    refine ⟨fun _ => hb, fun m' w' hp hw => ?_, fun m' w' hp => ?_⟩
    · simp only [setPc_pc, if_true] at hp
      cases ho : s.loadWaiting a.tid w.lastThread with
      | none => simp [ho, Walk.onWaiting, afterWalk] at hp
      | some l =>
        simp only [ho, Walk.onWaiting] at hp
        split at hp
        · simp only [afterWalk, Pc.loadOwner.injEq] at hp
          rw [← hp.2] at hw
          exact absurd hw hne
        · cases hp
    · simp only [setPc_pc, if_true] at hp
      cases hx : w.onWaiting (s.loadWaiting a.tid w.lastThread) <;> simp [hx, afterWalk] at hp
  | flush w ws hb =>
    refine ⟨fun hp => ?_, fun m w' hp hw => ?_, fun m w' hp => B.walking a.tid m w' hp⟩
    · simp [hq hp] at hb
    · obtain ⟨rfl, hbuf | hbuf⟩ := B.start a.tid m w' hp hw
      · simp [hbuf] at hb
      · rw [hbuf] at hb
        cases hb
        exact ⟨rfl, Or.inl (by simp [popStore_buf])⟩
  | exit code h => exact ⟨hq, B.start a.tid, B.walking a.tid⟩
  | push m clear ts h hts =>
    refine ⟨fun hp => ?_, fun m' w hp => ?_, fun m' w hp => ?_⟩
    · simpa using hq (by simp [h, Quiet])
    · cases clear <;> simp [setThread_pc] at hp
    · cases clear <;> simp [setThread_pc] at hp
  | _ => refine ⟨fun hp => ?_, fun m' w hp => ?_, fun m' w hp => ?_⟩ <;> grind [Quiet]

theorem bufInv_step {c : Setup} {s s' : State} {a : Act} (B : BufInv s)
    (hg : FlushedBeforeWalk s a) (h : Step c s a.tid a.move s') : BufInv s' where
  quiet u := by
    by_cases hu : u = a.tid
    · exact hu ▸ (bufInv_self B hg h).1
    · rw [step_thr_other h hu, step_buf_other h hu]
      exact B.quiet u
  start u := by
    by_cases hu : u = a.tid
    · exact hu ▸ (bufInv_self B hg h).2.1
    · rw [step_thr_other h hu, step_buf_other h hu]
      exact B.start u
  walking u := by
    by_cases hu : u = a.tid
    · exact hu ▸ (bufInv_self B hg h).2.2
    · rw [step_thr_other h hu]
      exact B.walking u

theorem bufInv {c : Setup} {s : State} (h : Runs.ReachableBy (system c) FlushedBeforeWalk s) :
    BufInv s :=
  h.invariant bufInv_initial fun _ _ _ _ B hg hs => bufInv_step B hg (step_cases hs).2.2

/-- Without buffering every wait is visible at once. -/
theorem flushedBeforeWalk_of_sc {c : Setup} {G : State → Act → Prop} {s : State} (a : Act)
    (hsc : c.memory = .sc) (h : Runs.ReachableBy (system c) G s) : FlushedBeforeWalk s a :=
  fun _ _ _ _ _ => sc_buf hsc h a.tid

end ScaleLockDep.Hooks
