import ScaleLockDep.ActualDeadlock
import Mathlib.Data.List.Forall2

/-!
# Soundness of the wait-chain walk

The walk reads owners and waits one by one, so a chain it closes may put
together facts that never held at one moment.  And an owner entry outlives its
thread, so the chain may name a thread for a mutex that an ended thread of the
same slot has left locked.

* `stale_chain_reported`: threads that lock in one fixed order are killed with
  exit code 66, for a chain whose first owner has unlocked its mutex;
* `inherited_slot_reported`: so they are, with no walk disturbed, when a thread
  takes over the slot of one that ended with a mutex locked;
* `report_real`: where no entry that a walk has read is stored to before the walk
  returns and no thread ends while it holds a mutex, a reported chain is a circular
  wait, and threads that lock in one fixed order are never reported.

Both on a sequentially consistent memory, with normal mutexes.
-/

namespace ScaleLockDep.Hooks

open ThreadState State

/-! ## Walks that are not disturbed -/

/-- The lock slots whose owner the walk has read. -/
def readOwners : Pc → List Nat
  | .loadOwner _ w | .loadWaiting _ w | .reported _ w => w.lockChain
  | _ => []

/-- The thread slots, other than its own, whose wait the walk has read. -/
def readWaits : Pc → List Nat
  | .loadOwner _ w => w.threadChain.tail
  | .loadWaiting _ w | .reported _ w => w.threadChain.tail.dropLast
  | _ => []

/-- The step stores to no entry that another thread's unfinished walk has read. -/
def Undisturbed (c : Setup) (s : State) (a : Act) : Prop :=
  ∀ s', (system c).step s a = some s' → ∀ t, t < maxThreadSlots → t ≠ a.tid →
    (∀ l, l ∈ readOwners (s.thr t).pc → s'.mem.owner l = s.mem.owner l) ∧
    ∀ u, u ∈ readWaits (s.thr t).pc → s'.mem.waiting u = s.mem.waiting u

/-- The lock and trylock calls of the threads follow one order. -/
def Ordered {α : Type} [Preorder α] (rank : Nat → α) (s : State) (a : Act) : Prop :=
  ∀ m, a.move = .lock m ∨ a.move = .trylock m → ∀ l, l ∈ s.held a.tid → rank l < rank m

/-- The mutex of a nested lock call that has stored its wait and has neither
acquired the mutex nor returned. -/
def nested : Pc → Option Nat
  | .loadOwner m _ | .loadWaiting m _ | .reported m _ | .callLock m false | .blocked m false
  | .cancelWait m => some m
  | _ => none

/-- **The chain is a circular wait.**  It starts and ends at `t`; for each edge
the first thread is inside a nested lock call on the mutex and has not acquired
it, and the second one really holds it. -/
structure RealChain (s : State) (t : Nat) (w : Walk) : Prop where
  nonempty : w.lockChain ≠ []
  first : w.threadChain[0]? = some t
  last : w.threadChain[w.lockChain.length]? = some t
  edge : ∀ i l, w.lockChain[i]? = some l → ∃ u v, w.threadChain[i]? = some u ∧
    w.threadChain[i + 1]? = some v ∧ nested (s.thr u).pc = some l ∧ s.lockCount v l ≠ 0

/-! ## The chain read so far -/

def Owns (s : State) (l u : Nat) : Prop := s.mem.owner l = some u

def Awaits (s : State) (u l : Nat) : Prop := s.mem.waiting u = some l

/-- What the walk of `t` has read is in memory at this moment. -/
def Snapshot (s : State) (t : Nat) : Pc → Prop
  | .loadOwner _ w => w.threadChain.head? = some t ∧
      List.Forall₂ (Owns s) w.lockChain w.threadChain.tail ∧
      List.Forall₂ (Awaits s) w.threadChain (w.lockChain ++ [w.currentLockSlot])
  | .loadWaiting _ w => w.threadChain.head? = some t ∧ w.lockChain ≠ [] ∧
      List.Forall₂ (Owns s) w.lockChain w.threadChain.tail ∧
      List.Forall₂ (Awaits s) w.threadChain.dropLast w.lockChain
  | .reported _ w => w.threadChain.head? = some t ∧ w.lockChain ≠ [] ∧
      List.Forall₂ (Owns s) w.lockChain w.threadChain.tail ∧
      List.Forall₂ (Awaits s) w.threadChain.dropLast w.lockChain ∧
      w.threadChain.getLast? = some t
  | _ => True

theorem frame_owns {s s' : State} {ls us : List Nat} (h : List.Forall₂ (Owns s) ls us)
    (ho : ∀ l, l ∈ ls → s'.mem.owner l = s.mem.owner l) : List.Forall₂ (Owns s') ls us := by
  have := (List.forall₂_and_left ls us).mpr ⟨ho, h⟩
  exact this.imp fun l u hl => hl.1.trans hl.2

theorem frame_awaits {s s' : State} {us ls : List Nat} (h : List.Forall₂ (Awaits s) us ls)
    (hw : ∀ u, u ∈ us → s'.mem.waiting u = s.mem.waiting u) : List.Forall₂ (Awaits s') us ls := by
  have := (List.forall₂_and_left us ls).mpr ⟨hw, h⟩
  exact this.imp fun u l hu => hu.1.trans hu.2

theorem mem_tail_of_head {ts : List Nat} {t u : Nat} (h : ts.head? = some t) (hu : u ∈ ts) :
    u = t ∨ u ∈ ts.tail := by
  cases ts with
  | nil => cases h
  | cons x ts =>
    obtain rfl : x = t := by simpa using h
    simpa using hu

theorem mem_tail_dropLast_of_head {ts : List Nat} {t u : Nat} (h : ts.head? = some t)
    (hu : u ∈ ts.dropLast) : u = t ∨ u ∈ ts.tail.dropLast := by
  cases ts with
  | nil => cases h
  | cons x ts =>
    obtain rfl : x = t := by simpa using h
    cases ts with
    | nil => simp at hu
    | cons y ts => simpa using hu

/-- What has been read stays in memory when no read entry changes. -/
theorem Snapshot.frame {s s' : State} {t : Nat} {pc : Pc} (h : Snapshot s t pc)
    (hself : s'.mem.waiting t = s.mem.waiting t)
    (ho : ∀ l, l ∈ readOwners pc → s'.mem.owner l = s.mem.owner l)
    (hw : ∀ u, u ∈ readWaits pc → s'.mem.waiting u = s.mem.waiting u) : Snapshot s' t pc := by
  have hread : ∀ {u : Nat}, u = t ∨ u ∈ readWaits pc → s'.mem.waiting u = s.mem.waiting u := by
    rintro u (rfl | hu)
    · exact hself
    · exact hw u hu
  cases pc with
  | loadOwner m w =>
    obtain ⟨h0, h1, h2⟩ := h
    exact ⟨h0, frame_owns h1 ho, frame_awaits h2 fun u hu => hread (mem_tail_of_head h0 hu)⟩
  | loadWaiting m w =>
    obtain ⟨h0, hne, h1, h2⟩ := h
    exact ⟨h0, hne, frame_owns h1 ho,
      frame_awaits h2 fun u hu => hread (mem_tail_dropLast_of_head h0 hu)⟩
  | reported m w =>
    obtain ⟨h0, hne, h1, h2, h3⟩ := h
    exact ⟨h0, hne, frame_owns h1 ho,
      frame_awaits h2 fun u hu => hread (mem_tail_dropLast_of_head h0 hu), h3⟩
  | _ => trivial

theorem Snapshot.start {s : State} {t m : Nat} (h : s.mem.waiting t = some m) :
    Snapshot s t (.loadOwner m (Walk.start t m)) :=
  ⟨rfl, .nil, .cons h .nil⟩

/-- The owner of the awaited lock extends the chain. -/
theorem Snapshot.onOwner {s : State} {t m : Nat} {w : Walk} (h : Snapshot s t (.loadOwner m w)) :
    Snapshot s t (afterWalk m .loadWaiting (w.onOwner t (s.mem.owner w.currentLockSlot))) := by
  obtain ⟨h0, h1, h2⟩ := h
  cases ho : s.mem.owner w.currentLockSlot with
  | none => trivial
  | some u =>
    have hne : w.threadChain ≠ [] := by
      rintro he
      simp [he] at h0
    have hhead : (w.threadChain ++ [u]).head? = some t := by
      rw [List.head?_append_of_ne_nil _ hne, h0]
    have howns : List.Forall₂ (Owns s) (w.lockChain ++ [w.currentLockSlot])
        (w.threadChain ++ [u]).tail := by
      rw [List.tail_append_of_ne_nil hne]
      exact List.rel_append h1 (.cons ho .nil)
    have hwaits : List.Forall₂ (Awaits s) (w.threadChain ++ [u]).dropLast
        (w.lockChain ++ [w.currentLockSlot]) := by
      rwa [List.dropLast_concat]
    simp only [Walk.onOwner]
    split
    · rename_i hu
      exact ⟨hhead, by simp, howns, hwaits, by simp [hu]⟩
    · exact ⟨hhead, by simp, howns, hwaits⟩

/-- The wait of the last owner extends the chain. -/
theorem Snapshot.onWaiting {s : State} {t m : Nat} {w : Walk}
    (h : Snapshot s t (.loadWaiting m w)) :
    Snapshot s t (afterWalk m .loadOwner (w.onWaiting (s.mem.waiting w.lastThread))) := by
  obtain ⟨h0, hne, h1, h2⟩ := h
  cases hw : s.mem.waiting w.lastThread with
  | none => trivial
  | some l =>
    simp only [Walk.onWaiting]
    split
    · refine ⟨h0, h1, ?_⟩
      have hts : w.threadChain ≠ [] := by
        rintro he
        simp [he] at h0
      have hlast : w.threadChain.dropLast ++ [w.lastThread] = w.threadChain := by
        rw [Walk.lastThread, List.getLastD_eq_getLast?, List.getLast?_eq_some_getLast hts]
        exact List.dropLast_append_getLast hts
      rw [← hlast]
      exact List.rel_append h2 (.cons hw .nil)
    · trivial

theorem snapshot_step {c : Setup} {s s' : State} {a : Act} (W : WaitInv s) (W' : WaitInv s')
    (hb : ∀ t, s.buf t = []) (hb' : ∀ t, s'.buf t = []) (hg : Undisturbed c s a)
    (hs : (system c).step s a = some s') (hS : ∀ t, Snapshot s t (s.thr t).pc) (t : Nat) :
    Snapshot s' t (s'.thr t).pc := by
  have h := (step_cases hs).2.2
  by_cases ht : t = a.tid
  · subst ht
    have hSt := hS a.tid
    cases h with
    | publish m h =>
      have := W'.self a.tid
      rw [loadWaiting_of_nil (hb' _), setPc_pc, if_pos rfl] at this
      rw [setPc_pc, if_pos rfl]
      exact Snapshot.start this
    | loadOwner m w h =>
      rw [h] at hSt
      rw [setPc_pc, if_pos rfl, loadOwner_of_nil (hb _)]
      exact hSt.onOwner
    | loadWaiting m w h =>
      rw [h] at hSt
      rw [setPc_pc, if_pos rfl, loadWaiting_of_nil (hb _)]
      exact hSt.onWaiting
    | flush w ws h => simp [hb] at h
    | exit code h => exact hSt
    | call pc h hpc =>
      rcases hpc with ⟨m, -, rfl, -⟩ | ⟨m, -, rfl, -⟩ | ⟨m, -, rfl⟩ | ⟨m, -, rfl, -⟩ <;>
        simp [setPc_pc, Snapshot]
    | granted k pc hg hpc =>
      rcases hpc with ⟨-, rfl⟩ | ⟨-, rfl⟩ | ⟨-, rfl⟩ | ⟨-, -, rfl⟩ | ⟨-, -, rfl⟩ <;>
        simp [setPc_pc, Snapshot]
    | busy k hg pc hpc => rcases hpc with ⟨-, rfl⟩ | ⟨-, rfl⟩ <;> simp [setPc_pc, Snapshot]
    | fail k pc hpc =>
      rcases hpc with ⟨-, rfl⟩ | ⟨-, rfl⟩ | ⟨-, rfl⟩ | ⟨-, rfl⟩ | ⟨-, rfl⟩ <;>
        simp [setPc_pc, Snapshot]
    | push k clear ts h hts => cases clear <;> simp [setThread_pc, Snapshot]
    | _ => simp [setPc_pc, setThread_pc, Snapshot]
  · rw [step_thr_other h ht]
    by_cases hp : (s.thr t).pc = .outside
    · rw [hp]
      trivial
    · obtain ⟨ho, hw⟩ := hg s' hs t (W.bounded t hp) ht
      exact (hS t).frame (W.mem_other h ht).1 ho hw

theorem snapshot {c : Setup} {s : State} (hsc : c.memory = .sc)
    (h : Runs.ReachableBy (system c) (Undisturbed c) s) : ∀ t, Snapshot s t (s.thr t).pc := by
  refine h.invariant (P := fun s => ∀ t, Snapshot s t (s.thr t).pc) ?_ ?_
  · exact fun t => trivial
  · intro s s' a hr hS hg hs
    exact snapshot_step (waitInv hr) (waitInv (hr.step hg hs)) (sc_buf hsc hr)
      (sc_buf hsc (hr.step hg hs)) hg hs hS

/-! ## A thread between the grant and the owner store -/

/-- The owner of a normal mutex is stored only after the wait is cleared. -/
def FreshInv (s : State) : Prop :=
  ∀ t l, (s.thr t).pc = .clearWait l ∨ (s.thr t).pc = .storeOwner l → s.mem.owner l ≠ some t

/-- A thread that has just been granted a normal mutex is not its owner yet. -/
theorem acquired_owner {c : Setup} {s : State} {t l : Nat} {clear : Bool} (I : HoldInv c s)
    (O : OwnerInv s) (hn : ∀ m, c.recursive m = false) (hp : (s.thr t).pc = .acquired l clear) :
    s.mem.owner l ≠ some t := by
  intro ho
  have hc := I.count t l
  have hone := I.lockCount_le_one hn t l
  rw [hp] at hc
  simp only [granted, releasing, if_true] at hc
  rcases O.owned t l ho with hl | ha
  · have : 0 < (s.held t).count l := List.count_pos_iff.mpr hl
    omega
  · have : s.lockCount t l = 0 := by simp [State.lockCount, I.gone l ha]
    omega

theorem freshInv_step {c : Setup} {s s' : State} {t : Nat} {mv : Move} (I : HoldInv c s)
    (O : OwnerInv s) (hn : ∀ m, c.recursive m = false) (hb : s.buf t = []) (F : FreshInv s)
    (h : Step c s t mv s') : FreshInv s' := by
  intro u l hp
  by_cases hu : u = t
  · subst hu
    cases h with
    | push m clear ts h hts =>
      have hm : m = l := by
        cases clear <;> simpa [setThread_pc] using hp
      subst hm
      simpa using acquired_owner I O hn h
    | clearWait m h =>
      obtain rfl : m = l := by simpa [setPc_pc] using hp
      have hs := owner_step (.clearWait m h : Step c s u mv _) m
      rw [hb, h] at hs
      simp only [List.not_mem_nil, reduceCtorEq, false_and, or_false] at hs
      rw [hs]
      exact F u m (Or.inl h)
    | exit code h => exact F u l hp
    | flush w ws h => simp [hb] at h
    | loadOwner k w h =>
      cases hw : w.onOwner u (s.loadOwner u w.currentLockSlot) <;>
        simp [setPc_pc, hw, afterWalk] at hp
    | loadWaiting k w h =>
      cases hw : w.onWaiting (s.loadWaiting u w.lastThread) <;>
        simp [setPc_pc, hw, afterWalk] at hp
    | _ => grind
  · rw [step_thr_other h hu] at hp
    rcases owner_step h l with hs | hs | ⟨-, hs⟩ | ⟨-, hs⟩
    · rw [hs]
      exact F u l hp
    · simp [hb] at hs
    · rw [hs]
      exact fun he => hu (Option.some.inj he).symm
    · simp [hs]

theorem freshInv {c : Setup} {G : State → Act → Prop} {s : State} (hsc : c.memory = .sc)
    (hn : ∀ m, c.recursive m = false) (h : Runs.ReachableBy (system c) G s) : FreshInv s := by
  refine h.invariant ?_ ?_
  · intro t l hp
    rcases hp with hp | hp <;> cases hp
  · intro s s' a hr F _ hs
    exact freshInv_step (holdInv hr) (ownerInv (singleUnlock_run hn hr)) hn (sc_buf hsc hr _) F
      (step_cases hs).2.2

/-! ## Reported chains are real -/

/-- A wait in memory is that of a thread in a nested lock call, unless the thread
has the mutex already. -/
theorem awaits_cases {c : Setup} {s : State} {u l : Nat} (I : HoldInv c s) (W : WaitInv s)
    (hb : s.buf u = []) (h : Awaits s u l) : nested (s.thr u).pc = some l ∨
      (s.lockCount u l ≠ 0 ∧
        ((s.thr u).pc = .acquired l true ∨ (s.thr u).pc = .clearWait l)) := by
  have hself := W.self u
  rw [loadWaiting_of_nil hb, show s.mem.waiting u = some l from h] at hself
  have hc := I.count u l
  have hp := I.pcHeld u
  cases hpc : (s.thr u).pc with
  | acquired m clear =>
    rw [hpc] at hself hc
    cases clear with
    | false => cases hself
    | true =>
      obtain rfl : l = m := by simpa [awaiting] using hself
      simp only [granted, releasing, if_true] at hc
      exact Or.inr ⟨by omega, Or.inl rfl⟩
  | clearWait m =>
    rw [hpc] at hself hc hp
    obtain rfl : l = m := by simpa [awaiting] using hself
    exact Or.inr ⟨I.holds hp (by simp [hpc, releasing]), Or.inr rfl⟩
  | callLock m top => rw [hpc] at hself; left; cases top <;> simp_all [awaiting, nested]
  | blocked m top => rw [hpc] at hself; left; cases top <;> simp_all [awaiting, nested]
  | _ => rw [hpc] at hself; left; simp_all [awaiting, nested]

/-- A recorded owner that is waiting for some lock really holds its locks, unless an
ended thread has left them locked. -/
theorem owns_holds {c : Setup} {s : State} {u l m : Nat} (I : HoldInv c s) (O : OwnerInv s)
    (W : WaitInv s) (ha : s.abandoned l = false) (hb : s.buf u = []) (ho : Owns s l u)
    (hw : Awaits s u m) : s.lockCount u l ≠ 0 := by
  have hself := W.self u
  rw [loadWaiting_of_nil hb, show s.mem.waiting u = some m from hw] at hself
  have hl : l ∈ s.held u := (O.owned u l ho).resolve_right fun h => by simp [ha] at h
  refine I.holds hl ?_
  revert hself
  cases (s.thr u).pc <;> simp [awaiting, releasing]

/-- **What a snapshot says about the threads.** -/
theorem Snapshot.real {c : Setup} {s : State} {t m : Nat} {w : Walk} (I : HoldInv c s)
    (O : OwnerInv s) (W : WaitInv s) (F : FreshInv s) (hn : ∀ m, c.recursive m = false)
    (ha : ∀ l, s.abandoned l = false) (hb : ∀ t, s.buf t = []) (hp : (s.thr t).pc = .reported m w)
    (hS : Snapshot s t (.reported m w)) : RealChain s t w := by
  obtain ⟨hhead, hne, howns, hwaits, hlast⟩ := hS
  have hlen : w.threadChain.length = w.lockChain.length + 1 := by
    have h1 := howns.length_eq
    have h2 : 0 < w.lockChain.length := List.length_pos_iff.mpr hne
    rw [List.length_tail] at h1
    omega
  refine ⟨hne, by rw [← List.head?_eq_getElem?]; exact hhead, ?_, ?_⟩
  · rw [List.getLast?_eq_getElem?, hlen] at hlast
    simpa using hlast
  · intro i l hl
    obtain ⟨hi, rfl⟩ := List.getElem?_eq_some_iff.mp hl
    have hw : ∀ j, (hj : j < w.lockChain.length) → Awaits s (w.threadChain[j]) w.lockChain[j] := by
      intro j hj
      have := hwaits.get (i := j) (by rw [List.length_dropLast]; omega) hj
      simpa using this
    have ho : Owns s w.lockChain[i] (w.threadChain[i + 1]) := by
      have := howns.get (i := i) hi (by rw [List.length_tail]; omega)
      simpa using this
    -- the next thread waits itself, so it has not unlocked what it owns
    have hnext : ∃ k, Awaits s (w.threadChain[i + 1]) k := by
      by_cases hlt : i + 1 < w.lockChain.length
      · exact ⟨_, hw (i + 1) hlt⟩
      · have ht : w.threadChain[i + 1] = t := by
          rw [List.getLast?_eq_getElem?, List.getElem?_eq_some_iff] at hlast
          obtain ⟨_, hlast⟩ := hlast
          rw [← hlast]
          congr 1
          omega
        have := W.self t
        rw [loadWaiting_of_nil (hb t), hp] at this
        exact ⟨m, ht ▸ this⟩
    obtain ⟨k, hk⟩ := hnext
    have hholds := owns_holds I O W (ha _) (hb _) ho hk
    refine ⟨_, _, List.getElem?_eq_getElem (by omega), List.getElem?_eq_getElem (by omega), ?_,
      hholds⟩
    rcases awaits_cases I W (hb _) (hw i hi) with hnest | ⟨hcount, hpc⟩
    · exact hnest
    · have hsame := lockCount_unique hcount hholds
      rw [← hsame] at ho
      rcases hpc with hpc | hpc
      · exact absurd ho (acquired_owner I O hn hpc)
      · exact absurd ho (F _ _ (Or.inl hpc))

/-! ## One fixed order -/

/-- The mutex of a lock call of a thread that holds locks. -/
def calling : Pc → Option Nat
  | .lockTry m | .publish m | .loadOwner m _ | .loadWaiting m _ | .reported m _
  | .callLock m false | .blocked m false | .cancelWait m => some m
  | _ => none

def OrderInv {α : Type} [Preorder α] (rank : Nat → α) (s : State) : Prop :=
  ∀ t m, calling (s.thr t).pc = some m → ∀ l, l ∈ s.held t → rank l < rank m

theorem afterWalk_calling (m : Nat) (x : WalkStep) :
    calling (afterWalk m .loadWaiting x) = some m ∧ calling (afterWalk m .loadOwner x) = some m := by
  cases x <;> exact ⟨rfl, rfl⟩

theorem orderInv_step {α : Type} [Preorder α] {rank : Nat → α} {c : Setup} {s s' : State} {a : Act}
    (R : OrderInv rank s) (hg : Ordered rank s a) (h : Step c s a.tid a.move s') :
    OrderInv rank s' := by
  intro t m hp l hl
  by_cases ht : t = a.tid
  · subst ht
    have hR := R a.tid m
    cases h with
    | call pc h hpc =>
      rcases hpc with ⟨k, -, rfl, -⟩ | ⟨k, hm, rfl, -⟩ | ⟨k, -, rfl⟩ | ⟨k, -, rfl, -⟩ <;>
        simp only [setPc_pc, if_true, calling, reduceCtorEq, Option.some.injEq] at hp
      subst hp
      exact hg k (Or.inl hm) l (by simpa using hl)
    | loadOwner k w h =>
      rw [setPc_pc, if_pos rfl, (afterWalk_calling k _).1] at hp
      exact hR (by rw [h]; exact hp) l (by simpa using hl)
    | loadWaiting k w h =>
      rw [setPc_pc, if_pos rfl, (afterWalk_calling k _).2] at hp
      exact hR (by rw [h]; exact hp) l (by simpa using hl)
    | enter k top h =>
      cases top with
      | false => exact hR (by rw [h]; simpa [setPc_pc, calling] using hp) l (by simpa using hl)
      | true => simp [setPc_pc, calling] at hp
    | publish k h =>
      exact hR (by rw [h]; simpa [setPc_pc, calling] using hp) l (by simpa using hl)
    | busy k hg pc hpc =>
      rcases hpc with ⟨h, rfl⟩ | ⟨h, rfl⟩
      · exact hR (by rw [h]; simpa [setPc_pc, calling] using hp) l (by simpa using hl)
      · simp [setPc_pc, calling] at hp
    | fail k pc hpc =>
      rcases hpc with ⟨h, rfl⟩ | ⟨h, rfl⟩ | ⟨h, rfl⟩ | ⟨h, rfl⟩ | ⟨h, rfl⟩
      · simp [setPc_pc, calling] at hp
      · simp [setPc_pc, calling] at hp
      · simp [setPc_pc, calling] at hp
      · simp [setPc_pc, calling] at hp
      · exact hR (by rw [h]; simpa [setPc_pc, calling] using hp) l (by simpa using hl)
    | granted k pc hg hpc =>
      rcases hpc with ⟨-, rfl⟩ | ⟨-, rfl⟩ | ⟨-, rfl⟩ | ⟨-, -, rfl⟩ | ⟨-, -, rfl⟩ <;>
        simp [setPc_pc, calling] at hp
    | push k clear ts h hts => cases clear <;> simp [setThread_pc, calling] at hp
    | flush w ws h => exact hR hp l hl
    | exit code h => exact hR hp l hl
    | _ => simp [setPc_pc, setThread_pc, calling] at hp
  · rw [step_thr_other h ht] at hp
    rw [step_held_other h ht] at hl
    exact R t m hp l hl

/-- Threads that lock in one order are in no circular wait. -/
theorem RealChain.not_ordered {α : Type} [Preorder α] {rank : Nat → α} {c : Setup} {s : State}
    {t : Nat} {w : Walk} (I : HoldInv c s) (R : OrderInv rank s) (C : RealChain s t w) : False := by
  have hcall : ∀ {u l : Nat}, nested (s.thr u).pc = some l → calling (s.thr u).pc = some l ∧
      ∀ k, s.lockCount u k ≠ 0 → k ∈ s.held u := by
    intro u l hu
    have hg : calling (s.thr u).pc = some l ∧ ∀ k, granted (s.thr u).pc k = 0 := by
      revert hu
      cases (s.thr u).pc with
      | callLock m top => cases top <;> simp [nested, calling, granted]
      | blocked m top => cases top <;> simp [nested, calling, granted]
      | _ => simp [nested, calling, granted]
    refine ⟨hg.1, fun k hk => List.count_pos_iff.mp ?_⟩
    have := I.count u k
    have := hg.2 k
    omega
  -- along the chain the locks go up
  have hup : ∀ i l l' : Nat, w.lockChain[i]? = some l → w.lockChain[i + 1]? = some l' →
      rank l < rank l' := by
    intro i l l' hl hl'
    obtain ⟨u, v, -, hv, -, hh⟩ := C.edge i l hl
    obtain ⟨v', -, hv', -, hn, -⟩ := C.edge (i + 1) l' hl'
    obtain rfl : v = v' := Option.some.inj (hv.symm.trans hv')
    obtain ⟨hc, hm⟩ := hcall hn
    exact R v l' hc l (hm l hh)
  obtain ⟨l₀, hl₀⟩ : ∃ l : Nat, w.lockChain[0]? = some l :=
    ⟨_, List.getElem?_eq_getElem (List.length_pos_iff.mpr C.nonempty)⟩
  have hmono : ∀ i l : Nat, w.lockChain[i]? = some l → rank l₀ ≤ rank l := by
    intro i
    induction i with
    | zero =>
      intro l hl
      rw [Option.some.inj (hl₀.symm.trans hl)]
    | succ i ih =>
      intro l hl
      have hi : i < w.lockChain.length := by
        have := (List.getElem?_eq_some_iff.mp hl).1
        omega
      have hp := List.getElem?_eq_getElem hi
      exact (ih _ hp).trans (hup i _ l hp hl).le
  -- and the last one is held by the first thread
  have hpos := List.length_pos_iff.mpr C.nonempty
  have hlast := List.getElem?_eq_getElem (l := w.lockChain) (i := w.lockChain.length - 1) (by omega)
  obtain ⟨u, v, -, hv, -, hh⟩ := C.edge _ _ hlast
  obtain ⟨u', -, hu', -, hn, -⟩ := C.edge 0 l₀ hl₀
  obtain rfl : u' = t := Option.some.inj (hu'.symm.trans C.first)
  have hvt : v = u' := by
    rw [Nat.sub_add_cancel hpos] at hv
    exact Option.some.inj (hv.symm.trans C.last)
  subst hvt
  obtain ⟨hc, hm⟩ := hcall hn
  exact absurd (R v l₀ hc _ (hm _ hh)) (hmono _ _ hlast).not_gt

/-- The process exits from a report or from a full held stack. -/
theorem exited_step {c : Setup} {s s' : State} {t : Nat} {mv : Move} (h : Step c s t mv s') :
    s'.exited = s.exited ∨ (∃ m w, (s.thr t).pc = .reported m w ∧ s'.exited = some 66) ∨
      s'.exited = some 1 := by
  cases h with
  | exit code h =>
    rcases h with ⟨m, w, hp, rfl⟩ | ⟨m, clear, hp, rfl⟩
    · exact Or.inr (Or.inl ⟨m, w, hp, rfl⟩)
    · exact Or.inr (Or.inr rfl)
  | publish m h => left; unfold store; split <;> rfl
  | cancelWait m h => left; unfold store; split <;> rfl
  | clearWait m h => left; unfold store; split <;> rfl
  | storeOwner m h => left; unfold store; split <;> rfl
  | topAcquired m h => left; unfold store; split <;> rfl
  | released m h => left; unfold casOwner; split <;> rfl
  | _ => exact Or.inl rfl

theorem orderInv {α : Type} [Preorder α] {rank : Nat → α} {c : Setup} {s : State}
    (h : Runs.ReachableBy (system c) (Ordered rank) s) : OrderInv rank s := by
  refine h.invariant ?_ ?_
  · intro t m hp
    cases hp
  · intro s s' a _ R hg hs
    exact orderInv_step R hg (step_cases hs).2.2

/-- The runs for which the walk is sound. -/
def Reliable (c : Setup) (s : State) (a : Act) : Prop := Undisturbed c s a ∧ EndsFree s a

theorem reported_real {c : Setup} {s : State} (hsc : c.memory = .sc)
    (hn : ∀ m, c.recursive m = false) (h : Runs.ReachableBy (system c) (Reliable c) s)
    {t m : Nat} {w : Walk} (hp : (s.thr t).pc = .reported m w) : RealChain s t w := by
  have hwalk : Snapshot s t (.reported m w) := hp ▸ snapshot hsc (h.mono fun _ _ h => h.1) t
  have hkept : ∀ l, s.abandoned l = false := none_abandoned (h.mono fun _ _ h => h.2)
  exact Snapshot.real (holdInv h) (ownerInv (singleUnlock_run hn h)) (waitInv h) (freshInv hsc hn h)
    hn hkept (sc_buf hsc h) hp hwalk

/-- **Soundness of the actual-deadlock detector**, in the runs whose walks are not
disturbed and in which no thread ends while it holds a mutex: a reported chain is a
circular wait at that moment, and a program that locks in one order never exits
with 66. -/
theorem report_real {c : Setup} (hsc : c.memory = .sc) (hn : ∀ m, c.recursive m = false) :
    (∀ s, Runs.ReachableBy (system c) (Reliable c) s → ∀ t m w,
      (s.thr t).pc = .reported m w → RealChain s t w) ∧
    ∀ (α : Type) [Preorder α] (rank : Nat → α) (s : State),
      Runs.ReachableBy (system c) (fun s a => Reliable c s a ∧ Ordered rank s a) s →
      s.exited ≠ some 66 := by
  refine ⟨fun s h t m w hp => reported_real hsc hn h hp, fun α _ rank s h => ?_⟩
  refine h.invariant (P := fun s => s.exited ≠ some 66) (by simp [system, initial]) ?_
  intro s s' a hr _ _ hs
  obtain ⟨hx, -, hstep⟩ := step_cases hs
  have hU : Runs.ReachableBy (system c) (Reliable c) s := hr.mono fun _ _ h => h.1
  have hR : OrderInv rank s := orderInv (hr.mono fun _ _ h => h.2)
  rcases exited_step hstep with he | ⟨m, w, hp, -⟩ | he
  · simp [he, hx]
  · exact ((reported_real hsc hn hU hp).not_ordered (holdInv hr) hR).elim
  · simp [he]

/-! ## A stale chain -/

/-- Thread `t`, holding a lock, acquires the free mutex `m`. -/
def nestedLock (t m : Nat) : List Act := [⟨t, .lock m⟩, ⟨t, .run⟩, ⟨t, .run⟩, ⟨t, .run⟩]

def unlock (t m : Nat) : List Act := [⟨t, .unlock m⟩, ⟨t, .run⟩, ⟨t, .run⟩]

/-- Thread 0 reads that thread 1 owns mutex 2; thread 1 unlocks it and waits for
mutex 1; thread 0 reads that wait. -/
def staleChain : List Act :=
  topLock 0 1 ++ topLock 1 0 ++ nestedLock 1 2 ++ waitFor 0 2 ++ [⟨0, .run⟩] ++
    unlock 1 2 ++ waitFor 1 1 ++ [⟨0, .run⟩, ⟨0, .run⟩]

/-- `Ordered` for the order of the numbers, to run concrete actions. -/
def ordered (s : State) (a : Act) : Bool :=
  match a.move with
  | .lock m | .trylock m => (s.held a.tid).all (· < m)
  | _ => true

theorem ordered_sound (s : State) (a : Act) (h : ordered s a = true) :
    Ordered (fun m : Nat => m) s a := by
  rintro m (hm | hm) l hl <;> simp only [ordered, hm, List.all_eq_true, decide_eq_true_eq] at h <;>
    exact h l hl

theorem staleChain_runs : (Runs.execBy (system (normalSetup .sc)) ordered initial
    staleChain).isSome = true := by
  decide

/-- **A program that locks in order is killed**: every lock call is of a greater
mutex than those held, thread 0 reports, the first owner of the reported chain
does not hold its mutex, and the next step exits with 66. -/
theorem stale_chain_reported : ∃ s,
    Runs.execBy (system (normalSetup .sc)) ordered initial staleChain = some s ∧
    (s.thr 0).pc = .reported 2 ⟨[0, 1, 0], [2, 1], 1⟩ ∧ s.lockCount 1 2 = 0 ∧
    ¬ RealChain s 0 ⟨[0, 1, 0], [2, 1], 1⟩ ∧
    ∃ s', (system (normalSetup .sc)).step s ⟨0, .run⟩ = some s' ∧ s'.exited = some 66 := by
  refine ⟨_, (Option.some_get staleChain_runs).symm, rfl, rfl, fun h => ?_, _, rfl, rfl⟩
  obtain ⟨u, v, -, hv, -, hh⟩ := h.edge 0 2 rfl
  obtain rfl : 1 = v := Option.some.inj hv
  exact hh rfl

/-- `Undisturbed`, to run concrete actions. -/
def undisturbed (c : Setup) (s : State) (a : Act) : Bool :=
  match (system c).step s a with
  | none => true
  | some s' => (List.range maxThreadSlots).all fun t => t == a.tid ||
      ((readOwners (s.thr t).pc).all (fun l => s'.mem.owner l == s.mem.owner l) &&
        (readWaits (s.thr t).pc).all fun u => s'.mem.waiting u == s.mem.waiting u)

theorem undisturbed_sound (c : Setup) (s : State) (a : Act) (h : undisturbed c s a = true) :
    Undisturbed c s a := by
  intro s' hs t ht hta
  simp only [undisturbed, hs, List.all_eq_true, List.mem_range] at h
  have := h t ht
  simp only [Bool.or_eq_true, beq_iff_eq, hta, false_or, Bool.and_eq_true, List.all_eq_true] at this
  exact this

/-! ## An inherited slot -/

/-- Thread 0 ends with mutex 3 locked.  Thread 1 locks 2 and blocks on 3.  The next
thread with slot 0 locks 1 and waits for 2. -/
def inheritedSlot : List Act :=
  topLock 0 3 ++ [⟨0, .ends⟩] ++ topLock 1 2 ++ waitFor 1 3 ++
    [⟨1, .run⟩, ⟨1, .run⟩, ⟨1, .run⟩] ++ topLock 0 1 ++ waitFor 0 2 ++
    [⟨0, .run⟩, ⟨0, .run⟩, ⟨0, .run⟩]

theorem inheritedSlot_runs : (Runs.execBy (system (normalSetup .sc))
    (fun s a => undisturbed (normalSetup .sc) s a && ordered s a) initial
    inheritedSlot).isSome = true := by
  decide

/-- **A thread is killed for a lock of its predecessor**: no walk is disturbed, every
lock call is of a greater mutex than those held, the chain ends at mutex 3, which no
living thread holds, and the next step exits with 66. -/
theorem inherited_slot_reported : ∃ s,
    Runs.execBy (system (normalSetup .sc))
      (fun s a => undisturbed (normalSetup .sc) s a && ordered s a) initial
      inheritedSlot = some s ∧
    (s.thr 0).pc = .reported 2 ⟨[0, 1, 0], [2, 3], 3⟩ ∧ s.held 0 = [1] ∧ s.real 3 = none ∧
    ¬ RealChain s 0 ⟨[0, 1, 0], [2, 3], 3⟩ ∧
    ∃ s', (system (normalSetup .sc)).step s ⟨0, .run⟩ = some s' ∧ s'.exited = some 66 := by
  refine ⟨_, (Option.some_get inheritedSlot_runs).symm, rfl, rfl, rfl, fun h => ?_, _, rfl, rfl⟩
  obtain ⟨u, v, -, hv, -, hh⟩ := h.edge 1 3 rfl
  obtain rfl : 0 = v := Option.some.inj hv
  exact hh rfl

/-! ## Reliable runs -/

/-- `Reliable`, to run concrete actions. -/
def reliable (c : Setup) (s : State) (a : Act) : Bool :=
  undisturbed c s a && (a.move != .ends || (s.held a.tid).isEmpty)

theorem reliable_sound (c : Setup) (s : State) (a : Act) (h : reliable c s a = true) :
    Reliable c s a := by
  simp only [reliable, Bool.and_eq_true, Bool.or_eq_true, bne_iff_ne, List.isEmpty_iff] at h
  exact ⟨undisturbed_sound c s a h.1, fun hm => h.2.resolve_left fun hne => hne hm⟩

/-- The crossed waits, walked to the report without a disturbance, by threads whose
slots are those of threads that ended with nothing locked. -/
def crossedReport : List Act :=
  topLock 0 2 ++ unlock 0 2 ++ [⟨0, .ends⟩] ++ crossed ++ [⟨1, .run⟩, ⟨1, .run⟩, ⟨1, .run⟩]

theorem crossedReport_runs : (Runs.execBy (system (normalSetup .sc))
    (reliable (normalSetup .sc)) initial crossedReport).isSome = true := by
  decide

theorem orderedPair_runs : (Runs.execBy (system (normalSetup .sc))
    (fun s a => reliable (normalSetup .sc) s a && ordered s a) initial
    (topLock 0 0 ++ nestedLock 0 1)).isSome = true := by
  decide

theorem report_real_crossed :
    (∃ s, Runs.execBy (system (normalSetup .sc)) (reliable (normalSetup .sc)) initial
      crossedReport = some s ∧ RealChain s 1 ⟨[1, 0, 1], [0, 1], 1⟩) ∧
    ∃ s, Runs.execBy (system (normalSetup .sc))
      (fun s a => reliable (normalSetup .sc) s a && ordered s a) initial
      (topLock 0 0 ++ nestedLock 0 1) = some s ∧ s.exited ≠ some 66 := by
  have h := report_real (c := normalSetup .sc) rfl fun _ => rfl
  have hs := (Option.some_get crossedReport_runs).symm
  have hs' := (Option.some_get orderedPair_runs).symm
  refine ⟨⟨_, hs, h.1 _ (Runs.ReachableBy.execBy (reliable_sound _) .init hs) 1 0 _ rfl⟩,
    _, hs', h.2 Nat (fun m => m) _ (Runs.ReachableBy.execBy (fun s a hg => ?_) .init hs')⟩
  rw [Bool.and_eq_true] at hg
  exact ⟨reliable_sound _ s a hg.1, ordered_sound s a hg.2⟩

end ScaleLockDep.Hooks
