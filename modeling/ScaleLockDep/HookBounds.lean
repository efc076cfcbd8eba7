import ScaleLockDep.HookSpecs
import ScaleLockDep.ProgramBounds

/-!
# What the hooks never do

In every interleaving of any number of threads, a section under `g_meta_lock` counting as one
access:

* `calls_bounded`: a hooked call makes a bounded number of accesses and questions, whatever the
  others do;
* `exits_justified`: the hooks end the process with code 66 from a lock whose trylock said `EBUSY`
  and whose walk loaded owners and waits that lead from its published wait back to its own thread,
  or with code 1 because a table is full or the backend panicked, and never with the code of an
  access to a held stack out of range;
* `unregistered_untouched`: between registrations, the entries of slots that are not registered
  are as at the start.
-/

namespace ScaleLockDep

namespace HookPrograms

open HeldStack (Tls Fault Represents)
open Hooks (Walk)
open Programs
open Registry (CacheEntry cacheIndex)

variable {β : Type}

/-! ## What is asked -/

/-- Slots without a registration keep their entries. -/
structure Contained (v w : View β) : Prop where
  locks : v.2.locks.keys.length ≤ w.2.locks.keys.length
  threads : v.2.threads.keys.length ≤ w.2.threads.keys.length
  owner : ∀ l, w.2.locks.keys.length ≤ l →
    w.2.owner l = v.2.owner l ∧ w.2.ownerPc l = v.2.ownerPc l
  waiting : ∀ k, w.2.threads.keys.length ≤ k →
    w.2.waiting k = v.2.waiting k ∧ w.2.waitingPc k = v.2.waitingPc k

/-- Owner entries and waits, loaded one after the other in these states, lead from the lock
slot `l` back to the thread slot `i`. -/
inductive LeadsBack (i : Nat) : Nat → List (View β) → Prop
  | owner {l : Nat} {v : View β} (ho : v.2.owner l = some i) : LeadsBack i l [v]
  | wait {l l' u : Nat} {v v' : View β} {vs : List (View β)} (ho : v.2.owner l = some u)
      (hu : u ≠ i) (hw : v'.2.waiting u = some l') (h : LeadsBack i l' vs) :
      LeadsBack i l (v :: v' :: vs)

def loads (vs : List (View β)) : Trace β := vs.map fun v => .access v v

/-- The store of the wait of thread slot `i` for the lock slot `l`, in state `v`, and what may
follow it before the walk. -/
def published (v : View β) (i l : Nat) (site : Option (View β × Nat)) : Trace β :=
  .access v (v.1, v.2.setWaiting i (some l)) ::
    (site.map fun p => .access p.1 (p.1.1, p.1.2.setWaitingPc i p.2)).toList

/-- Why a hook ends the process, from its last accesses or answer. -/
inductive ExitReason (t : Nat) (k : Call) : Nat → Trace β → Prop
  /-- the real trylock has said `EBUSY`, and the walk from the published wait has come back -/
  | deadlock (m callsite i l : Nat) (tr : Trace β) (v : View β) (site : Option (View β × Nat))
      (vs : List (View β)) (hk : k = .lock m callsite)
      (hbusy : .answer (Query.realTrylock m) ebusy ∈ tr) (hi : v.2.threads.find t = some i)
      (hl : v.2.locks.find m = some l) (hwalk : LeadsBack i l vs) :
      ExitReason t k 66 (tr ++ published v i l site ++ loads vs)
  | threadSlots (tr : Trace β) (v w : View β) (hnew : t ∉ v.2.threads.keys)
      (hfull : v.2.threads.keys.length = maxThreadSlots) : ExitReason t k 1 (tr ++ [.access v w])
  | lockSlots (tr : Trace β) (v w : View β) (hk : k ≠ .unlock k.mutex)
      (hnew : k.mutex ∉ v.2.locks.keys) (hfull : v.2.locks.keys.length = maxLockSlots) :
      ExitReason t k 1 (tr ++ [.access v w])
  | heldStack (tr : Trace β) (v w : View β) (hk : k ≠ .unlock k.mutex)
      (hfull : v.1.tls.held.length = maxHeldLockSlots) : ExitReason t k 1 (tr ++ [.access v w])
  | backend (tr : Trace β) (i l pc : Nat) (hk : k ≠ .unlock k.mutex) :
      ExitReason t k 1 (tr ++ [.answer (.potentialOnAcquire i l pc) none])

theorem ExitReason.code {t code : Nat} {k : Call} {tr : Trace β} (h : ExitReason t k code tr) :
    code = 66 ∨ code = 1 := by
  cases h with
  | deadlock => exact Or.inl rfl
  | threadSlots | lockSlots | heldStack | backend => exact Or.inr rfl

def limits (c : Setup) (t : Nat) (k : Call) : Limits (Query.Answer β) Local (Shared β) :=
  ⟨Inv c t, Contained, ExitReason t k⟩

/-- The lookups have found the slot `l` of `m`. -/
def Knows (x : Local) (m l : Nat) : Prop := m ≠ 0 ∧ x.cache (cacheIndex m) = ⟨m, l⟩

/-- The thread has the lock slot `l` from a lookup, or on its stack. -/
def Sees (x : Local) (l : Nat) : Prop := (∃ m, Knows x m l) ∨ l ∈ x.tls.held

section Accesses
variable {c : Setup} {t m l i : Nat} {v w : View β} {x : Local} {s : Shared β}

theorem Contained.of_eq (h : w.2 = v.2) : Contained v w where
  locks := by rw [h]
  threads := by rw [h]
  owner _ _ := by rw [h]; exact ⟨rfl, rfl⟩
  waiting _ _ := by rw [h]; exact ⟨rfl, rfl⟩

theorem Contained.setOwner (hl : l < s.locks.keys.length) (o : Option Nat) :
    Contained (x, s) (x, s.setOwner l o) where
  locks := Nat.le_refl _
  threads := Nat.le_refl _
  owner l' hl' := by
    have hne : l' ≠ l := by
      rintro rfl
      exact absurd hl (Nat.not_lt.mpr hl')
    exact ⟨Function.update_of_ne hne _ _, rfl⟩
  waiting _ _ := ⟨rfl, rfl⟩

theorem Contained.setOwnerPc (hl : l < s.locks.keys.length) (pc : Nat) :
    Contained (x, s) (x, s.setOwnerPc l pc) where
  locks := Nat.le_refl _
  threads := Nat.le_refl _
  owner l' hl' := by
    have hne : l' ≠ l := by
      rintro rfl
      exact absurd hl (Nat.not_lt.mpr hl')
    exact ⟨rfl, Function.update_of_ne hne _ _⟩
  waiting _ _ := ⟨rfl, rfl⟩

theorem Contained.setWaiting (hi : i < s.threads.keys.length) (o : Option Nat) :
    Contained (x, s) (x, s.setWaiting i o) where
  locks := Nat.le_refl _
  threads := Nat.le_refl _
  owner _ _ := ⟨rfl, rfl⟩
  waiting j hj := by
    have hne : j ≠ i := by
      rintro rfl
      exact absurd hi (Nat.not_lt.mpr hj)
    exact ⟨Function.update_of_ne hne _ _, rfl⟩

theorem Contained.setWaitingPc (hi : i < s.threads.keys.length) (pc : Nat) :
    Contained (x, s) (x, s.setWaitingPc i pc) where
  locks := Nat.le_refl _
  threads := Nat.le_refl _
  owner _ _ := ⟨rfl, rfl⟩
  waiting j hj := by
    have hne : j ≠ i := by
      rintro rfl
      exact absurd hi (Nat.not_lt.mpr hj)
    exact ⟨rfl, Function.update_of_ne hne _ _⟩

theorem Contained.registerLock (y : Local) : Contained (x, s) (y, s.registerLock m) := by
  unfold Shared.registerLock
  split
  · rename_i hadd
    have hlen : (s.locks.register m).keys.length = s.locks.keys.length + 1 := by
      rw [SlotTable.register_keys hadd, List.length_append, List.length_singleton]
    have hne : ∀ l, (s.locks.register m).keys.length ≤ l → l ≠ s.locks.keys.length := by
      intro l hl
      omega
    have hle : s.locks.keys.length ≤ (s.locks.register m).keys.length := by omega
    refine ⟨hle, Nat.le_refl _, fun l hl => ?_, fun _ _ => ⟨rfl, rfl⟩⟩
    exact ⟨Function.update_of_ne (hne l hl) _ _, Function.update_of_ne (hne l hl) _ _⟩
  · exact .of_eq rfl

theorem Contained.registerThread (y : Local) : Contained (x, s) (y, s.registerThread t) := by
  unfold Shared.registerThread
  split
  · rename_i hadd
    have hlen : (s.threads.register t).keys.length = s.threads.keys.length + 1 := by
      rw [SlotTable.register_keys hadd, List.length_append, List.length_singleton]
    have hne : ∀ k, (s.threads.register t).keys.length ≤ k → k ≠ s.threads.keys.length := by
      intro k hk
      omega
    have hle : s.threads.keys.length ≤ (s.threads.register t).keys.length := by omega
    refine ⟨Nat.le_refl _, hle, fun _ _ => ⟨rfl, rfl⟩, fun k hk => ?_⟩
    exact ⟨Function.update_of_ne (hne k hk) _ _, Function.update_of_ne (hne k hk) _ _⟩
  · exact .of_eq rfl

theorem Knows.find (h : Knows x m l) (hI : Inv c t (x, s)) : s.locks.find m = some l := by
  obtain ⟨hm, hx⟩ := h
  have hfind := hI.cache (cacheIndex m) (by rw [show (x, s).1 = x from rfl, hx]; exact hm)
  rwa [show (x, s).1 = x from rfl, hx] at hfind

theorem Knows.lt (h : Knows x m l) (hI : Inv c t (x, s)) : l < s.locks.keys.length :=
  SlotTable.find_lt (h.find hI)

theorem Sees.lt (h : Sees x l) (hI : Inv c t (x, s)) : l < s.locks.keys.length := by
  rcases h with ⟨m, hm⟩ | hheld
  · exact hm.lt hI
  · exact hI.held_lt hheld

theorem Inv.threadSlot_lt (hI : Inv c t (x, s)) (hi : x.threadSlot = some i) :
    i < s.threads.keys.length := SlotTable.find_lt (hI.slot i hi)

end Accesses

/-! ## Rules -/

section Code
variable {c : Setup} {t m l i n : Nat} {k : Call} {x : Local} {tr : Trace β} {α γ : Type}
  {Q : α → Local → Trace β → Prop} {R : γ → Local → Trace β → Prop}

/-- A load, with the state it is made in. -/
theorem load_within {g : View β → α} :
    Within (limits c t k) (fun r y tr' => y = x ∧ ∃ v : View β, r = g v ∧
      tr' = tr ++ [.access v v]) (.get g) 1 x tr :=
  Within.get fun _ _ => ⟨.of_eq rfl, rfl, _, rfl, rfl⟩

/-- Reads change nothing. -/
theorem reads {g : View β → α} (h : ∀ s, Inv c t (x, s) →
    Q (g (x, s)) x (tr ++ [.access (x, s) (x, s)])) :
    Within (limits c t k) Q (.get g) 1 x tr :=
  Within.get fun s hs => ⟨.of_eq rfl, h s hs⟩

/-- The number of held locks. -/
theorem count_within : Within (limits (β := β) c t k)
    (fun count y _ => y = x ∧ count = x.tls.heldLockSlotCount)
    (.get fun v => v.1.tls.heldLockSlotCount) 1 x tr := reads fun _ _ => ⟨rfl, rfl⟩

theorem readTls_within {f : View β → Except Fault α} (h : ∀ s, Inv c t (x, s) →
    ∃ a, f (x, s) = .ok a ∧ ∀ tr, Q a x tr) : Within (limits c t k) Q (readTls f) 1 x tr := by
  refine Within.bind (n := 1) (m := 0) (Q := fun r y _ => ∃ a, r = .ok a ∧ y = x ∧ ∀ tr, Q a x tr)
    (reads fun s hs => ?_) (fun r y tr' hr => ?_) (by omega)
  · obtain ⟨a, ha, hQ⟩ := h s hs
    exact ⟨a, ha, rfl, hQ⟩
  · obtain ⟨a, rfl, rfl, hQ⟩ := hr
    exact hQ tr'

theorem updateTls_within {f : Tls → Except Fault Tls} {Q : Unit → Local → Trace β → Prop}
    (h : ∀ s : Shared β, Inv c t (x, s) →
      (∃ ts, f x.tls = .ok ts ∧ ∀ tr, Q () { x with tls := ts } tr) ∨
      f x.tls = .error .panic ∧ x.tls.held.length = maxHeldLockSlots ∧ k ≠ .unlock k.mutex) :
    Within (limits c t k) Q (updateTls f) 1 x tr := by
  refine Within.bind (n := 1) (m := 0)
    (Q := fun r y tr => (∃ ts, r = .ok ts ∧ ∀ tr, Q () y tr) ∨
      r = .error .panic ∧ ExitReason t k 1 tr)
    (Within.exchange fun s hs => ⟨.of_eq rfl, ?_⟩) (fun r y tr' hr => ?_) (by omega)
  · rcases h s hs with ⟨ts, hts, hQ⟩ | ⟨hpanic, hfull, hk⟩
    · refine Or.inl ⟨ts, hts, ?_⟩
      rw [show f (x, s).1.tls = .ok ts from hts]
      exact hQ
    · exact Or.inr ⟨hpanic, .heldStack _ _ _ hk hfull⟩
  · rcases hr with ⟨ts, rfl, hQ⟩ | ⟨rfl, hX⟩
    · exact hQ tr'
    · exact hX

/-! ## `state.c` -/

theorem getOrRegisterThreadSlot_within :
    Within (limits c t k) (fun i y _ => y = { x with threadSlot := some i })
      (getOrRegisterThreadSlot t : Code β Nat) 2 x tr := by
  refine Within.bind (n := 1) (m := 1) (Q := fun r y _ => y = x ∧ r = x.threadSlot)
    (reads fun s hs => ⟨rfl, rfl⟩) (fun r y tr' hr => ?_) (by omega)
  obtain ⟨rfl, rfl⟩ := hr
  cases hslot : y.threadSlot with
  | some i => exact congrArg (fun o => { y with threadSlot := o }) hslot
  | none =>
    refine Within.bind (n := 1) (m := 0)
      (Q := fun r z tr => r.elim (ExitReason t k 1 tr) fun i => z = { y with threadSlot := some i })
      (Within.exchange fun s hs => ⟨.registerThread _, ?_⟩) (fun r z tr'' hr => ?_) (by omega)
    · dsimp only
      rcases SlotTable.slotFor_cases s.threads t with
        ⟨i, -, hi⟩ | ⟨-, -, hi⟩ | ⟨hnew, hfull, hi⟩ <;> rw [hi]
      · rfl
      · rfl
      · refine .threadSlots _ _ _ hnew ?_
        have := s.threads.bound
        show s.threads.keys.length = _
        omega
    · cases r with
      | some i => exact hr
      | none => exact hr

theorem lookupLockSlotInCache_within (hm : m ≠ 0) :
    Within (limits c t k) (fun r y _ => y = x ∧ ∀ l, r = some l → Knows x m l)
      (lookupLockSlotInCache m : Code β (Option Nat)) 1 x tr := by
  refine reads fun s hs => ⟨rfl, fun l hl => ⟨hm, ?_⟩⟩
  dsimp only at hl
  split at hl
  · rename_i hit
    cases hl
    exact congrArg (fun m' => (⟨m', (x.cache (cacheIndex m)).lockSlot⟩ : CacheEntry)) hit
  · cases hl

/-- What a lookup leaves behind. -/
structure Found (x : Local) (m l : Nat) (y : Local) : Prop where
  knows : Knows y m l
  tls : y.tls = x.tls
  threadSlot : y.threadSlot = x.threadSlot

theorem Found.hit (h : Knows x m l) : Found x m l x := ⟨h, rfl, rfl⟩

theorem storeLockSlotInCache_within (hm : m ≠ 0) :
    Within (limits c t k) (fun _ y _ => Found x m l y)
      (storeLockSlotInCache m l : Code β Unit) 1 x tr :=
  Within.modify fun _ _ => ⟨.of_eq rfl, ⟨hm, Function.update_self _ _ _⟩, rfl, rfl⟩

theorem lookupOrCreateLockSlot_within (hk : k ≠ .unlock k.mutex) (hmk : k.mutex = m) :
    Within (limits c t k) (fun _ y _ => y = x)
      (lookupOrCreateLockSlot m : Code β Nat) 1 x tr := by
  refine Within.bind (n := 1) (m := 0) (Q := fun r y tr => y = x ∧ (r = none → ExitReason t k 1 tr))
    (Within.exchange fun s hs => ⟨.registerLock _, rfl, fun hr => ?_⟩) (fun r y tr' hr => ?_)
    (by omega)
  · rcases SlotTable.slotFor_cases s.locks m with ⟨l, -, hl⟩ | ⟨-, -, hl⟩ | ⟨hnew, hfull, -⟩
    · exact absurd (hl.symm.trans hr) (by simp)
    · exact absurd (hl.symm.trans hr) (by simp)
    · refine .lockSlots _ _ _ hk (hmk ▸ hnew) ?_
      have := s.locks.bound
      show s.locks.keys.length = _
      omega
  · cases r with
    | some l => exact hr.1
    | none => exact hr.2 rfl

theorem lookupOrCreateLockSlotCached_within (hm : m ≠ 0) (hk : k ≠ .unlock k.mutex)
    (hmk : k.mutex = m) : Within (limits c t k) (fun l y _ => Found x m l y)
      (lookupOrCreateLockSlotCached m : Code β Nat) 3 x tr := by
  refine Within.bind (lookupLockSlotInCache_within hm) (m := 2) (fun r y tr' hr => ?_) (by omega)
  obtain ⟨rfl, hit⟩ := hr
  cases r with
  | some l => exact .hit (hit l rfl)
  | none =>
    refine Within.bind (lookupOrCreateLockSlot_within hk hmk) (m := 1) (fun l z tr'' hz => ?_)
      (by omega)
    subst hz
    exact Within.bind (m := 0) (storeLockSlotInCache_within hm) (fun _ _ _ h => h) (by omega)

theorem lookupOrCreateLockSlotCachedFast_within (hm : m ≠ 0) (hk : k ≠ .unlock k.mutex)
    (hmk : k.mutex = m) : Within (limits c t k) (fun l y _ => Found x m l y)
      (lookupOrCreateLockSlotCachedFast m : Code β Nat) 4 x tr := by
  refine Within.bind (lookupLockSlotInCache_within hm) (m := 3) (fun r y tr' hr => ?_) (by omega)
  obtain ⟨rfl, hit⟩ := hr
  cases r with
  | some l => exact .hit (hit l rfl)
  | none => exact lookupOrCreateLockSlotCached_within hm hk hmk

/-- A lookup that may find nothing. -/
def FoundIfAny (x : Local) (m : Nat) (r : Option Nat) (y : Local) : Prop :=
  y.tls = x.tls ∧ y.threadSlot = x.threadSlot ∧ ∀ l, r = some l → Knows y m l

theorem lookupLockSlotCached_within (hm : m ≠ 0) :
    Within (limits c t k) (fun r y _ => FoundIfAny x m r y)
      (lookupLockSlotCached m : Code β (Option Nat)) 3 x tr := by
  refine Within.bind (lookupLockSlotInCache_within hm) (m := 2) (fun r y tr' hr => ?_) (by omega)
  obtain ⟨rfl, hit⟩ := hr
  cases r with
  | some l => exact ⟨rfl, rfl, hit⟩
  | none =>
    refine Within.bind (n := 1) (Q := fun _ z _ => z = y) (m := 1) (reads fun s hs => rfl)
      (fun r z tr'' hz => ?_) (by omega)
    subst hz
    cases r with
    | none => exact ⟨rfl, rfl, fun l hl => (by cases hl)⟩
    | some l =>
      refine Within.bind (m := 0) (storeLockSlotInCache_within hm) (fun _ w _ h => ?_) (by omega)
      exact ⟨h.tls, h.threadSlot, fun l' hl' => (by cases hl'; exact h.knows)⟩

theorem lookupLockSlotCachedFast_within (hm : m ≠ 0) :
    Within (limits c t k) (fun r y _ => FoundIfAny x m r y)
      (lookupLockSlotCachedFast m : Code β (Option Nat)) 4 x tr := by
  refine Within.bind (lookupLockSlotInCache_within hm) (m := 3) (fun r y tr' hr => ?_) (by omega)
  obtain ⟨rfl, hit⟩ := hr
  cases r with
  | some l => exact ⟨rfl, rfl, hit⟩
  | none => exact lookupLockSlotCached_within hm

/-! ## `lockdep.h` -/

theorem currentThreadSlot_within :
    Within (limits c t k) (fun i y _ => y = { x with threadSlot := some i })
      (currentThreadSlot t : Code β Nat) 3 x tr := by
  refine Within.bind (n := 1) (m := 2) (Q := fun r y _ => y = x ∧ r = x.threadSlot)
    (reads fun s hs => ⟨rfl, rfl⟩) (fun r y tr' hr => ?_) (by omega)
  obtain ⟨rfl, rfl⟩ := hr
  cases hslot : y.threadSlot with
  | some i => exact congrArg (fun o => { y with threadSlot := o }) hslot
  | none => exact getOrRegisterThreadSlot_within

theorem storeOwnerAcquirePc_within {pc : Nat} (hl : Sees x l) :
    Within (limits c t k) (fun _ y _ => y = x) (storeOwnerAcquirePc c l pc : Code β Unit) 1 x tr :=
  Within.ite (fun _ => Within.modify fun _ hs => ⟨.setOwnerPc (hl.lt hs) pc, rfl⟩)
    fun _ => Within.ret rfl

theorem storeOwner_within (hl : Sees x l) :
    Within (limits c t k) (fun _ y _ => y = x) (storeOwner l i : Code β Unit) 1 x tr :=
  Within.modify fun _ hs => ⟨.setOwner (hl.lt hs) _, rfl⟩

theorem clearOwner_within (hl : Sees x l) :
    Within (limits c t k) (fun _ y _ => y = x) (clearOwner c l i : Code β Unit) 2 x tr := by
  refine Within.bind (n := 1) (m := 1) (Q := fun _ y _ => y = x)
    (Within.exchange fun s hs => ⟨?_, rfl⟩) (fun hit y tr' hy => ?_) (by omega)
  · dsimp only
    split
    · exact .setOwner (hl.lt hs) none
    · exact .of_eq rfl
  · subst hy
    exact Within.ite (fun _ => storeOwnerAcquirePc_within hl) fun _ => Within.ret rfl

/-- The two stores at the end of an acquisition. -/
theorem storeOwners_within {pc : Nat} (hl : Sees x l) :
    Within (limits c t k) (fun _ _ _ => True)
      (do storeOwnerAcquirePc c l pc; storeOwner l i : Code β Unit) 2 x tr := by
  refine Within.bind (storeOwnerAcquirePc_within hl) (m := 1) (fun _ y tr' hy => ?_) (by omega)
  subst hy
  exact (storeOwner_within hl).mono (Nat.le_refl _) fun _ _ _ _ => trivial

/-- The top-level stores of an empty stack. -/
theorem acquireTopLevel_within (hm : Knows x m l) (hempty : x.tls.heldLockSlotCount = 0) :
    Within (limits c t k) (fun _ y _ => Knows y m l)
      (updateTls (·.acquireTopLevel c.mode l) : Code β Unit) 1 x tr := by
  refine updateTls_within fun s hs => Or.inl ?_
  obtain ⟨z, hz, -⟩ := hs.stack
  have hnil : z.heldLockSlots = [] := by
    have hcount := hz.count
    rw [show (x, s).1.tls.heldLockSlotCount = 0 from hempty] at hcount
    exact List.length_eq_zero_iff.1 (by omega)
  obtain ⟨ts, hts, -⟩ := HeldStack.acquireTopLevel_spec c.mode hz s.locks.bound (hm.lt hs) hnil
  exact ⟨ts, hts, fun _ => hm⟩

theorem acquireTopLevelMutexFast_within {pc : Nat} (hm : m ≠ 0) (hk : k ≠ .unlock k.mutex)
    (hmk : k.mutex = m) (hempty : x.tls.heldLockSlotCount = 0) :
    Within (limits c t k) (fun _ _ _ => True)
      (acquireTopLevelMutexFast c t m pc : Code β Unit) 10 x tr := by
  refine Within.bind currentThreadSlot_within (m := 7) (fun i y tr₁ hy => ?_) (by omega)
  refine Within.bind (lookupOrCreateLockSlotCachedFast_within hm hk hmk) (m := 3)
    (fun l z tr₂ hz => ?_) (by omega)
  have hcount : z.tls.heldLockSlotCount = 0 := by
    rw [hz.tls, hy]
    exact hempty
  refine Within.bind (acquireTopLevel_within hz.knows hcount) (m := 2) (fun _ w tr₃ hw => ?_)
    (by omega)
  exact storeOwners_within (Or.inl ⟨m, hw⟩)

theorem releaseTopLevelMutexFast_within :
    Within (limits c t k) (fun _ _ _ => True)
      (releaseTopLevelMutexFast c t m : Code β Bool) 9 x tr := by
  refine Within.bind count_within (m := 8) (fun count y tr₁ hy => ?_) (by omega)
  obtain ⟨rfl, hcount⟩ := hy
  refine Within.ite (fun _ => trivial) (fun hone => ?_)
  rw [hcount] at hone
  have hone' : y.tls.heldLockSlotCount = 1 := not_not.1 hone
  refine Within.bind (n := 1) (m := 7) (Q := fun l z _ => z = y ∧ l ∈ y.tls.held)
    (readTls_within fun s hs => ?_) (fun l z tr₂ hz => ?_) (by omega)
  · have hload : y.tls.load 0 = .ok (y.tls.heldLockSlots 0) :=
      HeldStack.load_ok (i := 0) (by decide)
    exact ⟨_, hload, fun _ => ⟨rfl, mem_of_single hone' hload⟩⟩
  obtain ⟨rfl, hmem⟩ := hz
  refine Within.bind (n := 1) (m := 6) (Q := fun _ w _ => w = z)
    (readTls_within fun s hs => ?_) (fun addr w tr₃ hw => ?_) (by omega)
  · have hlt : l < maxLockSlots := (hs.held_lt hmem).trans_le s.locks.bound
    exact ⟨_, if_neg (Nat.not_le.mpr hlt), fun _ => rfl⟩
  subst hw
  refine Within.ite (fun _ => trivial) (fun _ => ?_)
  refine Within.bind currentThreadSlot_within (m := 3) (fun i y₁ tr₄ hy₁ => ?_) (by omega)
  have hmem₁ : l ∈ y₁.tls.held := by
    rw [hy₁]
    exact hmem
  refine Within.bind (clearOwner_within (Or.inr hmem₁)) (m := 1) (fun _ y₂ tr₅ hy₂ => ?_) (by omega)
  subst hy₂
  refine Within.bind (n := 1) (m := 0) (Q := fun _ _ _ => True)
    (updateTls_within fun s hs => Or.inl ?_) (fun _ _ _ _ => trivial) (by omega)
  obtain ⟨z, hz, -⟩ := hs.stack
  obtain ⟨ts, hts, -⟩ := hz.noteReleases c.mode ((hs.held_lt hmem₁).trans_le s.locks.bound)
  refine ⟨{ ts with heldLockSlotCount := 0 }, ?_, fun _ => trivial⟩
  rw [show y₂.tls.noteThreadReleasesLockSlot c.mode l = .ok ts from hts, HeldStack.ok_bind]

/-! ## `core.c` -/

/-- The loads since `tr` lead from the lock slot `l` back to the thread slot `i`. -/
def Closed (i l : Nat) (tr tr' : Trace β) : Prop :=
  ∃ vs, LeadsBack i l vs ∧ tr' = tr ++ loads vs

theorem Closed.owner {v : View β} (ho : v.2.owner l = some i) :
    Closed i l tr (tr ++ [.access v v]) := ⟨[v], .owner ho, rfl⟩

theorem Closed.wait {v v' : View β} {l' u : Nat} {tr' : Trace β} (ho : v.2.owner l = some u)
    (hu : u ≠ i) (hw : v'.2.waiting u = some l')
    (h : Closed i l' (tr ++ [.access v v] ++ [.access v' v']) tr') : Closed i l tr tr' := by
  obtain ⟨vs, hvs, rfl⟩ := h
  exact ⟨v :: v' :: vs, .wait ho hu hw hvs, by simp [loads]⟩

/-- **The walk closes a chain it has loaded.** -/
theorem collect_within (n : Nat) (w : Walk) (tr : Trace β) :
    Within (limits c t k)
      (fun r y tr' => y = x ∧ (r.1 = true → Closed i w.currentLockSlot tr tr'))
      (collect i n w : Code β (Bool × Walk)) (2 * n) x tr := by
  induction n generalizing w tr with
  | zero => exact ⟨rfl, fun h => (by cases h)⟩
  | succ n ih =>
    refine Within.bind load_within (m := 2 * n + 1) (fun r y tr₁ hr => ?_) (by omega)
    obtain ⟨rfl, v, ho, rfl⟩ := hr
    cases r with
    | none => exact ⟨rfl, fun h => (by cases h)⟩
    | some u =>
      refine Within.ite (fun hu => ⟨rfl, fun _ => .owner (hu ▸ ho.symm)⟩) (fun hu => ?_)
      refine Within.bind load_within (m := 2 * n) (fun r z tr₂ hz => ?_) (by omega)
      obtain ⟨rfl, v', hw, rfl⟩ := hz
      cases r with
      | none => exact ⟨rfl, fun h => (by cases h)⟩
      | some l =>
        refine (ih _ _).mono (Nat.le_refl _) fun r y tr' hr => ⟨hr.1, fun hfound => ?_⟩
        exact .wait ho.symm hu hw.symm (hr.2 hfound)

theorem storeWaiting_within {o : Option Nat} (hi : x.threadSlot = some i) :
    Within (limits c t k) (fun _ y _ => y = x) (storeWaiting i o : Code β Unit) 1 x tr :=
  Within.modify fun _ hs => ⟨.setWaiting (hs.threadSlot_lt hi) o, rfl⟩

theorem storeWaitingPc_within {pc : Nat} (hi : x.threadSlot = some i) :
    Within (limits c t k) (fun _ y _ => y = x) (storeWaitingPc c i pc : Code β Unit) 1 x tr :=
  Within.ite (fun _ => Within.modify fun _ hs => ⟨.setWaitingPc (hs.threadSlot_lt hi) pc, rfl⟩)
    fun _ => Within.ret rfl

/-- The stores of a wait, and what comes after them. -/
theorem publishWait_within {pc : Nat} {p : Code β α} (hi : x.threadSlot = some i)
    (hm : Knows x m l)
    (hp : ∀ (v : View β) (site : Option (View β × Nat)), v.2.threads.find t = some i →
      v.2.locks.find m = some l → Within (limits c t k) Q p n x (tr ++ published v i l site)) :
    Within (limits c t k) Q (do storeWaiting i (some l); storeWaitingPc c i pc; p) (n + 2) x
      tr := by
  refine Within.bind (n := 1) (m := n + 1)
    (Q := fun _ y tr' => y = x ∧ ∃ v : View β, v.2.threads.find t = some i ∧
      v.2.locks.find m = some l ∧ tr' = tr ++ [.access v (v.1, v.2.setWaiting i (some l))])
    (Within.modify fun s hs => ⟨.setWaiting (hs.threadSlot_lt hi) _, rfl, (x, s), hs.slot i hi,
      hm.find hs, rfl⟩) (fun _ y tr₁ hy => ?_) (by omega)
  obtain ⟨rfl, v, hthread, hlock, rfl⟩ := hy
  refine Within.bind (n := 1) (m := n) (Q := fun _ z tr' => z = y ∧
    ∃ site, tr' = tr ++ published v i l site) (Within.ite (fun _ => ?_) fun _ => ?_)
    (fun _ z tr₂ hz => ?_) (by omega)
  · refine Within.modify fun s hs => ⟨.setWaitingPc (hs.threadSlot_lt hi) pc, rfl,
      some ((y, s), pc), ?_⟩
    simp [published]
  · exact ⟨rfl, none, rfl⟩
  · obtain ⟨rfl, site, rfl⟩ := hz
    exact hp v site hthread hlock

/-- The walk of a wait that has been published has come back to its thread. -/
def Detected (t m : Nat) (tr tr' : Trace β) : Prop :=
  ∃ (i l : Nat) (tr₀ : Trace β) (v : View β) (site : Option (View β × Nat)) (vs : List (View β)),
    tr <+: tr₀ ∧ v.2.threads.find t = some i ∧ v.2.locks.find m = some l ∧ LeadsBack i l vs ∧
      tr' = tr₀ ++ published v i l site ++ loads vs

theorem beforeBlockingMutexLock_within {pc : Nat} (hm : m ≠ 0) (hk : k ≠ .unlock k.mutex)
    (hmk : k.mutex = m) :
    Within (limits c t k) (fun r _ tr' => r = true → Detected t m tr tr')
      (beforeBlockingMutexLock c t m pc : Code β Bool) 265 x tr := by
  refine Within.bind currentThreadSlot_within.extends (m := 262) (fun i y tr₁ hy => ?_) (by omega)
  obtain ⟨hy, htr₁⟩ := hy
  refine Within.bind (lookupOrCreateLockSlotCachedFast_within hm hk hmk).extends (m := 258)
    (fun l z tr₂ hz => ?_) (by omega)
  obtain ⟨hz, htr₂⟩ := hz
  have hi : z.threadSlot = some i := by rw [hz.threadSlot, hy]
  have hlen : 2 * maxThreadSlots + 0 ≤ 256 := by decide
  refine publishWait_within hi hz.knows fun v site hthread hlock => ?_
  refine Within.bind (collect_within maxThreadSlots (Walk.start i l) _) (m := 0)
    (fun r y tr' hr hfound => ?_) hlen
  obtain ⟨vs, hwalk, rfl⟩ := hr.2 hfound
  exact ⟨i, l, tr₂, v, site, vs, htr₁.trans htr₂, hthread, hlock, hwalk, rfl⟩

theorem clearWait_within (hi : x.threadSlot = some i) :
    Within (limits c t k) (fun _ y _ => y = x) (clearWait c i : Code β Unit) 2 x tr := by
  refine Within.bind (storeWaiting_within hi) (m := 1) (fun _ y tr₁ hy => ?_) (by omega)
  subst hy
  exact storeWaitingPc_within hi

theorem cancelWait_within :
    Within (limits c t k) (fun _ _ _ => True) (cancelWait c t : Code β Unit) 5 x tr := by
  refine Within.bind currentThreadSlot_within (m := 2) (fun i y tr₁ hy => ?_) (by omega)
  have hi : y.threadSlot = some i := by rw [hy]
  exact (clearWait_within hi).mono (Nat.le_refl _) fun _ _ _ _ => trivial

theorem potentialOnAcquire_within {pc : Nat} (hk : k ≠ .unlock k.mutex) :
    Within (limits c t k) (fun _ y _ => y = x)
      (potentialOnAcquire i l pc : Code β Unit) 2 x tr := by
  refine Within.bind (n := 1) (m := 1)
    (Q := fun r y tr => y = x ∧ ((show Option β from r) = none → ExitReason t k 1 tr))
    (Within.query fun a => ⟨rfl, fun ha => ?_⟩) (fun r y tr₁ hr => ?_) (by omega)
  · cases ha
    exact .backend tr i l pc hk
  · obtain ⟨rfl, hX⟩ := hr
    cases hb : (show Option β from r) with
    | some b =>
      cases hb
      exact Within.modify fun s hs =>
        ⟨⟨Nat.le_refl _, Nat.le_refl _, fun _ _ => ⟨rfl, rfl⟩, fun _ _ => ⟨rfl, rfl⟩⟩, rfl⟩
    | none =>
      cases hb
      exact hX rfl

/-- A push on the stack, or its overflow. -/
theorem pushHeldLockSlot_within (hm : Knows x m l) (hk : k ≠ .unlock k.mutex) :
    Within (limits c t k) (fun _ y _ => Knows y m l ∧ y.threadSlot = x.threadSlot)
      (updateTls (·.pushHeldLockSlot c.mode l) : Code β Unit) 1 x tr := by
  refine updateTls_within fun s hs => ?_
  obtain ⟨z, hz, -⟩ := hs.stack
  rcases HeldStack.pushHeldLockSlot_spec hz s.locks.bound (hm.lt hs) with
    ⟨ts, _, hts, -, -⟩ | ⟨hpanic, hfull⟩
  · exact Or.inl ⟨ts, hts, fun _ => ⟨hm, rfl⟩⟩
  · refine Or.inr ⟨hpanic, ?_, hk⟩
    rw [show x.tls.held = z.heldLockSlots from hz.held]
    exact Nat.le_antisymm hz.limit hfull

theorem acquireMutex_within {clearWaitState : Bool} {pc : Nat} (hm : m ≠ 0)
    (hk : k ≠ .unlock k.mutex) (hmk : k.mutex = m) :
    Within (limits c t k) (fun _ _ _ => True)
      (acquireMutex c t m clearWaitState pc : Code β Unit) 15 x tr := by
  refine Within.bind currentThreadSlot_within (m := 12) (fun i y tr₁ hy => ?_) (by omega)
  refine Within.bind (lookupOrCreateLockSlotCachedFast_within hm hk hmk) (m := 8)
    (fun l z tr₂ hz => ?_) (by omega)
  have hi : z.threadSlot = some i := by rw [hz.threadSlot, hy]
  refine Within.bind count_within (m := 7) (fun count w tr₃ hw => ?_) (by omega)
  obtain ⟨rfl, hcount⟩ := hw
  -- after the stack has been written
  have htail : ∀ y tr, Knows y m l ∧ y.threadSlot = some i →
      Within (limits c t k) (fun _ _ _ => True)
        (if clearWaitState = true then do
          clearWait c i
          storeOwnerAcquirePc c l pc
          storeOwner l i
        else do
          storeOwnerAcquirePc c l pc
          storeOwner l i : Code β Unit) 4 y tr := by
    rintro y tr ⟨hknows, hslot⟩
    refine Within.ite (fun _ => ?_) (fun _ => ?_)
    · refine Within.bind (clearWait_within hslot) (m := 2) (fun _ y' tr' hy' => ?_) (by omega)
      subst hy'
      exact storeOwners_within (Or.inl ⟨m, hknows⟩)
    · exact (storeOwners_within (Or.inl ⟨m, hknows⟩)).mono (by omega) fun _ _ _ h => h
  refine Within.ite (fun hzero => ?_) (fun _ => ?_)
  · refine Within.bind (n := 1) (m := 4)
      (Q := fun _ y _ => Knows y m l ∧ y.threadSlot = some i) ?_ (fun _ y tr h => htail y tr h)
      (by omega)
    refine updateTls_within fun s hs => Or.inl ?_
    obtain ⟨v, hv, -⟩ := hs.stack
    have hnil : v.heldLockSlots = [] := by
      have := hv.count
      rw [show (w, s).1.tls.heldLockSlotCount = 0 from hcount.symm.trans hzero] at this
      exact List.length_eq_zero_iff.1 (by omega)
    obtain ⟨ts, hts, -⟩ := HeldStack.acquireTopLevel_spec c.mode hv s.locks.bound
      (hz.knows.lt hs) hnil
    exact ⟨ts, hts, fun _ => ⟨hz.knows, hi⟩⟩
  · refine Within.bind (potentialOnAcquire_within hk) (m := 5) (fun _ y tr₄ hy => ?_) (by omega)
    subst hy
    refine Within.bind (pushHeldLockSlot_within hz.knows hk) (m := 4) (fun _ y' tr₅ hy' => ?_)
      (by omega)
    exact htail y' tr₅ ⟨hy'.1, hy'.2.trans hi⟩

/-- The top of the stack, when it is the slot of the mutex. -/
theorem top_mem {keys : List Nat} {ts : Tls} {z : ThreadState}
    (hz : Represents keys.length ts z)
    (htop : HeldStack.tryLookupTopHeldLockSlot keys ts m = .ok (some l)) : l ∈ ts.held := by
  rw [HeldStack.tryLookupTopHeldLockSlot] at htop
  split at htop
  · cases htop
  · rename_i hne
    have hpos : z.heldLockSlots.length - 1 < z.heldLockSlots.length := by
      have := hz.count
      omega
    have hlast := List.getElem?_eq_getElem hpos
    have hindex : ts.heldLockSlotCount - 1 = ((z.heldLockSlots.length - 1 : Nat) : Int) := by
      rw [hz.count]
      omega
    rw [hindex, hz.load hlast, HeldStack.ok_bind, HeldStack.addr] at htop
    split at htop
    · cases htop
    · rw [HeldStack.ok_bind] at htop
      split at htop
      · cases htop
        rw [hz.held]
        exact List.getElem_mem _
      · cases htop

theorem releaseMutex_within (hm : m ≠ 0) :
    Within (limits c t k) (fun _ _ _ => True) (releaseMutex c t m : Code β Unit) 11 x tr := by
  refine Within.bind currentThreadSlot_within (m := 8) (fun i y tr₁ hy => ?_) (by omega)
  refine Within.bind (n := 1) (m := 7)
    (Q := fun top z _ => z = y ∧ ∀ l, top = some l → l ∈ y.tls.held)
    (readTls_within fun s hs => ?_) (fun top z tr₂ hz => ?_) (by omega)
  · obtain ⟨v, hv, -⟩ := hs.stack
    obtain ⟨top, htop, -⟩ := HeldStack.tryLookupTop_spec (m := m) hv s.locks.nodup s.locks.bound
    exact ⟨top, htop, fun _ => ⟨rfl, fun l hl => top_mem hv (hl ▸ htop)⟩⟩
  obtain ⟨rfl, htop⟩ := hz
  have hsome : ∀ l w tr, Sees w l → Within (limits c t k) (fun _ _ _ => True)
      (do clearOwner c l i; updateTls (·.releaseLockSlot c.mode l) : Code β Unit) 3 w tr := by
    intro l w tr hsees
    refine Within.bind (clearOwner_within hsees) (m := 1) (fun _ w' tr₄ hw' => ?_) (by omega)
    subst hw'
    refine updateTls_within fun s hs => Or.inl ?_
    obtain ⟨v, hv, -⟩ := hs.stack
    have hl := (hsees.lt hs).trans_le s.locks.bound
    exact (HeldStack.releaseLockSlot_spec hv hl).imp fun ts h => ⟨h.1, fun _ => trivial⟩
  cases top with
  | some l => exact (hsome l z tr₂ (Or.inr (htop l rfl))).mono (by omega) fun _ _ _ h => h
  | none =>
    refine Within.bind (lookupLockSlotCachedFast_within hm) (m := 3) (fun r w tr₃ hw => ?_)
      (by omega)
    cases r with
    | none => exact trivial
    | some l => exact hsome l w tr₃ (Or.inl ⟨m, hw.2.2 l rfl⟩)

/-! ## `hook.c` -/

theorem lockTopLevel_within {callsite : Nat} (hm : m ≠ 0) (hk : k = .lock m callsite)
    (hempty : x.tls.heldLockSlotCount = 0) :
    Within (limits c t k) (fun _ _ _ => True)
      (lockTopLevel c t m callsite : Code β Int) 11 x tr := by
  subst hk
  refine Within.bind (n := 1) (m := 10) (Q := fun _ y _ => y = x) (Within.query fun _ => rfl)
    (fun rc y tr₁ hy => ?_) (by omega)
  subst hy
  refine Within.ite (fun _ => ?_) (fun _ => trivial)
  exact Within.bind (acquireTopLevelMutexFast_within hm (by simp [Call.mutex]) rfl hempty) (m := 0)
    (fun _ _ _ h => h) (by omega)

theorem lockBusy_within {callsite : Nat} (hm : m ≠ 0) (hk : k = .lock m callsite)
    (hbusy : .answer (Query.realTrylock m) ebusy ∈ tr) :
    Within (limits c t k) (fun _ _ _ => True) (lockBusy c t m callsite : Code β Int) 281 x tr := by
  subst hk
  have hne : Call.lock m callsite ≠ .unlock (Call.lock m callsite).mutex := by simp
  refine Within.bind (beforeBlockingMutexLock_within hm hne rfl) (m := 16) (fun r y tr₁ hr => ?_)
    (by omega)
  refine Within.ite (fun hfound => ?_) (fun _ => ?_)
  · obtain ⟨i, l, tr₀, v, site, vs, htr, hi, hl, hwalk, rfl⟩ := hr hfound
    exact .deadlock m callsite i l tr₀ v site vs rfl (htr.subset hbusy) hi hl hwalk
  · refine Within.bind (n := 1) (m := 15) (Q := fun _ z _ => z = y) (Within.query fun _ => rfl)
      (fun rc z tr₂ hz => ?_) (by omega)
    refine Within.ite (fun _ => ?_) (fun _ => ?_)
    · exact Within.bind (acquireMutex_within hm hne rfl) (m := 0) (fun _ _ _ h => h) (by omega)
    · exact Within.bind cancelWait_within (m := 0) (fun _ _ _ h => h) (by omega)

theorem pthreadMutexLock_within {callsite : Nat} (hm : m ≠ 0) (hk : k = .lock m callsite) :
    Within (limits c t k) (fun _ _ _ => True)
      (pthreadMutexLock c t m callsite : Code β Int) 283 x tr := by
  refine Within.bind count_within (m := 282) (fun count y tr₁ hy => ?_) (by omega)
  obtain ⟨rfl, hcount⟩ := hy
  refine Within.ite (fun hzero => ?_) (fun _ => ?_)
  · exact (lockTopLevel_within hm hk (hcount.symm.trans hzero)).mono (by omega) fun _ _ _ h => h
  · refine Within.bind (n := 1) (m := 281)
      (Q := fun rc _ tr => Event.answer (Query.realTrylock m) rc ∈ tr)
      (Within.query fun _ => by simp) (fun rc z tr₂ hrc => ?_) (by omega)
    refine Within.ite (fun _ => ?_)
      (fun _ => Within.ite (fun he => lockBusy_within hm hk (he ▸ hrc)) fun _ => trivial)
    have hne : k ≠ .unlock k.mutex := by simp [hk]
    exact Within.bind (acquireMutex_within hm hne (by rw [hk]; rfl)) (m := 0) (fun _ _ _ h => h)
      (by omega)

theorem pthreadMutexTrylock_within {callsite : Nat} (hm : m ≠ 0) (hk : k = .trylock m callsite) :
    Within (limits c t k) (fun _ _ _ => True)
      (pthreadMutexTrylock c t m callsite : Code β Int) 17 x tr := by
  have hne : k ≠ .unlock k.mutex := by simp [hk]
  have hmk : k.mutex = m := by rw [hk]; rfl
  refine Within.bind (n := 1) (m := 16) (Q := fun _ y _ => y = x) (Within.query fun _ => rfl)
    (fun rc y tr₁ hy => ?_) (by omega)
  subst hy
  refine Within.ite (fun _ => ?_) (fun _ => trivial)
  refine Within.bind count_within (m := 15) (fun count z tr₂ hz => ?_) (by omega)
  obtain ⟨rfl, hcount⟩ := hz
  refine Within.ite (fun hzero => ?_) (fun _ => ?_)
  · have hempty := hcount.symm.trans hzero
    exact Within.bind (acquireTopLevelMutexFast_within hm hne hmk hempty) (m := 0)
      (fun _ _ _ h => h) (by omega)
  · exact Within.bind (acquireMutex_within hm hne hmk) (m := 0) (fun _ _ _ h => h) (by omega)

theorem pthreadMutexUnlock_within (hm : m ≠ 0) :
    Within (limits c t k) (fun _ _ _ => True)
      (pthreadMutexUnlock c t m : Code β Int) 21 x tr := by
  refine Within.bind (n := 1) (m := 20) (Q := fun _ y _ => y = x) (Within.query fun _ => rfl)
    (fun rc y tr₁ hy => ?_) (by omega)
  refine Within.ite (fun _ => ?_) (fun _ => trivial)
  refine Within.bind (n := 20) (m := 0) (Q := fun _ _ _ => True) ?_ (fun _ _ _ h => h) (by omega)
  refine Within.bind releaseTopLevelMutexFast_within (m := 11) (fun done z tr₂ _ => ?_) (by omega)
  exact Within.ite (fun _ => trivial) fun _ => releaseMutex_within hm

/-- The accesses and questions of a call, at most. -/
def callSteps : Call → Nat
  | .lock _ _ => 283
  | .trylock _ _ => 17
  | .unlock _ => 21

theorem hook_within (hm : k.mutex ≠ 0) :
    Within (limits c t k) (fun _ _ _ => True) (hook c t k : Code β Int) (callSteps k) x tr := by
  cases k with
  | lock m callsite => exact pthreadMutexLock_within hm rfl
  | trylock m callsite => exact pthreadMutexTrylock_within hm rfl
  | unlock m => exact pthreadMutexUnlock_within hm

end Code

/-! ## Every interleaving -/

/-- The bounds of the hooks. -/
def bounds (c : Setup) (b : β) : Bounds (machine c b) where
  inv := Inv c
  guar _ := Contained
  exits := ExitReason
  steps := callSteps
  reachable h t := reachable_inv h t
  code _ _ _ hk := hook_within (of_decide_eq_true hk)

/-- Thread 7 takes mutex 5, thread 8 mutex 6, and each then locks the other's. -/
def crossed : List (Act (Query.Answer Unit) Call Unit Unit) :=
  [⟨7, .call (.lock 5 0)⟩, ⟨7, .run⟩, ⟨7, .answer (.realLock 5) (0 : Int)⟩] ++
    List.replicate 10 ⟨7, .run⟩ ++
    [⟨8, .call (.lock 6 0)⟩, ⟨8, .run⟩, ⟨8, .answer (.realLock 6) (0 : Int)⟩] ++
    List.replicate 10 ⟨8, .run⟩ ++
    [⟨7, .call (.lock 6 0)⟩, ⟨7, .run⟩, ⟨7, .answer (.realTrylock 6) (16 : Int)⟩] ++
    List.replicate 8 ⟨7, .run⟩ ++
    [⟨8, .call (.lock 5 0)⟩, ⟨8, .run⟩, ⟨8, .answer (.realTrylock 5) (16 : Int)⟩] ++
    List.replicate 10 ⟨8, .run⟩

theorem crossed_runs : (Runs.exec (machine ⟨.global, false, false⟩ ()).system
    (machine ⟨.global, false, false⟩ ()).system.init crossed).map
      (fun s => (s.exited, s.shared.locks.keys, s.shared.threads.keys,
        (s.thr 7).frame.map fun f => f.call))
      = some (some 66, [5, 6], [7, 8], some (.lock 6 0)) := by
  decide +kernel

/-- The run of thread 7, blocked on its second mutex. -/
theorem crossed_reachable : ∃ s f, Runs.Reachable (machine ⟨.global, false, false⟩ ()).system s ∧
    s.exited = some 66 ∧ s.shared.locks.keys = [5, 6] ∧ s.shared.threads.keys = [7, 8] ∧
      (s.thr 7).frame = some f ∧ f.call = .lock 6 0 := by
  obtain ⟨s, hs, hp⟩ := Option.map_eq_some_iff.1 crossed_runs
  obtain ⟨hx, hp'⟩ := Prod.mk.inj hp
  obtain ⟨hlocks, hp''⟩ := Prod.mk.inj hp'
  obtain ⟨hthreads, hcall⟩ := Prod.mk.inj hp''
  obtain ⟨f, hf, hk⟩ := Option.map_eq_some_iff.1 hcall
  exact ⟨s, f, Runs.ReachableBy.exec .init hs, hx, hlocks, hthreads, hf, hk⟩

section
variable {c : Setup} {b : β} {s : Config β} {t : Nat}

/-- **The hooks end the process for a reason.** -/
theorem exits_justified (h : Runs.Reachable (machine c b).system s) {code : Nat}
    (hx : s.exited = some code) :
    ∃ t f, (s.thr t).frame = some f ∧ f.rest = .exit code ∧ ExitReason t f.call code f.events ∧
      (code = 66 ∨ code = 1) := by
  obtain ⟨t, f, hf, hrest, hX⟩ := (Bounds.sound (X := bounds c b) h).exited code hx
  exact ⟨t, f, hf, hrest, hX, hX.code⟩

theorem exits_justified_crossed : ∃ s t f,
    Runs.Reachable (machine ⟨.global, false, false⟩ ()).system s ∧ s.exited = some 66 ∧
      (s.thr t).frame = some f ∧ ExitReason t f.call 66 f.events := by
  obtain ⟨s, -, hr, hx, -⟩ := crossed_reachable
  obtain ⟨t, f, hf, -, hX, -⟩ := exits_justified hr hx
  exact ⟨s, t, f, hr, hx, hf, hX⟩

/-- The entries of slots that are not registered are zero. -/
structure Untouched (s : Shared β) : Prop where
  owner : ∀ l, s.locks.keys.length ≤ l → s.owner l = some 0 ∧ s.ownerPc l = 0
  waiting : ∀ k, s.threads.keys.length ≤ k → s.waiting k = some 0 ∧ s.waitingPc k = 0

/-- **Between registrations nothing outside the registered slots has been written.** -/
theorem unregistered_untouched (h : Runs.Reachable (machine c b).system s) :
    Untouched s.shared := by
  refine Bounds.invariant (X := bounds c b) (P := Untouched)
    ⟨fun _ _ => ⟨rfl, rfl⟩, fun _ _ => ⟨rfl, rfl⟩⟩ (fun t v w _ hG hU => ?_)
    (fun d s hU => ⟨hU.owner, hU.waiting⟩) h
  refine ⟨fun l hl => ?_, fun k hk => ?_⟩
  · obtain ⟨ho, hp⟩ := hG.owner l hl
    rw [ho, hp]
    exact hU.owner l (hG.locks.trans hl)
  · obtain ⟨hw, hp⟩ := hG.waiting k hk
    rw [hw, hp]
    exact hU.waiting k (hG.threads.trans hk)

theorem unregistered_untouched_crossed : ∃ s,
    Runs.Reachable (machine ⟨.global, false, false⟩ ()).system s ∧
      s.shared.owner 2 = some 0 ∧ s.shared.waiting 2 = some 0 := by
  obtain ⟨s, -, hr, -, hlocks, hthreads, -⟩ := crossed_reachable
  have hU := unregistered_untouched hr
  have howner := hU.owner 2 (by rw [hlocks]; decide)
  have hwaiting := hU.waiting 2 (by rw [hthreads]; decide)
  exact ⟨s, hr, howner.1, hwaiting.1⟩

end

end HookPrograms

end ScaleLockDep
