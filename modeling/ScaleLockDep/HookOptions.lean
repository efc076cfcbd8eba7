import ScaleLockDep.HookSpecs
import ScaleLockDep.ProgramSimulation

/-!
# The options of the hooks

`LOCKDEP_MODE`, `LOCKDEP_REPORT_SITES` and the backend behind `lockdep_potential_on_acquire`
take no part in the detection of actual deadlocks.

* `SameTls`, `SameLocal`, `SameShared`: what two settings share;
* `hook_alike`: a hook makes the same accesses to it under both;
* `options_share_detection`: every run under one setting is a run under the other, with the
  same calls, results of the real functions, return codes, tables and exit.
-/

namespace ScaleLockDep

namespace HookPrograms

open HeldStack (Tls Fault)
open Hooks (Walk)
open Programs

/-! ## The held stack -/

/-- The counts and bits of `rb` mode apart. -/
structure SameTls (x y : Tls) : Prop where
  slots : x.heldLockSlots = y.heldLockSlots
  count : x.heldLockSlotCount = y.heldLockSlotCount

/-- Both fail alike, or both succeed with results that `Q` relates. -/
inductive SameResult {α β : Type} (Q : α → β → Prop) : Except Fault α → Except Fault β → Prop
  | ok {a : α} {b : β} (h : Q a b) : SameResult Q (.ok a) (.ok b)
  | error (e : Fault) : SameResult Q (.error e) (.error e)

namespace SameResult

variable {α β γ δ : Type} {Q : α → β → Prop} {Q' : γ → δ → Prop}

theorem bind {x : Except Fault α} {y : Except Fault β} {f : α → Except Fault γ}
    {g : β → Except Fault δ} (h : SameResult Q x y)
    (hf : ∀ a b, Q a b → SameResult Q' (f a) (g b)) :
    SameResult Q' (x >>= f) (y >>= g) := by
  cases h with
  | ok h => exact hf _ _ h
  | error e => exact .error e

theorem ite {c : Prop} [Decidable c] {x x' : Except Fault α} {y y' : Except Fault β}
    (h : c → SameResult Q x y) (h' : ¬ c → SameResult Q x' y') :
    SameResult Q (if c then x else x') (if c then y else y') := by
  split
  · rename_i hc
    exact h hc
  · rename_i hc
    exact h' hc

end SameResult

section Tls
variable {x y : Tls} {l : Nat} {mode mode' : LockdepMode}

theorem SameTls.load (h : SameTls x y) (i : Int) : SameResult Eq (x.load i) (y.load i) := by
  unfold Tls.load
  rw [h.slots]
  exact .ite (fun _ => .ok rfl) (fun _ => .error _)

theorem SameTls.store (h : SameTls x y) (i : Int) (l : Nat) :
    SameResult SameTls (x.store i l) (y.store i l) := by
  unfold Tls.store
  rw [h.slots]
  exact .ite (fun _ => .ok ⟨rfl, h.count⟩) (fun _ => .error _)

theorem noteHolds_ok (x : Tls) (mode : LockdepMode) (hl : l < maxLockSlots) :
    ∃ x', x.noteThreadHoldsLockSlot mode l = .ok x' ∧ SameTls x x' := by
  unfold Tls.noteThreadHoldsLockSlot
  rw [if_neg (Nat.not_le.mpr hl)]
  split
  · exact ⟨_, rfl, rfl, rfl⟩
  · exact ⟨_, rfl, rfl, rfl⟩

theorem noteReleases_ok (x : Tls) (mode : LockdepMode) (hl : l < maxLockSlots) :
    ∃ x', x.noteThreadReleasesLockSlot mode l = .ok x' ∧ SameTls x x' := by
  unfold Tls.noteThreadReleasesLockSlot
  rw [if_neg (Nat.not_le.mpr hl)]
  split
  · exact ⟨_, rfl, rfl, rfl⟩
  · split
    · exact ⟨_, rfl, rfl, rfl⟩
    · exact ⟨_, rfl, rfl, rfl⟩

theorem SameTls.noteHolds (h : SameTls x y) (hl : l < maxLockSlots) :
    SameResult SameTls (x.noteThreadHoldsLockSlot mode l) (y.noteThreadHoldsLockSlot mode' l) := by
  obtain ⟨x', hx, hxs⟩ := noteHolds_ok x mode hl
  obtain ⟨y', hy, hys⟩ := noteHolds_ok y mode' hl
  rw [hx, hy]
  exact .ok ⟨hxs.slots.symm.trans (h.slots.trans hys.slots),
    hxs.count.symm.trans (h.count.trans hys.count)⟩

theorem SameTls.noteReleases (h : SameTls x y) (hl : l < maxLockSlots) :
    SameResult SameTls (x.noteThreadReleasesLockSlot mode l)
      (y.noteThreadReleasesLockSlot mode' l) := by
  obtain ⟨x', hx, hxs⟩ := noteReleases_ok x mode hl
  obtain ⟨y', hy, hys⟩ := noteReleases_ok y mode' hl
  rw [hx, hy]
  exact .ok ⟨hxs.slots.symm.trans (h.slots.trans hys.slots),
    hxs.count.symm.trans (h.count.trans hys.count)⟩

theorem SameTls.acquireTopLevel (h : SameTls x y) (hl : l < maxLockSlots) :
    SameResult SameTls (x.acquireTopLevel mode l) (y.acquireTopLevel mode' l) :=
  (h.store 0 l).bind fun _ _ h' => SameTls.noteHolds ⟨h'.slots, rfl⟩ hl

theorem SameTls.pushHeldLockSlot (h : SameTls x y) (hl : l < maxLockSlots) :
    SameResult SameTls (x.pushHeldLockSlot mode l) (y.pushHeldLockSlot mode' l) := by
  unfold Tls.pushHeldLockSlot
  rw [h.count]
  refine .ite (fun _ => .error _) (fun _ => ?_)
  exact (h.store _ l).bind fun _ _ h' => SameTls.noteHolds ⟨h'.slots, rfl⟩ hl

theorem SameTls.shiftDown (h : SameTls x y) (count : Int) (fuel j : Nat) :
    SameResult SameTls (Tls.shiftDown count fuel j x) (Tls.shiftDown count fuel j y) := by
  induction fuel generalizing j x y with
  | zero => exact .ok h
  | succ fuel ih =>
    refine .ite (fun _ => ?_) (fun _ => .ok h)
    refine (h.load _).bind fun k k' hk => ?_
    subst hk
    exact (h.store _ _).bind fun _ _ h' => ih h' _

theorem SameTls.removeBelow (h : SameTls x y) (hl : l < maxLockSlots) (i : Nat) :
    SameResult SameTls (Tls.removeBelow mode l i x) (Tls.removeBelow mode' l i y) := by
  induction i with
  | zero => exact .ok h
  | succ i ih =>
    refine (h.load _).bind fun k k' hk => ?_
    subst hk
    refine .ite (fun _ => ?_) (fun _ => ih)
    rw [h.count]
    exact (h.shiftDown _ _ _).bind fun _ _ h' => SameTls.noteReleases ⟨h'.slots, rfl⟩ hl

theorem SameTls.removeHeldLockSlot (h : SameTls x y) (hl : l < maxLockSlots) :
    SameResult SameTls (x.removeHeldLockSlot mode l) (y.removeHeldLockSlot mode' l) := by
  unfold Tls.removeHeldLockSlot
  rw [h.count]
  refine .ite (fun _ => ?_) (fun _ => .ok h)
  refine (h.load _).bind fun k k' hk => ?_
  subst hk
  refine .ite (fun _ => ?_) (fun _ => h.removeBelow hl _)
  exact SameTls.noteReleases ⟨h.slots, rfl⟩ hl

theorem SameTls.releaseLockSlot (h : SameTls x y) (hl : l < maxLockSlots) :
    SameResult SameTls (x.releaseLockSlot mode l) (y.releaseLockSlot mode' l) := by
  unfold Tls.releaseLockSlot
  rw [h.count]
  refine .ite (fun _ => ?_) (fun _ => h.removeHeldLockSlot hl)
  refine (h.load _).bind fun k k' hk => ?_
  subst hk
  refine .ite (fun _ => ?_) (fun _ => h.removeHeldLockSlot hl)
  exact (h.noteReleases hl).bind fun _ _ h' => .ok ⟨h'.slots, rfl⟩

end Tls

/-! ## States and answers -/

structure SameLocal (x y : Local) : Prop where
  tls : SameTls x.tls y.tls
  threadSlot : x.threadSlot = y.threadSlot
  cache : x.cache = y.cache

variable {β β' : Type}

/-- The call sites and the backend apart. -/
structure SameShared (s : Shared β) (s' : Shared β') : Prop where
  locks : s.locks = s'.locks
  threads : s.threads = s'.threads
  owner : s.owner = s'.owner
  waiting : s.waiting = s'.waiting

/-- A real function returns the same code; both backends panic, or neither. -/
def SameAnswer : (q : Query) → q.Answer β → (q' : Query) → q'.Answer β' → Prop
  | .realLock m, a, .realLock m', b => m = m' ∧ (show Int from a) = (show Int from b)
  | .realTrylock m, a, .realTrylock m', b => m = m' ∧ (show Int from a) = (show Int from b)
  | .realUnlock m, a, .realUnlock m', b => m = m' ∧ (show Int from a) = (show Int from b)
  | .potentialOnAcquire k l _, a, .potentialOnAcquire k' l' _, b =>
      k = k' ∧ l = l' ∧ (show Option β from a).isSome = (show Option β' from b).isSome
  | _, _, _, _ => False

/-- What two settings share of the view of a thread. -/
def Keep (v : View β) (w : View β') : Prop := SameLocal v.1 w.1 ∧ SameShared v.2 w.2

/-- At an access of thread `t`. -/
def Assume (c c' : Setup) (t : Nat) (v : View β) (w : View β') : Prop :=
  Inv c t v ∧ Inv c' t w ∧ SameLocal v.1 w.1 ∧ SameShared v.2 w.2

/-- Two pieces of code of thread `t`, under `c` and under `c'`. -/
def Alike (c c' : Setup) (t : Nat) {α : Type} (Q : α → α → Prop) (p : Code β α)
    (p' : Code β' α) : Prop :=
  Like (Assume c c' t) Keep SameAnswer Q p p'

/-- The same lock slot, within the table. -/
def SameSlot (l l' : Nat) : Prop := l = l' ∧ l < maxLockSlots

def SameSlot? (r r' : Option Nat) : Prop := r = r' ∧ ∀ l, r = some l → l < maxLockSlots

section Code
variable {c c' : Setup} {t m i l : Nat} {v : View β} {w : View β'}

theorem Assume.keep (h : Assume c c' t v w) : Keep v w := h.2.2

theorem Assume.find_lt (_ : Assume c c' t v w) (hl : v.2.locks.find m = some l) :
    l < maxLockSlots :=
  (SlotTable.find_lt hl).trans_le v.2.locks.bound

theorem Keep.setTls {x y : Tls} (h : Keep v w) (hxy : SameTls x y) :
    Keep ({ v.1 with tls := x }, v.2) ({ w.1 with tls := y }, w.2) :=
  ⟨⟨hxy, h.1.threadSlot, h.1.cache⟩, h.2⟩

/-! ## `state.c` -/

section Rules
variable {α γ : Type} {Q : α → α → Prop} {Q' : γ → γ → Prop}

theorem Alike.bind {p : Code β α} {p' : Code β' α} {k : α → Code β γ} {k' : α → Code β' γ}
    (h : Alike c c' t Q p p') (hk : ∀ a b, Q a b → Alike c c' t Q' (k a) (k' b)) :
    Alike c c' t Q' (p >>= k) (p' >>= k') := Like.bind h hk

theorem Alike.pure {a b : α} (h : Q a b) :
    Alike c c' t Q (Pure.pure a : Code β α) (Pure.pure b : Code β' α) := .ret h

theorem Alike.get {g : View β → α} {g' : View β' → α}
    (h : ∀ v w, Assume c c' t v w → Q (g v) (g' w)) :
    Alike c c' t Q (.get g) (.get g') := Like.get (fun _ _ => Assume.keep) h

/-- What is found, or else what is done about it. -/
theorem Alike.orElse {p : Code β (Option α)} {p' : Code β' (Option α)}
    {k : Option α → Code β γ} {k' : Option α → Code β' γ} {P : α → Prop}
    (h : Alike c c' t (fun r r' => r = r' ∧ ∀ a, r = some a → P a) p p')
    (hsome : ∀ a, P a → Alike c c' t Q' (k (some a)) (k' (some a)))
    (hnone : Alike c c' t Q' (k none) (k' none)) : Alike c c' t Q' (p >>= k) (p' >>= k') := by
  refine Alike.bind h fun r r' hr => ?_
  obtain ⟨rfl, hP⟩ := hr
  cases r with
  | some a => exact hsome a (hP a rfl)
  | none => exact hnone

end Rules

theorem getOrRegisterThreadSlot_alike :
    Alike c c' t Eq (getOrRegisterThreadSlot t : Code β Nat)
    (getOrRegisterThreadSlot t : Code β' Nat) := by
  refine Alike.orElse (P := fun _ => True) ?_ (fun _ _ => Alike.pure rfl)
    (Alike.orElse (P := fun _ => True) ?_ (fun _ _ => Alike.pure rfl) .exit)
  · exact Alike.get fun v w h => ⟨h.keep.1.threadSlot, fun _ _ => trivial⟩
  · refine Like.exchange fun v w h => ⟨⟨?_, ?_⟩, by rw [h.keep.2.threads], fun _ _ => trivial⟩
    · dsimp only
      rw [h.keep.2.threads]
      cases w.2.threads.slotFor t with
      | none => exact h.keep.1
      | some k => exact ⟨h.keep.1.tls, rfl, h.keep.1.cache⟩
    · have hs := h.keep.2
      dsimp only [Shared.registerThread]
      rw [hs.threads]
      split
      · exact ⟨hs.locks, rfl, hs.owner, by rw [hs.waiting]⟩
      · exact hs

theorem lookupOrCreateLockSlot_alike : Alike c c' t SameSlot
    (lookupOrCreateLockSlot m : Code β Nat) (lookupOrCreateLockSlot m : Code β' Nat) := by
  refine Alike.orElse (P := (· < maxLockSlots)) ?_ (fun _ hl => Alike.pure ⟨rfl, hl⟩) .exit
  refine Like.exchange fun v w h => ?_
  have hs := h.keep.2
  refine ⟨⟨h.keep.1, ?_⟩, by rw [hs.locks], fun l hl => ?_⟩
  · dsimp only [Shared.registerLock]
    rw [hs.locks]
    split
    · exact ⟨rfl, hs.threads, by rw [hs.owner], hs.waiting⟩
    · exact hs
  · unfold SlotTable.slotFor at hl
    split at hl
    · rename_i k hk
      cases hl
      exact h.find_lt hk
    · split at hl
      · rename_i hlt
        cases hl
        exact hlt
      · cases hl

theorem lookupLockSlotInCache_alike (hm : m ≠ 0) : Alike c c' t SameSlot?
    (lookupLockSlotInCache m : Code β (Option Nat))
    (lookupLockSlotInCache m : Code β' (Option Nat)) := by
  refine Alike.get fun v w h => ⟨by rw [h.keep.1.cache], fun l hl => ?_⟩
  split at hl
  · rename_i hit
    cases hl
    have hfind := h.1.cache (Registry.cacheIndex m) (by rw [hit]; exact hm)
    exact h.find_lt hfind
  · cases hl

theorem storeLockSlotInCache_alike : Alike c c' t Eq
    (storeLockSlotInCache m l : Code β Unit) (storeLockSlotInCache m l : Code β' Unit) :=
  Like.modify (fun _ _ h =>
    ⟨⟨h.keep.1.tls, h.keep.1.threadSlot, by rw [h.keep.1.cache]⟩, h.keep.2⟩) rfl

theorem lookupOrCreateLockSlotCached_alike (hm : m ≠ 0) : Alike c c' t SameSlot
    (lookupOrCreateLockSlotCached m : Code β Nat)
    (lookupOrCreateLockSlotCached m : Code β' Nat) := by
  refine Alike.orElse (lookupLockSlotInCache_alike hm) (fun l hl => Alike.pure ⟨rfl, hl⟩) ?_
  refine Alike.bind lookupOrCreateLockSlot_alike fun l l' hl => ?_
  obtain ⟨rfl, hlt⟩ := hl
  exact Alike.bind storeLockSlotInCache_alike fun _ _ _ => Alike.pure ⟨rfl, hlt⟩

theorem lookupLockSlotCached_alike (hm : m ≠ 0) : Alike c c' t SameSlot?
    (lookupLockSlotCached m : Code β (Option Nat))
    (lookupLockSlotCached m : Code β' (Option Nat)) := by
  have hsome : ∀ l, l < maxLockSlots → SameSlot? (some l) (some l) := fun l hl =>
    ⟨rfl, fun k hk => by cases hk; exact hl⟩
  refine Alike.orElse (lookupLockSlotInCache_alike hm) (fun l hl => Alike.pure (hsome l hl)) ?_
  refine Alike.orElse (P := (· < maxLockSlots)) ?_ (fun l hl => ?_)
    (Alike.pure ⟨rfl, fun _ h => by cases h⟩)
  · exact Alike.get fun v w h => ⟨by rw [h.keep.2.locks], fun l hl => h.find_lt hl⟩
  · exact Alike.bind storeLockSlotInCache_alike fun _ _ _ => Alike.pure (hsome l hl)

/-- A change of the held stack that the counts and bits do not enter. -/
theorem updateTls_alike {f g : Tls → Except Fault Tls}
    (h : ∀ x y, SameTls x y → SameResult SameTls (f x) (g y)) :
    Alike c c' t Eq (updateTls f : Code β Unit) (updateTls g : Code β' Unit) := by
  refine Alike.bind (Q := SameResult fun _ _ => True) ?_ fun r r' hr => ?_
  · refine Like.exchange fun v w hI => ?_
    have hfg := h _ _ hI.keep.1.tls
    dsimp only
    cases hf : f v.1.tls <;> cases hg : g w.1.tls <;> rw [hf, hg] at hfg
    · cases hfg
      exact ⟨hI.keep, .error _⟩
    · cases hfg
    · cases hfg
    · cases hfg with
      | ok hxy => exact ⟨hI.keep.setTls hxy, .ok trivial⟩
  · cases hr with
    | ok _ => exact .ret rfl
    | error e => cases e <;> exact .exit

theorem readTls_alike {α : Type} {Q : α → α → Prop} {f : View β → Except Fault α}
    {g : View β' → Except Fault α}
    (h : ∀ v w, Assume c c' t v w → SameResult Q (f v) (g w)) :
    Alike c c' t Q (readTls f) (readTls g) := by
  refine Alike.bind (Alike.get h) fun r r' hr => ?_
  cases hr with
  | ok hQ => exact .ret hQ
  | error e => cases e <;> exact .exit

/-! ## `lockdep.h` -/

theorem currentThreadSlot_alike : Alike c c' t Eq (currentThreadSlot t : Code β Nat)
    (currentThreadSlot t : Code β' Nat) := by
  refine Alike.orElse (P := fun _ => True) ?_ (fun _ _ => Alike.pure rfl)
    getOrRegisterThreadSlot_alike
  exact Alike.get fun v w h => ⟨h.keep.1.threadSlot, fun _ _ => trivial⟩

theorem Keep.of_eq {s : Shared β} {s' : Shared β'} (h : Keep v w) (hlocks : s.locks = v.2.locks)
    (hlocks' : s'.locks = w.2.locks) (hthreads : s.threads = v.2.threads)
    (hthreads' : s'.threads = w.2.threads) (howner : s.owner = v.2.owner)
    (howner' : s'.owner = w.2.owner) (hwaiting : s.waiting = v.2.waiting)
    (hwaiting' : s'.waiting = w.2.waiting) : Keep (v.1, s) (w.1, s') :=
  ⟨h.1, by rw [hlocks, hlocks', h.2.locks], by rw [hthreads, hthreads', h.2.threads],
    by rw [howner, howner', h.2.owner], by rw [hwaiting, hwaiting', h.2.waiting]⟩

/-- The call sites are stored where nothing else is. -/
theorem storeOwnerAcquirePc_alike {pc pc' : Nat} : Alike c c' t Eq
    (storeOwnerAcquirePc c l pc : Code β Unit) (storeOwnerAcquirePc c' l pc' : Code β' Unit) :=
  Like.modify_ite (fun _ _ h => h.keep.of_eq rfl rfl rfl rfl rfl rfl rfl rfl)
    (fun _ _ h => h.keep.of_eq rfl rfl rfl rfl rfl rfl rfl rfl)
    (fun _ _ h => h.keep.of_eq rfl rfl rfl rfl rfl rfl rfl rfl) rfl

theorem storeOwner_alike : Alike c c' t Eq (storeOwner l i : Code β Unit)
    (storeOwner l i : Code β' Unit) := by
  refine Like.modify (fun v w h => ?_) rfl
  obtain ⟨hown, hs⟩ := h.keep
  exact ⟨hown, hs.locks, hs.threads, by simp only [Shared.setOwner, hs.owner], hs.waiting⟩

theorem clearOwner_alike : Alike c c' t Eq (clearOwner c l i : Code β Unit)
    (clearOwner c' l i : Code β' Unit) := by
  refine Alike.bind (Q := Eq) ?_ fun hit hit' hh => ?_
  · refine Like.exchange fun v w h => ?_
    obtain ⟨hown, hs⟩ := h.keep
    rw [hs.owner]
    refine ⟨⟨hown, ?_⟩, rfl⟩
    split
    · exact ⟨hs.locks, hs.threads, by simp only [Shared.setOwner, hs.owner], hs.waiting⟩
    · exact hs
  · subst hh
    exact Like.ite (fun _ => storeOwnerAcquirePc_alike) fun _ => Alike.pure rfl

theorem lookupLockSlotCachedFast_alike (hm : m ≠ 0) : Alike c c' t SameSlot?
    (lookupLockSlotCachedFast m : Code β (Option Nat))
    (lookupLockSlotCachedFast m : Code β' (Option Nat)) := by
  refine Alike.orElse (lookupLockSlotInCache_alike hm) (fun l hl => Alike.pure ⟨rfl, ?_⟩)
    (lookupLockSlotCached_alike hm)
  exact fun k hk => by cases hk; exact hl

theorem lookupOrCreateLockSlotCachedFast_alike (hm : m ≠ 0) : Alike c c' t SameSlot
    (lookupOrCreateLockSlotCachedFast m : Code β Nat)
    (lookupOrCreateLockSlotCachedFast m : Code β' Nat) :=
  Alike.orElse (lookupLockSlotInCache_alike hm) (fun _ hl => Alike.pure ⟨rfl, hl⟩)
    (lookupOrCreateLockSlotCached_alike hm)

theorem acquireTopLevelMutexFast_alike {pc pc' : Nat} (hm : m ≠ 0) : Alike c c' t Eq
    (acquireTopLevelMutexFast c t m pc : Code β Unit)
    (acquireTopLevelMutexFast c' t m pc' : Code β' Unit) := by
  refine Alike.bind currentThreadSlot_alike fun i i' hi => ?_
  subst hi
  refine Alike.bind (lookupOrCreateLockSlotCachedFast_alike hm) fun l l' hl => ?_
  obtain ⟨rfl, hlt⟩ := hl
  refine Alike.bind (updateTls_alike fun _ _ h => h.acquireTopLevel hlt) fun _ _ _ => ?_
  exact Alike.bind storeOwnerAcquirePc_alike fun _ _ _ => storeOwner_alike

theorem addr_lt {keys : List Nat} {a : Option Nat} (h : HeldStack.addr keys l = .ok a) :
    l < maxLockSlots := by
  unfold HeldStack.addr at h
  split at h
  · cases h
  · rename_i hlt
    exact Nat.lt_of_not_le hlt

theorem addr_alike (l : Nat) (h : Assume c c' t v w) :
    SameResult (fun a b => a = b ∧ l < maxLockSlots) (HeldStack.addr v.2.locks.keys l)
      (HeldStack.addr w.2.locks.keys l) := by
  rw [h.keep.2.locks]
  cases ha : HeldStack.addr w.2.locks.keys l with
  | error e => exact .error e
  | ok a => exact .ok ⟨rfl, addr_lt ha⟩

theorem releaseTopLevelMutexFast_alike : Alike c c' t Eq
    (releaseTopLevelMutexFast c t m : Code β Bool)
    (releaseTopLevelMutexFast c' t m : Code β' Bool) := by
  refine Alike.bind (Alike.get (Q := Eq) fun v w h => h.keep.1.tls.count) fun n n' hn => ?_
  subst hn
  refine Like.ite (fun _ => Alike.pure rfl) fun _ => ?_
  refine Alike.bind (readTls_alike fun v w h => h.keep.1.tls.load 0) fun l l' hl => ?_
  subst hl
  refine Alike.bind (readTls_alike fun v w h => addr_alike l h) fun a a' ha => ?_
  obtain ⟨rfl, hlt⟩ := ha
  refine Like.ite (fun _ => Alike.pure rfl) fun _ => ?_
  refine Alike.bind currentThreadSlot_alike fun i i' hi => ?_
  subst hi
  refine Alike.bind clearOwner_alike fun _ _ _ => ?_
  refine Alike.bind (updateTls_alike fun _ _ h => ?_) fun _ _ _ => Alike.pure rfl
  exact (h.noteReleases hlt).bind fun _ _ h' => .ok ⟨h'.slots, rfl⟩

/-! ## `core.c` -/

theorem storeWaiting_alike {x : Option Nat} : Alike c c' t Eq (storeWaiting i x : Code β Unit)
    (storeWaiting i x : Code β' Unit) := by
  refine Like.modify (fun v w h => ?_) rfl
  obtain ⟨hown, hs⟩ := h.keep
  exact ⟨hown, hs.locks, hs.threads, hs.owner, by simp only [Shared.setWaiting, hs.waiting]⟩

theorem storeWaitingPc_alike {pc pc' : Nat} : Alike c c' t Eq
    (storeWaitingPc c i pc : Code β Unit) (storeWaitingPc c' i pc' : Code β' Unit) :=
  Like.modify_ite (fun _ _ h => h.keep.of_eq rfl rfl rfl rfl rfl rfl rfl rfl)
    (fun _ _ h => h.keep.of_eq rfl rfl rfl rfl rfl rfl rfl rfl)
    (fun _ _ h => h.keep.of_eq rfl rfl rfl rfl rfl rfl rfl rfl) rfl

/-- **The walks load the same entries.** -/
theorem collect_alike (n : Nat) (x : Walk) : Alike c c' t Eq
    (collect i n x : Code β (Bool × Walk)) (collect i n x : Code β' (Bool × Walk)) := by
  induction n generalizing x with
  | zero => exact Alike.pure rfl
  | succ n ih =>
    have howner : Alike c c' t Eq (.get fun v : View β => v.2.owner x.currentLockSlot)
        (.get fun w : View β' => w.2.owner x.currentLockSlot) :=
      Alike.get fun _ _ h => by rw [h.keep.2.owner]
    refine Alike.bind howner fun u u' hu => ?_
    subst hu
    cases u with
    | none => exact Alike.pure rfl
    | some u =>
      refine Like.ite (fun _ => Alike.pure rfl) fun _ => ?_
      have hwaiting : Alike c c' t Eq (.get fun v : View β => v.2.waiting u)
          (.get fun w : View β' => w.2.waiting u) :=
        Alike.get fun _ _ h => by rw [h.keep.2.waiting]
      refine Alike.bind hwaiting fun k k' hk => ?_
      subst hk
      cases k with
      | none => exact Alike.pure rfl
      | some k => exact ih _

theorem beforeBlockingMutexLock_alike {pc pc' : Nat} (hm : m ≠ 0) : Alike c c' t Eq
    (beforeBlockingMutexLock c t m pc : Code β Bool)
    (beforeBlockingMutexLock c' t m pc' : Code β' Bool) := by
  refine Alike.bind currentThreadSlot_alike fun i i' hi => ?_
  subst hi
  refine Alike.bind (lookupOrCreateLockSlotCachedFast_alike hm) fun l l' hl => ?_
  obtain ⟨rfl, -⟩ := hl
  refine Alike.bind storeWaiting_alike fun _ _ _ => ?_
  refine Alike.bind storeWaitingPc_alike fun _ _ _ => ?_
  refine Alike.bind (collect_alike _ _) fun r r' hr => ?_
  subst hr
  exact Alike.pure rfl

theorem clearWait_alike : Alike c c' t Eq (clearWait c i : Code β Unit)
    (clearWait c' i : Code β' Unit) :=
  Alike.bind storeWaiting_alike fun _ _ _ => storeWaitingPc_alike

theorem cancelWait_alike : Alike c c' t Eq (cancelWait c t : Code β Unit)
    (cancelWait c' t : Code β' Unit) := by
  refine Alike.bind currentThreadSlot_alike fun i i' hi => ?_
  subst hi
  exact clearWait_alike

/-- Whatever the backends do, both panic or neither does. -/
theorem potentialOnAcquire_alike {pc pc' : Nat} (b : β') : Alike c c' t Eq
    (potentialOnAcquire i l pc : Code β Unit) (potentialOnAcquire i l pc' : Code β' Unit) := by
  refine Like.ask (fun a => ?_) fun a a' ha => ?_
  · cases a with
    | none => exact ⟨none, rfl, rfl, rfl⟩
    | some a => exact ⟨some b, rfl, rfl, rfl⟩
  · obtain ⟨-, -, ha⟩ := ha
    cases a with
    | none =>
      cases a' with
      | none => exact .exit
      | some a' => cases ha
    | some a =>
      cases a' with
      | none => cases ha
      | some a' =>
        exact Like.modify (fun _ _ h => h.keep.of_eq rfl rfl rfl rfl rfl rfl rfl rfl) rfl

theorem acquireMutex_alike {clear : Bool} {pc pc' : Nat} (b : β') (hm : m ≠ 0) :
    Alike c c' t Eq (acquireMutex c t m clear pc : Code β Unit)
      (acquireMutex c' t m clear pc' : Code β' Unit) := by
  refine Alike.bind currentThreadSlot_alike fun i i' hi => ?_
  subst hi
  refine Alike.bind (lookupOrCreateLockSlotCachedFast_alike hm) fun l l' hl => ?_
  obtain ⟨rfl, hlt⟩ := hl
  refine Alike.bind (Alike.get (Q := Eq) fun v w h => h.keep.1.tls.count) fun n n' hn => ?_
  subst hn
  have hend : Alike c c' t Eq
      (do storeOwnerAcquirePc c l pc; storeOwner l i : Code β Unit)
      (do storeOwnerAcquirePc c' l pc'; storeOwner l i : Code β' Unit) :=
    Alike.bind storeOwnerAcquirePc_alike fun _ _ _ => storeOwner_alike
  have htail : Alike c c' t Eq
      (if clear = true then do clearWait c i; storeOwnerAcquirePc c l pc; storeOwner l i
        else do storeOwnerAcquirePc c l pc; storeOwner l i : Code β Unit)
      (if clear = true then do clearWait c' i; storeOwnerAcquirePc c' l pc'; storeOwner l i
        else do storeOwnerAcquirePc c' l pc'; storeOwner l i : Code β' Unit) :=
    Like.ite (fun _ => Alike.bind clearWait_alike fun _ _ _ => hend) fun _ => hend
  refine Like.ite (fun _ => ?_) fun _ => ?_
  · exact Alike.bind (updateTls_alike fun _ _ h => h.acquireTopLevel hlt) fun _ _ _ => htail
  · refine Alike.bind (potentialOnAcquire_alike b) fun _ _ _ => ?_
    exact Alike.bind (updateTls_alike fun _ _ h => h.pushHeldLockSlot hlt) fun _ _ _ => htail

theorem tryLookupTop_alike (h : Assume c c' t v w) :
    SameResult SameSlot? (HeldStack.tryLookupTopHeldLockSlot v.2.locks.keys v.1.tls m)
      (HeldStack.tryLookupTopHeldLockSlot w.2.locks.keys w.1.tls m) := by
  unfold HeldStack.tryLookupTopHeldLockSlot
  rw [h.keep.1.tls.count]
  refine .ite (fun _ => .ok ⟨rfl, fun _ hl => by cases hl⟩) fun _ => ?_
  refine (h.keep.1.tls.load _).bind fun l l' hl => ?_
  subst hl
  refine (addr_alike l h).bind fun a a' ha => ?_
  obtain ⟨rfl, hlt⟩ := ha
  refine .ok ⟨rfl, fun k hk => ?_⟩
  split at hk
  · cases hk
    exact hlt
  · cases hk

theorem releaseMutex_alike (hm : m ≠ 0) : Alike c c' t Eq (releaseMutex c t m : Code β Unit)
    (releaseMutex c' t m : Code β' Unit) := by
  have hfound : ∀ i l, l < maxLockSlots → Alike c c' t Eq
      (do clearOwner c l i; updateTls (·.releaseLockSlot c.mode l) : Code β Unit)
      (do clearOwner c' l i; updateTls (·.releaseLockSlot c'.mode l) : Code β' Unit) :=
    fun i l hl => Alike.bind clearOwner_alike fun _ _ _ =>
      updateTls_alike fun _ _ h => h.releaseLockSlot hl
  refine Alike.bind currentThreadSlot_alike fun i i' hi => ?_
  subst hi
  refine Alike.orElse (readTls_alike fun v w h => tryLookupTop_alike h)
    (fun l hl => hfound i l hl) ?_
  exact Alike.orElse (lookupLockSlotCachedFast_alike hm) (fun l hl => hfound i l hl)
    (Alike.pure rfl)

/-! ## `hook.c` -/

theorem realTrylock_alike : Alike c c' t Eq (realTrylock m : Code β Int)
    (realTrylock m : Code β' Int) :=
  Like.ask (fun a => ⟨a, rfl, rfl⟩) fun _ _ h => .ret h.2

theorem realLock_alike : Alike c c' t Eq (realLock m : Code β Int)
    (realLock m : Code β' Int) :=
  Like.ask (fun a => ⟨a, rfl, rfl⟩) fun _ _ h => .ret h.2

theorem realUnlock_alike : Alike c c' t Eq (realUnlock m : Code β Int)
    (realUnlock m : Code β' Int) :=
  Like.ask (fun a => ⟨a, rfl, rfl⟩) fun _ _ h => .ret h.2

theorem pthreadMutexLock_alike {callsite : Nat} (b : β') (hm : m ≠ 0) : Alike c c' t Eq
    (pthreadMutexLock c t m callsite : Code β Int)
    (pthreadMutexLock c' t m callsite : Code β' Int) := by
  refine Alike.bind (Alike.get (Q := Eq) fun v w h => h.keep.1.tls.count) fun n n' hn => ?_
  subst hn
  refine Like.ite (fun _ => ?_) fun _ => ?_
  · refine Alike.bind realLock_alike fun rc rc' hrc => ?_
    subst hrc
    refine Like.ite (fun _ => ?_) fun _ => Alike.pure rfl
    exact Alike.bind (acquireTopLevelMutexFast_alike hm) fun _ _ _ => Alike.pure rfl
  · refine Alike.bind realTrylock_alike fun rc rc' hrc => ?_
    subst hrc
    refine Like.ite (fun _ => ?_) fun _ => Like.ite (fun _ => ?_) fun _ => Alike.pure rfl
    · exact Alike.bind (acquireMutex_alike b hm) fun _ _ _ => Alike.pure rfl
    · refine Alike.bind (beforeBlockingMutexLock_alike hm) fun found found' hfound => ?_
      subst hfound
      refine Like.ite (fun _ => .exit) fun _ => ?_
      refine Alike.bind realLock_alike fun rc' rc'' hrc' => ?_
      subst hrc'
      refine Like.ite (fun _ => ?_) fun _ => ?_
      · exact Alike.bind (acquireMutex_alike b hm) fun _ _ _ => Alike.pure rfl
      · exact Alike.bind cancelWait_alike fun _ _ _ => Alike.pure rfl

theorem pthreadMutexTrylock_alike {callsite : Nat} (b : β') (hm : m ≠ 0) : Alike c c' t Eq
    (pthreadMutexTrylock c t m callsite : Code β Int)
    (pthreadMutexTrylock c' t m callsite : Code β' Int) := by
  refine Alike.bind realTrylock_alike fun rc rc' hrc => ?_
  subst hrc
  refine Like.ite (fun _ => ?_) fun _ => Alike.pure rfl
  refine Alike.bind (Alike.get (Q := Eq) fun v w h => h.keep.1.tls.count) fun n n' hn => ?_
  subst hn
  refine Like.ite (fun _ => ?_) fun _ => ?_
  · exact Alike.bind (acquireTopLevelMutexFast_alike hm) fun _ _ _ => Alike.pure rfl
  · exact Alike.bind (acquireMutex_alike b hm) fun _ _ _ => Alike.pure rfl

theorem pthreadMutexUnlock_alike (hm : m ≠ 0) : Alike c c' t Eq
    (pthreadMutexUnlock c t m : Code β Int) (pthreadMutexUnlock c' t m : Code β' Int) := by
  refine Alike.bind realUnlock_alike fun rc rc' hrc => ?_
  subst hrc
  refine Like.ite (fun _ => ?_) fun _ => Alike.pure rfl
  refine Alike.bind (Q := Eq) ?_ fun _ _ _ => Alike.pure rfl
  refine Alike.bind releaseTopLevelMutexFast_alike fun done done' hdone => ?_
  subst hdone
  exact Like.ite (fun _ => Alike.pure rfl) fun _ => releaseMutex_alike hm

/-- **A hook makes the same accesses to what the settings share.** -/
theorem hook_alike {k : Call} (b : β') (hm : k.mutex ≠ 0) :
    Alike c c' t Eq (hook c t k : Code β Int) (hook c' t k : Code β' Int) := by
  cases k with
  | lock m callsite => exact pthreadMutexLock_alike b hm
  | trylock m callsite => exact pthreadMutexTrylock_alike b hm
  | unlock m => exact pthreadMutexUnlock_alike hm

end Code

/-! ## Runs -/

/-- The hooks under `c`, with the backend starting at `b`, against those under `c'` with
another backend. -/
def options {c c' : Setup} (h : c.abandons = c'.abandons) (b : β) (b' : β') :
    Simulation (machine c b) (machine c' b') where
  own := SameLocal
  shared := SameShared
  answer := SameAnswer
  inv := Inv c
  inv' := Inv c'
  reachable hr t := reachable_inv hr t
  reachable' hr t := reachable_inv hr t
  init := ⟨⟨⟨rfl, rfl⟩, rfl, rfl⟩, rfl, rfl, rfl, rfl⟩
  valid _ := rfl
  code t k hk := hook_alike b' (of_decide_eq_true hk)
  between := by
    intro e l l' m hl hm
    change (if c.abandons = true ∨ l.tls.heldLockSlotCount = 0 then some Local.initial
      else none) = some m at hm
    change ∃ m', (if c'.abandons = true ∨ l'.tls.heldLockSlotCount = 0 then some Local.initial
      else none) = some m' ∧ _
    rw [h, hl.tls.count] at hm
    exact ⟨m, hm, ⟨rfl, rfl⟩, rfl, rfl⟩
  outside h := ⟨h.locks, h.threads, h.owner, h.waiting⟩

/-- **The options take no part in the detection of actual deadlocks**: every run under one
setting and backend is a run under any other, with the same calls, answers of the real
functions and return codes, the same owners and waits, and the same exit. -/
theorem options_share_detection {c c' : Setup} (h : c.abandons = c'.abandons) (b : β) (b' : β')
    {s : Config β} {log : List (Nat × Seen (Query.Answer β) Call Int)}
    (hr : Runs.Reachable (machine c b).logged (s, log)) :
    ∃ s' log', Runs.Reachable (machine c' b').logged (s', log') ∧
      s'.exited = s.exited ∧ SameShared s.shared s'.shared ∧
      (∀ t, SameLocal (s.thr t).own (s'.thr t).own) ∧ (options h b b').LogLike log log' := by
  obtain ⟨s', log', hr', hrel, hlog⟩ := (options h b b').sound hr
  exact ⟨s', log', hr', hrel.exited.symm, hrel.shared, fun t => (hrel.thread t).own, hlog⟩

/-- Thread 7 takes two mutexes under the cheapest settings. -/
def twoLocks : List (Act (Query.Answer Unit) Call Unit Unit) :=
  ⟨7, .call (.lock 5 0)⟩ :: ⟨7, .run⟩ :: ⟨7, .answer (.realLock 5) (0 : Int)⟩ ::
    (List.replicate 10 ⟨7, .run⟩ ++ [⟨7, .call (.lock 6 0)⟩, ⟨7, .run⟩,
      ⟨7, .answer (.realTrylock 6) (0 : Int)⟩] ++ List.replicate 6 ⟨7, .run⟩ ++
      [⟨7, .answer (.potentialOnAcquire 0 1 0) (some ())⟩] ++ List.replicate 4 ⟨7, .run⟩)

theorem twoLocks_runs : (Runs.exec (machine ⟨.rb, false, false⟩ ()).logged
    (machine ⟨.rb, false, false⟩ ()).logged.init twoLocks).map
      (fun p => ((p.1.thr 7).own.tls.held, p.2.length)) = some ([0, 1], 7) := by
  decide +kernel

/-- It holds both with the call sites and the global mode too, and is seen to do the same. -/
theorem options_share_detection_twoLocks : ∃ s log,
    Runs.Reachable (machine ⟨.global, true, false⟩ ()).logged (s, log) ∧
      (s.thr 7).own.tls.held = [0, 1] ∧ log.length = 7 := by
  obtain ⟨⟨s, log⟩, hs, hp⟩ := Option.map_eq_some_iff.1 twoLocks_runs
  obtain ⟨hheld, hlen⟩ := Prod.mk.inj hp
  have hr : Runs.Reachable (machine ⟨.rb, false, false⟩ ()).logged (s, log) :=
    Runs.ReachableBy.exec .init hs
  obtain ⟨s', log', hr', -, -, hown, hlog⟩ :=
    @options_share_detection Unit Unit ⟨.rb, false, false⟩ ⟨.global, true, false⟩ rfl () () s log hr
  refine ⟨s', log', hr', ?_, hlog.length_eq.symm.trans hlen⟩
  rw [Tls.held, ← (hown 7).tls.slots, ← (hown 7).tls.count]
  exact hheld

end HookPrograms

end ScaleLockDep
