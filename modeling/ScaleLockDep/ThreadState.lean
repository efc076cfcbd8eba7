import ScaleLockDep.WordSet
import Mathlib.Data.List.Count

/-!
# The per-thread held-lock state

The limits of `lockdep.h`, `lockdep_thread_state_t`, and the operations of
`state.c` and `lockdep.h` that change it.  A mutex is named by its lock slot
and a thread by its thread slot; `LOCKDEP_INVALID_SLOT` is `none`.

* `count_*`: what each operation does to the number of occurrences of a lock
  slot in the held stack;
* `release_heldLockSlots`: the fast and the general release have one effect;
* `Mirrors`: in `rb` mode the reference counts and the held bits agree with the
  held stack, and every operation keeps it so (`*_mirrors`).
-/

namespace ScaleLockDep

/-! ## Parameters -/

def maxLockSlots : Nat := 256
def maxHeldLockSlots : Nat := 64
def maxThreadSlots : Nat := 128
def rbCapacity : Nat := 4096
/-- `LOCKDEP_GRAPH_WORDS`. -/
def graphWords : Nat := (maxLockSlots + 63) / 64

inductive LockdepMode
  | global
  | rb
  deriving DecidableEq, Repr

/-! ## `lockdep_thread_state_t` -/

/-- `heldLockSlots` is `held_lock_slots[0 .. held_lock_slot_count)`. -/
structure ThreadState where
  heldLockSlots : List Nat
  heldLockRefcounts : Nat → Nat
  heldLockBits : WordSet

namespace ThreadState

/-- Thread-local storage starts zeroed. -/
def initial : ThreadState := ⟨[], fun _ => 0, WordSet.empty⟩

/-- `lockdep_note_thread_holds_lock_slot`; the counter is an `unsigned short`. -/
def noteThreadHoldsLockSlot (mode : LockdepMode) (ts : ThreadState) (l : Nat) : ThreadState :=
  if mode ≠ .rb then ts
  else
    { ts with
      heldLockRefcounts :=
        Function.update ts.heldLockRefcounts l ((ts.heldLockRefcounts l + 1) % 2 ^ 16)
      heldLockBits :=
        if ts.heldLockRefcounts l = 0 then ts.heldLockBits.set l else ts.heldLockBits }

/-- `lockdep_note_thread_releases_lock_slot`. -/
def noteThreadReleasesLockSlot (mode : LockdepMode) (ts : ThreadState) (l : Nat) : ThreadState :=
  if mode ≠ .rb then ts
  else if ts.heldLockRefcounts l = 0 then ts
  else
    { ts with
      heldLockRefcounts := Function.update ts.heldLockRefcounts l (ts.heldLockRefcounts l - 1)
      heldLockBits :=
        if ts.heldLockRefcounts l - 1 = 0 then ts.heldLockBits.clear l else ts.heldLockBits }

/-- `lockdep_push_held_lock_slot`; `none` is the panic on a full stack. -/
def pushHeldLockSlot (mode : LockdepMode) (ts : ThreadState) (l : Nat) : Option ThreadState :=
  if ts.heldLockSlots.length ≥ maxHeldLockSlots then none
  else some (noteThreadHoldsLockSlot mode { ts with heldLockSlots := ts.heldLockSlots ++ [l] } l)

/-- The general search of `lockdep_remove_held_lock_slot`: the greatest index
below the bound that holds `l`. -/
def findHeldBelow (held : List Nat) (l : Nat) : Nat → Option Nat
  | 0 => none
  | i + 1 => if held[i]? = some l then some i else findHeldBelow held l i

/-- `lockdep_remove_held_lock_slot`: pop when `l` is on top, else close the gap
left by its last occurrence, else only warn. -/
def removeHeldLockSlot (mode : LockdepMode) (ts : ThreadState) (l : Nat) : ThreadState :=
  if ts.heldLockSlots.getLast? = some l then
    noteThreadReleasesLockSlot mode { ts with heldLockSlots := ts.heldLockSlots.dropLast } l
  else
    match findHeldBelow ts.heldLockSlots l ts.heldLockSlots.length with
    | some i =>
        noteThreadReleasesLockSlot mode
          { ts with heldLockSlots := ts.heldLockSlots.eraseIdx i } l
    | none => ts

/-- The thread-local part of `lockdep_acquire_top_level_mutex_fast`. -/
def acquireTopLevel (mode : LockdepMode) (ts : ThreadState) (l : Nat) : ThreadState :=
  noteThreadHoldsLockSlot mode { ts with heldLockSlots := [l] } l

/-- The thread-local part of `lockdep_acquire_mutex`. -/
def acquire (mode : LockdepMode) (ts : ThreadState) (l : Nat) : Option ThreadState :=
  if ts.heldLockSlots.length = 0 then some (acquireTopLevel mode ts l)
  else pushHeldLockSlot mode ts l

/-- The thread-local part of `lockdep_release_top_level_mutex_fast`, when it
applies: the stack holds one slot and it is the slot of the mutex. -/
def releaseTopLevel (mode : LockdepMode) (ts : ThreadState) (l : Nat) : Option ThreadState :=
  if ts.heldLockSlots = [l] then
    some { noteThreadReleasesLockSlot mode ts l with heldLockSlots := [] }
  else none

/-- The thread-local part of `lockdep_release_mutex`. -/
def releaseMutex (mode : LockdepMode) (ts : ThreadState) (l : Nat) : ThreadState :=
  if ts.heldLockSlots = [l] then
    { noteThreadReleasesLockSlot mode ts l with heldLockSlots := [] }
  else removeHeldLockSlot mode ts l

/-- The thread-local part of the hooked unlock: the fast path, else the general
release. -/
def release (mode : LockdepMode) (ts : ThreadState) (l : Nat) : ThreadState :=
  (releaseTopLevel mode ts l).getD (releaseMutex mode ts l)

/-! ## The held stack -/

@[simp] theorem noteThreadHoldsLockSlot_held (mode : LockdepMode) (ts : ThreadState) (l : Nat) :
    (noteThreadHoldsLockSlot mode ts l).heldLockSlots = ts.heldLockSlots := by
  unfold noteThreadHoldsLockSlot
  split <;> rfl

@[simp] theorem noteThreadReleasesLockSlot_held (mode : LockdepMode) (ts : ThreadState)
    (l : Nat) : (noteThreadReleasesLockSlot mode ts l).heldLockSlots = ts.heldLockSlots := by
  unfold noteThreadReleasesLockSlot
  split
  · rfl
  · split <;> rfl

theorem pushHeldLockSlot_held {mode : LockdepMode} {ts ts' : ThreadState} {l : Nat}
    (h : pushHeldLockSlot mode ts l = some ts') :
    ts'.heldLockSlots = ts.heldLockSlots ++ [l] := by
  unfold pushHeldLockSlot at h
  split at h
  · cases h
  · cases h
    simp

@[simp] theorem acquireTopLevel_held (mode : LockdepMode) (ts : ThreadState) (l : Nat) :
    (acquireTopLevel mode ts l).heldLockSlots = [l] := by
  simp [acquireTopLevel]

theorem acquire_held {mode : LockdepMode} {ts ts' : ThreadState} {l : Nat}
    (h : acquire mode ts l = some ts') : ts'.heldLockSlots = ts.heldLockSlots ++ [l] := by
  unfold acquire at h
  split at h
  · rename_i h0
    cases h
    simp [List.length_eq_zero_iff.mp h0]
  · exact pushHeldLockSlot_held h

theorem findHeldBelow_some {held : List Nat} {l n i : Nat} (h : findHeldBelow held l n = some i) :
    i < n ∧ held[i]? = some l := by
  induction n with
  | zero => cases h
  | succ n ih =>
    unfold findHeldBelow at h
    split at h
    · rename_i hn
      cases h
      exact ⟨Nat.lt_succ_self _, hn⟩
    · exact ⟨Nat.lt_succ_of_lt (ih h).1, (ih h).2⟩

theorem findHeldBelow_none {held : List Nat} {l n : Nat} (h : findHeldBelow held l n = none) :
    ∀ i, i < n → held[i]? ≠ some l := by
  induction n with
  | zero => intro i hi; omega
  | succ n ih =>
    unfold findHeldBelow at h
    split at h
    · cases h
    · rename_i hn
      intro i hi
      rcases Nat.lt_succ_iff_lt_or_eq.mp hi with hi | rfl
      · exact ih h i hi
      · exact hn

theorem count_eraseIdx {held : List Nat} {i l : Nat} (h : held[i]? = some l) (k : Nat) :
    (held.eraseIdx i).count k + (if l = k then 1 else 0) = held.count k := by
  induction held generalizing i with
  | nil => simp at h
  | cons a held ih =>
    cases i with
    | zero =>
      simp only [List.getElem?_cons_zero, Option.some.injEq] at h
      subst h
      simp [List.count_cons]
    | succ i =>
      simp only [List.getElem?_cons_succ] at h
      have := ih h
      simp only [List.eraseIdx_cons_succ, List.count_cons]
      omega

theorem removeHeldLockSlot_held (mode : LockdepMode) (ts : ThreadState) (l : Nat) :
    (∃ i, ts.heldLockSlots[i]? = some l ∧
      (removeHeldLockSlot mode ts l).heldLockSlots = ts.heldLockSlots.eraseIdx i) ∨
    (l ∉ ts.heldLockSlots ∧ removeHeldLockSlot mode ts l = ts) := by
  unfold removeHeldLockSlot
  split
  · rename_i h
    left
    refine ⟨ts.heldLockSlots.length - 1, ?_, ?_⟩
    · rw [← List.getLast?_eq_getElem?]; exact h
    · simp [List.eraseIdx_length_sub_one]
  · split
    · rename_i i h
      exact Or.inl ⟨i, (findHeldBelow_some h).2, by simp⟩
    · rename_i h
      right
      refine ⟨fun hm => ?_, rfl⟩
      obtain ⟨i, hi, he⟩ := List.mem_iff_getElem.mp hm
      exact findHeldBelow_none h i hi (by rw [List.getElem?_eq_getElem hi, he])

/-- **What a release does to the stack**: one occurrence of the slot goes, or
the slot does not occur and nothing changes. -/
theorem release_held (mode : LockdepMode) (ts : ThreadState) (l : Nat) :
    (∃ i, ts.heldLockSlots[i]? = some l ∧
      (release mode ts l).heldLockSlots = ts.heldLockSlots.eraseIdx i) ∨
    (l ∉ ts.heldLockSlots ∧ release mode ts l = ts) := by
  unfold release releaseTopLevel releaseMutex
  by_cases h : ts.heldLockSlots = [l]
  · left
    exact ⟨0, by simp [h], by simp [h]⟩
  · simpa [h] using removeHeldLockSlot_held mode ts l

theorem count_acquire {mode : LockdepMode} {ts ts' : ThreadState} {l : Nat}
    (h : acquire mode ts l = some ts') (k : Nat) :
    ts'.heldLockSlots.count k = ts.heldLockSlots.count k + (if l = k then 1 else 0) := by
  rw [acquire_held h, List.count_append, List.count_singleton]
  simp

theorem count_release (mode : LockdepMode) (ts : ThreadState) (l k : Nat)
    (hl : l ∈ ts.heldLockSlots) :
    (release mode ts l).heldLockSlots.count k + (if l = k then 1 else 0) =
      ts.heldLockSlots.count k := by
  rcases release_held mode ts l with ⟨i, hi, he⟩ | ⟨hn, _⟩
  · rw [he]
    exact count_eraseIdx hi k
  · exact absurd hl hn

/-! ## The stack as a function of the calls -/

/-- The held stack after the release of `l`: its last occurrence goes. -/
def removeHeld (held : List Nat) (l : Nat) : List Nat :=
  match findHeldBelow held l held.length with
  | some i => held.eraseIdx i
  | none => held

theorem findHeldBelow_top {held : List Nat} {l : Nat} (h : held.getLast? = some l) :
    findHeldBelow held l held.length = some (held.length - 1) := by
  rw [List.getLast?_eq_getElem?] at h
  cases hn : held.length with
  | zero =>
    rw [List.length_eq_zero_iff] at hn
    simp [hn] at h
  | succ n =>
    rw [hn, Nat.add_sub_cancel] at h
    simp [findHeldBelow, h]

/-- **The three release paths agree** on the stack. -/
theorem release_heldLockSlots (mode : LockdepMode) (ts : ThreadState) (l : Nat) :
    (release mode ts l).heldLockSlots = removeHeld ts.heldLockSlots l := by
  unfold release releaseTopLevel releaseMutex removeHeldLockSlot
  by_cases h : ts.heldLockSlots = [l]
  · simp [h, removeHeld, findHeldBelow]
  · rw [if_neg h, if_neg h, Option.getD_none]
    split
    · rename_i htop
      simp [removeHeld, findHeldBelow_top htop, List.eraseIdx_length_sub_one]
    · unfold removeHeld
      split <;> simp

theorem mem_of_mem_removeHeld {held : List Nat} {l k : Nat} (h : k ∈ removeHeld held l) :
    k ∈ held := by
  unfold removeHeld at h
  split at h
  · exact List.mem_of_mem_eraseIdx h
  · exact h

/-! ## Reference counts and held bits -/

/-- **In `rb` mode the reference counts and the held bits agree with the stack.** -/
structure Mirrors (ts : ThreadState) : Prop where
  refcount : ∀ l, ts.heldLockRefcounts l = ts.heldLockSlots.count l
  bits : ∀ l, ts.heldLockBits.test l = decide (l ∈ ts.heldLockSlots)
  limit : ts.heldLockSlots.length ≤ maxHeldLockSlots

theorem initial_mirrors : Mirrors initial where
  refcount _ := rfl
  bits l := by simp [initial]
  limit := Nat.zero_le _

/-- Noting one more occurrence on top of the stack. -/
theorem Mirrors.hold {ts : ThreadState} (h : Mirrors ts) (l : Nat)
    (hlim : ts.heldLockSlots.length < maxHeldLockSlots) :
    Mirrors (noteThreadHoldsLockSlot .rb
      { ts with heldLockSlots := ts.heldLockSlots ++ [l] } l) where
  refcount k := by
    have hle : ts.heldLockSlots.count l ≤ ts.heldLockSlots.length := List.count_le_length
    have hmax : maxHeldLockSlots = 64 := rfl
    have hr := h.refcount
    by_cases hk : k = l
    · subst hk
      simp only [noteThreadHoldsLockSlot, ne_eq, not_true_eq_false, if_false,
        Function.update_self, List.count_append, List.count_singleton_self, hr]
      exact Nat.mod_eq_of_lt (by omega)
    · have : List.count k [l] = 0 := List.count_eq_zero.mpr (by simpa using hk)
      simp [noteThreadHoldsLockSlot, hk, hr, List.count_append, this]
  bits k := by
    have hb := h.bits
    have hr := h.refcount
    by_cases h0 : ts.heldLockRefcounts l = 0
    · simp [noteThreadHoldsLockSlot, h0, WordSet.test_set, hb, List.mem_append]
    · have hl : l ∈ ts.heldLockSlots := by
        rw [hr] at h0
        exact List.count_pos_iff.mp (by omega)
      by_cases hk : k = l
      · subst hk
        simp [noteThreadHoldsLockSlot, h0, hb, hl]
      · simp [noteThreadHoldsLockSlot, h0, hb, hk]
  limit := by
    simp only [noteThreadHoldsLockSlot_held, List.length_append, List.length_singleton]
    omega

theorem noteThreadReleasesLockSlot_with (mode : LockdepMode) (ts : ThreadState) (l : Nat)
    (held : List Nat) : noteThreadReleasesLockSlot mode { ts with heldLockSlots := held } l =
      { noteThreadReleasesLockSlot mode ts l with heldLockSlots := held } := by
  unfold noteThreadReleasesLockSlot
  split
  · rfl
  · split <;> rfl

theorem noteThreadReleasesLockSlot_rb {ts : ThreadState} {l : Nat}
    (h0 : ts.heldLockRefcounts l ≠ 0) : noteThreadReleasesLockSlot .rb ts l =
      { ts with
        heldLockRefcounts := Function.update ts.heldLockRefcounts l (ts.heldLockRefcounts l - 1)
        heldLockBits :=
          if ts.heldLockRefcounts l - 1 = 0 then ts.heldLockBits.clear l
          else ts.heldLockBits } := by
  simp [noteThreadReleasesLockSlot, h0]

/-- Noting one occurrence less. -/
theorem Mirrors.unhold {ts : ThreadState} (h : Mirrors ts) {l i : Nat}
    (hi : ts.heldLockSlots[i]? = some l) :
    Mirrors (noteThreadReleasesLockSlot .rb
      { ts with heldLockSlots := ts.heldLockSlots.eraseIdx i } l) := by
  have hr := h.refcount
  have hpos : 0 < ts.heldLockSlots.count l := List.count_pos_iff.mpr (List.mem_of_getElem? hi)
  rw [noteThreadReleasesLockSlot_rb (by simp only [hr]; omega)]
  constructor
  · intro k
    have hc := count_eraseIdx hi k
    by_cases hk : k = l
    · subst hk
      rw [if_pos rfl] at hc
      simp only [Function.update_self, hr]
      omega
    · rw [if_neg (Ne.symm hk)] at hc
      simp only [Function.update_of_ne hk, hr]
      omega
  · intro k
    have hc := count_eraseIdx hi k
    have hiff : k ∈ ts.heldLockSlots.eraseIdx i ↔
        0 < (ts.heldLockSlots.eraseIdx i).count k := List.count_pos_iff.symm
    have hiff' : k ∈ ts.heldLockSlots ↔ 0 < ts.heldLockSlots.count k := List.count_pos_iff.symm
    simp only [hr]
    split
    · rw [WordSet.test_clear, h.bits, ← Bool.decide_and]
      refine decide_eq_decide.mpr ?_
      rw [hiff, hiff']
      by_cases hk : k = l
      · subst hk
        rw [if_pos rfl] at hc
        simp only [ne_eq, not_true_eq_false, and_false, false_iff]
        omega
      · rw [if_neg (Ne.symm hk)] at hc
        simp only [ne_eq, hk, not_false_eq_true, and_true]
        omega
    · rw [h.bits]
      refine decide_eq_decide.mpr ?_
      rw [hiff, hiff']
      by_cases hk : k = l
      · subst hk
        rw [if_pos rfl] at hc
        omega
      · rw [if_neg (Ne.symm hk)] at hc
        omega
  · have := List.length_eraseIdx_le ts.heldLockSlots i
    exact this.trans h.limit

theorem acquireTopLevel_mirrors {ts : ThreadState} (h : Mirrors ts) (hnil : ts.heldLockSlots = [])
    (l : Nat) : Mirrors (acquireTopLevel .rb ts l) := by
  have := h.hold l (by rw [hnil]; decide)
  rwa [hnil] at this

theorem pushHeldLockSlot_mirrors {ts ts' : ThreadState} {l : Nat} (h : Mirrors ts)
    (hp : pushHeldLockSlot .rb ts l = some ts') : Mirrors ts' := by
  unfold pushHeldLockSlot at hp
  split at hp
  · cases hp
  · cases hp
    exact h.hold l (by omega)

theorem release_mirrors {ts : ThreadState} (h : Mirrors ts) (l : Nat) :
    Mirrors (release .rb ts l) := by
  unfold release releaseTopLevel releaseMutex removeHeldLockSlot
  by_cases hone : ts.heldLockSlots = [l]
  · have hu := h.unhold (l := l) (i := 0) (by simp [hone])
    rw [hone] at hu
    simp only [hone, if_true, Option.getD_some]
    rw [← noteThreadReleasesLockSlot_with]
    exact hu
  · rw [if_neg hone, if_neg hone, Option.getD_none]
    split
    · rename_i htop
      rw [List.getLast?_eq_getElem?] at htop
      have hu := h.unhold htop
      rwa [List.eraseIdx_length_sub_one] at hu
    · split
      · rename_i i hi
        exact h.unhold (findHeldBelow_some hi).2
      · exact h

end ThreadState

end ScaleLockDep
