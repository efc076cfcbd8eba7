import ScaleLockDep.Reacquire

/-!
# The held stack of a thread in its arrays

`lockdep_thread_state_t` as `lockdep.h` lays it out, with the code that writes it: the two
acquire fast paths, push, the three removals and the release fast path.  Every array index
is checked.

* `Represents`: the arrays stand for a held stack, its reference counts and its bits;
* `run_spec`: every acquisition and release does to the stack what `next` says, in either
  mode, and stays in range;
* `held_stack_invariant`: what holds after any sequence of them.
-/

namespace ScaleLockDep

namespace HeldStack

open ThreadState

/-! ## The arrays -/

inductive Fault
  | panic
  | outOfRange
  deriving DecidableEq, Repr

/-- The entries of `held_lock_slots` from `held_lock_slot_count` on are stale. -/
structure Tls where
  heldLockSlots : Nat → Nat
  heldLockSlotCount : Int
  heldLockRefcounts : Nat → Nat
  heldLockBits : WordSet

@[simp] theorem ok_bind {α β : Type} (a : α) (f : α → Except Fault β) :
    (Except.ok a >>= f) = f a := rfl

namespace Tls

def initial : Tls := ⟨fun _ => 0, 0, fun _ => 0, WordSet.empty⟩

/-- `held_lock_slots[0 .. held_lock_slot_count)`. -/
def held (ts : Tls) : List Nat := (List.range ts.heldLockSlotCount.toNat).map ts.heldLockSlots

def load (ts : Tls) (i : Int) : Except Fault Nat :=
  if 0 ≤ i ∧ i < maxHeldLockSlots then .ok (ts.heldLockSlots i.toNat) else .error .outOfRange

def store (ts : Tls) (i : Int) (l : Nat) : Except Fault Tls :=
  if 0 ≤ i ∧ i < maxHeldLockSlots then
    .ok { ts with heldLockSlots := Function.update ts.heldLockSlots i.toNat l }
  else .error .outOfRange

/-- `lockdep_note_thread_holds_lock_slot`. -/
def noteThreadHoldsLockSlot (mode : LockdepMode) (ts : Tls) (l : Nat) : Except Fault Tls :=
  if mode ≠ .rb then .ok ts
  else if maxLockSlots ≤ l then .error .outOfRange
  else
    .ok { ts with
      heldLockRefcounts :=
        Function.update ts.heldLockRefcounts l ((ts.heldLockRefcounts l + 1) % 2 ^ 16)
      heldLockBits :=
        if ts.heldLockRefcounts l = 0 then ts.heldLockBits.set l else ts.heldLockBits }

/-- `lockdep_note_thread_releases_lock_slot`. -/
def noteThreadReleasesLockSlot (mode : LockdepMode) (ts : Tls) (l : Nat) : Except Fault Tls :=
  if mode ≠ .rb then .ok ts
  else if maxLockSlots ≤ l then .error .outOfRange
  else if ts.heldLockRefcounts l = 0 then .ok ts
  else
    .ok { ts with
      heldLockRefcounts := Function.update ts.heldLockRefcounts l (ts.heldLockRefcounts l - 1)
      heldLockBits :=
        if ts.heldLockRefcounts l - 1 = 0 then ts.heldLockBits.clear l else ts.heldLockBits }

/-- The stores of `lockdep_acquire_top_level_mutex_fast`, and of `lockdep_acquire_mutex`
when nothing is held. -/
def acquireTopLevel (mode : LockdepMode) (ts : Tls) (l : Nat) : Except Fault Tls := do
  let ts ← ts.store 0 l
  noteThreadHoldsLockSlot mode { ts with heldLockSlotCount := 1 } l

/-- `lockdep_push_held_lock_slot`. -/
def pushHeldLockSlot (mode : LockdepMode) (ts : Tls) (l : Nat) : Except Fault Tls :=
  if ts.heldLockSlotCount ≥ maxHeldLockSlots then .error .panic
  else do
    let ts' ← ts.store ts.heldLockSlotCount l
    noteThreadHoldsLockSlot mode { ts' with heldLockSlotCount := ts.heldLockSlotCount + 1 } l

/-- The part of `lockdep_acquire_mutex` that writes the stack. -/
def acquireMutex (mode : LockdepMode) (ts : Tls) (l : Nat) : Except Fault Tls :=
  if ts.heldLockSlotCount = 0 then ts.acquireTopLevel mode l else ts.pushHeldLockSlot mode l

/-- The inner loop of `lockdep_remove_held_lock_slot` from `j` on, for `fuel` passes. -/
def shiftDown (count : Int) : Nat → Nat → Tls → Except Fault Tls
  | 0, _, ts => .ok ts
  | fuel + 1, j, ts =>
      if (j : Int) + 1 < count then do
        let l ← ts.load (j + 1)
        let ts ← ts.store j l
        shiftDown count fuel (j + 1) ts
      else .ok ts

/-- The outer loop of `lockdep_remove_held_lock_slot`, at the indices below the bound. -/
def removeBelow (mode : LockdepMode) (l : Nat) : Nat → Tls → Except Fault Tls
  | 0, ts => .ok ts
  | i + 1, ts => do
      let k ← ts.load i
      if k = l then
        let ts' ← shiftDown ts.heldLockSlotCount ts.heldLockSlotCount.toNat i ts
        noteThreadReleasesLockSlot mode
          { ts' with heldLockSlotCount := ts.heldLockSlotCount - 1 } l
      else removeBelow mode l i ts

/-- `lockdep_remove_held_lock_slot`. -/
def removeHeldLockSlot (mode : LockdepMode) (ts : Tls) (l : Nat) : Except Fault Tls :=
  if 0 < ts.heldLockSlotCount then do
    let top ← ts.load (ts.heldLockSlotCount - 1)
    if top = l then
      noteThreadReleasesLockSlot mode
        { ts with heldLockSlotCount := ts.heldLockSlotCount - 1 } l
    else removeBelow mode l ts.heldLockSlotCount.toNat ts
  else .ok ts

/-- The end of `lockdep_release_mutex`, for the slot it has looked up. -/
def releaseLockSlot (mode : LockdepMode) (ts : Tls) (l : Nat) : Except Fault Tls :=
  if ts.heldLockSlotCount = 1 then do
    let k ← ts.load 0
    if k = l then
      let ts ← noteThreadReleasesLockSlot mode ts l
      .ok { ts with heldLockSlotCount := 0 }
    else ts.removeHeldLockSlot mode l
  else ts.removeHeldLockSlot mode l

end Tls

/-! ## Registered mutexes -/

/-- `g_lock_slots[l].addr`; the slots registered so far are the indices of `slots`. -/
def addr (slots : List Nat) (l : Nat) : Except Fault (Option Nat) :=
  if maxLockSlots ≤ l then .error .outOfRange else .ok slots[l]?

def lookupLockSlot (slots : List Nat) (m : Nat) : Option Nat := slots.idxOf? m

/-- `lockdep_lookup_or_create_lock_slot`. -/
def lookupOrCreateLockSlot (slots : List Nat) (m : Nat) : Except Fault (List Nat × Nat) :=
  match lookupLockSlot slots m with
  | some l => .ok (slots, l)
  | none =>
      if slots.length ≥ maxLockSlots then .error .panic
      else .ok (slots ++ [m], slots.length)

/-- `lockdep_try_lookup_top_held_lock_slot`. -/
def tryLookupTopHeldLockSlot (slots : List Nat) (ts : Tls) (m : Nat) :
    Except Fault (Option Nat) :=
  if ts.heldLockSlotCount = 0 then .ok none
  else do
    let top ← ts.load (ts.heldLockSlotCount - 1)
    let a ← addr slots top
    .ok (if a = some m then some top else none)

/-- `lockdep_release_mutex`; an unknown mutex only gets a warning. -/
def releaseMutex (mode : LockdepMode) (slots : List Nat) (ts : Tls) (m : Nat) :
    Except Fault Tls := do
  let top ← tryLookupTopHeldLockSlot slots ts m
  match top.or (lookupLockSlot slots m) with
  | none => .ok ts
  | some l => ts.releaseLockSlot mode l

/-- `lockdep_release_top_level_mutex_fast`; `none` when it does not apply. -/
def releaseTopLevelMutexFast (mode : LockdepMode) (slots : List Nat) (ts : Tls) (m : Nat) :
    Except Fault (Option Tls) :=
  if ts.heldLockSlotCount ≠ 1 then .ok none
  else do
    let l ← ts.load 0
    let a ← addr slots l
    if a ≠ some m then .ok none
    else
      let ts ← ts.noteThreadReleasesLockSlot mode l
      .ok (some { ts with heldLockSlotCount := 0 })

/-! ## Sequences of acquisitions and releases -/

structure State where
  slots : List Nat
  tls : Tls

/-- `acquire` and `release` are what the hooks do after the real call; `acquireMutex` and
`releaseMutex` take the slow path at once.  `register` is another thread's. -/
inductive Act
  | register (m : Nat)
  | acquire (m : Nat)
  | acquireMutex (m : Nat)
  | release (m : Nat)
  | releaseMutex (m : Nat)
  deriving DecidableEq, Repr

def run (mode : LockdepMode) (s : State) : Act → Except Fault State
  | .register m => do
      let r ← lookupOrCreateLockSlot s.slots m
      .ok { s with slots := r.1 }
  | .acquire m => do
      let r ← lookupOrCreateLockSlot s.slots m
      let ts ← if s.tls.heldLockSlotCount = 0 then s.tls.acquireTopLevel mode r.2
        else s.tls.acquireMutex mode r.2
      .ok ⟨r.1, ts⟩
  | .acquireMutex m => do
      let r ← lookupOrCreateLockSlot s.slots m
      let ts ← s.tls.acquireMutex mode r.2
      .ok ⟨r.1, ts⟩
  | .release m => do
      let fast ← releaseTopLevelMutexFast mode s.slots s.tls m
      match fast with
      | some ts => .ok { s with tls := ts }
      | none => do
          let ts ← releaseMutex mode s.slots s.tls m
          .ok { s with tls := ts }
  | .releaseMutex m => do
      let ts ← releaseMutex mode s.slots s.tls m
      .ok { s with tls := ts }

def initial : State := ⟨[], Tls.initial⟩

/-- The runs in which nothing panics. -/
def system (mode : LockdepMode) : Runs.System State Act :=
  ⟨initial, fun s a => (run mode s a).toOption⟩

/-! ## What the arrays stand for -/

/-- The arrays hold the state `x` of the list model; `n` slots are registered. -/
structure Represents (n : Nat) (ts : Tls) (x : ThreadState) : Prop where
  count : ts.heldLockSlotCount = x.heldLockSlots.length
  slots : ∀ i, i < x.heldLockSlots.length → x.heldLockSlots[i]? = some (ts.heldLockSlots i)
  refcounts : ts.heldLockRefcounts = x.heldLockRefcounts
  bits : ts.heldLockBits = x.heldLockBits
  limit : x.heldLockSlots.length ≤ maxHeldLockSlots
  registered : ∀ l, l ∈ x.heldLockSlots → l < n

theorem initial_represents (n : Nat) : Represents n Tls.initial ThreadState.initial where
  count := rfl
  slots i hi := absurd hi (Nat.not_lt_zero i)
  refcounts := rfl
  bits := rfl
  limit := Nat.zero_le _
  registered l hl := by cases hl

variable {mode : LockdepMode} {n l : Nat} {ts : Tls} {x : ThreadState}

theorem Represents.held (h : Represents n ts x) : ts.held = x.heldLockSlots := by
  apply List.ext_getElem?
  intro i
  rw [Tls.held, h.count, Int.toNat_natCast, List.getElem?_map]
  rcases Nat.lt_or_ge i x.heldLockSlots.length with hi | hi
  · rw [List.getElem?_range hi, h.slots i hi]
    rfl
  · rw [List.getElem?_eq_none hi, List.getElem?_eq_none (by simpa using hi)]
    rfl

theorem Represents.mono {m : Nat} (h : Represents n ts x) (hnm : n ≤ m) : Represents m ts x :=
  ⟨h.count, h.slots, h.refcounts, h.bits, h.limit, fun l hl => (h.registered l hl).trans_le hnm⟩

theorem load_ok {i : Nat} (hi : i < maxHeldLockSlots) : ts.load i = .ok (ts.heldLockSlots i) := by
  rw [Tls.load, if_pos ⟨by omega, by omega⟩, Int.toNat_natCast]

theorem Represents.load (h : Represents n ts x) {i : Nat} (hi : x.heldLockSlots[i]? = some l) :
    ts.load i = .ok l := by
  have hlt : i < x.heldLockSlots.length := (List.getElem?_eq_some_iff.mp hi).1
  rw [load_ok (hlt.trans_le h.limit)]
  rw [h.slots i hlt] at hi
  exact congrArg _ (Option.some.inj hi)

theorem store_ok {i : Nat} (hi : i < maxHeldLockSlots) : ts.store i l =
    .ok { ts with heldLockSlots := Function.update ts.heldLockSlots i l } := by
  rw [Tls.store, if_pos ⟨by omega, by omega⟩, Int.toNat_natCast]

theorem Represents.noteHolds (mode : LockdepMode) (h : Represents n ts x) (hl : l < maxLockSlots) :
    ∃ ts', ts.noteThreadHoldsLockSlot mode l = .ok ts' ∧
      Represents n ts' (x.noteThreadHoldsLockSlot mode l) := by
  unfold Tls.noteThreadHoldsLockSlot ThreadState.noteThreadHoldsLockSlot
  rw [if_neg (Nat.not_le.mpr hl), ← h.refcounts, ← h.bits]
  split
  · exact ⟨ts, rfl, h⟩
  · exact ⟨_, rfl, h.count, h.slots, rfl, rfl, h.limit, h.registered⟩

theorem Represents.noteReleases (mode : LockdepMode) (h : Represents n ts x)
    (hl : l < maxLockSlots) :
    ∃ ts', ts.noteThreadReleasesLockSlot mode l = .ok ts' ∧
      Represents n ts' (x.noteThreadReleasesLockSlot mode l) := by
  unfold Tls.noteThreadReleasesLockSlot ThreadState.noteThreadReleasesLockSlot
  rw [if_neg (Nat.not_le.mpr hl), ← h.refcounts, ← h.bits]
  split
  · exact ⟨ts, rfl, h⟩
  · split
    · exact ⟨ts, rfl, h⟩
    · exact ⟨_, rfl, h.count, h.slots, rfl, rfl, h.limit, h.registered⟩

/-! ## Acquisitions -/

/-- A slot stored on top of the stack. -/
theorem Represents.append (h : Represents n ts x) (hl : l < n)
    (hroom : x.heldLockSlots.length < maxHeldLockSlots) :
    Represents n
      { ts with
        heldLockSlots := Function.update ts.heldLockSlots x.heldLockSlots.length l
        heldLockSlotCount := x.heldLockSlots.length + 1 }
      { x with heldLockSlots := x.heldLockSlots ++ [l] } where
  count := by simp
  slots i hi := by
    simp only [List.length_append, List.length_singleton] at hi
    rcases Nat.lt_succ_iff_lt_or_eq.mp hi with hi | rfl
    · rw [List.getElem?_append_left hi, h.slots i hi]
      exact congrArg some (Function.update_of_ne (by omega) _ _).symm
    · simp
  refcounts := h.refcounts
  bits := h.bits
  limit := by
    rw [List.length_append, List.length_singleton]
    exact hroom
  registered k hk := by
    rcases List.mem_append.mp hk with hk | hk
    · exact h.registered k hk
    · rw [List.mem_singleton.mp hk]
      exact hl

theorem acquireTopLevel_spec (mode : LockdepMode) (h : Represents n ts x) (hn : n ≤ maxLockSlots)
    (hl : l < n) (hnil : x.heldLockSlots = []) : ∃ ts', ts.acquireTopLevel mode l = .ok ts' ∧
      Represents n ts' (x.acquireTopLevel mode l) := by
  have ha := h.append hl (by rw [hnil]; decide)
  rw [hnil] at ha
  obtain ⟨ts', hts, hr⟩ := ha.noteHolds mode (hl.trans_le hn)
  have hstore : ts.store 0 l = .ok _ := store_ok (i := 0) (by decide)
  refine ⟨ts', ?_, hr⟩
  rw [Tls.acquireTopLevel, hstore]
  exact hts

theorem pushHeldLockSlot_spec (h : Represents n ts x) (hn : n ≤ maxLockSlots) (hl : l < n) :
    (∃ ts' x', ts.pushHeldLockSlot mode l = .ok ts' ∧ x.pushHeldLockSlot mode l = some x' ∧
      Represents n ts' x') ∨
    (ts.pushHeldLockSlot mode l = .error .panic ∧
      maxHeldLockSlots ≤ x.heldLockSlots.length) := by
  unfold Tls.pushHeldLockSlot ThreadState.pushHeldLockSlot
  rw [h.count]
  by_cases hfull : maxHeldLockSlots ≤ x.heldLockSlots.length
  · exact Or.inr ⟨if_pos (by omega), hfull⟩
  · left
    have ha := h.append hl (by omega)
    obtain ⟨ts', hts, hr⟩ := ha.noteHolds mode (hl.trans_le hn)
    refine ⟨ts', _, ?_, if_neg hfull, hr⟩
    rw [if_neg (by omega), store_ok (by omega)]
    exact hts

theorem acquireMutex_spec (mode : LockdepMode) (h : Represents n ts x) (hn : n ≤ maxLockSlots)
    (hl : l < n) :
    (∃ ts' x', ts.acquireMutex mode l = .ok ts' ∧ x.acquire mode l = some x' ∧
      Represents n ts' x') ∨
    (ts.acquireMutex mode l = .error .panic ∧ maxHeldLockSlots ≤ x.heldLockSlots.length) := by
  unfold Tls.acquireMutex ThreadState.acquire
  rw [h.count]
  by_cases hnil : x.heldLockSlots = []
  · obtain ⟨ts', hts, hr⟩ := acquireTopLevel_spec mode h hn hl hnil
    simp only [hnil, List.length_nil, Nat.cast_zero, if_true]
    exact Or.inl ⟨ts', _, hts, rfl, hr⟩
  · have hlen : x.heldLockSlots.length ≠ 0 := fun h0 => hnil (List.length_eq_zero_iff.mp h0)
    rw [if_neg (by omega), if_neg hlen]
    exact pushHeldLockSlot_spec h hn hl

/-! ## Releases -/

/-- The loop that closes a gap. -/
theorem shiftDown_spec {c : Nat} (hc : c ≤ maxHeldLockSlots) (fuel : Nat) {j : Nat} (ts : Tls)
    (hfuel : c ≤ j + 1 + fuel) : ∃ ts', Tls.shiftDown c fuel j ts = .ok ts' ∧
      ts'.heldLockRefcounts = ts.heldLockRefcounts ∧ ts'.heldLockBits = ts.heldLockBits ∧
      ∀ i, ts'.heldLockSlots i =
        if j ≤ i ∧ i + 1 < c then ts.heldLockSlots (i + 1) else ts.heldLockSlots i := by
  induction fuel generalizing j ts with
  | zero => exact ⟨ts, rfl, rfl, rfl, fun i => (if_neg (by omega)).symm⟩
  | succ fuel ih =>
    rw [Tls.shiftDown]
    by_cases hj : j + 1 < c
    · have hload : ts.load ((j : Int) + 1) = .ok (ts.heldLockSlots (j + 1)) :=
        load_ok (i := j + 1) (by omega)
      rw [if_pos (by omega), hload, ok_bind, store_ok (by omega), ok_bind]
      obtain ⟨ts', hts, hr, hb, hs⟩ := ih (j := j + 1)
        { ts with heldLockSlots := Function.update ts.heldLockSlots j (ts.heldLockSlots (j + 1)) }
        (by omega)
      refine ⟨ts', hts, hr, hb, fun i => ?_⟩
      -- the entry read in a pass is only overwritten in the next one
      rw [hs]
      simp only [Function.update_apply]
      grind
    · rw [if_neg (by omega)]
      exact ⟨ts, rfl, rfl, rfl, fun i => (if_neg (by omega)).symm⟩

/-- The gap at `i` is closed. -/
theorem Represents.erase (h : Represents n ts x) {i : Nat} (hi : i < x.heldLockSlots.length)
    (ts' : Tls) (hr : ts'.heldLockRefcounts = ts.heldLockRefcounts)
    (hb : ts'.heldLockBits = ts.heldLockBits)
    (hs : ∀ j, j + 1 < x.heldLockSlots.length → ts'.heldLockSlots j =
      if i ≤ j then ts.heldLockSlots (j + 1) else ts.heldLockSlots j) :
    Represents n { ts' with heldLockSlotCount := ts.heldLockSlotCount - 1 }
      { x with heldLockSlots := x.heldLockSlots.eraseIdx i } where
  count := by
    simp only [h.count, List.length_eraseIdx_of_lt hi]
    omega
  slots j hj := by
    simp only [List.length_eraseIdx_of_lt hi] at hj
    simp only [List.getElem?_eraseIdx, hs j (by omega)]
    by_cases hij : i ≤ j
    · rw [if_neg (by omega), if_pos hij, h.slots (j + 1) (by omega)]
    · rw [if_pos (by omega), if_neg hij, h.slots j (by omega)]
  refcounts := hr.trans h.refcounts
  bits := hb.trans h.bits
  limit := (List.length_eraseIdx_le _ _).trans h.limit
  registered k hk := h.registered k (List.mem_of_mem_eraseIdx hk)

theorem removeBelow_spec (mode : LockdepMode) (h : Represents n ts x) (hl : l < maxLockSlots)
    {k : Nat} (hk : k ≤ x.heldLockSlots.length) : ∃ ts', Tls.removeBelow mode l k ts = .ok ts' ∧
      Represents n ts' ((findHeldBelow x.heldLockSlots l k).elim x fun i =>
        ThreadState.noteThreadReleasesLockSlot mode
          { x with heldLockSlots := x.heldLockSlots.eraseIdx i } l) := by
  induction k with
  | zero => exact ⟨ts, rfl, h⟩
  | succ k ih =>
    obtain ⟨top, htop⟩ : ∃ top, x.heldLockSlots[k]? = some top :=
      ⟨_, List.getElem?_eq_getElem (by omega)⟩
    rw [Tls.removeBelow, h.load htop, ok_bind, findHeldBelow, htop]
    by_cases hkl : top = l
    · subst hkl
      obtain ⟨ts₁, hshift, hr, hb, hs⟩ := shiftDown_spec h.limit x.heldLockSlots.length
        (j := k) ts (by omega)
      have he := h.erase (i := k) (by omega) ts₁ hr hb fun j hj => by
        rw [hs]
        by_cases hij : k ≤ j
        · rw [if_pos ⟨hij, hj⟩, if_pos hij]
        · rw [if_neg (fun hc => hij hc.1), if_neg hij]
      obtain ⟨ts', hts, hrep⟩ := he.noteReleases mode hl
      refine ⟨ts', ?_, ?_⟩
      · rw [if_pos rfl, h.count, Int.toNat_natCast, hshift, ok_bind, ← h.count]
        exact hts
      · rw [if_pos rfl]
        exact hrep
    · obtain ⟨ts', hts, hrep⟩ := ih (by omega)
      refine ⟨ts', ?_, ?_⟩
      · rw [if_neg hkl]
        exact hts
      · rw [if_neg (fun hc => hkl (Option.some.inj hc))]
        exact hrep

theorem removeBelow_of_not_mem (mode : LockdepMode) (h : Represents n ts x)
    (hl : l ∉ x.heldLockSlots) {k : Nat} (hk : k ≤ x.heldLockSlots.length) :
    Tls.removeBelow mode l k ts = .ok ts := by
  induction k with
  | zero => rfl
  | succ k ih =>
    have htop : x.heldLockSlots[k]? = some x.heldLockSlots[k] := List.getElem?_eq_getElem (by omega)
    have hne : x.heldLockSlots[k] ≠ l := by
      rintro rfl
      exact hl (List.getElem_mem _)
    rw [Tls.removeBelow, h.load htop, ok_bind, if_neg hne]
    exact ih (by omega)

theorem removeHeldLockSlot_spec (mode : LockdepMode) (h : Represents n ts x)
    (hl : l < maxLockSlots) :
    ∃ ts', ts.removeHeldLockSlot mode l = .ok ts' ∧
      Represents n ts' (x.removeHeldLockSlot mode l) := by
  unfold Tls.removeHeldLockSlot
  by_cases hnil : x.heldLockSlots = []
  · rw [if_neg (by simp [h.count, hnil])]
    refine ⟨ts, rfl, ?_⟩
    simpa [ThreadState.removeHeldLockSlot, hnil, findHeldBelow] using h
  · have hpos : 0 < x.heldLockSlots.length := List.length_pos_iff.mpr hnil
    obtain ⟨top, htop⟩ : ∃ top, x.heldLockSlots.getLast? = some top :=
      ⟨_, List.getLast?_eq_some_getLast hnil⟩
    have hidx : x.heldLockSlots[x.heldLockSlots.length - 1]? = some top := by
      rw [← List.getLast?_eq_getElem?, htop]
    have hload : ts.load (ts.heldLockSlotCount - 1) = .ok top := by
      rw [h.count, show (x.heldLockSlots.length : Int) - 1 =
        ((x.heldLockSlots.length - 1 : Nat) : Int) by omega]
      exact h.load hidx
    rw [if_pos (by rw [h.count]; omega), hload, ok_bind]
    by_cases hkl : top = l
    · subst hkl
      have he := h.erase (i := x.heldLockSlots.length - 1) (by omega) ts rfl rfl
        fun j hj => (if_neg (by omega)).symm
      rw [List.eraseIdx_length_sub_one] at he
      obtain ⟨ts', hts, hrep⟩ := he.noteReleases mode hl
      refine ⟨ts', ?_, ?_⟩
      · rw [if_pos rfl]
        exact hts
      · rw [ThreadState.removeHeldLockSlot, if_pos htop]
        exact hrep
    · obtain ⟨ts', hts, hrep⟩ := removeBelow_spec mode h hl (Nat.le_refl _)
      refine ⟨ts', ?_, ?_⟩
      · rw [if_neg hkl, h.count, Int.toNat_natCast]
        exact hts
      · rw [ThreadState.removeHeldLockSlot, if_neg (fun hc => hkl (by simpa [htop] using hc))]
        cases hf : findHeldBelow x.heldLockSlots l x.heldLockSlots.length <;>
          simpa [hf] using hrep

/-- The stack is emptied. -/
theorem Represents.clear (h : Represents n ts x) :
    Represents n { ts with heldLockSlotCount := 0 } { x with heldLockSlots := [] } where
  count := rfl
  slots i hi := absurd hi (Nat.not_lt_zero i)
  refcounts := h.refcounts
  bits := h.bits
  limit := Nat.zero_le _
  registered l hl := by cases hl

theorem releaseLockSlot_spec (h : Represents n ts x) (hl : l < maxLockSlots) :
    ∃ ts', ts.releaseLockSlot mode l = .ok ts' ∧ Represents n ts' (x.releaseMutex mode l) := by
  unfold Tls.releaseLockSlot ThreadState.releaseMutex
  by_cases hone : x.heldLockSlots.length = 1
  · obtain ⟨k, hk⟩ := List.length_eq_one_iff.mp hone
    have hload : ts.load 0 = .ok k := h.load (i := 0) (by simp [hk])
    rw [if_pos (by rw [h.count]; omega), hload, ok_bind, hk]
    by_cases hkl : k = l
    · subst hkl
      obtain ⟨ts', hts, hr⟩ := h.noteReleases mode hl
      refine ⟨{ ts' with heldLockSlotCount := 0 }, ?_, ?_⟩
      · rw [if_pos rfl, hts, ok_bind]
      · rw [if_pos rfl]
        exact hr.clear
    · obtain ⟨ts', hts, hr⟩ := removeHeldLockSlot_spec mode h hl
      refine ⟨ts', ?_, ?_⟩
      · rw [if_neg hkl]
        exact hts
      · rw [if_neg (by simpa using hkl)]
        exact hr
  · obtain ⟨ts', hts, hr⟩ := removeHeldLockSlot_spec mode h hl
    refine ⟨ts', ?_, ?_⟩
    · rw [if_neg (by rw [h.count]; omega)]
      exact hts
    · rw [if_neg (fun hc => hone (by simp [hc]))]
      exact hr

/-- A slot that is not held: nothing is written. -/
theorem releaseLockSlot_of_not_mem (mode : LockdepMode) (h : Represents n ts x)
    (hl : l ∉ x.heldLockSlots) : ts.releaseLockSlot mode l = .ok ts := by
  have hremove : ts.removeHeldLockSlot mode l = .ok ts := by
    unfold Tls.removeHeldLockSlot
    by_cases hnil : x.heldLockSlots = []
    · rw [if_neg (by simp [h.count, hnil])]
    · have hpos : 0 < x.heldLockSlots.length := List.length_pos_iff.mpr hnil
      have htop : x.heldLockSlots[x.heldLockSlots.length - 1]? =
          some x.heldLockSlots[x.heldLockSlots.length - 1] := List.getElem?_eq_getElem (by omega)
      have hload := h.load htop
      have hne : x.heldLockSlots[x.heldLockSlots.length - 1] ≠ l := by
        rintro rfl
        exact hl (List.getElem_mem _)
      have hindex : ((x.heldLockSlots.length - 1 : Nat) : Int) = ts.heldLockSlotCount - 1 := by
        rw [h.count]
        omega
      rw [hindex] at hload
      rw [if_pos (by rw [h.count]; omega), hload, ok_bind, if_neg hne, h.count, Int.toNat_natCast]
      exact removeBelow_of_not_mem mode h hl (Nat.le_refl _)
  unfold Tls.releaseLockSlot
  by_cases hone : x.heldLockSlots.length = 1
  · obtain ⟨k, hk⟩ := List.length_eq_one_iff.mp hone
    have hload : ts.load 0 = .ok k := h.load (i := 0) (by simp [hk])
    have hne : k ≠ l := by
      rintro rfl
      exact hl (by simp [hk])
    rw [if_pos (by rw [h.count]; omega), hload, ok_bind, if_neg hne]
    exact hremove
  · rw [if_neg (by rw [h.count]; omega)]
    exact hremove

/-- The fast and the slow release do the same. -/
theorem release_eq_releaseMutex : x.release mode l = x.releaseMutex mode l := by
  unfold ThreadState.release ThreadState.releaseTopLevel ThreadState.releaseMutex
  by_cases h : x.heldLockSlots = [l] <;> simp [h]

/-! ## Lookups -/

variable {slots : List Nat} {m : Nat}

theorem lookup_iff (hnd : slots.Nodup) : lookupLockSlot slots m = some l ↔ slots[l]? = some m := by
  rw [lookupLockSlot, List.idxOf?_eq_some_iff]
  constructor
  · rintro ⟨hl, he, -⟩
    rw [List.getElem?_eq_getElem hl, he]
  · intro h
    obtain ⟨hl, he⟩ := List.getElem?_eq_some_iff.mp h
    refine ⟨hl, he, fun j hj hjm => ?_⟩
    have := (List.Nodup.getElem_inj_iff hnd).mp (hjm.trans he.symm)
    omega

theorem lookup_lt (hnd : slots.Nodup) (h : lookupLockSlot slots m = some l) : l < slots.length :=
  (List.getElem?_eq_some_iff.mp ((lookup_iff hnd).mp h)).1

/-- A lookup or registration gives a registered slot, unless the registry is full. -/
theorem lookupOrCreate_cases (hnd : slots.Nodup) (hlim : slots.length ≤ maxLockSlots) :
    (∃ slots' l, lookupOrCreateLockSlot slots m = .ok (slots', l) ∧ slots'.Nodup ∧
      slots'.length ≤ maxLockSlots ∧ slots.length ≤ slots'.length ∧ l < slots'.length) ∨
    lookupOrCreateLockSlot slots m = .error .panic := by
  unfold lookupOrCreateLockSlot
  cases hm : lookupLockSlot slots m with
  | some l => exact Or.inl ⟨slots, l, rfl, hnd, hlim, Nat.le_refl _, lookup_lt hnd hm⟩
  | none =>
    by_cases hfull : slots.length ≥ maxLockSlots
    · exact Or.inr (if_pos hfull)
    · left
      have hnew : m ∉ slots := List.idxOf?_eq_none_iff.mp hm
      refine ⟨slots ++ [m], slots.length, if_neg hfull, ?_, ?_, ?_, ?_⟩
      · rw [List.nodup_append]
        exact ⟨hnd, List.nodup_singleton m, fun a ha b hb hab =>
          hnew (by rw [← List.mem_singleton.mp hb, ← hab]; exact ha)⟩
      all_goals simp only [List.length_append, List.length_singleton]; omega

/-- The slot on top is a shortcut for the lookup. -/
theorem tryLookupTop_spec (h : Represents slots.length ts x) (hnd : slots.Nodup)
    (hlim : slots.length ≤ maxLockSlots) : ∃ top, tryLookupTopHeldLockSlot slots ts m = .ok top ∧
      top.or (lookupLockSlot slots m) = lookupLockSlot slots m := by
  unfold tryLookupTopHeldLockSlot
  by_cases hnil : x.heldLockSlots = []
  · rw [if_pos (by simp [h.count, hnil])]
    exact ⟨none, rfl, rfl⟩
  · have hpos : 0 < x.heldLockSlots.length := List.length_pos_iff.mpr hnil
    obtain ⟨top, htop⟩ : ∃ top, x.heldLockSlots[x.heldLockSlots.length - 1]? = some top :=
      ⟨_, List.getElem?_eq_getElem (by omega)⟩
    have hload : ts.load (ts.heldLockSlotCount - 1) = .ok top := by
      rw [h.count, show (x.heldLockSlots.length : Int) - 1 =
        ((x.heldLockSlots.length - 1 : Nat) : Int) by omega]
      exact h.load htop
    have hreg := h.registered top (List.mem_of_getElem? htop)
    have haddr : addr slots top = .ok slots[top]? := if_neg (by omega)
    rw [if_neg (by rw [h.count]; omega), hload, ok_bind, haddr, ok_bind]
    refine ⟨_, rfl, ?_⟩
    by_cases hm : slots[top]? = some m
    · rw [if_pos hm, (lookup_iff hnd).mpr hm]
      rfl
    · rw [if_neg hm]
      rfl

theorem releaseMutex_spec (mode : LockdepMode) (h : Represents slots.length ts x)
    (hnd : slots.Nodup) (hlim : slots.length ≤ maxLockSlots) : ∃ ts', releaseMutex mode slots ts m = .ok ts' ∧
      Represents slots.length ts' ((lookupLockSlot slots m).elim x (x.release mode)) := by
  obtain ⟨top, htop, hor⟩ := tryLookupTop_spec (m := m) h hnd hlim
  unfold releaseMutex
  rw [htop, ok_bind, hor]
  cases hm : lookupLockSlot slots m with
  | none => exact ⟨ts, rfl, h⟩
  | some l =>
    rw [Option.elim_some, release_eq_releaseMutex]
    exact releaseLockSlot_spec h ((lookup_lt hnd hm).trans_le hlim)

theorem releaseTopLevelMutexFast_spec (mode : LockdepMode) (h : Represents slots.length ts x)
    (hnd : slots.Nodup) (hlim : slots.length ≤ maxLockSlots) :
    releaseTopLevelMutexFast mode slots ts m = .ok none ∨
    ∃ ts', releaseTopLevelMutexFast mode slots ts m = .ok (some ts') ∧
      Represents slots.length ts' ((lookupLockSlot slots m).elim x (x.release mode)) := by
  unfold releaseTopLevelMutexFast
  by_cases hone : x.heldLockSlots.length = 1
  · obtain ⟨l, hl⟩ := List.length_eq_one_iff.mp hone
    have hload : ts.load 0 = .ok l := h.load (i := 0) (by simp [hl])
    have hreg := h.registered l (by simp [hl])
    have haddr : addr slots l = .ok slots[l]? := if_neg (by omega)
    rw [if_neg (by rw [h.count]; omega), hload, ok_bind, haddr, ok_bind]
    by_cases hm : slots[l]? = some m
    · right
      obtain ⟨ts', hts, hr⟩ := h.noteReleases mode (l := l) (by omega)
      refine ⟨{ ts' with heldLockSlotCount := 0 }, ?_, ?_⟩
      · rw [if_neg (not_not.mpr hm), hts, ok_bind]
      · rw [(lookup_iff hnd).mpr hm, Option.elim_some, release_eq_releaseMutex,
          ThreadState.releaseMutex, if_pos hl]
        exact hr.clear
    · exact Or.inl (if_pos hm)
  · exact Or.inl (if_pos (by rw [h.count]; omega))

/-! ## Any sequence -/

/-- What each action does to the registry and the held locks, in either mode; `none` is
a panic. -/
def next (slots held : List Nat) : Act → Option (List Nat × List Nat)
  | .register m => (lookupOrCreateLockSlot slots m).toOption.map fun r => (r.1, held)
  | .acquire m | .acquireMutex m =>
      (lookupOrCreateLockSlot slots m).toOption.bind fun r =>
        if held.length < maxHeldLockSlots then some (r.1, held ++ [r.2]) else none
  | .release m | .releaseMutex m =>
      some (slots, (lookupLockSlot slots m).elim held (removeHeld held))

structure Inv (mode : LockdepMode) (s : State) (x : ThreadState) : Prop where
  nodup : s.slots.Nodup
  limit : s.slots.length ≤ maxLockSlots
  tls : Represents s.slots.length s.tls x
  mirrors : mode = .rb → Mirrors x

theorem inv_initial (mode : LockdepMode) : Inv mode initial ThreadState.initial :=
  ⟨List.nodup_nil, Nat.zero_le _, initial_represents _, fun _ => initial_mirrors⟩

variable {s : State}

/-- One acquisition, once the slot is known. -/
theorem acquire_spec (I : Inv mode s x) {slots' : List Nat}
    (hnd : slots'.Nodup) (hlim : slots'.length ≤ maxLockSlots)
    (hle : s.slots.length ≤ slots'.length) (hl : l < slots'.length) :
    (∃ ts' x', s.tls.acquireMutex mode l = .ok ts' ∧ Inv mode ⟨slots', ts'⟩ x' ∧
      x'.heldLockSlots = x.heldLockSlots ++ [l] ∧
      x.heldLockSlots.length < maxHeldLockSlots) ∨
    (s.tls.acquireMutex mode l = .error .panic ∧
      maxHeldLockSlots ≤ x.heldLockSlots.length) := by
  refine (acquireMutex_spec mode (I.tls.mono hle) hlim hl).imp_left ?_
  rintro ⟨ts', x', hts, hx, hr⟩
  have hheld := acquire_held hx
  refine ⟨ts', x', hts, ⟨hnd, hlim, hr, ?_⟩, hheld, ?_⟩
  · rintro rfl
    unfold ThreadState.acquire at hx
    split at hx
    · rename_i h0
      cases hx
      exact acquireTopLevel_mirrors (I.mirrors rfl) (List.length_eq_zero_iff.mp h0) l
    · exact pushHeldLockSlot_mirrors (I.mirrors rfl) hx
  · have := hr.limit
    rw [hheld, List.length_append, List.length_singleton] at this
    exact this

/-- One release, once the slot is known or not. -/
theorem inv_release (I : Inv mode s x) {m : Nat} {ts' : Tls}
    (hr : Represents s.slots.length ts'
      ((lookupLockSlot s.slots m).elim x (x.release mode))) :
    ∃ x', Inv mode ⟨s.slots, ts'⟩ x' ∧
      x'.heldLockSlots =
        (lookupLockSlot s.slots m).elim x.heldLockSlots (removeHeld x.heldLockSlots) := by
  refine ⟨_, ⟨I.nodup, I.limit, hr, ?_⟩, ?_⟩
  · rintro rfl
    cases lookupLockSlot s.slots m with
    | none => exact I.mirrors rfl
    | some l => exact release_mirrors (I.mirrors rfl) l
  · cases lookupLockSlot s.slots m with
    | none => rfl
    | some l => exact release_heldLockSlots mode x l

/-- **One action**: it panics or does what `next` says, and never leaves an array. -/
theorem run_spec (I : Inv mode s x) (a : Act) :
    (∃ s' x', run mode s a = .ok s' ∧ Inv mode s' x' ∧
      next s.slots x.heldLockSlots a = some (s'.slots, x'.heldLockSlots)) ∨
    (run mode s a = .error .panic ∧ next s.slots x.heldLockSlots a = none) := by
  have hslow : ∀ m, (∃ s' x', run mode s (.acquireMutex m) = .ok s' ∧ Inv mode s' x' ∧
      next s.slots x.heldLockSlots (.acquireMutex m) = some (s'.slots, x'.heldLockSlots)) ∨
      (run mode s (.acquireMutex m) = .error .panic ∧
        next s.slots x.heldLockSlots (.acquireMutex m) = none) := by
    intro m
    simp only [run, next]
    rcases lookupOrCreate_cases (m := m) I.nodup I.limit with
      ⟨slots', l, hl, hnd, hlim, hle, hlt⟩ | hl
    · rw [hl, ok_bind]
      rcases acquire_spec I hnd hlim hle hlt with ⟨ts', x', hts, I', hheld, hroom⟩ | ⟨hts, hfull⟩
      · exact Or.inl ⟨_, x', by rw [hts, ok_bind], I', by simp [Except.toOption, hroom, hheld]⟩
      · exact Or.inr ⟨by rw [hts]; rfl, by simp [Except.toOption, Nat.not_lt.mpr hfull]⟩
    · rw [hl]
      exact Or.inr ⟨rfl, rfl⟩
  have hrel : ∀ {m ts'}, Represents s.slots.length ts'
      ((lookupLockSlot s.slots m).elim x (x.release mode)) → ∃ x',
      Inv mode { s with tls := ts' } x' ∧ next s.slots x.heldLockSlots (.release m) =
        some (s.slots, x'.heldLockSlots) := fun hr => by
    obtain ⟨x', I', hheld⟩ := inv_release I hr
    exact ⟨x', I', by rw [next, hheld]⟩
  cases a with
  | register m =>
    simp only [run, next]
    rcases lookupOrCreate_cases (m := m) I.nodup I.limit with
      ⟨slots', l, hl, hnd, hlim, hle, -⟩ | hl
    · rw [hl, ok_bind]
      exact Or.inl ⟨_, x, rfl, ⟨hnd, hlim, I.tls.mono hle, I.mirrors⟩, rfl⟩
    · rw [hl]
      exact Or.inr ⟨rfl, rfl⟩
  | acquire m =>
    -- with nothing held the slow path does what the fast path does
    have hsame : run mode s (.acquire m) = run mode s (.acquireMutex m) := by
      simp only [run, Tls.acquireMutex]
      congr 1
      funext r
      split <;> rfl
    rw [hsame]
    exact hslow m
  | acquireMutex m => exact hslow m
  | release m =>
    left
    simp only [run]
    rcases releaseTopLevelMutexFast_spec mode (m := m) I.tls I.nodup I.limit with
      hfast | ⟨ts', hfast, hr⟩
    · obtain ⟨ts', hts, hr⟩ := releaseMutex_spec mode (m := m) I.tls I.nodup I.limit
      obtain ⟨x', I', hnext⟩ := hrel hr
      exact ⟨_, x', by rw [hfast, ok_bind, hts]; rfl, I', hnext⟩
    · obtain ⟨x', I', hnext⟩ := hrel hr
      exact ⟨_, x', by rw [hfast, ok_bind], I', hnext⟩
  | releaseMutex m =>
    left
    obtain ⟨ts', hts, hr⟩ := releaseMutex_spec mode (m := m) I.tls I.nodup I.limit
    obtain ⟨x', I', hnext⟩ := hrel hr
    exact ⟨_, x', by rw [run, hts, ok_bind], I', hnext⟩

theorem step_spec {s' : State} {a : Act} (I : Inv mode s x)
    (h : (system mode).step s a = some s') : ∃ x', Inv mode s' x' ∧
      next s.slots x.heldLockSlots a = some (s'.slots, x'.heldLockSlots) := by
  rcases run_spec I a with ⟨t, x', ht, I', hn⟩ | ⟨hp, -⟩
  · simp only [system, ht, Except.toOption, Option.some.injEq] at h
    exact ⟨x', h ▸ I', h ▸ hn⟩
  · simp [system, hp, Except.toOption] at h

theorem exec_inv {s' : State} {as : List Act} (I : Inv mode s x)
    (h : Runs.exec (system mode) s as = some s') : ∃ x', Inv mode s' x' := by
  induction as generalizing s x with
  | nil =>
    cases h
    exact ⟨x, I⟩
  | cons a as ih =>
    obtain ⟨t, ht, h⟩ := Option.bind_eq_some_iff.mp h
    obtain ⟨x', I', -⟩ := step_spec I ht
    exact ih I' h

/-- **The two modes keep the same stack.** -/
theorem exec_modes {mode' : LockdepMode} {s' t : State} {y : ThreadState} {as : List Act}
    (I : Inv mode s x) (J : Inv mode' t y) (hslots : t.slots = s.slots)
    (hheld : y.heldLockSlots = x.heldLockSlots) (h : Runs.exec (system mode) s as = some s') :
    ∃ t', Runs.exec (system mode') t as = some t' ∧ t'.slots = s'.slots ∧
      t'.tls.held = s'.tls.held := by
  induction as generalizing s t x y with
  | nil =>
    cases h
    exact ⟨t, rfl, hslots, by rw [J.tls.held, I.tls.held, hheld]⟩
  | cons a as ih =>
    obtain ⟨s₁, hs₁, h⟩ := Option.bind_eq_some_iff.mp h
    obtain ⟨x₁, I₁, hn⟩ := step_spec I hs₁
    rcases run_spec J a with ⟨t₁, y₁, ht₁, J₁, hm⟩ | ⟨-, hm⟩
    · rw [hslots, hheld, hn] at hm
      obtain ⟨h1, h2⟩ := Prod.mk.inj (Option.some.inj hm)
      obtain ⟨t', ht', hrest⟩ := ih I₁ J₁ h1.symm h2.symm h
      have hstep : (system mode').step t a = some t₁ := by simp [system, ht₁, Except.toOption]
      exact ⟨t', (Runs.exec_cons as hstep).trans ht', hrest⟩
    · rw [hslots, hheld, hn] at hm
      cases hm

/-- **The held stack after any sequence of acquisitions and releases.**  The count and the
stored slots are in range; in `rb` mode the reference counts and the bits count the stack,
the next reference does not wrap, and what the worker is offered for a new lock are the
held slots of the global backend that the snapshot lacks.  No next action leaves an
array. -/
theorem held_stack_invariant {as : List Act}
    (h : Runs.exec (system mode) initial as = some s) :
    0 ≤ s.tls.heldLockSlotCount ∧ s.tls.heldLockSlotCount ≤ maxHeldLockSlots ∧
    (∀ i : Nat, i < s.tls.heldLockSlotCount → s.tls.heldLockSlots i < s.slots.length) ∧
    (∀ a, run mode s a ≠ .error .outOfRange) ∧
    (mode = .rb → ∀ l, s.tls.heldLockRefcounts l = s.tls.held.count l ∧
      (s.tls.heldLockBits.test l = true ↔ 0 < s.tls.held.count l) ∧
      s.tls.heldLockRefcounts l + 1 < 2 ^ 16) ∧
    (mode = .rb → ∃ g, Runs.exec (system .global) initial as = some g ∧
      ∀ (tables : RbGraph) (u v : Nat),
        (tables.collectUnknownPredecessors s.tls.heldLockBits v).test u = true ↔
          u ∈ g.tls.held ∧ u ≠ v ∧ (tables.predecessorSnapshot v).test u = false) := by
  obtain ⟨x, I⟩ := exec_inv (inv_initial mode) h
  have hlim := I.tls.limit
  have hheld := I.tls.held
  refine ⟨by rw [I.tls.count]; omega, by rw [I.tls.count]; omega, fun i hi => ?_, fun a => ?_,
    fun hrb l => ?_, fun hrb => ?_⟩
  · rw [I.tls.count] at hi
    have hi' := I.tls.slots i (by omega)
    exact I.tls.registered _ (List.mem_of_getElem? hi')
  · rcases run_spec I a with ⟨s', x', hr, -⟩ | ⟨hr, -⟩ <;> rw [hr] <;> exact fun hc => by cases hc
  · have M := I.mirrors hrb
    have hcount : x.heldLockSlots.count l ≤ x.heldLockSlots.length := List.count_le_length
    have hmax : maxHeldLockSlots = 64 := rfl
    rw [hheld, I.tls.refcounts, I.tls.bits, M.refcount, M.bits]
    refine ⟨rfl, ?_, by omega⟩
    rw [decide_eq_true_eq, List.count_pos_iff]
  · obtain ⟨g, hg, -, hgheld⟩ := exec_modes (inv_initial mode) (inv_initial .global) rfl rfl h
    refine ⟨g, hg, fun tables u v => ?_⟩
    have M := I.mirrors hrb
    have hw : 64 * graphWords = maxLockSlots := rfl
    have hlt : u ∈ x.heldLockSlots → u / 64 < graphWords := fun hu => by
      have := I.tls.registered u hu
      have := I.limit
      omega
    rw [hgheld, hheld, RbGraph.collectUnknownPredecessors, WordSet.test_clear,
      RbBackend.test_collectWords, I.tls.bits, M.bits]
    simp only [Bool.and_eq_true, decide_eq_true_eq, Bool.not_eq_true']
    grind

/-- Three mutexes, the first taken twice and released out of order; a mutex that was never
seen is released too. -/
def mixed : List Act :=
  [.acquire 70, .acquire 80, .acquireMutex 70, .register 60, .release 99, .acquire 60,
    .releaseMutex 70, .release 80]

theorem mixed_runs : (Runs.exec (system .rb) initial mixed).isSome = true := by
  decide +kernel

theorem held_stack_invariant_mixed : ∃ s, Runs.exec (system .rb) initial mixed = some s ∧
    s.tls.held = [0, 2] ∧ s.tls.heldLockRefcounts 0 = s.tls.held.count 0 ∧
    ∀ a, run .rb s a ≠ .error .outOfRange := by
  have hs := (Option.some_get mixed_runs).symm
  have h := held_stack_invariant hs
  exact ⟨_, hs, by decide +kernel, (h.2.2.2.2.1 rfl 0).1, h.2.2.2.1⟩

end HeldStack

end ScaleLockDep
