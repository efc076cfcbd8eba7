import ScaleLockDep.HookSpecs

/-!
# The fast paths

* `Tracking.release`: the reference release, on the held stack, its counts and bits, and the
  owner entries;
* `alone_releaseMutex`: the general release does this, whichever way it finds the slot;
* `fast_paths_agree`: so does the fast one, and the fast acquisition does what the general one
  does.
-/

namespace ScaleLockDep

namespace ThreadState

variable {mode : LockdepMode} {x : ThreadState} {held : List Nat} {l : Nat}

/-! ## The last occurrence -/

theorem findHeldBelow_append (a : Nat) {n : Nat} (hn : n ≤ held.length) :
    findHeldBelow (held ++ [a]) l n = findHeldBelow held l n := by
  induction n with
  | zero => rfl
  | succ n ih =>
    rw [findHeldBelow, findHeldBelow, List.getElem?_append_left hn, ih (Nat.le_of_succ_le hn)]

theorem removeHeld_append (a : Nat) : removeHeld (held ++ [a]) l =
    if a = l then held else removeHeld held l ++ [a] := by
  have hlen : (held ++ [a]).length = held.length + 1 := by simp
  have htop : (held ++ [a])[held.length]? = some a := by simp
  rw [removeHeld, hlen, findHeldBelow, htop]
  by_cases ha : a = l
  · rw [if_pos (congrArg some ha), if_pos ha]
    simp [List.eraseIdx_append_of_length_le]
  · rw [if_neg fun h => ha (Option.some.inj h), if_neg ha, findHeldBelow_append a (Nat.le_refl _),
      removeHeld]
    cases hf : findHeldBelow held l held.length with
    | none => rfl
    | some i =>
      have hi := (findHeldBelow_some hf).1
      exact List.eraseIdx_append_of_lt_length hi [a]

/-- **A release removes the last occurrence of its slot.** -/
theorem removeHeld_eq (held : List Nat) (l : Nat) :
    removeHeld held l = (held.reverse.erase l).reverse := by
  induction held using List.reverseRecOn with
  | nil => rfl
  | append_singleton held a ih =>
    rw [removeHeld_append, List.reverse_append, List.reverse_singleton, List.singleton_append,
      List.erase_cons]
    by_cases ha : a = l
    · simp [ha]
    · simp [ha, ih]

theorem release_unfold (mode : LockdepMode) (x : ThreadState) (hl : l ∈ x.heldLockSlots) :
    release mode x l =
      { noteThreadReleasesLockSlot mode x l with heldLockSlots := removeHeld x.heldLockSlots l } := by
  have hheld := release_heldLockSlots mode x l
  have hrest : ∃ held, release mode x l =
      { noteThreadReleasesLockSlot mode x l with heldLockSlots := held } := by
    unfold release releaseTopLevel releaseMutex removeHeldLockSlot
    by_cases hone : x.heldLockSlots = [l]
    · rw [if_pos hone, Option.getD_some]
      exact ⟨_, rfl⟩
    · rw [if_neg hone, if_neg hone, Option.getD_none]
      split
      · exact ⟨_, noteThreadReleasesLockSlot_with mode x l _⟩
      · split
        · exact ⟨_, noteThreadReleasesLockSlot_with mode x l _⟩
        · rename_i hnone
          obtain ⟨i, hi, hil⟩ := List.mem_iff_getElem.1 hl
          exact absurd (by rw [List.getElem?_eq_getElem hi, hil]) (findHeldBelow_none hnone i hi)
  obtain ⟨held, hr⟩ := hrest
  rw [hr] at hheld ⊢
  rw [show held = removeHeld x.heldLockSlots l from hheld]

end ThreadState

namespace HookPrograms

open HeldStack (Tls Represents)
open Programs
open Registry (cacheIndex)
open ThreadState (Mirrors removeHeld)

variable {β : Type} {c : Setup} {b : β} {t m l k : Nat} {v v' : View β}

/-! ## The reference release -/

structure Tracking where
  held : List Nat
  refcounts : Nat → Nat
  bits : WordSet
  owner : Nat → Option Nat

def tracking (v : View β) : Tracking :=
  ⟨v.1.tls.held, v.1.tls.heldLockRefcounts, v.1.tls.heldLockBits, v.2.owner⟩

/-- The release of a slot by the thread with slot `k`; `none` is an unknown mutex. -/
def Tracking.release (mode : LockdepMode) (k : Nat) (x : Tracking) : Option Nat → Tracking
  | none => x
  | some l =>
      { held := (x.held.reverse.erase l).reverse
        refcounts :=
          if mode = .rb ∧ l ∈ x.held then Function.update x.refcounts l (x.refcounts l - 1)
          else x.refcounts
        bits := if mode = .rb ∧ l ∈ x.held ∧ x.refcounts l = 1 then x.bits.clear l else x.bits
        owner := if x.owner l = some k then Function.update x.owner l none else x.owner }

theorem Tracking.release_held (mode : LockdepMode) (k : Nat) (x : Tracking) (slot : Option Nat) :
    (x.release mode k slot).held =
      slot.elim x.held fun l => (x.held.reverse.erase l).reverse := by
  cases slot with
  | none => rfl
  | some l => rfl

/-- Where the slot does not occur and the owner is another, nothing changes. -/
theorem Tracking.release_absent {x : Tracking} {mode : LockdepMode} (hl : l ∉ x.held)
    (ho : x.owner l ≠ some k) : x.release mode k (some l) = x := by
  have herase : (x.held.reverse.erase l).reverse = x.held := by
    rw [List.erase_of_not_mem (by simpa using hl), List.reverse_reverse]
  simp [Tracking.release, hl, ho, herase]

/-- The stack of the code against the reference. -/
theorem Represents.release {n : Nat} {ts ts' : Tls} {x : ThreadState} {mode : LockdepMode}
    (h : Represents n ts x) (hm : mode = .rb → Mirrors x) (h' : Represents n ts' (x.release mode l))
    (owner : Nat → Option Nat) (k : Nat) :
    let y := Tracking.release mode k ⟨ts.held, ts.heldLockRefcounts, ts.heldLockBits, owner⟩ (some l)
    ts'.held = y.held ∧ ts'.heldLockRefcounts = y.refcounts ∧ ts'.heldLockBits = y.bits := by
  intro y
  by_cases hl : l ∈ ts.held
  · have hx : l ∈ x.heldLockSlots := h.held ▸ hl
    have hheld : ts'.held = y.held := by
      rw [h'.held, ThreadState.release_heldLockSlots, ThreadState.removeHeld_eq, ← h.held]
      rfl
    refine ⟨hheld, ?_⟩
    rw [h'.refcounts, h'.bits, ThreadState.release_unfold mode x hx]
    cases mode with
    | global =>
      have hnote : x.noteThreadReleasesLockSlot .global l = x := rfl
      rw [hnote]
      exact ⟨by simp [y, Tracking.release, h.refcounts], by simp [y, Tracking.release, h.bits]⟩
    | rb =>
      have hpos : 0 < x.heldLockRefcounts l := by
        rw [(hm rfl).refcount]
        exact List.count_pos_iff.2 hx
      rw [ThreadState.noteThreadReleasesLockSlot_rb (by omega)]
      have hone : x.heldLockRefcounts l - 1 = 0 ↔ x.heldLockRefcounts l = 1 := by omega
      exact ⟨by simp [y, Tracking.release, hl, h.refcounts],
        by simp [y, Tracking.release, hl, h.refcounts, h.bits, hone]⟩
  · have hx : l ∉ x.heldLockSlots := h.held ▸ hl
    have hsame : x.release mode l = x := by
      rcases ThreadState.release_held mode x l with ⟨i, hi, -⟩ | ⟨-, hsame⟩
      · exact absurd (List.mem_of_getElem? hi) hx
      · exact hsame
    rw [hsame] at h'
    have herase : y.held = ts.held := by
      change (ts.held.reverse.erase l).reverse = ts.held
      rw [List.erase_of_not_mem (by simpa using hl), List.reverse_reverse]
    refine ⟨?_, ?_, ?_⟩
    · rw [herase, h'.held, h.held]
    · rw [h'.refcounts, ← h.refcounts]
      simp [y, Tracking.release, hl]
    · rw [h'.bits, ← h.bits]
      simp [y, Tracking.release, hl]

/-! ## The functions, run alone -/

/-- The thread has slot `k`; otherwise only its tables have changed. -/
structure Named (t k : Nat) (v v' : View β) : Prop where
  tls : v'.1.tls = v.1.tls
  cache : v'.1.cache = v.1.cache
  locks : v'.2.locks = v.2.locks
  owner : v'.2.owner = v.2.owner
  slot : v'.1.threadSlot = some k
  find : v'.2.threads.find t = some k
  /-- it had the slot before, or the slot is new -/
  known : v.2.threads.find t = some k ∨ k = v.2.threads.keys.length

theorem alone_currentThreadSlot_of (hk : v.1.threadSlot = some k) :
    alone (currentThreadSlot t) v = .returned k v := by
  simp [currentThreadSlot, hk]

/-- A thread without a slot may find the table full. -/
theorem alone_currentThreadSlot (hslot : ∀ k, v.1.threadSlot = some k → v.2.threads.find t = some k) :
    (∃ k v', alone (currentThreadSlot t) v = .returned k v' ∧ Named t k v v') ∨
    (v.1.threadSlot = none ∧ v.2.threads.slotFor t = none ∧
      alone (currentThreadSlot t) v = .exited 1 v) := by
  cases hk : v.1.threadSlot with
  | some k =>
    exact Or.inl ⟨k, v, alone_currentThreadSlot_of hk, rfl, rfl, rfl, rfl, hk, hslot k hk,
      Or.inl (hslot k hk)⟩
  | none =>
    rcases SlotTable.slotFor_cases v.2.threads t with
      ⟨k, hfind, hs⟩ | ⟨hnew, hroom, hs⟩ | ⟨hnew, hroom, hs⟩
    · have hmem : ¬ (t ∉ v.2.threads.keys ∧ v.2.threads.keys.length < maxThreadSlots) := by
        rintro ⟨hn, -⟩
        rw [SlotTable.find_eq_none.2 hn] at hfind
        cases hfind
      refine Or.inl ⟨k, ({ v.1 with threadSlot := some k }, v.2), ?_, rfl, rfl, rfl, rfl, rfl, hfind,
        Or.inl hfind⟩
      simp [currentThreadSlot, getOrRegisterThreadSlot, hk, hs, Shared.registerThread, hmem]
    · have hadd : t ∉ v.2.threads.keys ∧ v.2.threads.keys.length < maxThreadSlots := ⟨hnew, hroom⟩
      refine Or.inl ⟨v.2.threads.keys.length, ({ v.1 with threadSlot := some v.2.threads.keys.length },
        v.2.registerThread t), ?_, rfl, rfl, ?_, ?_, rfl, ?_, Or.inr rfl⟩
      · simp [currentThreadSlot, getOrRegisterThreadSlot, hk, hs]
      · rw [Shared.registerThread, if_pos hadd]
      · rw [Shared.registerThread, if_pos hadd]
      · rw [Shared.registerThread, if_pos hadd]
        exact SlotTable.register_find hadd
    · have hmem : ¬ (t ∉ v.2.threads.keys ∧ v.2.threads.keys.length < maxThreadSlots) :=
        fun hc => hroom hc.2
      refine Or.inr ⟨rfl, hs, ?_⟩
      simp [currentThreadSlot, getOrRegisterThreadSlot, hk, hs, Shared.registerThread, hmem, panic,
        alone]

theorem alone_readTls {α : Type} {f : View β → Except HeldStack.Fault α} {a : α} (h : f v = .ok a) :
    alone (readTls f) v = .returned a v := by
  simp [readTls, h]

theorem alone_updateTls {f : Tls → Except HeldStack.Fault Tls} {ts : Tls} (h : f v.1.tls = .ok ts) :
    alone (updateTls f) v = .returned () ({ v.1 with tls := ts }, v.2) := by
  simp [updateTls, h]

/-- The compare-exchange, and what it leaves alone. -/
theorem alone_clearOwner (c : Setup) (l k : Nat) (v : View β) : ∃ s,
    alone (clearOwner c l k) v = .returned () (v.1, s) ∧ s.locks = v.2.locks ∧
      s.threads = v.2.threads ∧
      s.owner = if v.2.owner l = some k then Function.update v.2.owner l none else v.2.owner := by
  by_cases ho : v.2.owner l = some k
  · by_cases hsites : c.reportSites = true
    · refine ⟨(v.2.setOwner l none).setOwnerPc l 0, ?_, rfl, rfl, (if_pos ho).symm⟩
      simp [clearOwner, storeOwnerAcquirePc, ho, hsites]
    · refine ⟨v.2.setOwner l none, ?_, rfl, rfl, (if_pos ho).symm⟩
      simp [clearOwner, storeOwnerAcquirePc, ho, hsites]
  · refine ⟨v.2, ?_, rfl, rfl, (if_neg ho).symm⟩
    simp [clearOwner, ho]

/-- A cache hit and the registry agree. -/
theorem alone_lookupLockSlotCachedFast (hm : m ≠ 0) (hcache : ∀ i, (v.1.cache i).mutex ≠ 0 →
    v.2.locks.find (v.1.cache i).mutex = some (v.1.cache i).lockSlot) : ∃ own,
    alone (lookupLockSlotCachedFast m) v = .returned (v.2.locks.find m) (own, v.2) ∧
      own.tls = v.1.tls ∧ own.threadSlot = v.1.threadSlot := by
  by_cases hit : (v.1.cache (cacheIndex m)).mutex = m
  · have hfind := hcache (cacheIndex m) (by rw [hit]; exact hm)
    rw [hit] at hfind
    refine ⟨v.1, ?_, rfl, rfl⟩
    simp [lookupLockSlotCachedFast, lookupLockSlotInCache, hit, hfind]
  · cases hfind : v.2.locks.find m with
    | none =>
      refine ⟨v.1, ?_, rfl, rfl⟩
      simp [lookupLockSlotCachedFast, lookupLockSlotCached, lookupLockSlotInCache, hit, hfind]
    | some l =>
      refine ⟨{ v.1 with cache := Function.update v.1.cache (cacheIndex m) ⟨m, l⟩ }, ?_, rfl, rfl⟩
      simp [lookupLockSlotCachedFast, lookupLockSlotCached, lookupLockSlotInCache,
        storeLockSlotInCache, hit, hfind]

theorem alone_lookupOrCreate_tls
    (h : alone (lookupOrCreateLockSlotCachedFast m) v = .returned l v') : v'.1.tls = v.1.tls := by
  by_cases hit : (v.1.cache (cacheIndex m)).mutex = m
  · simp [lookupOrCreateLockSlotCachedFast, lookupLockSlotInCache, hit] at h
    rw [h.2]
  · cases hslot : v.2.locks.slotFor m with
    | none =>
      simp [lookupOrCreateLockSlotCachedFast, lookupOrCreateLockSlotCached, lookupOrCreateLockSlot,
        lookupLockSlotInCache, storeLockSlotInCache, hit, hslot, panic, alone] at h
    | some l =>
      simp [lookupOrCreateLockSlotCachedFast, lookupOrCreateLockSlotCached, lookupOrCreateLockSlot,
        lookupLockSlotInCache, storeLockSlotInCache, hit, hslot] at h
      rw [← h.2]

/-! ## The general release -/

/-- The end of the general release. -/
theorem alone_releaseSlot {x : ThreadState} (hx : Represents v.2.locks.keys.length v.1.tls x)
    (hmirrors : c.mode = .rb → Mirrors x) (hl : l < v.2.locks.keys.length) : ∃ v',
      alone (do clearOwner c l k; updateTls (·.releaseLockSlot c.mode l)) v = .returned () v' ∧
        v'.2.threads = v.2.threads ∧
        tracking v' = (tracking v).release c.mode k (some l) := by
  obtain ⟨s, hclear, hlocks, hthreads, howner⟩ := alone_clearOwner c l k v
  obtain ⟨ts, hts, hx'⟩ : ∃ ts, v.1.tls.releaseLockSlot c.mode l = .ok ts ∧
      Represents v.2.locks.keys.length ts (x.releaseMutex c.mode l) :=
    HeldStack.releaseLockSlot_spec hx (hl.trans_le v.2.locks.bound)
  rw [← HeldStack.release_eq_releaseMutex] at hx'
  have hupdate := alone_updateTls (f := (·.releaseLockSlot c.mode l)) (v := (v.1, s)) hts
  obtain ⟨hheld, hrefcounts, hbits⟩ := Represents.release hx hmirrors hx' v.2.owner k
  refine ⟨({ v.1 with tls := ts }, s), ?_, hthreads, ?_⟩
  · rw [alone_bind, hclear, Outcome.returned_bind, hupdate]
  · rw [tracking, hheld, hrefcounts, hbits, howner]
    rfl

/-- **The general release does what the reference does.** -/
theorem alone_releaseMutex (h : Inv c t v) (hm : m ≠ 0) :
    (∃ k v', alone (releaseMutex c t m) v = .returned () v' ∧ v'.2.threads.find t = some k ∧
      tracking v' = (tracking v).release c.mode k (v.2.locks.find m) ∧
      (v.2.threads.find t = some k ∨ k = v.2.threads.keys.length)) ∨
    (v.1.threadSlot = none ∧ v.2.threads.slotFor t = none ∧
      alone (releaseMutex c t m) v = .exited 1 v) := by
  rcases alone_currentThreadSlot h.slot with ⟨k, v₁, hself, hnamed⟩ | ⟨hnone, hfull, hself⟩
  · left
    obtain ⟨x, hx, hmirrors⟩ := h.stack
    obtain ⟨top, htop, hor⟩ := HeldStack.tryLookupTop_spec (m := m) hx v.2.locks.nodup
      v.2.locks.bound
    have hread : alone (readTls fun v => HeldStack.tryLookupTopHeldLockSlot v.2.locks.keys v.1.tls m)
        v₁ = .returned top v₁ := alone_readTls (by rw [hnamed.tls, hnamed.locks]; exact htop)
    have htracking : tracking v₁ = tracking v := by
      rw [tracking, tracking, hnamed.tls, hnamed.owner]
    -- what is left once the slot of the mutex is known
    have hslot : ∀ own, own.tls = v₁.1.tls → ∃ v',
        alone (match v.2.locks.find m with
          | none => pure ()
          | some l => do
              clearOwner c l k
              updateTls (·.releaseLockSlot c.mode l)) (own, v₁.2) = .returned () v' ∧
          v'.2.threads.find t = some k ∧
          tracking v' = (tracking v).release c.mode k (v.2.locks.find m) := by
      intro own htls
      have htracking' : tracking (own, v₁.2) = tracking v := by
        rw [← htracking, tracking, tracking, htls]
      cases hfind : v.2.locks.find m with
      | none => exact ⟨_, alone_pure _ _, hnamed.find, htracking'⟩
      | some l =>
        have hx₁ : Represents v₁.2.locks.keys.length own.tls x := by
          rw [htls, hnamed.tls, hnamed.locks]
          exact hx
        obtain ⟨v', hv', hthreads, htrack⟩ := alone_releaseSlot (k := k) (v := (own, v₁.2)) hx₁
          hmirrors (by rw [hnamed.locks]; exact SlotTable.find_lt hfind)
        refine ⟨v', hv', ?_, ?_⟩
        · rw [hthreads]
          exact hnamed.find
        · rw [htrack, htracking']
    refine ⟨k, ?_⟩
    rw [releaseMutex, alone_bind, hself, Outcome.returned_bind, alone_bind, hread,
      Outcome.returned_bind]
    cases top with
    | some l =>
      obtain ⟨v', hv', hrest⟩ := hslot v₁.1 rfl
      have hfind : v.2.locks.find m = some l := hor.symm
      rw [hfind] at hv'
      exact ⟨v', hv', hrest.1, hrest.2, hnamed.known⟩
    | none =>
      obtain ⟨own, hlookup, htls, -⟩ := alone_lookupLockSlotCachedFast (v := v₁) hm fun i hi => by
        rw [hnamed.cache] at hi ⊢
        rw [hnamed.locks]
        exact h.cache i hi
      obtain ⟨v', hv', hrest⟩ := hslot own htls
      refine ⟨v', ?_, hrest.1, hrest.2, hnamed.known⟩
      rw [hnamed.locks] at hlookup
      change alone (lookupLockSlotCachedFast m >>= _) v₁ = _
      rw [alone_bind, hlookup, Outcome.returned_bind]
      exact hv'
  · refine Or.inr ⟨hnone, hfull, ?_⟩
    rw [releaseMutex, alone_bind, hself, Outcome.exited_bind]

/-! ## The fast paths -/

/-- The fast release reads and gives up, or does all that the general one does. -/
theorem alone_releaseTopLevelMutexFast (h : Inv c t v) :
    alone (releaseTopLevelMutexFast c t m) v = .returned false v ∨
    ∃ v', alone (releaseTopLevelMutexFast c t m) v = .returned true v' ∧
      alone (releaseMutex c t m) v = .returned () v' := by
  obtain ⟨x, hx, -⟩ := h.stack
  by_cases hone : x.heldLockSlots.length = 1
  · obtain ⟨l, hl⟩ := List.length_eq_one_iff.1 hone
    have hcount : v.1.tls.heldLockSlotCount = 1 := by
      rw [hx.count, hone]
      rfl
    have hload : v.1.tls.load 0 = .ok l := hx.load (i := 0) (by simp [hl])
    have hreg := hx.registered l (by simp [hl])
    have haddr : HeldStack.addr v.2.locks.keys l = .ok v.2.locks.keys[l]? :=
      if_neg (Nat.not_le.2 (hreg.trans_le v.2.locks.bound))
    have hread : alone (readTls fun v : View β => v.1.tls.load 0) v = .returned l v :=
      alone_readTls hload
    have hread' : alone (readTls fun v : View β => HeldStack.addr v.2.locks.keys l) v =
        .returned v.2.locks.keys[l]? v := alone_readTls haddr
    by_cases hm : v.2.locks.keys[l]? = some m
    · right
      obtain ⟨k, hk⟩ := Option.ne_none_iff_exists'.1 (h.registered (by rw [hx.held, hl]; simp))
      have hself := alone_currentThreadSlot_of (t := t) hk
      obtain ⟨s, hclear, -⟩ := alone_clearOwner c l k v
      obtain ⟨ts, hts, -⟩ : ∃ ts, v.1.tls.releaseLockSlot c.mode l = .ok ts ∧
          Represents v.2.locks.keys.length ts (x.releaseMutex c.mode l) :=
        HeldStack.releaseLockSlot_spec hx (hreg.trans_le v.2.locks.bound)
      have hslow : alone (updateTls (·.releaseLockSlot c.mode l)) (v.1, s) =
          .returned () ({ v.1 with tls := ts }, s) := alone_updateTls hts
      have hfast : alone (updateTls fun ts => do
          let ts ← ts.noteThreadReleasesLockSlot c.mode l
          .ok { ts with heldLockSlotCount := 0 }) (v.1, s) =
          .returned () ({ v.1 with tls := ts }, s) := by
        rw [load_of_single hcount hload] at hts
        exact alone_updateTls hts
      refine ⟨({ v.1 with tls := ts }, s), ?_, ?_⟩
      · simp [releaseTopLevelMutexFast, hcount, hread, hread', hm, hself, hclear, hfast]
      · have htop : HeldStack.tryLookupTopHeldLockSlot v.2.locks.keys v.1.tls m = .ok (some l) := by
          rw [HeldStack.tryLookupTopHeldLockSlot, hcount, if_neg (by decide), Int.sub_self, hload,
            HeldStack.ok_bind, haddr, HeldStack.ok_bind, if_pos hm]
        have hreadTop : alone (readTls fun v : View β =>
            HeldStack.tryLookupTopHeldLockSlot v.2.locks.keys v.1.tls m) v =
            .returned (some l) v := alone_readTls htop
        simp [releaseMutex, hself, hreadTop, hclear, hslow]
    · left
      simp [releaseTopLevelMutexFast, hcount, hread, hread', hm]
  · left
    have hcount : v.1.tls.heldLockSlotCount ≠ 1 := by
      rw [hx.count]
      omega
    simp [releaseTopLevelMutexFast, hcount]

theorem alone_noteUnlock (h : Inv c t v) :
    alone (noteUnlock c t m) v = alone (releaseMutex c t m) v := by
  rw [noteUnlock, alone_bind]
  rcases alone_releaseTopLevelMutexFast (m := m) h with hfast | ⟨v', hfast, hslow⟩
  · rw [hfast, Outcome.returned_bind, if_neg (by decide)]
  · rw [hfast, Outcome.returned_bind, if_pos rfl, hslow]
    rfl

theorem alone_acquireTopLevelMutexFast (h : Inv c t v) (pc : Nat)
    (hcount : v.1.tls.heldLockSlotCount = 0) :
    alone (acquireTopLevelMutexFast c t m pc) v = alone (acquireMutex c t m false pc) v := by
  rw [acquireTopLevelMutexFast, acquireMutex, alone_bind, alone_bind]
  rcases alone_currentThreadSlot h.slot with ⟨k, v₁, hself, hnamed⟩ | ⟨-, -, hself⟩
  · rw [hself, Outcome.returned_bind, Outcome.returned_bind, alone_bind, alone_bind]
    refine Outcome.bind_congr fun l v₂ hlookup => ?_
    have hcount₂ : v₂.1.tls.heldLockSlotCount = 0 := by
      rw [alone_lookupOrCreate_tls hlookup, hnamed.tls, hcount]
    simp [hcount₂]
  · rw [hself]
    rfl

/-- **The fast paths do what the general ones do, and every release does what the reference
does, for every thread in every reachable state.**  A release fails only where the thread has no
slot and the table is full. -/
theorem fast_paths_agree (c : Setup) (b : β) {s : Config β}
    (h : Runs.Reachable (machine c b).system s) (t m pc : Nat) (hm : m ≠ 0) :
    ((s.view t).1.tls.heldLockSlotCount = 0 →
      alone (acquireTopLevelMutexFast c t m pc) (s.view t) =
        alone (acquireMutex c t m false pc) (s.view t)) ∧
    (alone (releaseTopLevelMutexFast c t m) (s.view t) = .returned false (s.view t) ∨
      ∃ v', alone (releaseTopLevelMutexFast c t m) (s.view t) = .returned true v' ∧
        alone (releaseMutex c t m) (s.view t) = .returned () v') ∧
    alone (noteUnlock c t m) (s.view t) = alone (releaseMutex c t m) (s.view t) ∧
    ((∃ k v', alone (releaseMutex c t m) (s.view t) = .returned () v' ∧
        v'.2.threads.find t = some k ∧
        tracking v' = (tracking (s.view t)).release c.mode k ((s.view t).2.locks.find m) ∧
        (c.abandons = false →
          (∀ l, (s.view t).2.locks.find m = some l → l ∉ (s.view t).1.tls.held) →
            tracking v' = tracking (s.view t))) ∨
      ((s.view t).1.threadSlot = none ∧ (s.view t).2.threads.slotFor t = none ∧
        alone (releaseMutex c t m) (s.view t) = .exited 1 (s.view t))) := by
  have hinv := reachable_inv h t
  refine ⟨alone_acquireTopLevelMutexFast hinv pc, alone_releaseTopLevelMutexFast hinv,
    alone_noteUnlock hinv, ?_⟩
  rcases alone_releaseMutex hinv hm with ⟨k, v', hrun, hk, htrack, hknown⟩ | hpanic
  · refine Or.inl ⟨k, v', hrun, hk, htrack, fun habandons habsent => ?_⟩
    rw [htrack]
    cases hfind : (s.view t).2.locks.find m with
    | none => rfl
    | some l =>
      have hlt := SlotTable.find_lt hfind
      refine Tracking.release_absent (habsent l hfind) fun ho => ?_
      rcases hknown with hself | hnew
      · exact habsent l hfind (hinv.owner habandons l k hself hlt ho)
      · exact Nat.lt_irrefl _ (hnew ▸ hinv.owners l k hlt ho)
  · exact Or.inr hpanic

/-- Thread 7 takes two mutexes. -/
def nested : List (Act (Query.Answer Unit) Call Unit Unit) :=
  ⟨7, .call (.lock 5 0)⟩ :: ⟨7, .run⟩ :: ⟨7, .answer (.realLock 5) (0 : Int)⟩ ::
    (List.replicate 10 ⟨7, .run⟩ ++ [⟨7, .call (.lock 6 0)⟩, ⟨7, .run⟩,
      ⟨7, .answer (.realTrylock 6) (0 : Int)⟩] ++ List.replicate 6 ⟨7, .run⟩ ++
      [⟨7, .answer (.potentialOnAcquire 0 1 0) (some ())⟩] ++ List.replicate 4 ⟨7, .run⟩)

theorem nested_runs : (Runs.exec (machine ⟨.rb, false, false⟩ ()).system
    (machine ⟨.rb, false, false⟩ ()).system.init nested).isSome = true := by
  decide +kernel

/-- A thread that holds nothing acquires, and the one that holds two releases the lower. -/
theorem fast_paths_agree_nested : ∃ s v', Runs.Reachable (machine ⟨.rb, false, false⟩ ()).system s ∧
    alone (acquireTopLevelMutexFast ⟨.rb, false, false⟩ 8 6 0) (s.view 8) =
      alone (acquireMutex ⟨.rb, false, false⟩ 8 6 false 0) (s.view 8) ∧
    alone (noteUnlock ⟨.rb, false, false⟩ 7 5) (s.view 7) = .returned () v' ∧
    (tracking (s.view 7)).held = [0, 1] ∧ (tracking v').held = [1] := by
  have hs := (Option.some_get nested_runs).symm
  have hreach : Runs.Reachable (machine ⟨.rb, false, false⟩ ()).system _ :=
    Runs.ReachableBy.exec .init hs
  have h := fast_paths_agree ⟨.rb, false, false⟩ () hreach 7 5 0 (by decide)
  have h' := fast_paths_agree ⟨.rb, false, false⟩ () hreach 8 6 0 (by decide)
  obtain ⟨k, v', hrun, -, htrack, -⟩ := h.2.2.2.resolve_right fun hfull =>
    absurd hfull.1 (by decide +kernel)
  refine ⟨_, v', hreach, h'.1 (by decide +kernel), h.2.2.1.trans hrun, by decide +kernel, ?_⟩
  rw [htrack, Tracking.release_held]
  decide +kernel

end HookPrograms

end ScaleLockDep
