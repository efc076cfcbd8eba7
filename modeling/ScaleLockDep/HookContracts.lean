import ScaleLockDep.HookPrograms

/-!
# What the hooks of a thread keep to

* `Rely`, `Guar`: what a thread leaves to the others, and what it may do itself;
* `Inv`: a thread's own state agrees with the shared tables, at every point of its hooks;
* `Point`: a moment at which `Inv` holds for the thread, with the facts its code has by then;
* one lemma for each access to the shared memory: from which points to which it leads.
-/

namespace ScaleLockDep

namespace HookPrograms

open HeldStack (Tls Fault Represents)
open Programs
open Registry (CacheEntry cacheIndex)
open ThreadState (Mirrors)

variable {β : Type}

/-! ## Slot tables -/

namespace SlotTable

variable {limit : Nat} {T T' : SlotTable limit} {key key' k : Nat}

theorem find_iff : T.find key = some k ↔ T.keys[k]? = some key := HeldStack.lookup_iff T.nodup

theorem find_eq_none : T.find key = none ↔ key ∉ T.keys := List.idxOf?_eq_none_iff

theorem find_lt (h : T.find key = some k) : k < T.keys.length :=
  (List.getElem?_eq_some_iff.1 (find_iff.1 h)).1

/-- Two keys have two slots. -/
theorem find_inj (h : T.find key = some k) (h' : T.find key' = some k) : key = key' :=
  Option.some.inj ((find_iff.1 h).symm.trans (find_iff.1 h'))

theorem find_mono (hle : T.keys <+: T'.keys) (h : T.find key = some k) :
    T'.find key = some k := by
  obtain ⟨ks, hks⟩ := hle
  rw [find_iff, ← hks, List.getElem?_append_left (find_lt h)]
  exact find_iff.1 h

theorem slotFor_of_find (h : T.find key = some k) : T.slotFor key = some k := by
  rw [slotFor, h]

/-- A registration finds the key, adds it, or fails in a full table. -/
theorem slotFor_cases (T : SlotTable limit) (key : Nat) :
    (∃ k, T.find key = some k ∧ T.slotFor key = some k) ∨
    (key ∉ T.keys ∧ T.keys.length < limit ∧ T.slotFor key = some T.keys.length) ∨
    (key ∉ T.keys ∧ ¬ T.keys.length < limit ∧ T.slotFor key = none) := by
  cases h : T.find key with
  | some k => exact Or.inl ⟨k, rfl, slotFor_of_find h⟩
  | none =>
    have hnew := find_eq_none.1 h
    by_cases hroom : T.keys.length < limit
    · exact Or.inr (Or.inl ⟨hnew, hroom, by rw [slotFor, h]; exact if_pos hroom⟩)
    · exact Or.inr (Or.inr ⟨hnew, hroom, by rw [slotFor, h]; exact if_neg hroom⟩)

theorem register_keys (h : key ∉ T.keys ∧ T.keys.length < limit) :
    (T.register key).keys = T.keys ++ [key] := by
  rw [register, dif_pos h]

theorem register_find (h : key ∉ T.keys ∧ T.keys.length < limit) :
    (T.register key).find key = some T.keys.length := by
  rw [find_iff, register_keys h]
  simp

/-- The other keys keep their slots, and get none. -/
theorem register_find_other (h : key ∉ T.keys ∧ T.keys.length < limit) (hne : key' ≠ key) :
    (T.register key).find key' = T.find key' := by
  have hle : T.keys <+: (T.register key).keys := by
    rw [register_keys h]
    exact List.prefix_append _ _
  cases hf : T.find key' with
  | some k => exact find_mono hle hf
  | none =>
    rw [find_eq_none, register_keys h]
    simp only [List.mem_append, List.mem_singleton, not_or]
    exact ⟨find_eq_none.1 hf, hne⟩

end SlotTable

/-! ## Between the threads -/

/-- An owner entry of a registered lock names a registered thread. -/
def Owners (s : Shared β) : Prop :=
  ∀ l k, l < s.locks.keys.length → s.owner l = some k → k < s.threads.keys.length

/-- What the others may do between two accesses of thread `t`: they never name `t` as an owner
or touch its waiting entries. -/
structure Rely (t : Nat) (v w : View β) : Prop where
  own : w.1 = v.1
  locks : v.2.locks.keys <+: w.2.locks.keys
  threads : v.2.threads.keys <+: w.2.threads.keys
  slot : w.2.threads.find t = v.2.threads.find t
  owner : ∀ l k, w.2.threads.find t = some k → l < w.2.locks.keys.length →
    w.2.owner l = some k → l < v.2.locks.keys.length ∧ v.2.owner l = some k
  owners : Owners v.2 → Owners w.2
  waiting : ∀ k, v.2.threads.find t = some k →
    w.2.waiting k = v.2.waiting k ∧ w.2.waitingPc k = v.2.waitingPc k

/-- What an access of thread `t` may do. -/
structure Guar (t : Nat) (v w : View β) : Prop where
  locks : v.2.locks.keys <+: w.2.locks.keys
  threads : v.2.threads.keys <+: w.2.threads.keys
  slots : ∀ u, u ≠ t → w.2.threads.find u = v.2.threads.find u
  owner : ∀ l k, l < w.2.locks.keys.length → w.2.owner l = some k →
    (l < v.2.locks.keys.length ∧ v.2.owner l = some k) ∨ w.2.threads.find t = some k
  waiting : ∀ k, k < v.2.threads.keys.length → w.2.threads.find t ≠ some k →
    w.2.waiting k = v.2.waiting k ∧ w.2.waitingPc k = v.2.waitingPc k

theorem Rely.refl (t : Nat) (v : View β) : Rely t v v where
  own := rfl
  locks := List.prefix_refl _
  threads := List.prefix_refl _
  slot := rfl
  owner _ _ _ hl ho := ⟨hl, ho⟩
  owners h := h
  waiting _ _ := ⟨rfl, rfl⟩

theorem Rely.trans {t : Nat} {v w x : View β} (h : Rely t v w) (h' : Rely t w x) :
    Rely t v x where
  own := h'.own.trans h.own
  locks := h.locks.trans h'.locks
  threads := h.threads.trans h'.threads
  slot := h'.slot.trans h.slot
  owner l k hk hl ho := by
    obtain ⟨hl', ho'⟩ := h'.owner l k hk hl ho
    exact h.owner l k (h'.slot ▸ hk) hl' ho'
  owners hv := h'.owners (h.owners hv)
  waiting k hk := by
    obtain ⟨hw, hp⟩ := h.waiting k hk
    obtain ⟨hw', hp'⟩ := h'.waiting k (h.slot.trans hk)
    exact ⟨hw'.trans hw, hp'.trans hp⟩

/-- An access that leaves the shared state as it is. -/
theorem Guar.of_eq {t : Nat} {v w : View β} (h : w.2 = v.2) : Guar t v w where
  locks := by rw [h]
  threads := by rw [h]
  slots _ _ := by rw [h]
  owner l k hl ho := Or.inl ⟨h ▸ hl, h ▸ ho⟩
  waiting _ _ _ := by rw [h]; exact ⟨rfl, rfl⟩

/-- **What one thread may do, the others can bear.** -/
theorem Guar.rely {t u : Nat} {l l' x : Local} {s s' : Shared β} (hu : u ≠ t)
    (h : Guar t (l, s) (l', s')) : Rely u (x, s) (x, s') where
  own := rfl
  locks := h.locks
  threads := h.threads
  slot := h.slots u hu
  owner k i hi hk ho := by
    rcases h.owner k i hk ho with hold | hself
    · exact hold
    · exact absurd (SlotTable.find_inj hi hself) hu
  owners hs k i hk ho := by
    rcases h.owner k i hk ho with ⟨hk', ho'⟩ | hself
    · exact Nat.lt_of_lt_of_le (hs k i hk' ho') h.threads.length_le
    · exact SlotTable.find_lt hself
  waiting k hk := by
    refine h.waiting k (SlotTable.find_lt hk) fun hself => hu ?_
    exact SlotTable.find_inj (SlotTable.find_mono h.threads hk) hself

/-- The protocol of thread `t`. -/
def protocol (t : Nat) : Protocol (View β) where
  rely := Rely t
  guar := Guar t
  rely_refl := Rely.refl t
  rely_trans _ _ _ := Rely.trans
  guar_refl _ := .of_eq rfl

/-! ## A thread and the tables -/

/-- The own state of thread `t` agrees with the shared tables. -/
structure Inv (c : Setup) (t : Nat) (v : View β) : Prop where
  owners : Owners v.2
  cache : ∀ i, (v.1.cache i).mutex ≠ 0 →
    v.2.locks.find (v.1.cache i).mutex = some (v.1.cache i).lockSlot
  slot : ∀ k, v.1.threadSlot = some k → v.2.threads.find t = some k
  stack : ∃ x, Represents v.2.locks.keys.length v.1.tls x ∧ (c.mode = .rb → Mirrors x)
  registered : v.1.tls.held ≠ [] → v.1.threadSlot ≠ none
  /-- an owner entry that names the thread is on its stack -/
  owner : c.abandons = false → ∀ l k, v.2.threads.find t = some k → l < v.2.locks.keys.length →
    v.2.owner l = some k → l ∈ v.1.tls.held
  noSites : c.reportSites = false → ∀ k, v.2.threads.find t = some k → v.2.waitingPc k = 0

/-- `waiting_on_lock_slot` is invalid. -/
def NotWaiting (t : Nat) (v : View β) : Prop :=
  ∀ k, v.2.threads.find t = some k → v.2.waiting k = none ∧ v.2.waitingPc k = 0

section Inv
variable {c : Setup} {t : Nat} {v w : View β}

theorem Inv.stable (h : Inv c t v) (hr : Rely t v w) : Inv c t w where
  owners := hr.owners h.owners
  cache i hi := by
    rw [hr.own] at hi ⊢
    exact SlotTable.find_mono hr.locks (h.cache i hi)
  slot k hk := by
    rw [hr.own] at hk
    rw [hr.slot]
    exact h.slot k hk
  stack := by
    obtain ⟨x, hx, hm⟩ := h.stack
    rw [hr.own]
    exact ⟨x, hx.mono hr.locks.length_le, hm⟩
  registered := by
    rw [hr.own]
    exact h.registered
  owner ha l k hk hl ho := by
    obtain ⟨hl', ho'⟩ := hr.owner l k hk hl ho
    rw [hr.own]
    exact h.owner ha l k (hr.slot ▸ hk) hl' ho'
  noSites hc k hk := by
    rw [hr.slot] at hk
    rw [(hr.waiting k hk).2]
    exact h.noSites hc k hk

theorem NotWaiting.stable (h : NotWaiting t v) (hr : Rely t v w) : NotWaiting t w := by
  intro k hk
  rw [hr.slot] at hk
  obtain ⟨hw, hp⟩ := hr.waiting k hk
  obtain ⟨hw', hp'⟩ := h k hk
  exact ⟨hw.trans hw', hp.trans hp'⟩

theorem Inv.held_lt (h : Inv c t v) {l : Nat} (hl : l ∈ v.1.tls.held) :
    l < v.2.locks.keys.length := by
  obtain ⟨x, hx, -⟩ := h.stack
  exact hx.registered l (hx.held ▸ hl)

end Inv

/-! ## What a thread has done -/

abbrev Trace (β : Type) := List (Event (Query.Answer β) (View β))

/-- The trylock of a `pthread_mutex_lock` has returned `EBUSY`. -/
def Busy (k : Call) (tr : Trace β) : Prop :=
  ∃ m callsite, k = .lock m callsite ∧ Event.answer (Query.realTrylock m) ebusy ∈ tr

/-- An access that changes no tracking state: at most the mutex gets a slot, or the thread
itself if it may be registered, or an own waiting entry changes. -/
structure Untracked (t m : Nat) (mayRegister : Prop) (v w : View β) : Prop where
  tls : w.1.tls = v.1.tls
  backend : w.2.backend = v.2.backend
  locks : w.2.locks = v.2.locks ∨ w.2.locks = v.2.locks.register m
  threads : w.2.threads = v.2.threads ∨ mayRegister ∧ w.2.threads = v.2.threads.register t
  owner : ∀ l, l < v.2.locks.keys.length →
    w.2.owner l = v.2.owner l ∧ w.2.ownerPc l = v.2.ownerPc l
  waiting : ∀ k, k < v.2.threads.keys.length → v.2.threads.find t ≠ some k →
    w.2.waiting k = v.2.waiting k ∧ w.2.waitingPc k = v.2.waitingPc k

/-- The thread has changed no tracking state. -/
def Quiet (t m : Nat) (mayRegister : Prop) (tr : Trace β) : Prop :=
  ∀ v w, Event.access v w ∈ tr → Untracked t m mayRegister v w

section Trace
variable {t m : Nat} {mayRegister : Prop} {tr : Trace β} {v w : View β} {k : Call}

theorem Busy.append (h : Busy k tr) (e : Event (Query.Answer β) (View β)) :
    Busy k (tr ++ [e]) := by
  obtain ⟨m, callsite, hk, he⟩ := h
  exact ⟨m, callsite, hk, List.mem_append_left _ he⟩

theorem Quiet.access (h : Quiet t m mayRegister tr) (hs : Untracked t m mayRegister v w) :
    Quiet t m mayRegister (tr ++ [.access v w]) := by
  intro v' w' he
  rcases List.mem_append.1 he with he | he
  · exact h v' w' he
  · cases List.mem_singleton.1 he
    exact hs

theorem Quiet.answer (h : Quiet t m mayRegister tr) (q : Query) (a : q.Answer β) :
    Quiet t m mayRegister (tr ++ [.answer q a]) := by
  intro v' w' he
  rcases List.mem_append.1 he with he | he
  · exact h v' w' he
  · cases List.mem_singleton.1 he

theorem Quiet.nil : Quiet t m mayRegister ([] : Trace β) := by
  intro v w he
  cases he

theorem Untracked.of_eq (hs : w.2 = v.2) (htls : w.1.tls = v.1.tls) :
    Untracked t m mayRegister v w where
  tls := htls
  backend := by rw [hs]
  locks := Or.inl (by rw [hs])
  threads := Or.inl (by rw [hs])
  owner _ _ := by rw [hs]; exact ⟨rfl, rfl⟩
  waiting _ _ _ := by rw [hs]; exact ⟨rfl, rfl⟩

end Trace

/-! ## Points of a hook -/

/-- What is known at a point of a hook, besides the invariant. -/
structure Facts where
  /-- the thread has changed no tracking state -/
  quiet : Bool
  /-- the wait may be published -/
  wait : Bool
  /-- `waiting_on_lock_slot` is invalid, though perhaps not yet `waiting_on_pc` -/
  cancelled : Bool
  /-- the thread has a slot -/
  registered : Bool
  tls : Tls → Prop
  selfSlot : Option Nat
  /-- a lock slot and its mutex -/
  lock : Option (Nat × Nat)
  /-- a lock slot whose owner is not the thread -/
  released : Option Nat

/-- At the call. -/
def Facts.entry (own : Local) : Facts :=
  ⟨true, false, false, own.threadSlot.isSome, (· = own.tls), none, none, none⟩

/-- At the return. -/
def Facts.idle : Facts := ⟨false, false, false, false, fun _ => True, none, none, none⟩

/-- An unlock registers a thread that has no slot yet. -/
def MayRegister (k : Call) (e : View β) : Prop := (∃ m, k = .unlock m) ∧ e.1.threadSlot = none

/-- The point of call `k`, made in state `e`, at which `F` is known. -/
structure Point (c : Setup) (t : Nat) (k : Call) (e : View β) (F : Facts) (tr : Trace β)
    (v : View β) : Prop where
  inv : Inv c t v
  known : e.2.locks.keys <+: v.2.locks.keys
  busy : F.wait = true → Busy k tr
  notWaiting : F.wait = false → NotWaiting t v
  cancelled : F.cancelled = true → ∀ i, v.2.threads.find t = some i → v.2.waiting i = none
  quiet : F.quiet = true → Quiet t k.mutex (MayRegister k e) tr
  registered : F.registered = true → v.1.threadSlot ≠ none
  tls : F.tls v.1.tls
  selfSlot : ∀ i, F.selfSlot = some i → v.1.threadSlot = some i
  lock : ∀ l m, F.lock = some (l, m) → v.2.locks.find m = some l
  released : ∀ l, F.released = some l → l < v.2.locks.keys.length →
    ∀ i, v.2.threads.find t = some i → v.2.owner l ≠ some i

/-- The held stack `ts` would do in state `v`. -/
structure StackOk (c : Setup) (t : Nat) (v : View β) (ts : Tls) : Prop where
  stack : ∃ x, Represents v.2.locks.keys.length ts x ∧ (c.mode = .rb → Mirrors x)
  registered : v.1.threadSlot ≠ none
  owner : c.abandons = false → ∀ l i, v.2.threads.find t = some i → l < v.2.locks.keys.length →
    v.2.owner l = some i → l ∈ ts.held

/-- What holds at every point of a hook. -/
def Always (c : Setup) (t : Nat) (k : Call) (tr : Trace β) (v : View β) : Prop :=
  Inv c t v ∧ (NotWaiting t v ∨ Busy k tr)

section Point
variable {c : Setup} {t : Nat} {k : Call} {e v w : View β} {F : Facts} {tr : Trace β}
  {i l m : Nat}

theorem Point.stable (h : Point c t k e F tr v) (hr : Rely t v w) : Point c t k e F tr w where
  inv := h.inv.stable hr
  known := h.known.trans hr.locks
  busy := h.busy
  notWaiting hF := (h.notWaiting hF).stable hr
  cancelled hF i hi := by
    rw [hr.slot] at hi
    rw [(hr.waiting i hi).1]
    exact h.cancelled hF i hi
  quiet := h.quiet
  registered := by
    rw [hr.own]
    exact h.registered
  tls := by
    rw [hr.own]
    exact h.tls
  selfSlot := by
    rw [hr.own]
    exact h.selfSlot
  lock l m hl := SlotTable.find_mono hr.locks (h.lock l m hl)
  released l hl hlt i hi ho := by
    obtain ⟨hlt', ho'⟩ := hr.owner l i hi hlt ho
    exact h.released l hl hlt' i (hr.slot ▸ hi) ho'

theorem Point.always (h : Point c t k e F tr v) : Always c t k tr v := by
  refine ⟨h.inv, ?_⟩
  cases hF : F.wait with
  | false => exact Or.inl (h.notWaiting hF)
  | true => exact Or.inr (h.busy hF)

variable (c t k e) in
def point (F : Facts) : Assertion (protocol (β := β) t) (Always c t k) where
  holds := Point c t k e F
  stable _ _ _ hr h := h.stable hr
  always _ _ h := h.always

/-- The slot of the thread, from its own copy. -/
theorem Point.self_find (h : Point c t k e F tr v) (hi : F.selfSlot = some i) :
    v.2.threads.find t = some i := h.inv.slot i (h.selfSlot i hi)

theorem Point.read (h : Point c t k e F tr v) : Point c t k e F (tr ++ [.access v v]) v where
  inv := h.inv
  known := h.known
  busy hF := (h.busy hF).append _
  notWaiting := h.notWaiting
  cancelled := h.cancelled
  quiet hF := (h.quiet hF).access (.of_eq rfl rfl)
  registered := h.registered
  tls := h.tls
  selfSlot := h.selfSlot
  lock := h.lock
  released := h.released

theorem Point.answer (h : Point c t k e F tr v) (q : Query) (a : q.Answer β) :
    Point c t k e F (tr ++ [.answer q a]) v where
  inv := h.inv
  known := h.known
  busy hF := (h.busy hF).append _
  notWaiting := h.notWaiting
  cancelled := h.cancelled
  quiet hF := (h.quiet hF).answer q a
  registered := h.registered
  tls := h.tls
  selfSlot := h.selfSlot
  lock := h.lock
  released := h.released

/-- Less is known. -/
theorem Point.idle (h : Point c t k e F tr v) (hF : F.wait = false) :
    Point c t k e Facts.idle tr v where
  inv := h.inv
  known := h.known
  busy hw := by cases hw
  notWaiting _ := h.notWaiting hF
  cancelled hc := by cases hc
  quiet hq := by cases hq
  registered hr := by cases hr
  tls := trivial
  selfSlot _ hi := by cases hi
  lock _ _ hl := by cases hl
  released _ hl := by cases hl

/-! ## One access -/

/-- The registration of the thread. -/
theorem Point.registerThread (h : Point c t k e F tr v)
    (hreg : F.quiet = true → F.registered = true ∨ MayRegister k e)
    (hw : w = ((v.2.threads.slotFor t).elim v.1 fun i => { v.1 with threadSlot := some i },
      v.2.registerThread t)) :
    Guar t v w ∧ Point c t k e F (tr ++ [.access v w]) w ∧
      ∀ i, v.2.threads.slotFor t = some i → w.1.threadSlot = some i := by
  subst hw
  rcases SlotTable.slotFor_cases v.2.threads t with
    ⟨i, hfind, hslot⟩ | ⟨hnew, hroom, hslot⟩ | ⟨hnew, hroom, hslot⟩
  · have hmem : ¬ (t ∉ v.2.threads.keys ∧ v.2.threads.keys.length < maxThreadSlots) := by
      rintro ⟨hn, -⟩
      rw [SlotTable.find_eq_none.2 hn] at hfind
      cases hfind
    simp only [hslot, Option.elim_some, Shared.registerThread, if_neg hmem]
    refine ⟨.of_eq rfl, ?_, fun j hj => hj⟩
    exact
      { h with
        inv :=
          { h.inv with
            slot := fun j hj => by
              cases hj
              exact hfind
            registered := fun _ => by simp }
        busy := fun hF => (h.busy hF).append _
        quiet := fun hF => (h.quiet hF).access (.of_eq rfl rfl)
        registered := fun _ => by simp
        selfSlot := fun j hj => by
          have hj' := h.self_find hj
          rw [hfind] at hj'
          exact hj' }
  · have hadd : t ∉ v.2.threads.keys ∧ v.2.threads.keys.length < maxThreadSlots := ⟨hnew, hroom⟩
    have hself := SlotTable.register_find hadd
    have hkeys := SlotTable.register_keys hadd
    -- no owner entry names a slot that did not exist
    have hunowned : ∀ l, l < v.2.locks.keys.length →
        v.2.owner l ≠ some v.2.threads.keys.length := by
      intro l hl ho
      exact Nat.lt_irrefl _ (h.inv.owners l _ hl ho)
    simp only [hslot, Option.elim_some, Shared.registerThread, if_pos hadd]
    refine ⟨?_, ?_, fun j hj => hj⟩
    · exact
        { locks := List.prefix_refl _
          threads := by
            rw [hkeys]
            exact List.prefix_append _ _
          slots := fun u hu => SlotTable.register_find_other hadd hu
          owner := fun l i hl ho => Or.inl ⟨hl, ho⟩
          waiting := fun i hi _ => by
            simp only [Function.update_of_ne (Nat.ne_of_lt hi), and_self] }
    · exact
        { h with
          inv :=
            { h.inv with
              owners := fun l i hl ho => by
                rw [hkeys, List.length_append]
                exact Nat.lt_of_lt_of_le (h.inv.owners l i hl ho) (Nat.le_add_right _ _)
              slot := fun i hi => by
                cases hi
                exact hself
              registered := fun _ => by simp
              owner := fun _ l i hi hl ho => by
                rw [hself] at hi
                cases hi
                exact absurd ho (hunowned l hl)
              noSites := fun _ i hi => by
                rw [hself] at hi
                cases hi
                exact Function.update_self _ _ _ }
          busy := fun hF => (h.busy hF).append _
          notWaiting := fun _ i hi => by
            rw [hself] at hi
            cases hi
            simp
          cancelled := fun _ i hi => by
            rw [hself] at hi
            cases hi
            simp
          quiet := fun hF => by
            have hmay : MayRegister k e := by
              rcases hreg hF with hr | hmay
              · obtain ⟨j, hj⟩ := Option.ne_none_iff_exists'.1 (h.registered hr)
                have hfind := h.inv.slot j hj
                rw [SlotTable.find_eq_none.2 hnew] at hfind
                cases hfind
              · exact hmay
            refine (h.quiet hF).access ?_
            exact
              { tls := rfl
                backend := rfl
                locks := Or.inl rfl
                threads := Or.inr ⟨hmay, rfl⟩
                owner := fun _ _ => ⟨rfl, rfl⟩
                waiting := fun i hi _ => by
                  simp only [Function.update_of_ne (Nat.ne_of_lt hi), and_self] }
          registered := fun _ => by simp
          selfSlot := fun j hj => by
            have hj' := h.self_find hj
            rw [SlotTable.find_eq_none.2 hnew] at hj'
            cases hj'
          released := fun l _ hlt i hi => by
            rw [hself] at hi
            cases hi
            exact hunowned l hlt }
  · have hmem : ¬ (t ∉ v.2.threads.keys ∧ v.2.threads.keys.length < maxThreadSlots) :=
      fun hc => hroom hc.2
    simp only [hslot, Option.elim_none, Shared.registerThread, if_neg hmem]
    exact ⟨.of_eq rfl, h.read, fun j hj => by cases hj⟩

/-- The registration of a mutex. -/
theorem Point.registerLock (h : Point c t k e F tr v) (hmk : F.quiet = true → k.mutex = m)
    (hw : w = (v.1, v.2.registerLock m)) :
    Guar t v w ∧ Point c t k e F (tr ++ [.access v w]) w ∧
      ∀ l, v.2.locks.slotFor m = some l → w.2.locks.find m = some l := by
  subst hw
  rcases SlotTable.slotFor_cases v.2.locks m with
    ⟨l, hfind, hslot⟩ | ⟨hnew, hroom, hslot⟩ | ⟨hnew, hroom, hslot⟩
  · have hmem : ¬ (m ∉ v.2.locks.keys ∧ v.2.locks.keys.length < maxLockSlots) := by
      rintro ⟨hn, -⟩
      rw [SlotTable.find_eq_none.2 hn] at hfind
      cases hfind
    simp only [Shared.registerLock, if_neg hmem]
    refine ⟨.of_eq rfl, h.read, fun j hj => ?_⟩
    rw [hslot] at hj
    cases hj
    exact hfind
  · have hadd : m ∉ v.2.locks.keys ∧ v.2.locks.keys.length < maxLockSlots := ⟨hnew, hroom⟩
    have hkeys := SlotTable.register_keys hadd
    have hle : v.2.locks.keys <+: (v.2.locks.register m).keys := by
      rw [hkeys]
      exact List.prefix_append _ _
    -- the new slot has no owner
    have hold : ∀ l i, l < (v.2.locks.register m).keys.length →
        Function.update v.2.owner v.2.locks.keys.length none l = some i →
        l < v.2.locks.keys.length ∧ v.2.owner l = some i := by
      intro l i hl ho
      rw [hkeys, List.length_append, List.length_singleton] at hl
      by_cases hn : l = v.2.locks.keys.length
      · rw [hn, Function.update_self] at ho
        cases ho
      · rw [Function.update_of_ne hn] at ho
        exact ⟨by omega, ho⟩
    simp only [Shared.registerLock, if_pos hadd]
    refine ⟨?_, ?_, fun j hj => ?_⟩
    · exact
        { locks := hle
          threads := List.prefix_refl _
          slots := fun _ _ => rfl
          owner := fun l i hl ho => Or.inl (hold l i hl ho)
          waiting := fun _ _ _ => ⟨rfl, rfl⟩ }
    · exact
        { h with
          inv :=
            { h.inv with
              owners := fun l i hl ho => by
                obtain ⟨hl', ho'⟩ := hold l i hl ho
                exact h.inv.owners l i hl' ho'
              cache := fun i hi => SlotTable.find_mono hle (h.inv.cache i hi)
              stack := by
                obtain ⟨x, hx, hm⟩ := h.inv.stack
                exact ⟨x, hx.mono hle.length_le, hm⟩
              owner := fun ha l i hi hl ho => by
                obtain ⟨hl', ho'⟩ := hold l i hl ho
                exact h.inv.owner ha l i hi hl' ho' }
          known := h.known.trans hle
          busy := fun hF => (h.busy hF).append _
          quiet := fun hF => (h.quiet hF).access
            { tls := rfl
              backend := rfl
              locks := Or.inr (by rw [hmk hF])
              threads := Or.inl rfl
              owner := fun l hl => by
                simp only [Function.update_of_ne (Nat.ne_of_lt hl), and_self]
              waiting := fun _ _ _ => ⟨rfl, rfl⟩ }
          lock := fun l m' hl => SlotTable.find_mono hle (h.lock l m' hl)
          released := fun l hl hlt i hi ho => by
            obtain ⟨hlt', ho'⟩ := hold l i hlt ho
            exact h.released l hl hlt' i hi ho' }
    · rw [hslot] at hj
      cases hj
      exact SlotTable.register_find hadd
  · have hmem : ¬ (m ∉ v.2.locks.keys ∧ v.2.locks.keys.length < maxLockSlots) :=
      fun hc => hroom hc.2
    simp only [Shared.registerLock, if_neg hmem]
    refine ⟨.of_eq rfl, h.read, fun j hj => ?_⟩
    rw [hslot] at hj
    cases hj

/-- A cache entry for a registered mutex. -/
theorem Point.setCache (h : Point c t k e F tr v) (hl : F.lock = some (l, m))
    (hw : w = ({ v.1 with cache := Function.update v.1.cache (cacheIndex m) ⟨m, l⟩ }, v.2)) :
    Guar t v w ∧ Point c t k e F (tr ++ [.access v w]) w := by
  have hcache : ∀ i, (Function.update v.1.cache (cacheIndex m) ⟨m, l⟩ i).mutex ≠ 0 →
      v.2.locks.find (Function.update v.1.cache (cacheIndex m) ⟨m, l⟩ i).mutex =
        some (Function.update v.1.cache (cacheIndex m) ⟨m, l⟩ i).lockSlot := by
    intro i hi
    by_cases hm : i = cacheIndex m
    · rw [hm, Function.update_self]
      exact h.lock l m hl
    · rw [Function.update_of_ne hm] at hi ⊢
      exact h.inv.cache i hi
  subst hw
  refine ⟨.of_eq rfl, ?_⟩
  exact
    { h with
      inv := { h.inv with cache := hcache }
      busy := fun hF => (h.busy hF).append _
      quiet := fun hF => (h.quiet hF).access (.of_eq rfl rfl) }

/-- A change of the held stack. -/
theorem Point.setTls (h : Point c t k e F tr v) {ts : Tls} {P : Tls → Prop} (hP : P ts)
    (hts : StackOk c t v ts) (hw : w = ({ v.1 with tls := ts }, v.2)) :
    Guar t v w ∧
      Point c t k e { F with quiet := false, tls := P } (tr ++ [.access v w]) w := by
  subst hw
  refine ⟨.of_eq rfl, ?_⟩
  exact
    { h with
      inv :=
        { h.inv with
          stack := hts.stack
          registered := fun _ => hts.registered
          owner := hts.owner }
      busy := fun hF => (h.busy hF).append _
      quiet := fun hq => by cases hq
      tls := hP }

/-- The thread becomes the owner of a slot on its stack. -/
theorem Point.setOwner (h : Point c t k e F tr v) (hi : F.selfSlot = some i)
    (hl : l ∈ v.1.tls.held) (hw : w = (v.1, v.2.setOwner l (some i))) :
    Guar t v w ∧ Point c t k e { F with quiet := false, released := none }
      (tr ++ [.access v w]) w := by
  subst hw
  have hself := h.self_find hi
  have howner : ∀ {l' i'}, Function.update v.2.owner l (some i) l' = some i' →
      (l' = l ∧ i' = i) ∨ v.2.owner l' = some i' := by
    intro l' i' ho
    by_cases hl' : l' = l
    · rw [hl', Function.update_self] at ho
      exact Or.inl ⟨hl', (Option.some.inj ho).symm⟩
    · rw [Function.update_of_ne hl'] at ho
      exact Or.inr ho
  refine ⟨?_, ?_⟩
  · exact
      { locks := List.prefix_refl _
        threads := List.prefix_refl _
        slots := fun _ _ => rfl
        owner := fun l' i' hlt ho => by
          rcases howner ho with ⟨-, rfl⟩ | ho
          · exact Or.inr hself
          · exact Or.inl ⟨hlt, ho⟩
        waiting := fun _ _ _ => ⟨rfl, rfl⟩ }
  · exact
      { h with
        inv :=
          { h.inv with
            owners := fun l' i' hlt ho => by
              rcases howner ho with ⟨-, rfl⟩ | ho
              · exact SlotTable.find_lt hself
              · exact h.inv.owners l' i' hlt ho
            owner := fun ha l' i' hi' hlt ho => by
              rcases howner ho with ⟨rfl, -⟩ | ho
              · exact hl
              · exact h.inv.owner ha l' i' hi' hlt ho }
        busy := fun hF => (h.busy hF).append _
        quiet := fun hq => by cases hq
        released := fun _ hr => by cases hr }

/-- A store that touches no registry, no owner, no wait and no stack. -/
theorem Point.store {x : Shared β} (h : Point c t k e F tr v) (hlocks : x.locks = v.2.locks)
    (hthreads : x.threads = v.2.threads) (howner : x.owner = v.2.owner)
    (hwaiting : x.waiting = v.2.waiting) (hpc : x.waitingPc = v.2.waitingPc) :
    Guar t v (v.1, x) ∧
      Point c t k e { F with quiet := false } (tr ++ [.access v (v.1, x)]) (v.1, x) := by
  cases x
  dsimp only at hlocks hthreads howner hwaiting hpc
  subst hlocks hthreads howner hwaiting hpc
  refine ⟨⟨List.prefix_refl _, List.prefix_refl _, fun _ _ => rfl,
    fun _ _ hlt ho => Or.inl ⟨hlt, ho⟩, fun _ _ _ => ⟨rfl, rfl⟩⟩, ?_⟩
  exact
    { h with
      inv := { h.inv with }
      busy := fun hF => (h.busy hF).append _
      quiet := fun hq => by cases hq }

theorem Point.setOwnerPc (h : Point c t k e F tr v) {pc : Nat}
    (hw : w = (v.1, v.2.setOwnerPc l pc)) :
    Guar t v w ∧ Point c t k e { F with quiet := false } (tr ++ [.access v w]) w := by
  subst hw
  exact h.store rfl rfl rfl rfl rfl

theorem Point.setBackend (h : Point c t k e F tr v) {b : β}
    (hw : w = (v.1, { v.2 with backend := b })) :
    Guar t v w ∧ Point c t k e { F with quiet := false } (tr ++ [.access v w]) w := by
  subst hw
  exact h.store rfl rfl rfl rfl rfl

/-- A store to the own `waiting_on_lock_slot`, while the wait may be published. -/
theorem Point.setWaiting (h : Point c t k e F tr v) (hi : F.selfSlot = some i)
    (hF : F.wait = true) {x : Option Nat} (hw : w = (v.1, v.2.setWaiting i x)) :
    Guar t v w ∧ Point c t k e { F with cancelled := x.isNone } (tr ++ [.access v w]) w := by
  subst hw
  have hself := h.self_find hi
  have hother : ∀ j, v.2.threads.find t ≠ some j →
      Function.update v.2.waiting i x j = v.2.waiting j := by
    intro j hj
    refine Function.update_of_ne ?_ _ _
    rintro rfl
    exact hj hself
  refine ⟨⟨List.prefix_refl _, List.prefix_refl _, fun _ _ => rfl,
    fun _ _ hlt ho => Or.inl ⟨hlt, ho⟩, fun j _ hj => ⟨hother j hj, rfl⟩⟩, ?_⟩
  exact
    { h with
      inv := { h.inv with }
      busy := fun hF => (h.busy hF).append _
      notWaiting := fun hF' => by
        rw [hF] at hF'
        cases hF'
      cancelled := fun hx j hj => by
        have hij : some i = some j := hself.symm.trans hj
        cases hij
        exact (Function.update_self _ _ _).trans (Option.isNone_iff_eq_none.1 hx)
      quiet := fun hq => (h.quiet hq).access
        { tls := rfl
          backend := rfl
          locks := Or.inl rfl
          threads := Or.inl rfl
          owner := fun _ _ => ⟨rfl, rfl⟩
          waiting := fun j _ hj => ⟨hother j hj, rfl⟩ } }

/-- A store to the own `waiting_on_pc`. -/
theorem Point.setWaitingPc (h : Point c t k e F tr v) (hi : F.selfSlot = some i)
    (hF : F.wait = true) (hsites : c.reportSites = true) {pc : Nat}
    (hw : w = (v.1, v.2.setWaitingPc i pc)) :
    Guar t v w ∧ Point c t k e F (tr ++ [.access v w]) w ∧
      ∀ j, w.2.threads.find t = some j → w.2.waitingPc j = pc := by
  subst hw
  have hself := h.self_find hi
  have hother : ∀ j, v.2.threads.find t ≠ some j →
      Function.update v.2.waitingPc i pc j = v.2.waitingPc j := by
    intro j hj
    refine Function.update_of_ne ?_ _ _
    rintro rfl
    exact hj hself
  refine ⟨⟨List.prefix_refl _, List.prefix_refl _, fun _ _ => rfl,
    fun _ _ hlt ho => Or.inl ⟨hlt, ho⟩, fun j _ hj => ⟨rfl, hother j hj⟩⟩, ?_, ?_⟩
  · exact
      { h with
        inv := { h.inv with noSites := fun hc => by rw [hsites] at hc; cases hc }
        busy := fun hF => (h.busy hF).append _
        notWaiting := fun hF' => by
          rw [hF] at hF'
          cases hF'
        quiet := fun hq => (h.quiet hq).access
          { tls := rfl
            backend := rfl
            locks := Or.inl rfl
            threads := Or.inl rfl
            owner := fun _ _ => ⟨rfl, rfl⟩
            waiting := fun j _ hj => ⟨rfl, hother j hj⟩ } }
  · intro j hj
    have hij : some i = some j := hself.symm.trans hj
    cases hij
    exact Function.update_self _ _ _

/-- The compare-exchange of a release. -/
theorem Point.casOwner (h : Point c t k e F tr v) (hi : F.selfSlot = some i)
    (hw : w = (v.1, if v.2.owner l = some i then v.2.setOwner l none else v.2)) :
    Guar t v w ∧ Point c t k e { F with quiet := false, released := some l }
      (tr ++ [.access v w]) w := by
  have hself := h.self_find hi
  have hnot : ∀ j, v.2.threads.find t = some j → some j = some i := fun j hj =>
    hj.symm.trans hself
  by_cases ho : v.2.owner l = some i
  · rw [if_pos ho] at hw
    subst hw
    have howner : ∀ {l' i'}, Function.update v.2.owner l none l' = some i' →
        l' ≠ l ∧ v.2.owner l' = some i' := by
      intro l' i' ho'
      by_cases hl' : l' = l
      · rw [hl', Function.update_self] at ho'
        cases ho'
      · rw [Function.update_of_ne hl'] at ho'
        exact ⟨hl', ho'⟩
    refine ⟨⟨List.prefix_refl _, List.prefix_refl _, fun _ _ => rfl,
      fun _ _ hlt ho => Or.inl ⟨hlt, (howner ho).2⟩, fun _ _ _ => ⟨rfl, rfl⟩⟩, ?_⟩
    exact
      { h with
        inv :=
          { h.inv with
            owners := fun l' i' hlt ho' => h.inv.owners l' i' hlt (howner ho').2
            owner := fun ha l' i' hi' hlt ho' => h.inv.owner ha l' i' hi' hlt (howner ho').2 }
        busy := fun hF => (h.busy hF).append _
        quiet := fun hq => by cases hq
        released := fun l' hl' _ j _ ho' => by
          cases hl'
          exact (howner ho').1 rfl }
  · rw [if_neg ho] at hw
    subst hw
    have hread := h.read
    exact ⟨.of_eq rfl,
      { hread with
        quiet := fun hq => by cases hq
        released := fun l' hl' _ j hj ho' => by
          cases hl'
          exact ho (ho'.trans (hnot j hj)) }⟩

theorem Point.withSelf (h : Point c t k e F tr v) (hi : v.1.threadSlot = some i) :
    Point c t k e { F with registered := true, selfSlot := some i } tr v :=
  { h with
    registered := fun _ => by simp [hi]
    selfSlot := fun j hj => by
      cases hj
      exact hi }

theorem Point.withLock (h : Point c t k e F tr v) (hl : v.2.locks.find m = some l) :
    Point c t k e { F with lock := some (l, m) } tr v :=
  { h with
    lock := fun l' m' hl' => by
      cases hl'
      exact hl }

theorem Point.loud (h : Point c t k e F tr v) : Point c t k e { F with quiet := false } tr v :=
  { h with quiet := fun hq => by cases hq }

end Point

end HookPrograms

end ScaleLockDep
