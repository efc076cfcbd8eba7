import ScaleLockDep.HookContracts

/-!
# One specification for each function of the hooks

* `acquireMutex_does`, `releaseMutex_does` and so on: what is known after each function, from
  what is known before it;
* `hook_does`: every hook leads from its call to its return;
* `contract`: the hooks keep to the protocol of their thread, in every interleaving.
-/

namespace ScaleLockDep

namespace HookPrograms

open HeldStack (Tls Fault Represents)
open Hooks (Walk)
open Programs
open Registry (CacheEntry cacheIndex)
open ThreadState (Mirrors)

variable {β : Type} {c : Setup} {t : Nat} {k : Call} {e : View β} {F : Facts} {i l m : Nat}

/-- From `F`, the code gets to `G`. -/
def Does {α : Type} (c : Setup) (t : Nat) (k : Call) (e : View β) (F : Facts) (p : Code β α)
    (G : α → Facts) : Prop :=
  Triple (point c t k e F) p fun a => point c t k e (G a)

section Rules
variable {α γ : Type} {p : Code β α} {G H : α → Facts}

theorem Does.bind {q : α → Code β γ} {H : γ → Facts} (hp : Does c t k e F p G)
    (hq : ∀ a, Does c t k e (G a) (q a) H) : Does c t k e F (p >>= q) H :=
  Triple.bind hp hq

theorem Does.pure {a : α} (h : ∀ tr v, Point c t k e F tr v → Point c t k e (G a) tr v) :
    Does c t k e F (Pure.pure a) G := Triple.ret h

theorem Does.ret {a : α} : Does c t k e (G a) (Pure.pure a) G := Does.pure fun _ _ h => h

theorem Does.exit {code : Nat} : Does c t k e F (.exit code : Code β α) G := Triple.exit

theorem Does.ite {x : Prop} [Decidable x] {p' : Code β α} (hp : x → Does c t k e F p G)
    (hp' : ¬ x → Does c t k e F p' G) : Does c t k e F (if x then p else p') G :=
  Triple.ite hp hp'

theorem Does.weaken {F' : Facts} (h : Does c t k e F p G)
    (hF : ∀ tr v, Point c t k e F' tr v → Point c t k e F tr v)
    (hG : ∀ a tr v, Point c t k e (G a) tr v → Point c t k e (H a) tr v) :
    Does c t k e F' p H := Triple.weaken h hF hG

theorem Does.get {g : View β → α}
    (h : ∀ tr v, Point c t k e F tr v → Point c t k e (G (g v)) tr v) :
    Does c t k e F (.get g) G :=
  Triple.get fun tr v hv => (h tr v hv).read

/-- A read of which nothing is noted. -/
theorem Does.load {g : View β → α} : Does c t k e F (.get g) fun _ => F := .get fun _ _ h => h

/-- A read of a known value. -/
theorem Does.get_of {a : α} {g : View β → α} {q : α → Code β γ} {H : γ → Facts}
    (ha : ∀ tr v, Point c t k e F tr v → g v = a) (hq : Does c t k e F (q a) H) :
    Does c t k e F (.get g >>= q) H := by
  refine Triple.act fun tr v h => ⟨.of_eq rfl, ?_⟩
  change Safe _ _ _ (q (g v)) _ _
  rw [ha tr v h]
  exact hq _ _ h.read

theorem Does.modify {f : View β → View β} {F' : Facts} (h : ∀ tr v, Point c t k e F tr v →
    Guar t v (f v) ∧ Point c t k e F' (tr ++ [.access v (f v)]) (f v)) :
    Does c t k e F (.modify f) fun _ => F' := Triple.modify h

theorem Does.exchange {f : View β → View β} {g : View β → α} (h : ∀ tr v,
    Point c t k e F tr v → Guar t v (f v) ∧
      Point c t k e (G (g v)) (tr ++ [.access v (f v)]) (f v)) :
    Does c t k e F (.exchange f g) G := Triple.exchange h

/-- What is found, or else what is done about it. -/
theorem Does.orElse {p : Code β (Option α)} {q : Option α → Code β γ} {H : γ → Facts}
    (hp : Does c t k e F p fun r => r.elim F G)
    (hsome : ∀ a, Does c t k e (G a) (q (some a)) H) (hnone : Does c t k e F (q none) H) :
    Does c t k e F (p >>= q) H := by
  refine Does.bind hp fun r => ?_
  cases r with
  | some a => exact hsome a
  | none => exact hnone

/-- A fault ends the program. -/
theorem Does.orFault {p : Code β (Except Fault α)} {q : Except Fault α → Code β γ}
    {H : γ → Facts} {code code' : Nat} (hp : Does c t k e F p fun r => r.toOption.elim F G)
    (hok : ∀ a, Does c t k e (G a) (q (.ok a)) H)
    (hpanic : q (.error .panic) = .exit code) (hrange : q (.error .outOfRange) = .exit code') :
    Does c t k e F (p >>= q) H := by
  refine Does.bind hp fun r => ?_
  cases r with
  | ok a => exact hok a
  | error fault =>
    cases fault with
    | panic =>
      rw [hpanic]
      exact Does.exit
    | outOfRange =>
      rw [hrange]
      exact Does.exit

/-- A question of which nothing is noted. -/
theorem Does.query (q : Query) : Does c t k e F (.query q : Code β (q.Answer β)) fun _ => F :=
  Triple.query fun a _ _ h => h.answer q a

end Rules

/-! ## `state.c` -/

theorem getOrRegisterThreadSlot_does (hreg : F.quiet = true →
    F.registered = true ∨ MayRegister k e) : Does c t k e F (getOrRegisterThreadSlot t) fun i =>
      { F with registered := true, selfSlot := some i } := by
  refine Does.orElse ?_ (fun _ => Does.ret) (Does.orElse ?_ (fun _ => Does.ret) Does.exit)
  · refine Does.get fun tr v h => ?_
    cases hs : v.1.threadSlot with
    | none => exact h
    | some i => exact h.withSelf hs
  · refine Does.exchange fun tr v h => ?_
    obtain ⟨hguar, hpoint, hslot⟩ := h.registerThread hreg rfl
    refine ⟨hguar, ?_⟩
    cases hs : v.2.threads.slotFor t with
    | none =>
      rw [hs] at hpoint
      exact hpoint
    | some i =>
      rw [hs] at hpoint hslot
      exact hpoint.withSelf (hslot i rfl)

theorem currentThreadSlot_does (hreg : F.quiet = true →
    F.registered = true ∨ MayRegister k e) : Does c t k e F (currentThreadSlot t) fun i =>
      { F with registered := true, selfSlot := some i } := by
  refine Does.orElse ?_ (fun _ => Does.ret) (getOrRegisterThreadSlot_does hreg)
  refine Does.get fun tr v h => ?_
  cases hs : v.1.threadSlot with
  | none => exact h
  | some i => exact h.withSelf hs

theorem lookupOrCreateLockSlot_does (hmk : F.quiet = true → k.mutex = m) :
    Does c t k e F (lookupOrCreateLockSlot m) fun l => { F with lock := some (l, m) } := by
  refine Does.orElse ?_ (fun _ => Does.ret) Does.exit
  refine Does.exchange fun tr v h => ?_
  obtain ⟨hguar, hpoint, hslot⟩ := h.registerLock hmk rfl
  refine ⟨hguar, ?_⟩
  cases hs : v.2.locks.slotFor m with
  | none => exact hpoint
  | some l => exact hpoint.withLock (hslot l hs)

/-- A hit is the slot of the mutex. -/
theorem lookupLockSlotInCache_does (hm : m ≠ 0) :
    Does c t k e F (lookupLockSlotInCache m) fun r =>
      r.elim F fun l => { F with lock := some (l, m) } := by
  refine Does.get fun tr v h => ?_
  by_cases hit : (v.1.cache (cacheIndex m)).mutex = m
  · rw [if_pos hit]
    have hfind := h.inv.cache (cacheIndex m) (by rw [hit]; exact hm)
    rw [hit] at hfind
    exact h.withLock hfind
  · rw [if_neg hit]
    exact h

theorem storeLockSlotInCache_does (hl : F.lock = some (l, m)) :
    Does c t k e F (storeLockSlotInCache m l) fun _ => F :=
  Does.modify fun _ _ h => h.setCache hl rfl

theorem lookupOrCreateLockSlotCached_does (hm : m ≠ 0)
    (hmk : F.quiet = true → k.mutex = m) :
    Does c t k e F (lookupOrCreateLockSlotCached m) fun l => { F with lock := some (l, m) } := by
  refine Does.orElse (lookupLockSlotInCache_does hm) (fun _ => Does.ret) ?_
  refine Does.bind (lookupOrCreateLockSlot_does hmk) fun l => ?_
  exact Does.bind (storeLockSlotInCache_does rfl) fun _ => Does.ret

theorem lookupLockSlotCached_does (hm : m ≠ 0) :
    Does c t k e F (lookupLockSlotCached m) fun r =>
      r.elim F fun l => { F with lock := some (l, m) } := by
  refine Does.orElse (lookupLockSlotInCache_does hm) (fun _ => Does.pure fun _ _ h => h) ?_
  refine Does.orElse (G := fun l => { F with lock := some (l, m) }) ?_ (fun l => ?_)
    (Does.pure fun _ _ h => h)
  · refine Does.get fun tr v h => ?_
    cases hf : v.2.locks.find m with
    | none => exact h
    | some l => exact h.withLock hf
  · exact Does.bind (storeLockSlotInCache_does rfl) fun _ => Does.pure fun _ _ h => h

theorem lookupLockSlotCachedFast_does (hm : m ≠ 0) :
    Does c t k e F (lookupLockSlotCachedFast m) fun r =>
      r.elim F fun l => { F with lock := some (l, m) } :=
  Does.orElse (lookupLockSlotInCache_does hm) (fun _ => Does.pure fun _ _ h => h)
    (lookupLockSlotCached_does hm)

theorem lookupOrCreateLockSlotCachedFast_does (hm : m ≠ 0)
    (hmk : F.quiet = true → k.mutex = m) :
    Does c t k e F (lookupOrCreateLockSlotCachedFast m) fun l =>
      { F with lock := some (l, m) } :=
  Does.orElse (lookupLockSlotInCache_does hm) (fun _ => Does.ret)
    (lookupOrCreateLockSlotCached_does hm hmk)

/-- A change of the held stack that keeps it in order. -/
theorem updateTls_does {f : Tls → Except Fault Tls} {P : Tls → Prop}
    (hok : ∀ tr v ts, Point c t k e F tr v → f v.1.tls = .ok ts → StackOk c t v ts ∧ P ts) :
    Does c t k e F (updateTls f) fun _ => { F with quiet := false, tls := P } := by
  refine Does.orFault (G := fun _ => { F with quiet := false, tls := P }) ?_ (fun _ => Does.ret)
    rfl rfl
  refine Does.exchange fun tr v h => ?_
  cases hf : f v.1.tls with
  | error fault => exact ⟨.of_eq rfl, h.read⟩
  | ok ts =>
    obtain ⟨hts, hP⟩ := hok tr v ts h hf
    exact h.setTls hP hts rfl

/-- A change of the held stack that changes nothing. -/
theorem updateTls_same {f : Tls → Except Fault Tls}
    (hsame : ∀ tr v, Point c t k e F tr v → f v.1.tls = .ok v.1.tls) :
    Does c t k e F (updateTls f) fun _ => F := by
  refine Does.orFault (G := fun _ => F) ?_ (fun _ => Does.pure fun _ _ h => h) rfl rfl
  refine Does.exchange fun tr v h => ?_
  rw [hsame tr v h]
  exact ⟨.of_eq rfl, h.read⟩

theorem readTls_does {α : Type} {f : View β → Except Fault α} {G : α → Facts}
    (h : ∀ tr v a, Point c t k e F tr v → f v = .ok a → Point c t k e (G a) tr v) :
    Does c t k e F (readTls f) G := by
  refine Does.orFault ?_ (fun _ => Does.ret) rfl rfl
  refine Does.get fun tr v hv => ?_
  cases hf : f v with
  | error fault => exact hv
  | ok a => exact h tr v a hv hf

/-! ## `lockdep.h`, the owner entries -/

theorem storeOwnerAcquirePc_does {pc : Nat} :
    Does c t k e F (storeOwnerAcquirePc c l pc) fun _ => { F with quiet := false } :=
  Does.ite (fun _ => Does.modify fun _ _ h => h.setOwnerPc rfl)
    (fun _ => Does.pure fun _ _ h => h.loud)

theorem storeOwner_does (hi : F.selfSlot = some i) (hl : ∀ ts, F.tls ts → l ∈ ts.held) :
    Does c t k e F (storeOwner l i) fun _ => { F with quiet := false, released := none } :=
  Does.modify fun _ v h => h.setOwner hi (hl v.1.tls h.tls) rfl

theorem clearOwner_does (hi : F.selfSlot = some i) :
    Does c t k e F (clearOwner c l i) fun _ =>
      { F with quiet := false, released := some l } := by
  refine Does.bind (G := fun _ => { F with quiet := false, released := some l })
    (Does.exchange fun tr v h => h.casOwner hi rfl) fun hit => ?_
  exact Does.ite (fun _ => storeOwnerAcquirePc_does) (fun _ => Does.pure fun _ _ h => h)

/-- The compare-exchange of a slot that the thread does not hold misses. -/
theorem clearOwner_unheld (habandons : c.abandons = false) (hi : F.selfSlot = some i)
    (hl : F.lock = some (l, m)) (hunheld : ∀ tr v, Point c t k e F tr v → l ∉ v.1.tls.held) :
    Does c t k e F (clearOwner c l i) fun _ => F := by
  refine Triple.act fun tr v h => ?_
  have hlt := SlotTable.find_lt (h.lock l m hl)
  have hmiss : ¬ v.2.owner l = some i := fun ho =>
    hunheld tr v h (h.inv.owner habandons l i (h.self_find hi) hlt ho)
  rw [if_neg hmiss]
  refine ⟨.of_eq rfl, ?_⟩
  have hpure : Does c t k e F (Pure.pure () : Code β Unit) fun _ => F :=
    Does.pure fun _ _ h => h
  change Safe _ _ _ (if decide (v.2.owner l = some i) = true then storeOwnerAcquirePc c l 0
    else Pure.pure ()) _ _
  rw [if_neg (by simpa using hmiss)]
  exact hpure _ _ h.read

/-! ## `core.c`, the wait -/

theorem storeWaitingPc_does {pc : Nat} (hi : F.selfSlot = some i) (hF : F.wait = true) :
    Does c t k e F (storeWaitingPc c i pc) fun _ => F :=
  Does.ite
    (fun hsites => Does.modify fun _ _ h =>
      ⟨(h.setWaitingPc hi hF hsites rfl).1, (h.setWaitingPc hi hF hsites rfl).2.1⟩)
    (fun _ => Does.pure fun _ _ h => h)

theorem storeWaiting_does {x : Option Nat} (hi : F.selfSlot = some i) (hF : F.wait = true) :
    Does c t k e F (storeWaiting i x) fun _ => { F with cancelled := x.isNone } :=
  Does.modify fun _ _ h => h.setWaiting hi hF rfl

/-- The wait is withdrawn. -/
theorem Point.withdraw {tr : Trace β} {v : View β} (h : Point c t k e F tr v)
    (hF : F.cancelled = true) (hpc : ∀ j, v.2.threads.find t = some j → v.2.waitingPc j = 0) :
    Point c t k e { F with wait := false } tr v :=
  { h with
    busy := fun hw => by cases hw
    notWaiting := fun _ j hj => ⟨h.cancelled hF j hj, hpc j hj⟩ }

theorem clearWait_does (hi : F.selfSlot = some i) (hF : F.wait = true) :
    Does c t k e F (clearWait c i) fun _ => { F with wait := false, cancelled := true } := by
  refine Does.bind (storeWaiting_does hi hF) fun _ => ?_
  refine Does.ite (fun hsites => ?_) (fun hsites => ?_)
  · refine Does.modify fun tr v h => ?_
    obtain ⟨hguar, hpoint, hpc⟩ : Guar t v (v.1, v.2.setWaitingPc i 0) ∧ _ ∧ _ :=
      h.setWaitingPc hi hF hsites rfl
    exact ⟨hguar, hpoint.withdraw rfl hpc⟩
  · refine Does.pure fun tr v h => ?_
    exact h.withdraw rfl (h.inv.noSites (by simpa using hsites))

theorem collect_does (n : Nat) (w : Walk) : Does c t k e F (collect i n w) fun _ => F := by
  induction n generalizing w with
  | zero => exact Does.pure fun _ _ h => h
  | succ n ih =>
    refine Does.bind Does.load fun owner => ?_
    cases owner with
    | none => exact Does.pure fun _ _ h => h
    | some u =>
      refine Does.ite (fun _ => Does.pure fun _ _ h => h) (fun _ => ?_)
      refine Does.bind Does.load fun waiting => ?_
      cases waiting with
      | none => exact Does.pure fun _ _ h => h
      | some l => exact ih _

/-- What is known of the slots is left behind. -/
def Facts.forget (F : Facts) : Facts :=
  { F with cancelled := false, selfSlot := none, lock := none, released := none }

theorem Point.forget {tr : Trace β} {v : View β} (h : Point c t k e F tr v) :
    Point c t k e F.forget tr v :=
  { h with
    cancelled := fun hc => by cases hc
    selfSlot := fun _ hi => by cases hi
    lock := fun _ _ hl => by cases hl
    released := fun _ hl => by cases hl }

theorem beforeBlockingMutexLock_does {waitingPc : Nat} (hm : m ≠ 0) (hF : F.wait = true)
    (hmk : F.quiet = true → k.mutex = m)
    (hreg : F.quiet = true → F.registered = true ∨ MayRegister k e) :
    Does c t k e F (beforeBlockingMutexLock c t m waitingPc) fun _ =>
      { F with registered := true }.forget := by
  refine Does.bind (currentThreadSlot_does hreg) fun i => ?_
  refine Does.bind (lookupOrCreateLockSlotCachedFast_does hm hmk) fun l => ?_
  refine Does.bind (storeWaiting_does rfl hF) fun _ => ?_
  refine Does.bind (storeWaitingPc_does rfl hF) fun _ => ?_
  exact Does.bind (collect_does _ _) fun _ => Does.pure fun _ _ h => h.forget

theorem cancelWait_does (hF : F.wait = true)
    (hreg : F.quiet = true → F.registered = true ∨ MayRegister k e) :
    Does c t k e F (cancelWait c t) fun _ =>
      { F with wait := false, registered := true }.forget := by
  refine Does.bind (currentThreadSlot_does hreg) fun i => ?_
  refine Does.weaken (F := { F with registered := true, selfSlot := some i })
    (clearWait_does rfl hF) (fun _ _ h => h) fun _ _ _ h => h.forget

/-! ## Acquisitions -/

theorem potentialOnAcquire_does {pc : Nat} :
    Does c t k e F (potentialOnAcquire i l pc) fun _ => { F with quiet := false } := by
  refine Does.bind (Does.query _) fun b => ?_
  cases b with
  | some b => exact Does.modify fun _ _ h => h.setBackend rfl
  | none => exact Does.exit

section Acquire
variable {tr : Trace β} {v : View β} {ts : Tls}

theorem Point.acquireTopLevel (h : Point c t k e F tr v) (hl : F.lock = some (l, m))
    (hreg : F.registered = true) (hempty : v.1.tls.heldLockSlotCount = 0)
    (hts : v.1.tls.acquireTopLevel c.mode l = .ok ts) : StackOk c t v ts ∧ l ∈ ts.held := by
  obtain ⟨x, hx, hmirrors⟩ := h.inv.stack
  have hnil : x.heldLockSlots = [] := by
    have hcount := hx.count
    rw [hempty] at hcount
    exact List.length_eq_zero_iff.1 (by omega)
  have hheld : v.1.tls.held = [] := hx.held.trans hnil
  obtain ⟨ts', hts', hx'⟩ := HeldStack.acquireTopLevel_spec c.mode hx v.2.locks.bound
    (SlotTable.find_lt (h.lock l m hl)) hnil
  cases hts.symm.trans hts'
  refine ⟨⟨⟨_, hx', fun hrb => ?_⟩, h.registered hreg, fun ha l' i hi hlt ho => ?_⟩, ?_⟩
  · rw [hrb]
    exact ThreadState.acquireTopLevel_mirrors (hmirrors hrb) hnil l
  · have hmem := h.inv.owner ha l' i hi hlt ho
    rw [hheld] at hmem
    cases hmem
  · rw [hx'.held, ThreadState.acquireTopLevel_held]
    exact List.mem_singleton_self l

theorem Point.pushHeldLockSlot (h : Point c t k e F tr v) (hl : F.lock = some (l, m))
    (hreg : F.registered = true) (hts : v.1.tls.pushHeldLockSlot c.mode l = .ok ts) :
    StackOk c t v ts ∧ l ∈ ts.held := by
  obtain ⟨x, hx, hmirrors⟩ := h.inv.stack
  have hlt := SlotTable.find_lt (h.lock l m hl)
  rcases HeldStack.pushHeldLockSlot_spec hx v.2.locks.bound hlt with
    ⟨ts', x', hts', hpush, hx'⟩ | ⟨hpanic, -⟩
  · cases hts.symm.trans hts'
    have hheld : ts.held = v.1.tls.held ++ [l] := by
      rw [hx'.held, hx.held, ThreadState.pushHeldLockSlot_held hpush]
    refine ⟨⟨⟨x', hx', fun hrb => ?_⟩, h.registered hreg, fun ha l' i hi hlt ho => ?_⟩, ?_⟩
    · rw [hrb] at hpush
      exact ThreadState.pushHeldLockSlot_mirrors (hmirrors hrb) hpush
    · rw [hheld]
      exact List.mem_append_left _ (h.inv.owner ha l' i hi hlt ho)
    · rw [hheld]
      exact List.mem_append_right _ (List.mem_singleton_self l)
  · cases hts.symm.trans hpanic

end Acquire

theorem acquireTopLevelMutexFast_does {pc : Nat} (hm : m ≠ 0) (hF : F.wait = false)
    (hempty : ∀ ts, F.tls ts → ts.heldLockSlotCount = 0) :
    Does c t k e F (acquireTopLevelMutexFast c t m pc) fun _ => Facts.idle := by
  refine Does.weaken (F := { F with quiet := false }) ?_ (fun _ _ h => h.loud) (fun _ _ _ h => h)
  refine Does.bind (currentThreadSlot_does fun hq => by cases hq) fun i => ?_
  refine Does.bind (lookupOrCreateLockSlotCachedFast_does hm fun hq => by cases hq) fun l => ?_
  refine Does.bind (updateTls_does (P := fun ts => l ∈ ts.held) fun tr v ts h hts =>
    h.acquireTopLevel rfl rfl (hempty _ h.tls) hts) fun _ => ?_
  refine Does.bind storeOwnerAcquirePc_does fun _ => ?_
  exact Does.weaken (storeOwner_does rfl fun _ h => h) (fun _ _ h => h) fun _ _ _ h => h.idle hF

theorem acquireMutex_does {clearWaitState : Bool} {pc : Nat} (hm : m ≠ 0)
    (hF : F.wait = clearWaitState) :
    Does c t k e F (acquireMutex c t m clearWaitState pc) fun _ => Facts.idle := by
  refine Does.weaken (F := { F with quiet := false }) ?_ (fun _ _ h => h.loud) (fun _ _ _ h => h)
  refine Does.bind (currentThreadSlot_does fun hq => by cases hq) fun i => ?_
  refine Does.bind (lookupOrCreateLockSlotCachedFast_does hm fun hq => by cases hq) fun l => ?_
  refine Does.bind (G := fun count =>
    { F with
      quiet := false, registered := true, selfSlot := some i, lock := some (l, m)
      tls := fun ts => ts.heldLockSlotCount = count })
    (Does.get fun _ _ h => { h with tls := rfl }) fun count => ?_
  -- the stores of the owner come last, after a wait as after none
  have howner : ∀ F' : Facts, F'.wait = false → F'.selfSlot = some i →
      F'.tls = (fun ts => l ∈ ts.held) →
      Does c t k e F' (do storeOwnerAcquirePc c l pc; storeOwner l i) fun _ => Facts.idle := by
    intro F' hwait hi htls
    refine Does.bind storeOwnerAcquirePc_does fun _ => ?_
    exact Does.weaken (F := { F' with quiet := false })
      (storeOwner_does hi fun ts hts => by rw [htls] at hts; exact hts)
      (fun _ _ h => h) fun _ _ _ h => h.idle hwait
  have htail : Does c t k e
      { F with
        quiet := false, registered := true, selfSlot := some i, lock := some (l, m)
        tls := fun ts => l ∈ ts.held }
      (if clearWaitState = true then do
        clearWait c i
        storeOwnerAcquirePc c l pc
        storeOwner l i
      else do
        storeOwnerAcquirePc c l pc
        storeOwner l i) fun _ => Facts.idle := by
    refine Does.ite (fun hclear => ?_) (fun hclear => ?_)
    · exact Does.bind (clearWait_does rfl (hF.trans hclear)) fun _ => howner _ rfl rfl rfl
    · exact howner _ (by simpa [hclear] using hF) rfl rfl
  refine Does.ite (fun hcount => ?_) (fun _ => ?_)
  · exact Does.bind (updateTls_does fun tr v ts h hts =>
      h.acquireTopLevel rfl rfl (h.tls.trans hcount) hts) fun _ => htail
  · refine Does.bind potentialOnAcquire_does fun _ => ?_
    exact Does.bind (updateTls_does fun tr v ts h hts => h.pushHeldLockSlot rfl rfl hts)
      fun _ => htail

/-! ## Releases -/

/-- The mutex is not on the held stack. -/
def Unheld (m : Nat) (v : View β) : Prop := ∀ l, l ∈ v.1.tls.held → v.2.locks.keys[l]? ≠ some m

section Release
variable {tr : Trace β} {v : View β} {ts : Tls}

/-- A release keeps the stack in order once the owner entry is cleared. -/
theorem Point.releaseLockSlot (h : Point c t k e F tr v) (hl : F.lock = some (l, m))
    (hreg : F.registered = true) (hreleased : F.released = some l)
    (hts : v.1.tls.releaseLockSlot c.mode l = .ok ts) : StackOk c t v ts := by
  obtain ⟨x, hx, hmirrors⟩ := h.inv.stack
  have hlt := SlotTable.find_lt (h.lock l m hl)
  obtain ⟨ts', hts', hx'⟩ : ∃ ts', v.1.tls.releaseLockSlot c.mode l = .ok ts' ∧
      Represents v.2.locks.keys.length ts' (x.releaseMutex c.mode l) :=
    HeldStack.releaseLockSlot_spec hx (hlt.trans_le v.2.locks.bound)
  rw [← HeldStack.release_eq_releaseMutex] at hx'
  cases hts.symm.trans hts'
  refine ⟨⟨_, hx', fun hrb => ?_⟩, h.registered hreg, fun ha l' i hi hlt' ho => ?_⟩
  · rw [hrb]
    exact ThreadState.release_mirrors (hmirrors hrb) l
  · -- another slot stays where it is
    have hmem := h.inv.owner ha l' i hi hlt' ho
    have hne : l ≠ l' := by
      rintro rfl
      exact h.released l hreleased hlt i hi ho
    rw [hx.held] at hmem
    rw [hx'.held]
    by_cases hheld : l ∈ x.heldLockSlots
    · have hcount := ThreadState.count_release c.mode x l l' hheld
      rw [if_neg hne, Nat.add_zero] at hcount
      rw [← List.count_pos_iff, hcount]
      exact List.count_pos_iff.2 hmem
    · rcases ThreadState.release_held c.mode x l with ⟨j, hj, -⟩ | ⟨-, hsame⟩
      · exact absurd (List.mem_of_getElem? hj) hheld
      · rw [hsame]
        exact hmem

/-- What was not held at the call is not held now. -/
theorem Point.unheld (h : Point c t k e F tr v) (he : Inv c t e) (hF : F.tls = (· = e.1.tls))
    (hu : Unheld m e) : Unheld m v := by
  have htls := h.tls
  rw [hF] at htls
  intro l hl hm
  rw [show v.1.tls = e.1.tls from htls] at hl
  refine hu l hl ?_
  obtain ⟨ks, hks⟩ := h.known
  rwa [← hks, List.getElem?_append_left (he.held_lt hl)] at hm

theorem Unheld.not_mem (hu : Unheld m v) (hl : v.2.locks.find m = some l) :
    l ∉ v.1.tls.held := fun hmem => hu l hmem (SlotTable.find_iff.1 hl)

end Release

theorem load_of_single {mode : LockdepMode} {ts : Tls} (hcount : ts.heldLockSlotCount = 1)
    (hload : ts.load 0 = .ok l) : ts.releaseLockSlot mode l =
      (do
        let ts ← ts.noteThreadReleasesLockSlot mode l
        .ok { ts with heldLockSlotCount := 0 }) := by
  rw [Tls.releaseLockSlot, if_pos hcount, hload, HeldStack.ok_bind, if_pos rfl]

theorem releaseTopLevelMutexFast_does (hF : F.wait = false) :
    Does c t k e F (releaseTopLevelMutexFast c t m) fun _ => Facts.idle := by
  refine Does.weaken (F := { F with quiet := false }) ?_ (fun _ _ h => h.loud) (fun _ _ _ h => h)
  refine Does.bind (G := fun count =>
    { F with quiet := false, tls := fun ts => ts.heldLockSlotCount = count })
    (Does.get fun _ _ h => { h with tls := rfl }) fun count => ?_
  refine Does.ite (fun _ => Does.pure fun _ _ h => h.idle hF) (fun hcount => ?_)
  refine Does.bind (G := fun l =>
    { F with quiet := false, tls := fun ts => ts.heldLockSlotCount = count ∧ ts.load 0 = .ok l })
    (readTls_does fun _ _ _ h hload => { h with tls := ⟨h.tls, hload⟩ }) fun l => ?_
  refine Does.bind (G := fun addr =>
    { F with
      quiet := false, lock := addr.map fun m' => (l, m')
      tls := fun ts => ts.heldLockSlotCount = count ∧ ts.load 0 = .ok l }) ?_ fun addr => ?_
  · refine readTls_does fun tr v addr h haddr => { h with lock := fun l' m' hl' => ?_ }
    rw [HeldStack.addr] at haddr
    split at haddr
    · cases haddr
    · cases haddr
      obtain ⟨m'', hm'', heq⟩ := Option.map_eq_some_iff.1 hl'
      cases heq
      exact SlotTable.find_iff.2 hm''
  · refine Does.ite (fun _ => Does.pure fun _ _ h => h.idle hF) (fun haddr => ?_)
    obtain rfl := not_not.1 haddr
    refine Does.bind (currentThreadSlot_does fun hq => by cases hq) fun i => ?_
    refine Does.bind (clearOwner_does rfl) fun _ => ?_
    refine Does.bind (updateTls_does (P := fun _ => True) fun tr v ts h hts => ⟨?_, trivial⟩)
      fun _ => Does.pure fun _ _ h => h.idle hF
    refine h.releaseLockSlot rfl rfl rfl ?_
    rw [load_of_single (h.tls.1.trans (not_not.1 hcount)) h.tls.2]
    exact hts

theorem mem_of_single {ts : Tls} (hcount : ts.heldLockSlotCount = 1) (hload : ts.load 0 = .ok l) :
    l ∈ ts.held := by
  have hfirst : ts.load 0 = .ok (ts.heldLockSlots 0) := HeldStack.load_ok (i := 0) (by decide)
  cases hload.symm.trans hfirst
  rw [Tls.held, hcount]
  exact List.mem_singleton_self _

/-- A point that no thread reaches. -/
theorem Does.unreachable {α : Type} {p : Code β α} {G : α → Facts} (h : ∀ ts, ¬ F.tls ts) :
    Does c t k e F p G := fun _ v hv => absurd hv.tls (h v.1.tls)

/-- The fast release leaves a mutex that is not held to the general one. -/
theorem releaseTopLevelMutexFast_unheld (he : Inv c t e) (htls : F.tls = (· = e.1.tls))
    (hu : Unheld m e) : Does c t k e F (releaseTopLevelMutexFast c t m) fun done =>
      if done = true then { F with tls := fun _ => False } else F := by
  refine Does.bind (G := fun count =>
    { F with tls := fun ts => F.tls ts ∧ ts.heldLockSlotCount = count })
    (Does.get fun _ _ h => { h with tls := ⟨h.tls, rfl⟩ }) fun count => ?_
  refine Does.ite (fun _ => Does.pure fun _ _ h => { h with tls := h.tls.1 }) (fun hcount => ?_)
  refine Does.bind (G := fun l => { F with tls := fun ts => F.tls ts ∧ l ∈ ts.held }) ?_ fun l => ?_
  · refine readTls_does fun tr v l h hload => { h with tls := ⟨h.tls.1, ?_⟩ }
    exact mem_of_single (h.tls.2.trans (not_not.1 hcount)) hload
  refine Does.bind (G := fun addr =>
    if addr = some m then { F with tls := fun _ => False } else F) ?_ fun addr => ?_
  · refine readTls_does fun tr v addr h haddr => ?_
    have hpoint : Point c t k e F tr v := { h with tls := h.tls.1 }
    have hne : addr ≠ some m := by
      rw [HeldStack.addr] at haddr
      split at haddr
      · cases haddr
      · cases haddr
        exact hpoint.unheld he htls hu l h.tls.2
    rw [if_neg hne]
    exact hpoint
  · refine Does.ite (fun haddr => Does.pure fun _ _ h => ?_) (fun haddr => ?_)
    · rw [if_neg haddr] at h
      exact h
    · rw [if_pos (not_not.1 haddr)]
      exact Does.unreachable fun _ => id

/-- The general release, from what it does once it has the slot. -/
theorem releaseMutex_rule (hm : m ≠ 0)
    (hreg : F.quiet = true → F.registered = true ∨ MayRegister k e) {G : Facts}
    (hnone : ∀ i tr v,
      Point c t k e { F with registered := true, selfSlot := some i } tr v → Point c t k e G tr v)
    (hsome : ∀ i l, Does c t k e
      { F with registered := true, selfSlot := some i, lock := some (l, m) }
      (do clearOwner c l i; updateTls (·.releaseLockSlot c.mode l)) fun _ => G) :
    Does c t k e F (releaseMutex c t m) fun _ => G := by
  refine Does.bind (currentThreadSlot_does hreg) fun i => ?_
  refine Does.bind (G := fun top => top.elim { F with registered := true, selfSlot := some i }
    fun l => { F with registered := true, selfSlot := some i, lock := some (l, m) }) ?_
    fun top => ?_
  · refine readTls_does fun tr v top h htop => ?_
    cases top with
    | none => exact h
    | some l =>
      refine h.withLock (SlotTable.find_iff.2 ?_)
      -- the top slot has the address of the mutex
      rw [HeldStack.tryLookupTopHeldLockSlot] at htop
      split at htop
      · cases htop
      · cases hload : v.1.tls.load (v.1.tls.heldLockSlotCount - 1) with
        | error fault =>
          rw [hload] at htop
          cases htop
        | ok l' =>
          rw [hload, HeldStack.ok_bind, HeldStack.addr] at htop
          split at htop
          · cases htop
          · rw [HeldStack.ok_bind] at htop
            split at htop
            · rename_i haddr
              cases htop
              exact haddr
            · cases htop
  · cases top with
    | some l => exact hsome i l
    | none =>
      refine Does.bind (lookupLockSlotCachedFast_does hm) fun slot => ?_
      cases slot with
      | none => exact Does.pure (hnone i)
      | some l => exact hsome i l

theorem releaseMutex_does (hm : m ≠ 0) (hF : F.wait = false) :
    Does c t k e F (releaseMutex c t m) fun _ => Facts.idle := by
  refine Does.weaken (F := { F with quiet := false }) ?_ (fun _ _ h => h.loud) (fun _ _ _ h => h)
  refine releaseMutex_rule hm (fun hq => by cases hq) (fun i tr v h => h.idle hF) fun i l => ?_
  refine Does.bind (clearOwner_does rfl) fun _ => ?_
  refine Does.weaken (updateTls_does (P := fun _ => True) fun tr v ts h hts => ⟨?_, trivial⟩)
    (fun _ _ h => h) fun _ _ _ h => h.idle hF
  exact h.releaseLockSlot rfl rfl rfl hts

/-- **The general release of a mutex that is not held changes no tracking state.** -/
theorem releaseMutex_unheld (habandons : c.abandons = false) (hm : m ≠ 0) (he : Inv c t e)
    (htls : F.tls = (· = e.1.tls)) (hu : Unheld m e)
    (hreg : F.quiet = true → F.registered = true ∨ MayRegister k e) :
    Does c t k e F (releaseMutex c t m) fun _ => { F with registered := true }.forget := by
  refine releaseMutex_rule hm hreg (fun i tr v h => h.forget) fun i l => ?_
  have hunheld : ∀ tr v, Point c t k e
      { F with registered := true, selfSlot := some i, lock := some (l, m) } tr v →
      l ∉ v.1.tls.held := fun tr v h =>
    (h.unheld he htls hu).not_mem (h.lock l m rfl)
  refine Does.bind (clearOwner_unheld habandons rfl rfl hunheld) fun _ => ?_
  refine Does.weaken (updateTls_same fun tr v h => ?_) (fun _ _ h => h) fun _ _ _ h => h.forget
  obtain ⟨x, hx, -⟩ := h.inv.stack
  refine HeldStack.releaseLockSlot_of_not_mem c.mode hx ?_
  rw [← hx.held]
  exact hunheld tr v h

theorem noteUnlock_does (hm : m ≠ 0) (hF : F.wait = false) :
    Does c t k e F (noteUnlock c t m) fun _ => Facts.idle := by
  refine Does.bind (releaseTopLevelMutexFast_does hF) fun done => ?_
  exact Does.ite (fun _ => Does.pure fun _ _ h => h) (fun _ => releaseMutex_does hm rfl)

theorem noteUnlock_unheld (habandons : c.abandons = false) (hm : m ≠ 0) (he : Inv c t e)
    (htls : F.tls = (· = e.1.tls)) (hu : Unheld m e)
    (hreg : F.quiet = true → F.registered = true ∨ MayRegister k e) :
    Does c t k e F (noteUnlock c t m) fun _ => { F with registered := true }.forget := by
  refine Does.bind (releaseTopLevelMutexFast_unheld he htls hu) fun done => ?_
  refine Does.ite (fun hdone => ?_) (fun hdone => ?_)
  · rw [if_pos hdone]
    exact Does.unreachable fun _ => id
  · rw [if_neg hdone]
    exact releaseMutex_unheld habandons hm he htls hu hreg

/-! ## `hook.c` -/

/-- The call has failed, or has released a mutex that the thread does not hold. -/
def NothingToTrack (c : Setup) (e : View β) (rc : Int) : Call → Prop
  | .lock _ _ | .trylock _ _ => rc ≠ 0
  | .unlock m => rc ≠ 0 ∨ c.abandons = false ∧ Unheld m e

instance (m : Nat) (v : View β) : Decidable (Unheld m v) :=
  inferInstanceAs (Decidable (∀ l ∈ v.1.tls.held, v.2.locks.keys[l]? ≠ some m))

instance (c : Setup) (e : View β) (rc : Int) (k : Call) : Decidable (NothingToTrack c e rc k) :=
  match k with
  | .lock _ _ | .trylock _ _ => inferInstanceAs (Decidable (rc ≠ 0))
  | .unlock m => inferInstanceAs (Decidable (rc ≠ 0 ∨ c.abandons = false ∧ Unheld m e))

/-- At the return of a call that has changed no tracking state. -/
def Facts.unchanged (own : Local) : Facts := { Facts.entry own with registered := false }

theorem Point.unchanged {tr : Trace β} {v : View β} (h : Point c t k e F tr v)
    (hwait : F.wait = false) (hquiet : F.quiet = true) (htls : F.tls = (· = e.1.tls)) :
    Point c t k e (Facts.unchanged e.1) tr v :=
  { h.idle hwait with
    quiet := fun _ => h.quiet hquiet
    tls := by
      have hv := h.tls
      rw [htls] at hv
      exact hv }

/-- At the return. -/
def Facts.result (c : Setup) (k : Call) (e : View β) (rc : Int) : Facts :=
  if NothingToTrack c e rc k then Facts.unchanged e.1 else Facts.idle

section Result
variable {tr : Trace β} {v : View β} {rc : Int}

theorem NothingToTrack.failed (hrc : rc ≠ 0) : NothingToTrack c e rc k := by
  cases k with
  | lock m callsite => exact hrc
  | trylock m callsite => exact hrc
  | unlock m => exact Or.inl hrc

theorem Point.result_of (hn : NothingToTrack c e rc k)
    (h : Point c t k e (Facts.unchanged e.1) tr v) :
    Point c t k e (Facts.result c k e rc) tr v := by
  rw [Facts.result, if_pos hn]
  exact h

theorem Point.result_of_not (hn : ¬ NothingToTrack c e rc k) (h : Point c t k e Facts.idle tr v) :
    Point c t k e (Facts.result c k e rc) tr v := by
  rw [Facts.result, if_neg hn]
  exact h

end Result

theorem realTrylock_does {callsite : Nat} (hk : k = .lock m callsite) :
    Does c t k e F (realTrylock m) fun rc => { F with wait := F.wait || decide (rc = ebusy) } := by
  refine Triple.query fun rc tr v h => ?_
  have hans := h.answer (Query.realTrylock m) rc
  exact
    { hans with
      busy := fun hwait => by
        rcases Bool.or_eq_true _ _ ▸ hwait with hw | hrc
        · exact hans.busy hw
        · have hrc' : rc = ebusy := of_decide_eq_true hrc
          refine ⟨m, callsite, hk, ?_⟩
          rw [← hrc']
          exact List.mem_append_right _ (List.mem_singleton_self _)
      notWaiting := fun hwait => hans.notWaiting (Bool.or_eq_false_iff.1 hwait).1 }

/-- A thread that holds a lock has a slot. -/
theorem Inv.slot_of_count (he : Inv c t e) (hcount : e.1.tls.heldLockSlotCount ≠ 0) :
    e.1.threadSlot.isSome = true := by
  obtain ⟨x, hx, -⟩ := he.stack
  have hne : e.1.tls.held ≠ [] := by
    intro hnil
    have hlen := hx.count
    rw [← hx.held, hnil] at hlen
    exact hcount hlen
  exact Option.isSome_iff_ne_none.2 (he.registered hne)

section Hooks
variable {callsite : Nat}

theorem lockTopLevel_does (hm : m ≠ 0) (hk : k = .lock m callsite) (hwait : F.wait = false)
    (hquiet : F.quiet = true) (htls : F.tls = (· = e.1.tls))
    (hempty : e.1.tls.heldLockSlotCount = 0) :
    Does c t k e F (lockTopLevel c t m callsite) (Facts.result c k e) := by
  refine Does.bind (Does.query _) fun rc => ?_
  refine Does.ite (fun hrc => ?_) (fun hrc => ?_)
  · have hcount : ∀ ts, F.tls ts → ts.heldLockSlotCount = 0 := by
      intro ts hts
      rw [htls] at hts
      exact hts ▸ hempty
    refine Does.bind (acquireTopLevelMutexFast_does hm hwait hcount) fun _ => ?_
    exact Does.pure fun _ _ h => h.result_of_not (by rw [hk]; exact fun hn => hn hrc)
  · exact Does.pure fun _ _ h => (h.unchanged hwait hquiet htls).result_of (.failed hrc)

theorem lockBusy_does (hm : m ≠ 0) (hk : k = .lock m callsite) (hwait : F.wait = true)
    (hquiet : F.quiet = true) (hreg : F.registered = true) (htls : F.tls = (· = e.1.tls)) :
    Does c t k e F (lockBusy c t m callsite) (Facts.result c k e) := by
  refine Does.bind (beforeBlockingMutexLock_does hm hwait (fun _ => by rw [hk]; rfl)
    fun _ => Or.inl hreg) fun found => ?_
  refine Does.ite (fun _ => Does.exit) (fun _ => ?_)
  refine Does.bind (Does.query _) fun rc => ?_
  refine Does.ite (fun hrc => ?_) (fun hrc => ?_)
  · refine Does.bind (acquireMutex_does hm hwait) fun _ => ?_
    exact Does.pure fun _ _ h => h.result_of_not (by rw [hk]; exact fun hn => hn hrc)
  · refine Does.bind (cancelWait_does hwait fun _ => Or.inl rfl) fun _ => ?_
    exact Does.pure fun _ _ h => (h.unchanged rfl hquiet htls).result_of (.failed hrc)

theorem pthreadMutexLock_does (hm : m ≠ 0) (he : Inv c t e) (hk : k = .lock m callsite) :
    Does c t k e (Facts.entry e.1) (pthreadMutexLock c t m callsite) (Facts.result c k e) := by
  refine Does.get_of (a := e.1.tls.heldLockSlotCount)
    (fun _ _ h => congrArg Tls.heldLockSlotCount h.tls) ?_
  refine Does.ite (fun hzero => lockTopLevel_does hm hk rfl rfl rfl hzero) (fun hpos => ?_)
  have hreg := he.slot_of_count hpos
  refine Does.bind (realTrylock_does hk) fun rc => ?_
  refine Does.ite (fun hrc => ?_) (fun hrc => ?_)
  · subst hrc
    refine Does.bind (acquireMutex_does hm rfl) fun _ => ?_
    exact Does.pure fun _ _ h => h.result_of_not (by rw [hk]; exact fun hn => hn rfl)
  · refine Does.ite (fun hbusy => ?_) (fun hbusy => ?_)
    · exact lockBusy_does hm hk (by simp [hbusy]) rfl hreg rfl
    · refine Does.pure fun _ _ h => ?_
      have hwait : ((Facts.entry e.1).wait || decide (rc = ebusy)) = false := by
        simp [Facts.entry, hbusy]
      exact (h.unchanged hwait rfl rfl).result_of (.failed hrc)

theorem pthreadMutexTrylock_does (hm : m ≠ 0) (hk : k = .trylock m callsite) :
    Does c t k e (Facts.entry e.1) (pthreadMutexTrylock c t m callsite) (Facts.result c k e) := by
  refine Does.bind (Does.query _) fun rc => ?_
  refine Does.ite (fun hrc => ?_) (fun hrc => ?_)
  · have hdone : ∀ tr v, Point c t k e Facts.idle tr v →
        Point c t k e (Facts.result c k e rc) tr v :=
      fun _ _ h => h.result_of_not (by rw [hk]; exact fun hn => hn hrc)
    refine Does.bind (G := fun count =>
      { Facts.entry e.1 with tls := fun ts => ts.heldLockSlotCount = count })
      (Does.get fun _ _ h => { h with tls := rfl }) fun count => ?_
    refine Does.ite (fun hzero => ?_) (fun _ => ?_)
    · exact Does.bind (acquireTopLevelMutexFast_does hm rfl fun ts hts => hts.trans hzero)
        fun _ => Does.pure hdone
    · exact Does.bind (acquireMutex_does hm rfl) fun _ => Does.pure hdone
  · exact Does.pure fun _ _ h => (h.unchanged rfl rfl rfl).result_of (.failed hrc)

theorem pthreadMutexUnlock_does (hm : m ≠ 0) (he : Inv c t e) (hk : k = .unlock m) :
    Does c t k e (Facts.entry e.1) (pthreadMutexUnlock c t m) (Facts.result c k e) := by
  have hreg : (Facts.entry e.1).quiet = true →
      (Facts.entry e.1).registered = true ∨ MayRegister k e := by
    intro _
    cases hslot : e.1.threadSlot with
    | none => exact Or.inr ⟨⟨m, hk⟩, hslot⟩
    | some i => exact Or.inl (by simp [Facts.entry, hslot])
  refine Does.bind (Does.query _) fun rc => ?_
  refine Does.ite (fun hrc => ?_) (fun hrc => ?_)
  · by_cases hn : c.abandons = false ∧ Unheld m e
    · refine Does.bind (noteUnlock_unheld hn.1 hm he rfl hn.2 hreg) fun _ => ?_
      exact Does.pure fun _ _ h =>
        (h.unchanged rfl rfl rfl).result_of (by rw [hk]; exact Or.inr hn)
    · refine Does.bind (noteUnlock_does hm rfl) fun _ => Does.pure fun _ _ h => ?_
      refine h.result_of_not ?_
      rw [hk]
      rintro (hfail | hun)
      · exact hfail hrc
      · exact hn hun
  · exact Does.pure fun _ _ h => (h.unchanged rfl rfl rfl).result_of (.failed hrc)

/-- **Every hook, from its call to its return.** -/
theorem hook_does (hm : k.mutex ≠ 0) (he : Inv c t e) :
    Does c t k e (Facts.entry e.1) (hook c t k) (Facts.result c k e) := by
  cases k with
  | lock m callsite => exact pthreadMutexLock_does hm he rfl
  | trylock m callsite => exact pthreadMutexTrylock_does hm rfl
  | unlock m => exact pthreadMutexUnlock_does hm he rfl

end Hooks

/-! ## The contract -/

section Contract
variable {v w : View β} {tr : Trace β}

/-- Between the calls. -/
def Idle (c : Setup) (t : Nat) (v : View β) : Prop := Inv c t v ∧ NotWaiting t v

/-- At the return of a call made in state `e`. -/
structure Returned (c : Setup) (t : Nat) (k : Call) (e : View β) (rc : Int) (tr : Trace β)
    (v : View β) : Prop where
  idle : Idle c t v
  notWaiting : NotWaiting t e
  unchanged : NothingToTrack c e rc k → v.1.tls = e.1.tls ∧ Quiet t k.mutex (MayRegister k e) tr

theorem Idle.point (h : Idle c t v) : Point c t k v (Facts.entry v.1) [] v where
  inv := h.1
  known := List.prefix_refl _
  busy hw := by cases hw
  notWaiting _ := h.2
  cancelled hc := by cases hc
  quiet _ := Quiet.nil
  registered hr := Option.isSome_iff_ne_none.1 hr
  tls := rfl
  selfSlot _ hi := by cases hi
  lock _ _ hl := by cases hl
  released _ hl := by cases hl

theorem Point.returned {rc : Int} (he : NotWaiting t e)
    (h : Point c t k e (Facts.result c k e rc) tr v) : Returned c t k e rc tr v := by
  by_cases hn : NothingToTrack c e rc k
  · rw [Facts.result, if_pos hn] at h
    exact ⟨⟨h.inv, h.notWaiting rfl⟩, he, fun _ => ⟨h.tls, h.quiet rfl⟩⟩
  · rw [Facts.result, if_neg hn] at h
    exact ⟨⟨h.inv, h.notWaiting rfl⟩, he, fun hn' => absurd hn' hn⟩

theorem idle_initial (c : Setup) (t : Nat) (b : β) :
    Idle c t (Local.initial, Shared.initial b) := by
  have hempty : ∀ k, (SlotTable.empty maxThreadSlots).find t ≠ some k := by
    intro k hk
    have hk' := SlotTable.find_iff.1 hk
    simp [SlotTable.empty] at hk'
  refine ⟨?_, fun k hk => absurd hk (hempty k)⟩
  exact
    { owners := fun l k hl => absurd hl (Nat.not_lt_zero l)
      cache := fun i hi => absurd rfl hi
      slot := fun k hk => by cases hk
      stack := ⟨_, HeldStack.initial_represents _, fun _ => ThreadState.initial_mirrors⟩
      registered := fun hne => absurd rfl hne
      owner := fun _ l k hk => absurd hk (hempty k)
      noSites := fun _ k hk => absurd hk (hempty k) }

/-- A new thread takes the name of one that has ended. -/
theorem Idle.renew {own : Local} {s : Shared β} (h : Idle c t (own, s))
    (hend : c.abandons = true ∨ own.tls.heldLockSlotCount = 0) :
    Idle c t (Local.initial, s) := by
  refine ⟨?_, h.2⟩
  exact
    { owners := h.1.owners
      cache := fun i hi => absurd rfl hi
      slot := fun k hk => by cases hk
      stack := ⟨_, HeldStack.initial_represents _, fun _ => ThreadState.initial_mirrors⟩
      registered := fun hne => absurd rfl hne
      owner := fun ha l k hk hl ho => by
        rcases hend with habandons | hcount
        · rw [ha] at habandons
          cases habandons
        · have hmem := h.1.owner ha l k hk hl ho
          rw [show own.tls.held = [] by rw [Tls.held, hcount]; rfl] at hmem
          cases hmem
      noSites := h.1.noSites }

/-- **The hooks keep to the protocol of their thread.** -/
def contract (c : Setup) (b : β) : Contract (machine c b) where
  proto := protocol
  idle := Idle c
  always t k _ := Always c t k
  post := Returned c
  idle_stable _ _ _ hr h := ⟨h.1.stable hr, h.2.stable hr⟩
  init t := idle_initial c t b
  code t k v hk h := by
    have hm : k.mutex ≠ 0 := of_decide_eq_true hk
    exact (hook_does hm h.1 [] v h.point).mono fun rc tr w hw => hw.returned h.2
  returned _ _ _ _ _ _ h := h.idle
  other _ _ _ _ _ _ _ hu h := h.rely hu
  between t _ own own' s h hend := by
    change (if c.abandons = true ∨ own.tls.heldLockSlotCount = 0 then some Local.initial
      else none) = some own' at hend
    split at hend
    · rename_i hc
      cases hend
      exact h.renew hc
    · cases hend
  outside t x b s :=
    { own := rfl
      locks := List.prefix_refl _
      threads := List.prefix_refl _
      slot := rfl
      owner := fun _ _ _ hl ho => ⟨hl, ho⟩
      owners := fun h => h
      waiting := fun _ _ => ⟨rfl, rfl⟩ }

/-- Every thread agrees with the tables at every point of its calls. -/
theorem reachable_inv {b : β} {s : Config β}
    (h : Runs.Reachable (machine c b).system s) (t : Nat) : Inv c t (s.view t) := by
  have hholds := (contract c b).sound h t
  cases hf : (s.thr t).frame with
  | none =>
    have hidle : Idle c t (s.view t) := (contract c b).holds_none hholds hf
    exact hidle.1
  | some f =>
    have halways : Always c t f.call f.events (s.view t) :=
      ((contract c b).holds_some hholds hf).always
    exact halways.1

end Contract

end HookPrograms

end ScaleLockDep
