import ScaleLockDep.Hooks
import Mathlib.Data.List.Induction

/-!
# What the operations of the hooks do

One lemma for each operation and each part of the state, so that the invariant
proofs never unfold an operation.  `loadOwner t` and `loadWaiting t` are the
values thread `t` reads: its own newest buffered store, else memory.
-/

namespace ScaleLockDep.Hooks

open ThreadState

/-! ## Threads, held stacks and real mutexes -/

namespace State
variable (s : State) (t u m l : Nat) (pc : Pc) (ts : ThreadState) (c : Setup) (w : Write)

@[grind =] theorem setPc_pc : ((s.setPc t pc).thr u).pc = if u = t then pc else (s.thr u).pc := by
  by_cases h : u = t
  · subst h; simp [setPc]
  · simp [setPc, h]

@[grind =] theorem setThread_pc : ((s.setThread t pc ts).thr u).pc = if u = t then pc else (s.thr u).pc := by
  by_cases h : u = t
  · subst h; simp [setThread]
  · simp [setThread, h]

@[simp, grind =] theorem setPc_tls : ((s.setPc t pc).thr u).tls = (s.thr u).tls := by
  by_cases h : u = t
  · subst h; simp [setPc]
  · simp [setPc, h]

@[simp, grind =] theorem setPc_held : (s.setPc t pc).held u = s.held u := by simp [held]

@[grind =] theorem setThread_held :
    (s.setThread t pc ts).held u = if u = t then ts.heldLockSlots else s.held u := by
  by_cases h : u = t
  · subst h; simp [setThread, held]
  · simp [setThread, held, h]

theorem setPc_thr_other (h : u ≠ t) : (s.setPc t pc).thr u = s.thr u := by
  simp [setPc, h]

theorem setThread_thr_other (h : u ≠ t) : (s.setThread t pc ts).thr u = s.thr u := by
  simp [setThread, h]

@[simp, grind =] theorem drain_thr : (s.drain t).thr = s.thr := rfl
@[simp, grind =] theorem store_thr : (s.store c t w).thr = s.thr := by
  unfold store
  split <;> rfl
@[simp, grind =] theorem grant_thr : (s.grant t m).thr = s.thr := rfl
@[simp, grind =] theorem ungrant_thr : (s.ungrant t m).thr = s.thr := rfl
@[simp, grind =] theorem casOwner_thr : (s.casOwner t m).thr = s.thr := by
  unfold casOwner
  split <;> rfl
@[simp, grind =] theorem popStore_thr (ws : List Write) : (s.popStore t w ws).thr = s.thr := rfl
@[simp, grind =] theorem exit_thr (n : Nat) : (s.exit n).thr = s.thr := rfl
@[simp, grind =] theorem abandon_thr : (s.abandon t).thr = s.thr := rfl

@[simp, grind =] theorem drain_held : (s.drain t).held u = s.held u := rfl
@[simp, grind =] theorem store_held : (s.store c t w).held u = s.held u := by simp [held]
@[simp, grind =] theorem grant_held : (s.grant t m).held u = s.held u := rfl
@[simp, grind =] theorem ungrant_held : (s.ungrant t m).held u = s.held u := rfl
@[simp, grind =] theorem casOwner_held : (s.casOwner t m).held u = s.held u := by simp [held]
@[simp, grind =] theorem popStore_held (ws : List Write) :
    (s.popStore t w ws).held u = s.held u := rfl
@[simp, grind =] theorem exit_held (n : Nat) : (s.exit n).held u = s.held u := rfl
@[simp, grind =] theorem abandon_held : (s.abandon t).held u = s.held u := rfl

@[simp, grind =] theorem setPc_real : (s.setPc t pc).real = s.real := rfl
@[simp, grind =] theorem setThread_real : (s.setThread t pc ts).real = s.real := rfl
@[simp, grind =] theorem drain_real : (s.drain t).real = s.real := rfl
@[simp, grind =] theorem store_real : (s.store c t w).real = s.real := by
  unfold store
  split <;> rfl
@[simp, grind =] theorem casOwner_real : (s.casOwner t m).real = s.real := by
  unfold casOwner
  split <;> rfl
@[simp, grind =] theorem popStore_real (ws : List Write) : (s.popStore t w ws).real = s.real := rfl
@[simp, grind =] theorem exit_real (n : Nat) : (s.exit n).real = s.real := rfl

@[simp, grind =] theorem setPc_lockCount : (s.setPc t pc).lockCount u m = s.lockCount u m := rfl
@[simp, grind =] theorem setThread_lockCount : (s.setThread t pc ts).lockCount u m = s.lockCount u m := rfl
@[simp, grind =] theorem drain_lockCount : (s.drain t).lockCount u m = s.lockCount u m := rfl
@[simp, grind =] theorem store_lockCount : (s.store c t w).lockCount u m = s.lockCount u m := by
  simp [lockCount]
@[simp, grind =] theorem casOwner_lockCount : (s.casOwner t l).lockCount u m = s.lockCount u m := by
  simp [lockCount]
@[simp, grind =] theorem popStore_lockCount (ws : List Write) :
    (s.popStore t w ws).lockCount u m = s.lockCount u m := rfl
@[simp, grind =] theorem exit_lockCount (n : Nat) : (s.exit n).lockCount u m = s.lockCount u m := rfl
@[simp, grind =] theorem abandon_lockCount :
    (s.abandon t).lockCount u m = if u = t then 0 else s.lockCount u m := by
  have hr : (s.abandon t).real m = if s.lockCount t m = 0 then s.real m else none := rfl
  unfold lockCount at hr ⊢
  rw [hr]
  cases s.real m with
  | none => simp
  | some p => grind

@[simp, grind =] theorem setPc_abandoned : (s.setPc t pc).abandoned = s.abandoned := rfl
@[simp, grind =] theorem setThread_abandoned : (s.setThread t pc ts).abandoned = s.abandoned := rfl
@[simp, grind =] theorem drain_abandoned : (s.drain t).abandoned = s.abandoned := rfl
@[simp, grind =] theorem store_abandoned : (s.store c t w).abandoned = s.abandoned := by
  unfold store
  split <;> rfl
@[simp, grind =] theorem grant_abandoned : (s.grant t m).abandoned = s.abandoned := rfl
@[simp, grind =] theorem ungrant_abandoned : (s.ungrant t m).abandoned = s.abandoned := rfl
@[simp, grind =] theorem casOwner_abandoned : (s.casOwner t m).abandoned = s.abandoned := by
  unfold casOwner
  split <;> rfl
@[simp, grind =] theorem popStore_abandoned (ws : List Write) :
    (s.popStore t w ws).abandoned = s.abandoned := rfl
@[simp, grind =] theorem exit_abandoned (n : Nat) : (s.exit n).abandoned = s.abandoned := rfl
@[grind =] theorem abandon_abandoned : (s.abandon t).abandoned m = true ↔
    s.abandoned m = true ∨ s.lockCount t m ≠ 0 := by
  simp [abandon]

@[simp, grind =] theorem drain_grantable : (s.drain t).grantable c u m = s.grantable c u m := rfl

end State

/-! ## Buffers and memory -/

theorem apply_owner (m : Memory) (w : Write) (l : Nat) :
    (m.apply w).owner l = ownerIn [w] l (m.owner l) := by
  rcases w with ⟨k, v⟩ | ⟨u, _ | v⟩
  · simp [Memory.apply, ownerIn, Function.update_apply, eq_comm]
  · rfl
  · rfl

theorem apply_waiting (m : Memory) (w : Write) (t : Nat) :
    (m.apply w).waiting t = waitingIn [w] t (m.waiting t) := by
  rcases w with ⟨k, v⟩ | ⟨u, _ | v⟩
  · rfl
  · simp [Memory.apply, waitingIn, Function.update_apply, eq_comm]
  · simp [Memory.apply, waitingIn, Function.update_apply, eq_comm]

theorem ownerIn_cons (w : Write) (ws : List Write) (l : Nat) (v : Option Nat) :
    ownerIn (w :: ws) l v = ownerIn ws l (ownerIn [w] l v) := rfl

theorem waitingIn_cons (w : Write) (ws : List Write) (t : Nat) (v : Option Nat) :
    waitingIn (w :: ws) t v = waitingIn ws t (waitingIn [w] t v) := rfl

theorem applyAll_owner (m : Memory) (ws : List Write) (l : Nat) :
    (m.applyAll ws).owner l = ownerIn ws l (m.owner l) := by
  induction ws generalizing m with
  | nil => rfl
  | cons w ws ih => rw [ownerIn_cons, ← apply_owner]; exact ih _

theorem applyAll_waiting (m : Memory) (ws : List Write) (t : Nat) :
    (m.applyAll ws).waiting t = waitingIn ws t (m.waiting t) := by
  induction ws generalizing m with
  | nil => rfl
  | cons w ws ih => rw [waitingIn_cons, ← apply_waiting]; exact ih _

/-- A buffer decides the value read, or leaves it to memory. -/
theorem ownerIn_const (ws : List Write) (l : Nat) :
    ((∀ v, ownerIn ws l v = v) ∧ ∀ v, .owner l v ∉ ws) ∨
    ∃ x, .owner l x ∈ ws ∧ ∀ v, ownerIn ws l v = x := by
  induction ws using List.reverseRecOn with
  | nil => exact Or.inl ⟨fun _ => rfl, by simp⟩
  | append_singleton ws w ih =>
    rcases w with ⟨k, v⟩ | ⟨u, v⟩
    · by_cases hk : k = l
      · subst hk
        exact Or.inr ⟨v, by simp, fun _ => by simp [ownerIn]⟩
      · rcases ih with ⟨h1, h2⟩ | ⟨x, h1, h2⟩
        · refine Or.inl ⟨fun v => by simpa [ownerIn, hk] using h1 v, fun v => ?_⟩
          simp [h2 v, Ne.symm hk]
        · exact Or.inr ⟨x, by simp [h1], fun v => by simpa [ownerIn, hk] using h2 v⟩
    · rcases ih with ⟨h1, h2⟩ | ⟨x, h1, h2⟩
      · exact Or.inl ⟨fun v => by simpa [ownerIn] using h1 v, fun v => by simp [h2 v]⟩
      · exact Or.inr ⟨x, by simp [h1], fun v => by simpa [ownerIn] using h2 v⟩


namespace State
variable {s : State} {t u m l : Nat} {c : Setup} {w : Write}

@[simp, grind =] theorem setPc_loadOwner (pc : Pc) :
    (s.setPc t pc).loadOwner u l = s.loadOwner u l := rfl
@[simp, grind =] theorem setThread_loadOwner (pc : Pc) (ts : ThreadState) :
    (s.setThread t pc ts).loadOwner u l = s.loadOwner u l := rfl
@[simp, grind =] theorem grant_loadOwner : (s.grant t m).loadOwner u l = s.loadOwner u l := rfl
@[simp, grind =] theorem ungrant_loadOwner : (s.ungrant t m).loadOwner u l = s.loadOwner u l := rfl
@[simp, grind =] theorem exit_loadOwner (n : Nat) : (s.exit n).loadOwner u l = s.loadOwner u l := rfl
@[simp, grind =] theorem abandon_loadOwner : (s.abandon t).loadOwner u l = s.loadOwner u l := rfl
@[simp, grind =] theorem setPc_loadWaiting (pc : Pc) :
    (s.setPc t pc).loadWaiting u l = s.loadWaiting u l := rfl
@[simp, grind =] theorem setThread_loadWaiting (pc : Pc) (ts : ThreadState) :
    (s.setThread t pc ts).loadWaiting u l = s.loadWaiting u l := rfl
@[simp, grind =] theorem grant_loadWaiting :
    (s.grant t m).loadWaiting u l = s.loadWaiting u l := rfl
@[simp, grind =] theorem ungrant_loadWaiting :
    (s.ungrant t m).loadWaiting u l = s.loadWaiting u l := rfl
@[simp, grind =] theorem exit_loadWaiting (n : Nat) :
    (s.exit n).loadWaiting u l = s.loadWaiting u l := rfl
@[simp, grind =] theorem abandon_loadWaiting :
    (s.abandon t).loadWaiting u l = s.loadWaiting u l := rfl
@[simp, grind =] theorem setPc_mem (pc : Pc) : (s.setPc t pc).mem = s.mem := rfl
@[simp, grind =] theorem setThread_mem (pc : Pc) (ts : ThreadState) :
    (s.setThread t pc ts).mem = s.mem := rfl
@[simp, grind =] theorem grant_mem : (s.grant t m).mem = s.mem := rfl
@[simp, grind =] theorem ungrant_mem : (s.ungrant t m).mem = s.mem := rfl
@[simp, grind =] theorem exit_mem (n : Nat) : (s.exit n).mem = s.mem := rfl
@[simp, grind =] theorem abandon_mem : (s.abandon t).mem = s.mem := rfl
@[simp, grind =] theorem setPc_buf (pc : Pc) : (s.setPc t pc).buf u = s.buf u := rfl
@[simp, grind =] theorem setThread_buf (pc : Pc) (ts : ThreadState) :
    (s.setThread t pc ts).buf u = s.buf u := rfl
@[simp, grind =] theorem grant_buf : (s.grant t m).buf u = s.buf u := rfl
@[simp, grind =] theorem ungrant_buf : (s.ungrant t m).buf u = s.buf u := rfl
@[simp, grind =] theorem exit_buf (n : Nat) : (s.exit n).buf u = s.buf u := rfl
@[simp, grind =] theorem abandon_buf : (s.abandon t).buf u = s.buf u := rfl
@[simp, grind =] theorem casOwner_buf : (s.casOwner t m).buf u = s.buf u := by
  unfold casOwner
  split <;> rfl

@[grind =] theorem drain_buf : (s.drain t).buf u = if u = t then [] else s.buf u := by
  simp [drain, Function.update_apply]

@[grind =] theorem drain_owner : (s.drain t).mem.owner l = s.loadOwner t l := applyAll_owner _ _ _

@[grind =] theorem drain_waiting : (s.drain t).mem.waiting u = s.loadWaiting t u :=
  applyAll_waiting _ _ _

theorem loadOwner_of_nil (h : s.buf u = []) : s.loadOwner u l = s.mem.owner l := by
  simp [loadOwner, h, ownerIn]

theorem loadWaiting_of_nil (h : s.buf u = []) : s.loadWaiting u t = s.mem.waiting t := by
  simp [loadWaiting, h, waitingIn]

@[grind =] theorem casOwner_owner : (s.casOwner t m).mem.owner l =
    if l = m ∧ s.mem.owner m = some t then none else s.mem.owner l := by
  unfold casOwner
  by_cases h : s.mem.owner m = some t <;> simp [h, Memory.apply, Function.update_apply]

@[grind =] theorem casOwner_waiting : (s.casOwner t m).mem.waiting = s.mem.waiting := by
  unfold casOwner
  split <;> rfl

/-- The compare-exchange of `t` leaves an owner that is another thread. -/
theorem casOwner_loadOwner_other (hu : u ≠ t) (h : s.loadOwner u l = some u) :
    (s.casOwner t m).loadOwner u l = some u := by
  simp only [loadOwner, casOwner_buf, casOwner_owner]
  rcases ownerIn_const (s.buf u) l with ⟨h1, _⟩ | ⟨x, _, h1⟩
  · have ho : s.mem.owner l = some u := (h1 _).symm.trans h
    rw [h1, if_neg, ho]
    rintro ⟨rfl, ht⟩
    exact hu (Option.some.inj (ho.symm.trans ht))
  · rw [h1, ← h1 (s.mem.owner l)]
    exact h

/-- Draining or flushing a buffer changes nothing for its own thread. -/
theorem drain_loadOwner_self : (s.drain t).loadOwner t l = s.loadOwner t l := by
  rw [loadOwner_of_nil (by simp [drain_buf]), drain_owner]

theorem drain_loadWaiting_self : (s.drain t).loadWaiting t u = s.loadWaiting t u := by
  rw [loadWaiting_of_nil (by simp [drain_buf]), drain_waiting]

theorem drain_loadOwner_other (hu : u ≠ t) (hb : ∀ v, .owner l v ∉ s.buf t) :
    (s.drain t).loadOwner u l = s.loadOwner u l := by
  have : s.loadOwner t l = s.mem.owner l := by
    rcases ownerIn_const (s.buf t) l with ⟨h, _⟩ | ⟨x, h, _⟩
    · exact h _
    · exact absurd h (hb x)
  simp only [loadOwner, drain_buf, if_neg hu, drain_owner] at this ⊢
  rw [this]

@[grind =] theorem popStore_buf (ws : List Write) :
    (s.popStore t w ws).buf u = if u = t then ws else s.buf u := by
  simp [popStore, Function.update_apply]

theorem popStore_loadOwner_self {ws : List Write} (hb : s.buf t = w :: ws) :
    (s.popStore t w ws).loadOwner t l = s.loadOwner t l := by
  simp only [loadOwner, popStore_buf, if_true, hb, ownerIn_cons w ws]
  rw [popStore, apply_owner]

theorem popStore_loadWaiting_self {ws : List Write} (hb : s.buf t = w :: ws) :
    (s.popStore t w ws).loadWaiting t u = s.loadWaiting t u := by
  simp only [loadWaiting, popStore_buf, if_true, hb, waitingIn_cons w ws]
  rw [popStore, apply_waiting]

theorem popStore_loadOwner_other {ws : List Write} (hu : u ≠ t) (hw : ∀ v, w ≠ .owner l v) :
    (s.popStore t w ws).loadOwner u l = s.loadOwner u l := by
  have : ownerIn [w] l (s.mem.owner l) = s.mem.owner l := by
    rcases w with ⟨k, v⟩ | _
    · have : k ≠ l := fun h => hw v (by rw [h])
      simp [ownerIn, this]
    · rfl
  simp only [loadOwner, popStore_buf, if_neg hu]
  rw [popStore, apply_owner, this]

theorem popStore_owner_or (ws : List Write) : (s.popStore t w ws).mem.owner l = s.mem.owner l ∨
    .owner l ((s.popStore t w ws).mem.owner l) = w := by
  rw [popStore, apply_owner]
  rcases w with ⟨k, v⟩ | _
  · by_cases hk : k = l
    · subst hk
      exact Or.inr (by simp [ownerIn])
    · exact Or.inl (by simp [ownerIn, hk])
  · exact Or.inl rfl

/-! ### Stores -/

theorem store_buf_mem {x : Write} (h : x ∈ (s.store c t w).buf u) :
    x ∈ s.buf u ∨ u = t ∧ x = w := by
  unfold store at h
  split at h
  · simp only [drain_buf] at h
    split at h
    · cases h
    · rename_i hu
      left
      simpa [hu] using h
  · by_cases hu : u = t
    · subst hu
      simpa using h
    · left
      simpa [hu] using h

theorem store_buf_other (hu : u ≠ t) : (s.store c t w).buf u = s.buf u := by
  unfold store
  split
  · simp [drain_buf, hu]
  · simp [hu]

theorem store_buf_sc (hsc : c.memory = .sc) : (s.store c t w).buf t = [] := by
  simp [store, hsc, drain_buf]

theorem store_loadOwner_self :
    (s.store c t w).loadOwner t l = ownerIn [w] l (s.loadOwner t l) := by
  unfold store
  split
  · rw [drain_loadOwner_self]
    simp [loadOwner, ownerIn]
  · simp [loadOwner, ownerIn]

theorem store_loadWaiting_self :
    (s.store c t w).loadWaiting t u = waitingIn [w] u (s.loadWaiting t u) := by
  unfold store
  split
  · rw [drain_loadWaiting_self]
    simp [loadWaiting, waitingIn]
  · simp [loadWaiting, waitingIn]

theorem store_loadOwner_other (hu : u ≠ t) (hb : ∀ v, .owner l v ∉ s.buf t ++ [w]) :
    (s.store c t w).loadOwner u l = s.loadOwner u l := by
  unfold store
  split
  · rw [drain_loadOwner_other hu (by simpa using hb)]
    simp [loadOwner, hu]
  · simp [loadOwner, hu]

theorem drain_owner_or (s : State) (t l : Nat) : (s.drain t).mem.owner l = s.mem.owner l ∨
    .owner l ((s.drain t).mem.owner l) ∈ s.buf t := by
  rw [drain_owner]
  rcases ownerIn_const (s.buf t) l with ⟨h, _⟩ | ⟨x, hx, h⟩
  · exact Or.inl (h _)
  · right
    have : s.loadOwner t l = x := h _
    rwa [this]

theorem store_owner_or (c : Setup) (s : State) (t l : Nat) (w : Write) :
    (s.store c t w).mem.owner l = s.mem.owner l ∨
    .owner l ((s.store c t w).mem.owner l) ∈ s.buf t ++ [w] := by
  unfold store
  split
  · simpa using drain_owner_or { s with buf := Function.update s.buf t (s.buf t ++ [w]) } t l
  · exact Or.inl rfl

end State

end ScaleLockDep.Hooks
