import ScaleLockDep.ThreadState

/-!
# What a thread has locked

The completed acquisitions and releases of a thread, and the lock-order pairs
they stand for.  Both backends of the lock-order detector are judged by these.

* `heldAfter`: the locks held after a history;
* `Acquired`: `v` was acquired while `u` was held, and through which call;
* `WellFormed`: a history within the limits of `lockdep.h`;
* `acquired_concat`: what one more call adds.
-/

namespace ScaleLockDep

open ThreadState

/-- The hooked call that acquired a mutex. -/
inductive Api
  | lock
  | trylock
  deriving DecidableEq, Repr

inductive Op
  | acquire (api : Api) (l : Nat)
  | release (l : Nat)
  deriving DecidableEq, Repr

/-- The held stack after one more call. -/
def Op.apply (held : List Nat) : Op → List Nat
  | .acquire _ l => held ++ [l]
  | .release l => removeHeld held l

/-- The held stack after the calls `ops`. -/
def heldAfter (ops : List Op) : List Nat := ops.foldl Op.apply []

/-- In the history `ops` the lock `v` was acquired through `api` while `u ≠ v`
was held. -/
def Acquired (ops : List Op) (api : Api) (u v : Nat) : Prop :=
  u ≠ v ∧ ∃ pre post, ops = pre ++ .acquire api v :: post ∧ u ∈ heldAfter pre

/-- `v` was acquired while `u` was held, through whichever call. -/
def Dependency (ops : List Op) (u v : Nat) : Prop := ∃ api, Acquired ops api u v

/-- A history within the limits: every lock has one of `n` slots, the stack has room
for it, and only held locks are released. -/
inductive WellFormed (n : Nat) : List Op → Prop
  | nil : WellFormed n []
  | acquire {ops : List Op} (api : Api) (l : Nat) (h : WellFormed n ops) (hl : l < n)
      (hroom : (heldAfter ops).length < maxHeldLockSlots) : WellFormed n (ops ++ [.acquire api l])
  | release {ops : List Op} (l : Nat) (h : WellFormed n ops) (hl : l ∈ heldAfter ops) :
      WellFormed n (ops ++ [.release l])

theorem WellFormed.mono {n m : Nat} {ops : List Op} (h : WellFormed n ops) (hnm : n ≤ m) :
    WellFormed m ops := by
  induction h with
  | nil => exact .nil
  | acquire api l _ hl hroom ih => exact .acquire api l ih (hl.trans_le hnm) hroom
  | release l _ hl ih => exact .release l ih hl

theorem heldAfter_concat (ops : List Op) (op : Op) :
    heldAfter (ops ++ [op]) = op.apply (heldAfter ops) := by
  simp [heldAfter]

theorem not_acquired_nil (api : Api) (u v : Nat) : ¬ Acquired [] api u v := by
  rintro ⟨-, pre, post, h, -⟩
  simp at h

/-- **What one more call adds** to the acquired pairs. -/
theorem acquired_concat {ops : List Op} {op : Op} {api : Api} {u v : Nat} :
    Acquired (ops ++ [op]) api u v ↔
      Acquired ops api u v ∨ (op = .acquire api v ∧ u ≠ v ∧ u ∈ heldAfter ops) := by
  constructor
  · rintro ⟨hne, pre, post, h, hu⟩
    rcases List.eq_nil_or_concat post with rfl | ⟨post, x, rfl⟩
    · obtain ⟨rfl, hop⟩ := List.append_inj' h rfl
      exact Or.inr ⟨by simpa using hop, hne, hu⟩
    · have h' : ops ++ [op] = (pre ++ .acquire api v :: post) ++ [x] := by simpa using h
      exact Or.inl ⟨hne, pre, post, (List.append_inj' h' rfl).1, hu⟩
  · rintro (⟨hne, pre, post, rfl, hu⟩ | ⟨rfl, hne, hu⟩)
    · exact ⟨hne, pre, post ++ [op], by simp, hu⟩
    · exact ⟨hne, ops, [], rfl, hu⟩

theorem dependency_concat {ops : List Op} {op : Op} {u v : Nat} :
    Dependency (ops ++ [op]) u v ↔
      Dependency ops u v ∨ ((∃ api, op = .acquire api v) ∧ u ≠ v ∧ u ∈ heldAfter ops) := by
  simp only [Dependency, acquired_concat]
  constructor
  · rintro ⟨api, h | ⟨ho, hr⟩⟩
    · exact Or.inl ⟨api, h⟩
    · exact Or.inr ⟨⟨api, ho⟩, hr⟩
  · rintro (⟨api, h⟩ | ⟨⟨api, ho⟩, hr⟩)
    · exact ⟨api, Or.inl h⟩
    · exact ⟨api, Or.inr ⟨ho, hr⟩⟩

/-! ## Calls, moves and reports -/

/-- A hooked call that has acquired its mutex. -/
structure Call where
  api : Api
  lockSlot : Nat
  acquirePc : Nat
  deriving DecidableEq, Repr

/-- What an application thread does next: give a mutex a lock slot, enter a hook
with a mutex it has acquired, release one, or go on in its hook. -/
inductive Move
  | register
  | acquire (c : Call)
  | release (l : Nat)
  | run
  deriving DecidableEq, Repr

/-- Where and by whom an edge was recorded. -/
structure EdgeInfo where
  threadSlot : Option Nat
  acquirePc : Nat
  deriving DecidableEq, Repr

/-- A call of `lockdep_report_potential_deadlock`. -/
structure Report where
  fromLockSlot : Nat
  toLockSlot : Nat
  existingChain : List Nat
  newEdgeInfo : EdgeInfo
  existingEdgeInfos : List EdgeInfo
  deriving DecidableEq, Repr

/-- The infos of the edges along a chain. -/
def chainEdgeInfos (info : Nat → Nat → EdgeInfo) (chain : List Nat) : List EdgeInfo :=
  List.zipWith info chain chain.tail

/-- **A valid report** over the graph `r`: the chain is a simple path from the
target of the new edge back to its source. -/
structure Report.Valid (r : Nat → Nat → Prop) (x : Report) : Prop where
  edge : r x.fromLockSlot x.toLockSlot
  head : x.existingChain.head? = some x.toLockSlot
  last : x.existingChain.getLast? = some x.fromLockSlot
  nodup : x.existingChain.Nodup
  path : x.existingChain.IsChain r

theorem Report.Valid.mono {r s : Nat → Nat → Prop} {x : Report} (h : x.Valid r)
    (hrs : ∀ u v, r u v → s u v) : x.Valid s :=
  ⟨hrs _ _ h.edge, h.head, h.last, h.nodup, h.path.imp fun u v => hrs u v⟩

end ScaleLockDep
