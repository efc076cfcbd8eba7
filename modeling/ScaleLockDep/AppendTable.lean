import Mathlib.Data.List.Find
import Mathlib.Logic.Function.Basic

/-!
# Append-only tables

An array with a count of the entries in use.  An entry is stored past the end first and
counted afterwards, so a table grows in two steps.

* `findBelow_eq_some`: what a scan of the entries in use returns;
* `Grows`: the entries in use stay as they are, and with them every scan of them
  (`Grows.findBelow`).
-/

namespace ScaleLockDep

structure AppendTable (α : Type) where
  entry : Nat → α
  count : Nat

namespace AppendTable

variable {α : Type} {T T' T'' : AppendTable α} {x : α} {i n : Nat}

/-- Store past the end. -/
def store [DecidableEq α] (T : AppendTable α) (x : α) : AppendTable α :=
  { T with entry := Function.update T.entry T.count x }

/-- Count the entry stored. -/
def publish (T : AppendTable α) : AppendTable α := { T with count := T.count + 1 }

/-- The first of the entries below `n` that is `x`. -/
def findBelow [DecidableEq α] (T : AppendTable α) (n : Nat) (x : α) : Option Nat :=
  (List.range n).find? fun i => T.entry i = x

def find [DecidableEq α] (T : AppendTable α) (x : α) : Option Nat := T.findBelow T.count x

/-- `x` is not among the entries below `n`. -/
def Fresh (T : AppendTable α) (n : Nat) (x : α) : Prop := ∀ i, i < n → T.entry i ≠ x

def Distinct (T : AppendTable α) : Prop :=
  ∀ i j, i < T.count → j < T.count → T.entry i = T.entry j → i = j

/-- Entries in use never change. -/
structure Grows (T T' : AppendTable α) : Prop where
  count : T.count ≤ T'.count
  entry : ∀ i, i < T.count → T'.entry i = T.entry i

theorem Grows.refl (T : AppendTable α) : T.Grows T := ⟨Nat.le_refl _, fun _ _ => rfl⟩

theorem Grows.trans (h : T.Grows T') (h' : T'.Grows T'') : T.Grows T'' :=
  ⟨Nat.le_trans h.count h'.count, fun i hi =>
    (h'.entry i (Nat.lt_of_lt_of_le hi h.count)).trans (h.entry i hi)⟩

theorem Grows.fresh (h : T.Grows T') (hn : n ≤ T.count) (hf : T.Fresh n x) : T'.Fresh n x :=
  fun i hi he => hf i hi ((h.entry i (Nat.lt_of_lt_of_le hi hn)).symm.trans he)

theorem grows_publish : T.Grows T.publish := ⟨Nat.le_succ _, fun _ _ => rfl⟩

theorem Fresh.succ (h : T.Fresh i x) (hi : T.entry i ≠ x) : T.Fresh (i + 1) x := by
  intro j hj
  rcases Nat.lt_succ_iff_lt_or_eq.mp hj with hj | rfl
  · exact h j hj
  · exact hi

/-- Counting a new entry keeps the entries distinct. -/
theorem Distinct.publish (h : T.Distinct) (hf : T.Fresh T.count x) (hx : T.entry T.count = x) :
    T.publish.Distinct := by
  intro i j hi hj he
  rcases Nat.lt_succ_iff_lt_or_eq.mp hi with hi | rfl <;>
    rcases Nat.lt_succ_iff_lt_or_eq.mp hj with hj | rfl
  · exact h i j hi hj he
  · exact absurd (he.trans hx) (hf i hi)
  · exact absurd (he.symm.trans hx) (hf j hj)
  · rfl

variable [DecidableEq α]

theorem grows_store : T.Grows (T.store x) :=
  ⟨Nat.le_refl _, fun _ hi => Function.update_of_ne (Nat.ne_of_lt hi) _ _⟩

theorem store_entry_count : (T.store x).entry T.count = x := Function.update_self _ _ _

theorem store_entry_of_ne (h : i ≠ T.count) : (T.store x).entry i = T.entry i :=
  Function.update_of_ne h _ _

theorem Distinct.store (h : T.Distinct) : (T.store x).Distinct := by
  intro i j (hi : i < T.count) (hj : j < T.count) he
  rw [store_entry_of_ne (T := T) (Nat.ne_of_lt hi),
    store_entry_of_ne (T := T) (Nat.ne_of_lt hj)] at he
  exact h i j hi hj he

theorem findBelow_eq_none : T.findBelow n x = none ↔ T.Fresh n x := by
  simp [findBelow, Fresh]

/-- **The scan finds the entry there is.** -/
theorem findBelow_eq_some (h : T.Distinct) (hn : n ≤ T.count) :
    T.findBelow n x = some i ↔ i < n ∧ T.entry i = x := by
  simp only [findBelow, List.find?_range_eq_some, decide_eq_true_eq, List.mem_range,
    Bool.not_eq_true', decide_eq_false_iff_not]
  constructor
  · rintro ⟨he, hi, -⟩
    exact ⟨hi, he⟩
  · rintro ⟨hi, he⟩
    refine ⟨he, hi, fun j hj hje => ?_⟩
    have := h j i (by omega) (by omega) (hje.trans he.symm)
    omega

/-- A scan of entries in use is stable. -/
theorem Grows.findBelow (h : T.Grows T') (hn : n ≤ T.count) :
    T'.findBelow n x = T.findBelow n x := by
  unfold AppendTable.findBelow
  refine List.find?_congr fun i hi => ?_
  rw [h.entry i (Nat.lt_of_lt_of_le (List.mem_range.mp hi) hn)]

end AppendTable

end ScaleLockDep
