import Mathlib.Data.List.Nodup
import Mathlib.Data.List.Range
import Mathlib.Data.List.Perm.Subperm
import Mathlib.Data.Nat.Find

/-!
# Following a partial function

The orbit of a point under a partial function.

* `follow_ne`: before it first hits a value the orbit never repeats;
* `lt_length_of_first`: in a finite set the first hit comes within as many steps as
  there are points.
-/

namespace ScaleLockDep.Orbits

variable {α : Type} {f : α → Option α} {x y : α} {i j k : Nat}

/-- The point after `k` steps, if the function is defined so far. -/
def follow (f : α → Option α) : Nat → α → Option α
  | 0, x => some x
  | k + 1, x => (follow f k x).bind f

theorem follow_add (i j : Nat) (x : α) :
    follow f (i + j) x = (follow f i x).bind (follow f j) := by
  induction j with
  | zero => cases follow f i x <;> simp [follow]
  | succ j ih =>
    rw [Nat.add_succ, follow, ih, Option.bind_assoc]
    rfl

/-- An orbit that has ended stays ended. -/
theorem follow_none (h : follow f i x = none) (hij : i ≤ j) : follow f j x = none := by
  obtain ⟨d, rfl⟩ := Nat.exists_eq_add_of_le hij
  rw [follow_add, h, Option.bind_none]

theorem follow_some (h : follow f k x = some y) (hik : i ≤ k) : ∃ z, follow f i x = some z := by
  refine Option.ne_none_iff_exists'.mp fun hnone => ?_
  rw [follow_none hnone hik] at h
  cases h

/-- `k` is the first step at which the orbit of `x` is at `y`. -/
structure First (f : α → Option α) (x y : α) (k : Nat) : Prop where
  hit : follow f k x = some y
  before : ∀ i, i < k → follow f i x ≠ some y

theorem exists_first (h : follow f k x = some y) : ∃ m, m ≤ k ∧ First f x y m := by
  classical
  have hex : ∃ m, follow f m x = some y := ⟨k, h⟩
  exact ⟨Nat.find hex, Nat.find_le h, Nat.find_spec hex, fun i hi => Nat.find_min hex hi⟩

/-- **No repetition before the first hit**: a loop would have hit before. -/
theorem follow_ne (h : First f x y k) (hij : i < j) (hjk : j ≤ k) :
    follow f i x ≠ follow f j x := by
  intro heq
  have hjump : follow f (i + (k - j)) x = some y := by
    rw [follow_add, heq, ← follow_add, Nat.add_sub_cancel' hjk, h.hit]
  exact h.before _ (by omega) hjump

/-- **The first hit comes early.** -/
theorem lt_length_of_first (points : List α) (h : First f x y k)
    (hpoints : ∀ i z, follow f i x = some z → z ∈ points) : k < points.length := by
  have hnd : ((List.range (k + 1)).map fun i => follow f i x).Nodup := by
    refine List.Nodup.map_on ?_ List.nodup_range
    intro i hi j hj heq
    rw [List.mem_range] at hi hj
    by_contra hne
    rcases Nat.lt_or_gt_of_ne hne with hij | hij
    · exact follow_ne h hij (by omega) heq
    · exact follow_ne h hij (by omega) heq.symm
  have hsub : ∀ z, z ∈ (List.range (k + 1)).map (fun i => follow f i x) →
      z ∈ points.map some := by
    intro z hz
    obtain ⟨i, hi, rfl⟩ := List.mem_map.mp hz
    obtain ⟨z, hz⟩ := follow_some h.hit (Nat.lt_succ_iff.mp (List.mem_range.mp hi))
    rw [hz]
    exact List.mem_map_of_mem (hpoints i z hz)
  have hle := (List.Nodup.subperm hnd hsub).length_le
  simp only [List.length_map, List.length_range] at hle
  omega

end ScaleLockDep.Orbits
