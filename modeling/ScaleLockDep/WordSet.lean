import Mathlib.Data.BitVec
import Mathlib.Logic.Function.Basic
import Mathlib.Data.List.Basic

/-!
# Sets of numbers packed in 64-bit words

A word set is an array of 64-bit words; the number `i` is bit `i % 64` of word
`i / 64`.  The operations are the usual masks.  Every operation comes with a
`test_*` lemma giving its effect on membership, so later proofs never unfold a
mask.
-/

namespace ScaleLockDep

/-- An array of 64-bit words. -/
abbrev WordSet := Nat → BitVec 64

namespace WordSet

def wordIndex (i : Nat) : Nat := i / 64

def bitMask (i : Nat) : BitVec 64 := 1#64 <<< (i % 64)

def empty : WordSet := fun _ => 0#64

def test (b : WordSet) (i : Nat) : Bool := (b (wordIndex i) &&& bitMask i) != 0#64

def set (b : WordSet) (i : Nat) : WordSet :=
  Function.update b (wordIndex i) (b (wordIndex i) ||| bitMask i)

def clear (b : WordSet) (i : Nat) : WordSet :=
  Function.update b (wordIndex i) (b (wordIndex i) &&& ~~~ bitMask i)

/-- Word by word union. -/
def union (a b : WordSet) : WordSet := fun w => a w ||| b w

/-- Word by word difference. -/
def diff (a b : WordSet) : WordSet := fun w => a w &&& ~~~ b w

/-- Some word among the first `n` is not zero. -/
def hasAnyBits (n : Nat) (b : WordSet) : Bool := (List.range n).any fun w => b w != 0#64

/-- The numbers below `64 * n` in increasing order: each word from its lowest
set bit up. -/
def toList (n : Nat) (b : WordSet) : List Nat := (List.range (64 * n)).filter b.test

/-! ## Membership -/

theorem getLsbD_bitMask (i k : Nat) (hk : k < 64) :
    (bitMask i).getLsbD k = decide (k = i % 64) := by
  have hi : i % 64 < 64 := Nat.mod_lt _ (by decide)
  simp only [bitMask, BitVec.getLsbD_shiftLeft, BitVec.getLsbD_one]
  by_cases h : k = i % 64
  · subst h; simp [hk]
  · simp only [h, decide_false]
    by_cases hlt : k < i % 64
    · simp [hlt]
    · have : k - i % 64 ≠ 0 := by omega
      simp [this]

theorem test_eq_getLsbD (b : WordSet) (i : Nat) : b.test i = (b (i / 64)).getLsbD (i % 64) := by
  have hi : i % 64 < 64 := Nat.mod_lt _ (by decide)
  unfold test wordIndex
  cases h : (b (i / 64)).getLsbD (i % 64) with
  | true =>
    rw [bne_iff_ne]
    intro h0
    have := congrArg (fun v : BitVec 64 => v.getLsbD (i % 64)) h0
    simp [getLsbD_bitMask _ _ hi, h] at this
  | false =>
    rw [bne_eq_false_iff_eq]
    apply BitVec.eq_of_getLsbD_eq
    intro k hk
    rw [BitVec.getLsbD_and, getLsbD_bitMask _ _ hk]
    by_cases hki : k = i % 64
    · subst hki; simp [h]
    · simp [hki]

@[simp] theorem test_empty (i : Nat) : empty.test i = false := by
  simp [test_eq_getLsbD, empty]

theorem div_mod_inj {i j : Nat} (hd : i / 64 = j / 64) (hm : i % 64 = j % 64) : i = j := by
  omega

theorem test_set (b : WordSet) (i j : Nat) : (b.set i).test j = (b.test j || decide (j = i)) := by
  have hj : j % 64 < 64 := Nat.mod_lt _ (by decide)
  rw [test_eq_getLsbD, test_eq_getLsbD, set, wordIndex]
  by_cases hw : j / 64 = i / 64
  · rw [hw, Function.update_self, BitVec.getLsbD_or, getLsbD_bitMask _ _ hj]
    congr 1
    exact decide_eq_decide.mpr ⟨fun h => div_mod_inj hw h, fun h => by rw [h]⟩
  · rw [Function.update_of_ne hw]
    have : j ≠ i := fun h => hw (by rw [h])
    simp [this]

theorem test_clear (b : WordSet) (i j : Nat) :
    (b.clear i).test j = (b.test j && decide (j ≠ i)) := by
  have hj : j % 64 < 64 := Nat.mod_lt _ (by decide)
  rw [test_eq_getLsbD, test_eq_getLsbD, clear, wordIndex]
  by_cases hw : j / 64 = i / 64
  · rw [hw, Function.update_self, BitVec.getLsbD_and, BitVec.getLsbD_not,
      getLsbD_bitMask _ _ hj]
    have : (j % 64 = i % 64) = (j = i) := propext ⟨fun h => div_mod_inj hw h, fun h => by rw [h]⟩
    simp [hj, this]
  · rw [Function.update_of_ne hw]
    have : j ≠ i := fun h => hw (by rw [h])
    simp [this]

@[simp] theorem test_union (a b : WordSet) (i : Nat) :
    (a.union b).test i = (a.test i || b.test i) := by
  simp [test_eq_getLsbD, union]

@[simp] theorem test_diff (a b : WordSet) (i : Nat) :
    (a.diff b).test i = (a.test i && !b.test i) := by
  have hi : i % 64 < 64 := Nat.mod_lt _ (by decide)
  simp [test_eq_getLsbD, diff, hi]

theorem mem_toList {n : Nat} {b : WordSet} {i : Nat} :
    i ∈ b.toList n ↔ i < 64 * n ∧ b.test i = true := by
  simp [toList]

theorem hasAnyBits_iff {n : Nat} {b : WordSet} :
    b.hasAnyBits n = true ↔ ∃ i, i < 64 * n ∧ b.test i = true := by
  simp only [hasAnyBits, List.any_eq_true, List.mem_range, bne_iff_ne]
  constructor
  · rintro ⟨w, hw, hne⟩
    by_contra hall
    simp only [not_exists, not_and, Bool.not_eq_true] at hall
    apply hne
    apply BitVec.eq_of_getLsbD_eq
    intro k hk
    have hd : (64 * w + k) / 64 = w := by omega
    have hm : (64 * w + k) % 64 = k := by omega
    have := hall (64 * w + k) (by omega)
    rw [test_eq_getLsbD, hd, hm] at this
    simpa using this
  · rintro ⟨i, hi, ht⟩
    refine ⟨i / 64, by omega, fun h0 => ?_⟩
    rw [test_eq_getLsbD, h0] at ht
    simp at ht

end WordSet

end ScaleLockDep
