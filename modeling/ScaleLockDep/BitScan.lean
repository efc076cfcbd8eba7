import ScaleLockDep.WordSet
import Mathlib.Data.Nat.Bitwise

/-!
# Loops over the set bits of a word

The loop `while (bits != 0) { bit = ctz(bits); ..; bits &= bits - 1; }`, and the loop over the
words of a word set around it.

* `getLsbD_clearLowest`: `bits &= bits - 1` clears the lowest set bit;
* `scanBits_eq`, `scanWords_eq`: the loops visit the set bits, lowest first.
-/

namespace ScaleLockDep

namespace BitScan

variable {w : Nat} {β : Type}

def clearLowest (x : BitVec w) : BitVec w := x &&& (x - 1#w)

/-! ## The lowest set bit -/

theorem testBit_pred {q j : Nat} (hq : q.testBit 0 = true) :
    (q - 1).testBit j = (q.testBit j && decide (j ≠ 0)) := by
  have hodd : q % 2 = 1 := by simpa using hq
  cases j with
  | zero =>
    have : (q - 1) % 2 = 0 := by omega
    simp [this]
  | succ j =>
    have hdiv : (q - 1) / 2 = q / 2 := by omega
    rw [Nat.testBit_succ, Nat.testBit_succ, hdiv]
    simp

/-- A number with no bit below `k` is a multiple of `2 ^ k`. -/
theorem eq_two_pow_mul {x k : Nat} (h : ∀ i, i < k → x.testBit i = false) :
    x = 2 ^ k * (x >>> k) := by
  have hmod : x % 2 ^ k = 0 := by
    apply Nat.eq_of_testBit_eq
    intro i
    rw [Nat.testBit_mod_two_pow, Nat.zero_testBit]
    by_cases hi : i < k
    · rw [h i hi, Bool.and_false]
    · simp [hi]
  rw [Nat.shiftRight_eq_div_pow]
  exact (Nat.mul_div_cancel' (Nat.dvd_of_mod_eq_zero hmod)).symm

/-- Taking one away turns the lowest set bit off and those below it on. -/
theorem testBit_sub_one {x k i : Nat} (hlow : ∀ j, j < k → x.testBit j = false)
    (hbit : x.testBit k = true) :
    (x - 1).testBit i = if i < k then true else (x.testBit i && decide (i ≠ k)) := by
  have hq : (x >>> k).testBit 0 = true := by
    rw [Nat.testBit_shiftRight]
    exact hbit
  have hpos : 0 < x >>> k := by
    rw [Nat.pos_iff_ne_zero]
    intro h0
    rw [h0] at hq
    simp at hq
  have hsplit : x - 1 = 2 ^ k * (x >>> k - 1) + (2 ^ k - 1) := by
    have hmul : 2 ^ k * (x >>> k) = 2 ^ k * (x >>> k - 1) + 2 ^ k := by
      rw [← Nat.mul_succ, Nat.succ_eq_add_one, Nat.sub_add_cancel hpos]
    have htwo := Nat.two_pow_pos k
    rw [← eq_two_pow_mul hlow] at hmul
    omega
  rw [hsplit, Nat.testBit_two_pow_mul_add _ (Nat.sub_lt (Nat.two_pow_pos k) Nat.one_pos)]
  split
  · rename_i hi
    rw [Nat.testBit_two_pow_sub_one]
    exact decide_eq_true hi
  · rename_i hi
    have hik : k + (i - k) = i := by omega
    have hne : i - k ≠ 0 ↔ i ≠ k := by omega
    rw [testBit_pred hq, Nat.testBit_shiftRight, hik, decide_eq_decide.mpr hne]

/-- **`bits &= bits - 1` clears the lowest set bit.** -/
theorem getLsbD_clearLowest {x : BitVec w} (hx : x ≠ 0#w) (i : Nat) :
    (clearLowest x).getLsbD i = (x.getLsbD i && decide (i ≠ x.ctz.toNat)) := by
  have hlow : ∀ j, j < x.ctz.toNat → x.toNat.testBit j = false := fun j hj =>
    BitVec.getLsbD_false_of_lt_ctz hj
  have hbit : x.toNat.testBit x.ctz.toNat = true := BitVec.getLsbD_true_ctz_of_ne_zero hx
  have hw : 0 < w := by
    apply Nat.pos_of_ne_zero
    rintro rfl
    exact hx (Subsingleton.elim _ _)
  have hpos : 0 < x.toNat := by
    rw [Nat.pos_iff_ne_zero]
    intro h0
    exact hx (BitVec.eq_of_toNat_eq (by simpa using h0))
  have hsub : (x - 1#w).toNat = x.toNat - 1 := by
    have hle : 1#w ≤ x := by
      rw [BitVec.le_def, BitVec.toNat_one hw]
      exact hpos
    rw [BitVec.toNat_sub_of_le hle, BitVec.toNat_one hw]
  have hpred : (x - 1#w).getLsbD i =
      if i < x.ctz.toNat then true else (x.getLsbD i && decide (i ≠ x.ctz.toNat)) := by
    rw [BitVec.getLsbD, hsub]
    exact testBit_sub_one hlow hbit
  rw [clearLowest, BitVec.getLsbD_and, hpred]
  split
  · rename_i hi
    have hoff : x.getLsbD i = false := hlow i hi
    rw [hoff]
    rfl
  · rw [← Bool.and_assoc, Bool.and_self]

theorem clearLowest_lt {x : BitVec w} (hx : x ≠ 0#w) : (clearLowest x).toNat < x.toNat := by
  have hle : (clearLowest x).toNat ≤ x.toNat := by
    unfold clearLowest
    rw [BitVec.toNat_and]
    exact Nat.and_le_left
  refine Nat.lt_of_le_of_ne hle fun he => ?_
  -- the lowest set bit is gone
  have hlost := getLsbD_clearLowest hx x.ctz.toNat
  rw [BitVec.eq_of_toNat_eq he, BitVec.getLsbD_true_ctz_of_ne_zero hx] at hlost
  simp at hlost

/-! ## The loop -/

/-- `while (bits != 0) { f(ctz(bits)); bits &= bits - 1; }` -/
def scanBits (f : β → Nat → β) (bits : BitVec w) (b : β) : β :=
  if bits = 0#w then b else scanBits f (clearLowest bits) (f b bits.ctz.toNat)
termination_by bits.toNat
decreasing_by exact clearLowest_lt ‹_›

/-- The set bits, lowest first. -/
def bitsOf (x : BitVec w) : List Nat := (List.range w).filter x.getLsbD

theorem bitsOf_zero : bitsOf (0#w) = [] := by
  simp [bitsOf]

/-- The lowest set bit comes first. -/
theorem bitsOf_cons {x : BitVec w} (hx : x ≠ 0#w) :
    bitsOf x = x.ctz.toNat :: bitsOf (clearLowest x) := by
  have hlt : x.ctz.toNat < w := by
    by_contra hge
    have hon := BitVec.getLsbD_true_ctz_of_ne_zero hx
    rw [BitVec.getLsbD_of_ge _ _ (Nat.le_of_not_lt hge)] at hon
    cases hon
  obtain ⟨d, hd⟩ : ∃ d, w = x.ctz.toNat + (d + 1) := ⟨w - x.ctz.toNat - 1, by omega⟩
  have hrange : List.range w = List.range x.ctz.toNat ++
      x.ctz.toNat :: (List.range d).map fun j => x.ctz.toNat + (j + 1) := by
    conv_lhs => rw [hd]
    rw [List.range_add, List.range_succ_eq_map, List.map_cons, List.map_map]
    rfl
  have hbelow : (List.range x.ctz.toNat).filter x.getLsbD = [] := by
    rw [List.filter_eq_nil_iff]
    intro j hj
    rw [BitVec.getLsbD_false_of_lt_ctz (List.mem_range.mp hj)]
    simp
  have hbelow' : (List.range x.ctz.toNat).filter (clearLowest x).getLsbD = [] := by
    rw [List.filter_eq_nil_iff]
    intro j hj
    rw [getLsbD_clearLowest hx, BitVec.getLsbD_false_of_lt_ctz (List.mem_range.mp hj)]
    simp
  have habove : ((List.range d).map fun j => x.ctz.toNat + (j + 1)).filter x.getLsbD =
      ((List.range d).map fun j => x.ctz.toNat + (j + 1)).filter (clearLowest x).getLsbD := by
    refine List.filter_congr fun i hi => ?_
    obtain ⟨j, -, rfl⟩ := List.mem_map.mp hi
    rw [getLsbD_clearLowest hx, decide_eq_true (by omega), Bool.and_true]
  have hat : (clearLowest x).getLsbD x.ctz.toNat = false := by
    rw [getLsbD_clearLowest hx]
    simp
  unfold bitsOf
  rw [hrange, List.filter_append, List.filter_append, hbelow, hbelow', List.filter_cons_of_pos
    (BitVec.getLsbD_true_ctz_of_ne_zero hx), List.filter_cons_of_neg (by simp [hat]), habove]
  rfl

/-- **The loop visits the set bits**, lowest first. -/
theorem scanBits_eq (f : β → Nat → β) (bits : BitVec w) (b : β) :
    scanBits f bits b = (bitsOf bits).foldl f b := by
  fun_induction scanBits f bits b with
  | case1 b =>
    rw [bitsOf_zero]
    rfl
  | case2 bits b h ih => rw [ih, bitsOf_cons h, List.foldl_cons]

/-! ## Word by word -/

/-- The loop over the first `n` words: `word i b` are the bits to scan of word `i`, loaded when
the loop comes to it. -/
def scanWords (word : Nat → β → BitVec 64) (f : β → Nat → β) (n : Nat) (b : β) : β :=
  (List.range n).foldl (fun b i => scanBits (fun b k => f b (i * 64 + k)) (word i b) b) b

theorem toList_succ (n : Nat) (b : WordSet) :
    b.toList (n + 1) = b.toList n ++ (bitsOf (b n)).map fun k => n * 64 + k := by
  have hmul : 64 * (n + 1) = 64 * n + 64 := by omega
  have hmap : ∀ k, k < 64 → b.test (64 * n + k) = (b n).getLsbD k := by
    intro k hk
    rw [WordSet.test_eq_getLsbD]
    congr 1
    · congr 1
      omega
    · omega
  unfold WordSet.toList bitsOf
  rw [hmul, List.range_add, List.filter_append, List.filter_map, Nat.mul_comm 64 n]
  congr 2
  refine List.filter_congr fun k hk => ?_
  rw [Function.comp_apply, ← Nat.mul_comm 64 n]
  exact hmap k (List.mem_range.mp hk)

/-- **The loop over the words visits the set**, when the scan leaves the words that are still to
come alone. -/
theorem scanWords_eq {word : Nat → β → BitVec 64} {f : β → Nat → β} {b₀ : β}
    (I : Nat → β → Prop) (s : WordSet) (h₀ : I 0 b₀) (hword : ∀ i b, I i b → word i b = s i)
    (hstep : ∀ i b, I i b → I (i + 1) ((bitsOf (s i)).foldl (fun b k => f b (i * 64 + k)) b))
    (n : Nat) : scanWords word f n b₀ = (s.toList n).foldl f b₀ := by
  have hmain : scanWords word f n b₀ = (s.toList n).foldl f b₀ ∧ I n (scanWords word f n b₀) := by
    induction n with
    | zero => exact ⟨rfl, h₀⟩
    | succ n ih =>
      obtain ⟨he, hI⟩ := ih
      have hnext : scanWords word f (n + 1) b₀ =
          (bitsOf (s n)).foldl (fun b k => f b (n * 64 + k)) (scanWords word f n b₀) := by
        rw [← hword n _ hI, ← scanBits_eq]
        simp [scanWords, List.range_succ]
      rw [hnext]
      refine ⟨?_, hstep n _ hI⟩
      rw [toList_succ, List.foldl_append, List.foldl_map, he]
  exact hmain.1

end BitScan

end ScaleLockDep
