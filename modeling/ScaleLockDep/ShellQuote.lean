import ScaleLockDep.ShellWords
import Mathlib.Data.Nat.Digits.Defs
import Mathlib.Data.Nat.Digits.Lemmas

/-!
# Quoting the object path of `addr2line`

`lockdep_shell_quote` byte by byte, and the command that `lockdep_addr2line_lookup` runs.

* `quoteFrom_spec`: the copy loop, from any position;
* `shellQuote_spec`: the quoted string, exactly when it fits;
* `addr2lineCommand_spec`: the object path is one word of the command.
-/

namespace ScaleLockDep

namespace ShellQuote

open ShellWords

/-! ## The buffer -/

abbrev Buffer := Nat → UInt8

def addressSpace : Nat := 2 ^ 64

/-- Addition of `size_t`. -/
def sizeAdd (a b : Nat) : Nat := (a + b) % addressSpace

/-- `dst[i] = b`; `none` is a write at or past `dst[size]`. -/
def store (size : Nat) (dst : Buffer) (i : Nat) (b : UInt8) : Option Buffer :=
  if i < size then some (Function.update dst i b) else none

/-- `dst[pos++] = b` for every `b` of a list. -/
def storeAll (size : Nat) : List UInt8 → Buffer → Nat → Option (Buffer × Nat)
  | [], dst, pos => some (dst, pos)
  | b :: bs, dst, pos =>
      (store size dst pos b).bind fun dst' => storeAll size bs dst' (sizeAdd pos 1)

/-- The first `n` bytes. -/
def first (dst : Buffer) (n : Nat) : List UInt8 := (List.range n).map dst

/-- The string in a buffer of `size` bytes. -/
def cString (dst : Buffer) (size : Nat) : List UInt8 := (first dst size).takeWhile (· ≠ 0)

/-! ## The code -/

/-- The loop over `src` and the closing quote; the flag is the return value. -/
def quoteFrom (size : Nat) : List UInt8 → Buffer → Nat → Option (Bool × Buffer)
  | [], dst, pos =>
      if sizeAdd pos 1 ≥ size then some (false, dst)
      else
        (storeAll size [singleQuote] dst pos).bind fun r =>
          (store size r.1 r.2 0).map fun dst' => (true, dst')
  | b :: src, dst, pos =>
      if b = singleQuote then
        if sizeAdd pos 4 ≥ size then some (false, dst)
        else
          (storeAll size [singleQuote, backslash, singleQuote, singleQuote] dst pos).bind fun r =>
            quoteFrom size src r.1 r.2
      else
        if sizeAdd pos 1 ≥ size then some (false, dst)
        else (storeAll size [b] dst pos).bind fun r => quoteFrom size src r.1 r.2

/-- `lockdep_shell_quote`; `src` is the string before its terminating NUL. -/
def shellQuote (size : Nat) (src : List UInt8) (dst : Buffer) : Option (Bool × Buffer) :=
  if size < 3 then some (false, dst)
  else (storeAll size [singleQuote] dst 0).bind fun r => quoteFrom size src r.1 r.2

def bytes (s : String) : List UInt8 := s.toList.map fun c => c.toNat.toUInt8

def hexDigit (d : Nat) : UInt8 := if d < 10 then (48 + d).toUInt8 else (87 + d).toUInt8

/-- `%lx` -/
def formatHex (n : Nat) : List UInt8 :=
  if n = 0 then [hexDigit 0] else (Nat.digits 16 n).reverse.map hexDigit

def pathMax : Nat := 4096
def quotedPathSize : Nat := pathMax * 4
def commandSize : Nat := pathMax * 4 + 128

def commandText (quotedPath : List UInt8) (address : UInt64) : List UInt8 :=
  bytes "addr2line -f -p -e " ++ quotedPath ++ bytes " 0x" ++ formatHex address.toNat ++
    bytes " 2>/dev/null"

/-- `lockdep_addr2line_lookup` up to `popen`: the command, or `none` where it returns 0 before.
`quoted` is what `quoted_path` holds at entry. -/
def addr2lineCommand (objectPath : Option (List UInt8)) (address : UInt64) (quoted : Buffer) :
    Option (Option (List UInt8)) :=
  match objectPath with
  | none => some none
  | some [] => some none
  | some path =>
      (shellQuote quotedPathSize path quoted).map fun r =>
        if r.1 = true then
          let command := commandText (cString r.2 quotedPathSize) address
          if command.length ≥ commandSize then none else some command
        else none

/-! ## Writing -/

theorem first_update (dst : Buffer) (n : Nat) (b : UInt8) :
    first (Function.update dst n b) (n + 1) = first dst n ++ [b] := by
  have hsame : (List.range n).map (Function.update dst n b) = (List.range n).map dst := by
    refine List.map_congr_left fun i hi => ?_
    have hne : i ≠ n := (List.mem_range.1 hi).ne
    exact Function.update_of_ne hne _ _
  rw [first, List.range_succ, List.map_append, hsame]
  simp [first]

theorem first_prefix (dst : Buffer) {n size : Nat} (h : n ≤ size) :
    first dst size = first dst n ++ (List.range' n (size - n)).map dst := by
  have hsplit : List.range size = List.range n ++ List.range' n (size - n) := by
    have happend := List.range'_append_1 (s := 0) (m := n) (n := size - n)
    rw [Nat.zero_add, Nat.add_sub_cancel' h] at happend
    rw [List.range_eq_range', List.range_eq_range', happend]
  rw [first, hsplit, List.map_append]
  rfl

/-- The bytes before the first NUL. -/
theorem cString_eq {dst : Buffer} {size : Nat} {s : List UInt8} (hs : (0 : UInt8) ∉ s)
    (hfit : s.length + 1 ≤ size) (hdst : first dst (s.length + 1) = s ++ [0]) :
    cString dst size = s := by
  have hne : ∀ b ∈ s, decide (b ≠ 0) = true := by
    intro b hb
    simp only [ne_eq, decide_eq_true_eq]
    rintro rfl
    exact hs hb
  rw [cString, first_prefix dst hfit, hdst, List.append_assoc, List.takeWhile_append_of_pos hne]
  simp

theorem storeAll_spec (size : Nat) (bs : List UInt8) (dst : Buffer) (pos : Nat)
    (hfit : pos + bs.length ≤ size) (hsize : pos + bs.length < addressSpace) :
    ∃ dst', storeAll size bs dst pos = some (dst', pos + bs.length) ∧
      first dst' (pos + bs.length) = first dst pos ++ bs ∧
      ∀ i, size ≤ i → dst' i = dst i := by
  induction bs generalizing dst pos with
  | nil => exact ⟨dst, rfl, by simp, fun _ _ => rfl⟩
  | cons b bs ih =>
    rw [List.length_cons] at hfit hsize
    have hpos : pos < size := by omega
    have hadd : sizeAdd pos 1 = pos + 1 := Nat.mod_eq_of_lt (by omega)
    obtain ⟨dst', hall, hfirst, hout⟩ :=
      ih (Function.update dst pos b) (pos + 1) (by omega) (by omega)
    have hlen : pos + (b :: bs).length = pos + 1 + bs.length := by
      rw [List.length_cons]
      omega
    refine ⟨dst', ?_, ?_, ?_⟩
    · rw [storeAll, store, if_pos hpos, Option.bind_some, hadd, hall, hlen]
    · rw [hlen, hfirst, first_update, List.append_assoc, List.singleton_append]
    · intro i hi
      rw [hout i hi]
      exact Function.update_of_ne (by omega) _ _

/-! ## The copy loop -/

/-- Both kinds of bytes: the test of the space, and the escaped byte. -/
theorem quoteFrom_cons (size : Nat) (b : UInt8) (src : List UInt8) (dst : Buffer) (pos : Nat) :
    quoteFrom size (b :: src) dst pos =
      if sizeAdd pos (escape b).length ≥ size then some (false, dst)
      else (storeAll size (escape b) dst pos).bind fun r => quoteFrom size src r.1 r.2 := by
  unfold escape
  rw [quoteFrom]
  split <;> rfl

/-- No sum of the loop wraps around. -/
def NoWrap (size length pos : Nat) : Prop :=
  size + 4 ≤ addressSpace ∨ pos + 4 * (length + 1) < addressSpace

theorem escape_length_pos (b : UInt8) : 1 ≤ (escape b).length ∧ (escape b).length ≤ 4 := by
  rw [length_escape]
  split <;> omega

/-- **The loop from position `pos`**: it stays inside the buffer and succeeds exactly when
the rest, the closing quote and the NUL fit. -/
theorem quoteFrom_spec {size : Nat} (src : List UInt8) (dst : Buffer) (pos : Nat)
    (hpos : pos < size) (hwrap : NoWrap size src.length pos) (hsize : size ≤ addressSpace) :
    ∃ ok dst', quoteFrom size src dst pos = some (ok, dst') ∧
      (∀ i, size ≤ i → dst' i = dst i) ∧
      (ok = true ↔ pos + (src.flatMap escape).length + 2 ≤ size) ∧
      (ok = true → first dst' (pos + (src.flatMap escape).length + 2) =
        first dst pos ++ src.flatMap escape ++ [singleQuote, 0]) := by
  induction src generalizing dst pos with
  | nil =>
    have hadd : sizeAdd pos 1 = pos + 1 := by
      refine Nat.mod_eq_of_lt ?_
      unfold NoWrap at hwrap
      omega
    rw [quoteFrom, hadd]
    by_cases hfull : pos + 1 ≥ size
    · rw [if_pos hfull]
      refine ⟨false, dst, rfl, fun _ _ => rfl, ?_, fun h => by cases h⟩
      simp only [Bool.false_eq_true, List.flatMap_nil, List.length_nil, false_iff]
      omega
    · rw [if_neg hfull]
      obtain ⟨dst', hall, hfirst, hout⟩ :=
        storeAll_spec size [singleQuote] dst pos
          (by simp only [List.length_singleton]; omega)
          (by simp only [List.length_singleton]; omega)
      simp only [List.length_singleton] at hall hfirst
      have hroom : pos + 1 < size := by omega
      refine ⟨true, Function.update dst' (pos + 1) 0, ?_, ?_, ?_, ?_⟩
      · rw [hall, Option.bind_some, store, if_pos hroom]
        rfl
      · intro i hi
        rw [Function.update_of_ne (by omega), hout i hi]
      · simp only [List.flatMap_nil, List.length_nil, true_iff]
        omega
      · intro _
        simp only [List.flatMap_nil, List.length_nil, Nat.add_zero, List.append_nil]
        rw [first_update, hfirst, List.append_assoc]
        rfl
  | cons b src ih =>
    obtain ⟨hone, hfour⟩ := escape_length_pos b
    have hadd : sizeAdd pos (escape b).length = pos + (escape b).length := by
      refine Nat.mod_eq_of_lt ?_
      unfold NoWrap at hwrap
      rw [List.length_cons] at hwrap
      omega
    have hlen : ((b :: src).flatMap escape).length =
        (escape b).length + (src.flatMap escape).length := by
      rw [List.flatMap_cons, List.length_append]
    rw [quoteFrom_cons, hadd]
    by_cases hfull : pos + (escape b).length ≥ size
    · rw [if_pos hfull]
      refine ⟨false, dst, rfl, fun _ _ => rfl, ?_, fun h => by cases h⟩
      simp only [Bool.false_eq_true, hlen, false_iff]
      omega
    · rw [if_neg hfull]
      obtain ⟨mid, hall, hfirst, hout⟩ :=
        storeAll_spec size (escape b) dst pos (by omega) (by omega)
      have hwrap' : NoWrap size src.length (pos + (escape b).length) := by
        unfold NoWrap at hwrap ⊢
        rw [List.length_cons] at hwrap
        omega
      obtain ⟨ok, dst', hrun, hout', hiff, hdone⟩ :=
        ih mid (pos + (escape b).length) (by omega) hwrap'
      refine ⟨ok, dst', ?_, ?_, ?_, ?_⟩
      · rw [hall, Option.bind_some, hrun]
      · intro i hi
        rw [hout' i hi, hout i hi]
      · rw [hiff, hlen, Nat.add_assoc pos]
      · intro hok
        have hbytes := hdone hok
        rw [hfirst, Nat.add_assoc pos, ← hlen] at hbytes
        rw [hbytes, List.flatMap_cons, List.append_assoc (first dst pos)]

/-! ## Quoting a string -/

/-- A string beside a buffer of `size` bytes: both are objects of one address space. -/
structure Source (size : Nat) where
  path : List UInt8
  noNul : (0 : UInt8) ∉ path
  fits : path.length + 1 + size ≤ addressSpace

theorem zero_not_mem_quote {s : List UInt8} (hs : (0 : UInt8) ∉ s) : (0 : UInt8) ∉ quote s := by
  have hescape : ∀ b ∈ s, (0 : UInt8) ∉ escape b := by
    intro b hb hmem
    unfold escape at hmem
    split at hmem
    · revert hmem
      decide
    · rw [List.mem_singleton] at hmem
      exact hs (hmem ▸ hb)
  intro hmem
  simp only [quote, List.cons_append, List.mem_cons, List.mem_append, List.mem_flatMap,
    List.not_mem_nil, or_false] at hmem
  rcases hmem with h | ⟨b, hb, h⟩ | h
  · cases h
  · exact hescape b hb h
  · cases h

/-- **The quoted string, exactly when it fits.** -/
theorem shellQuote_spec {size : Nat} (src : Source size) (dst : Buffer) :
    ∃ ok dst', shellQuote size src.path dst = some (ok, dst') ∧
      (∀ i, size ≤ i → dst' i = dst i) ∧
      (ok = true ↔ (quote src.path).length + 1 ≤ size) ∧
      (ok = true → cString dst' size = quote src.path) := by
  have hlen : (quote src.path).length = (src.path.flatMap escape).length + 2 := by
    simp [quote]
  by_cases hsmall : size < 3
  · rw [shellQuote, if_pos hsmall]
    refine ⟨false, dst, rfl, fun _ _ => rfl, ?_, fun h => by cases h⟩
    simp only [Bool.false_eq_true, false_iff]
    omega
  · have hfits := src.fits
    obtain ⟨mid, hall, hfirst, hout⟩ :=
      storeAll_spec size [singleQuote] dst 0
        (by simp only [List.length_singleton]; omega)
        (by simp only [List.length_singleton]; omega)
    simp only [List.length_singleton, Nat.zero_add] at hall hfirst
    have hwrap : NoWrap size src.path.length 1 := by
      unfold NoWrap
      have : addressSpace = 18446744073709551616 := rfl
      omega
    obtain ⟨ok, dst', hrun, hout', hiff, hdone⟩ :=
      quoteFrom_spec src.path mid 1 (by omega) hwrap (by omega)
    have hbound : 1 + (src.path.flatMap escape).length + 2 = (quote src.path).length + 1 := by
      omega
    rw [hbound] at hiff hdone
    refine ⟨ok, dst', ?_, ?_, hiff, ?_⟩
    · rw [shellQuote, if_neg hsmall, hall, Option.bind_some, hrun]
    · intro i hi
      rw [hout' i hi, hout i hi]
    · intro hok
      refine cString_eq (zero_not_mem_quote src.noNul) (hiff.1 hok) ?_
      rw [hdone hok, hfirst]
      simp [first, quote]

/-! ## The command -/

theorem isOrdinary_hexDigit {d : Nat} (hd : d < 16) : isOrdinary (hexDigit d) = true := by
  interval_cases d <;> rfl

theorem formatHex_ordinary (n : Nat) : ∀ b ∈ formatHex n, isOrdinary b = true := by
  intro b hb
  unfold formatHex at hb
  split at hb
  · rw [List.mem_singleton] at hb
    subst hb
    rfl
  · obtain ⟨d, hd, rfl⟩ := List.mem_map.1 hb
    exact isOrdinary_hexDigit (Nat.digits_lt_base (by decide) (List.mem_reverse.1 hd))

theorem length_formatHex (address : UInt64) : (formatHex address.toNat).length ≤ 16 := by
  unfold formatHex
  split
  · simp
  · rw [List.length_map, List.length_reverse, Nat.digits_length_le_iff (by decide)]
    exact address.toNat_lt

/-- What the shell makes of the command. -/
def commandWords (path : List UInt8) (address : UInt64) : List Token :=
  [.word (bytes "addr2line"), .word (bytes "-f"), .word (bytes "-p"), .word (bytes "-e"),
    .word path, .word (bytes "0x" ++ formatHex address.toNat),
    .word (bytes "2"), .special 62, .word (bytes "/dev/null")]

theorem tokens_commandText (path : List UInt8) (address : UInt64) :
    tokens (commandText (quote path) address) = some (commandWords path address) := by
  have hpre : run (.plain none) (bytes "addr2line -f -p -e ") =
      ([.word (bytes "addr2line"), .word (bytes "-f"), .word (bytes "-p"), .word (bytes "-e")],
        .plain none) := by decide
  have hx : run (.plain none) (bytes "0x") = ([], .plain (some (bytes "0x"))) := by decide
  have hend : ∀ w, run (.plain (some w)) (bytes " 2>/dev/null") =
      ([.word w, .word (bytes "2"), .special 62], .plain (some (bytes "/dev/null"))) := by
    intro w
    rfl
  have hpost : tokens (bytes "0x" ++ formatHex address.toNat ++ bytes " 2>/dev/null") =
      some [.word (bytes "0x" ++ formatHex address.toNat), .word (bytes "2"), .special 62,
        .word (bytes "/dev/null")] := by
    have hrun : run (.plain none)
        (bytes "0x" ++ formatHex address.toNat ++ bytes " 2>/dev/null") =
        ([.word (bytes "0x" ++ formatHex address.toNat), .word (bytes "2"), .special 62],
          .plain (some (bytes "/dev/null"))) := by
      rw [run_append, run_append, hx, run_ordinary _ (formatHex_ordinary _), hend]
      rfl
    rw [tokens_of_run hrun]
    rfl
  have hline : commandText (quote path) address = bytes "addr2line -f -p -e " ++ quote path ++
      32 :: (bytes "0x" ++ formatHex address.toNat ++ bytes " 2>/dev/null") := by
    simp only [commandText, List.append_assoc]
    rfl
  rw [hline, tokens_quote hpre rfl hpost]
  rfl

/-- `command` has room for every quoted path. -/
theorem length_commandText {quotedPath : List UInt8} (address : UInt64)
    (h : quotedPath.length + 1 ≤ quotedPathSize) :
    (commandText quotedPath address).length < commandSize := by
  have hhex := length_formatHex address
  have hpre : (bytes "addr2line -f -p -e ").length = 19 := rfl
  have hx : (bytes " 0x").length = 3 := rfl
  have hend : (bytes " 2>/dev/null").length = 12 := rfl
  simp only [commandText, List.length_append, hpre, hx, hend]
  unfold quotedPathSize at h
  unfold commandSize
  omega

theorem addr2lineCommand_spec (src : Source quotedPathSize) (address : UInt64)
    (quoted : Buffer) : addr2lineCommand (some src.path) address quoted =
      some (if src.path ≠ [] ∧ (quote src.path).length + 1 ≤ quotedPathSize then
        some (commandText (quote src.path) address) else none) := by
  obtain ⟨ok, dst', hrun, -, hiff, hdone⟩ := shellQuote_spec src quoted
  cases hpath : src.path with
  | nil => simp [addr2lineCommand]
  | cons b bs =>
    rw [hpath] at hrun hiff hdone
    rw [addr2lineCommand, hrun, Option.map_some]
    · cases hok : ok with
      | false =>
        rw [hok] at hiff
        have hfull : ¬(quote (b :: bs)).length + 1 ≤ quotedPathSize := by simpa using hiff
        simp [hfull]
      | true =>
        rw [hok] at hiff hdone
        have hfit : (quote (b :: bs)).length + 1 ≤ quotedPathSize := hiff.1 rfl
        have hroom := length_commandText address hfit
        have hlong : ¬(commandText (quote (b :: bs)) address).length ≥ commandSize := by omega
        simp only [hdone rfl]
        rw [if_pos trivial, if_neg hlong, if_pos ⟨by simp, hfit⟩]
    · intro h
      cases h

/-- **Quoting round-trips and cannot inject**: it stays inside the buffer, succeeds exactly
when the quoted string and its NUL fit, and the shell reads back one word; in the command
of `addr2line` that word stands between the same words for every path. -/
theorem shellQuote_round_trips (size : Nat) (src : Source size) (dst : Buffer) :
    (∃ ok dst', shellQuote size src.path dst = some (ok, dst') ∧
      (∀ i, size ≤ i → dst' i = dst i) ∧
      (ok = true ↔ 2 + (src.path.map fun b => if b = singleQuote then 4 else 1).sum + 1 ≤ size) ∧
      (ok = true → cString dst' size = quote src.path ∧
        tokens (cString dst' size) = some [.word src.path])) ∧
    ∀ (object : Source quotedPathSize) (address : UInt64) (quoted : Buffer),
      ∃ command, addr2lineCommand (some object.path) address quoted = some command ∧
        (command ≠ none ↔ object.path ≠ [] ∧
          2 + (object.path.map fun b => if b = singleQuote then 4 else 1).sum + 1 ≤
            quotedPathSize) ∧
        ∀ text ∈ command, tokens text = some (commandWords object.path address) := by
  refine ⟨?_, ?_⟩
  · obtain ⟨ok, dst', hrun, hout, hiff, hdone⟩ := shellQuote_spec src dst
    rw [length_quote] at hiff
    refine ⟨ok, dst', hrun, hout, hiff, fun hok => ⟨hdone hok, ?_⟩⟩
    rw [hdone hok, tokens_quote_alone]
  · intro object address quoted
    rw [addr2lineCommand_spec, length_quote]
    refine ⟨_, rfl, by simp, ?_⟩
    intro text htext
    rw [Option.mem_def, Option.ite_none_right_eq_some] at htext
    obtain ⟨-, htext⟩ := htext
    rw [← Option.some.inj htext, tokens_commandText]

/-- The path `a;'`; quoted it takes eight bytes. -/
def awkward (size : Nat) (h : size ≤ quotedPathSize) : Source size where
  path := bytes "a;'"
  noNul := by decide
  fits := by
    have hspace : (bytes "a;'").length + 1 + quotedPathSize ≤ addressSpace := by decide
    omega

/-- Nine bytes hold it with its NUL, eight do not, and the command runs with it. -/
theorem shellQuote_round_trips_awkward :
    (∃ dst', shellQuote 9 (bytes "a;'") (fun _ => 255) = some (true, dst') ∧
      cString dst' 9 = bytes "'a;'\\'''" ∧ tokens (cString dst' 9) = some [.word (bytes "a;'")]) ∧
    (∃ dst', shellQuote 8 (bytes "a;'") (fun _ => 255) = some (false, dst') ∧ dst' 8 = 255) ∧
    ∃ text, addr2lineCommand (some (bytes "a;'")) 4096 (fun _ => 255) = some (some text) ∧
      tokens text = some (commandWords (bytes "a;'") 4096) := by
  obtain ⟨⟨ok, dst', hrun, -, hiff, hdone⟩, hcommand⟩ :=
    shellQuote_round_trips 9 (awkward 9 (by decide)) fun _ => 255
  obtain ⟨⟨ok', short, hrun', hout, hiff', -⟩, -⟩ :=
    shellQuote_round_trips 8 (awkward 8 (by decide)) fun _ => 255
  obtain ⟨command, hrun'', hsome, htokens⟩ := hcommand (awkward _ (Nat.le_refl _)) 4096 fun _ => 255
  have hfits : ok = true := hiff.mpr (by decide)
  have hlong : ok' = false := Bool.eq_false_iff.mpr fun h => absurd (hiff'.mp h) (by decide)
  subst hfits hlong
  refine ⟨⟨dst', hrun, (hdone rfl).1.trans (by decide), (hdone rfl).2⟩,
    ⟨short, hrun', hout 8 (Nat.le_refl 8)⟩, ?_⟩
  obtain ⟨text, rfl⟩ := Option.ne_none_iff_exists'.mp (hsome.mpr ⟨by decide, by decide⟩)
  exact ⟨text, hrun'', htokens text rfl⟩

end ShellQuote

end ScaleLockDep
