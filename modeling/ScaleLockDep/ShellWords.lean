import Mathlib.Algebra.GroupWithZero.Nat
import Mathlib.Data.List.Basic

/-!
# The words of a shell command line

A command line as the shell reads single quotes and backslashes: between single quotes every
byte stands for itself, and outside them a backslash quotes the byte after it.  All other
bytes with a meaning to the shell become tokens of their own, so a line that lexes to words
only holds no operator, expansion, pattern, comment or assignment.

* `run_append`: lexing a line piece by piece;
* `run_quote`: a string in single quotes is lexed to itself, wherever it stands;
* `tokens_quote`: between two blanks it is one word, and the rest of the line is what it
  was.
-/

namespace ScaleLockDep.ShellWords

def singleQuote : UInt8 := 39
def backslash : UInt8 := 92
def newline : UInt8 := 10

def isBlank (b : UInt8) : Bool := b = 32 || b = 9

/-- Newline and `"#$%&()*;<=>?[` with backquote, bar and tilde. -/
def specials : List UInt8 :=
  [10, 34, 35, 36, 37, 38, 40, 41, 42, 59, 60, 61, 62, 63, 91, 96, 124, 126]

def isOrdinary (b : UInt8) : Bool :=
  b ≠ singleQuote && b ≠ backslash && !isBlank b && b ∉ specials

inductive Token
  | word (value : List UInt8)
  /-- outside quotes, and special to the shell -/
  | special (b : UInt8)
  deriving DecidableEq, Repr

/-- What the lexer is in; `none` is between two words. -/
inductive Mode
  | plain (w : Option (List UInt8))
  | quoted (w : List UInt8)
  | escaped (w : Option (List UInt8))
  deriving DecidableEq, Repr

/-- The word that ends here. -/
def ended : Option (List UInt8) → List Token
  | none => []
  | some w => [.word w]

def step : Mode → UInt8 → List Token × Mode
  | .plain w, b =>
      if b = singleQuote then ([], .quoted (w.getD []))
      else if b = backslash then ([], .escaped w)
      else if isBlank b then (ended w, .plain none)
      else if b ∈ specials then (ended w ++ [.special b], .plain none)
      else ([], .plain (some (w.getD [] ++ [b])))
  | .quoted w, b =>
      if b = singleQuote then ([], .plain (some w)) else ([], .quoted (w ++ [b]))
  | .escaped w, b =>
      -- a backslash before a newline continues the line
      if b = newline then ([], .plain w) else ([], .plain (some (w.getD [] ++ [b])))

def run : Mode → List UInt8 → List Token × Mode
  | m, [] => ([], m)
  | m, b :: bs => ((step m b).1 ++ (run (step m b).2 bs).1, (run (step m b).2 bs).2)

/-- The tokens of a whole line; `none` when it ends inside quotes. -/
def tokens (line : List UInt8) : Option (List Token) :=
  match run (.plain none) line with
  | (ts, .plain w) => some (ts ++ ended w)
  | (_, .quoted _) | (_, .escaped _) => none

theorem run_append (m : Mode) (xs ys : List UInt8) : run m (xs ++ ys) =
    ((run m xs).1 ++ (run (run m xs).2 ys).1, (run (run m xs).2 ys).2) := by
  induction xs generalizing m with
  | nil => rfl
  | cons x xs ih => simp only [List.cons_append, run, ih, List.append_assoc]

theorem tokens_of_run {line : List UInt8} {ts : List Token} {w : Option (List UInt8)}
    (h : run (.plain none) line = (ts, .plain w)) : tokens line = some (ts ++ ended w) := by
  rw [tokens, h]

/-- A line that lexes ends outside quotes. -/
theorem run_of_tokens {line : List UInt8} {ts : List Token} (h : tokens line = some ts) :
    ∃ us w, run (.plain none) line = (us, .plain w) ∧ ts = us ++ ended w := by
  rw [tokens] at h
  split at h
  · rename_i us w hr
    exact ⟨us, w, hr, (Option.some.inj h).symm⟩
  all_goals cases h

/-- Ordinary bytes stand for themselves. -/
theorem run_ordinary (w : List UInt8) {s : List UInt8} (hs : ∀ b ∈ s, isOrdinary b = true) :
    run (.plain (some w)) s = ([], .plain (some (w ++ s))) := by
  induction s generalizing w with
  | nil => simp [run]
  | cons b s ih =>
    have hb : step (.plain (some w)) b = ([], .plain (some (w ++ [b]))) := by
      have h := hs b List.mem_cons_self
      simp only [isOrdinary, Bool.and_eq_true, decide_eq_true_eq, Bool.not_eq_true',
        ne_eq] at h
      obtain ⟨⟨⟨hq, he⟩, hbl⟩, hsp⟩ := h
      simp [step, hq, he, hbl, hsp]
    rw [run, hb, ih _ fun c hc => hs c (List.mem_cons_of_mem _ hc), List.append_assoc]
    rfl

/-! ## Quoting -/

/-- Between single quotes; a single quote is written as a quote that closes them, an escaped
quote and a quote that opens them again. -/
def escape (b : UInt8) : List UInt8 :=
  if b = singleQuote then [singleQuote, backslash, singleQuote, singleQuote] else [b]

def quote (s : List UInt8) : List UInt8 := singleQuote :: s.flatMap escape ++ [singleQuote]

theorem length_escape (b : UInt8) : (escape b).length = if b = singleQuote then 4 else 1 := by
  unfold escape
  split <;> rfl

theorem length_quote (s : List UInt8) :
    (quote s).length = 2 + (s.map fun b => if b = singleQuote then 4 else 1).sum := by
  have hbody : (s.flatMap escape).length =
      (s.map fun b => if b = singleQuote then 4 else 1).sum := by
    have hmap : s.map (fun b => (escape b).length) =
        s.map fun b => if b = singleQuote then 4 else 1 :=
      List.map_congr_left fun b _ => length_escape b
    rw [List.length_flatMap, hmap]
  simp only [quote, List.cons_append, List.length_cons, List.length_append, List.length_nil, hbody]
  omega

/-- One byte of the string. -/
theorem run_escape (w : List UInt8) (b : UInt8) :
    run (.quoted w) (escape b) = ([], .quoted (w ++ [b])) := by
  unfold escape
  split
  · rename_i hb
    subst hb
    rfl
  · rename_i hb
    simp [run, step, hb]

theorem run_flatMap_escape (w s : List UInt8) :
    run (.quoted w) (s.flatMap escape) = ([], .quoted (w ++ s)) := by
  induction s generalizing w with
  | nil => simp [run]
  | cons b s ih =>
    rw [List.flatMap_cons, run_append, run_escape, ih]
    simp

/-- **Quoting is undone by the lexer.** -/
theorem run_quote (w : Option (List UInt8)) (s : List UInt8) :
    run (.plain w) (quote s) = ([], .plain (some (w.getD [] ++ s))) := by
  have hopen : step (.plain w) singleQuote = ([], .quoted (w.getD [])) := rfl
  rw [quote, List.cons_append, run, hopen, run_append, run_flatMap_escape]
  rfl

theorem tokens_quote_alone (s : List UInt8) : tokens (quote s) = some [.word s] :=
  tokens_of_run (run_quote none s)

/-- **A quoted string between two blanks is one word.** -/
theorem tokens_quote {pre post s : List UInt8} {b : UInt8} {ts us : List Token}
    (hpre : run (.plain none) pre = (ts, .plain none)) (hb : isBlank b = true)
    (hpost : tokens post = some us) :
    tokens (pre ++ quote s ++ b :: post) = some (ts ++ .word s :: us) := by
  have hblank : step (.plain (some s)) b = ([.word s], .plain none) := by
    have hq : b ≠ singleQuote := by
      rintro rfl
      cases hb
    have hs : b ≠ backslash := by
      rintro rfl
      cases hb
    simp [step, hq, hs, hb, ended]
  obtain ⟨vs, w, hrun, rfl⟩ := run_of_tokens hpost
  have hline : run (.plain none) (pre ++ quote s ++ b :: post) =
      (ts ++ .word s :: vs, .plain w) := by
    rw [run_append, run_append, hpre, run_quote]
    simp only [Option.getD_none, List.nil_append, List.append_nil, run, hblank, hrun,
      List.singleton_append]
  rw [tokens_of_run hline, List.append_assoc]
  rfl

end ScaleLockDep.ShellWords
