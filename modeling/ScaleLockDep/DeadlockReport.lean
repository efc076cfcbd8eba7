import ScaleLockDep.HookInvariants

/-!
# The report of an actual deadlock

What `lockdep_report_actual_deadlock` prints, for every chain that
`lockdep_collect_actual_deadlock_chain` can find.

* `FoundChain`: a chain of the walk, whatever it has loaded; `reported_found`: the hooks
  report such chains only;
* `lines_report_sites`, `lines_report_plain`: the lines printed with and without
  `LOCKDEP_REPORT_SITES`;
* `determines_iff`: the report determines the chain exactly when call sites are printed.
-/

namespace ScaleLockDep

namespace DeadlockReport

open Hooks Hooks.State
open Runs (ReachableBy)

/-! ## Chains found by the walk -/

/-- The walk of `selfSlot` towards `target` comes to `w` at the head of its loop. -/
inductive Walking (selfSlot target : Nat) : Walk → Prop
  | start : Walking selfSlot target (Walk.start selfSlot target)
  | next {w w' w'' : Walk} {owner waiting : Option Nat} (h : Walking selfSlot target w)
      (ho : w.onOwner selfSlot owner = .more w') (hw : w'.onWaiting waiting = .more w'') :
      Walking selfSlot target w''

/-- The walk returns 1 with `w`. -/
def Found (selfSlot target : Nat) (w : Walk) : Prop :=
  ∃ w₀ owner, Walking selfSlot target w₀ ∧ w₀.onOwner selfSlot owner = .closed w

structure FoundChain where
  selfSlot : Nat
  target : Nat
  walk : Walk
  found : Found selfSlot target walk

theorem onOwner_chains {selfSlot : Nat} {w w' : Walk} {owner : Option Nat}
    (h : w.onOwner selfSlot owner = .more w' ∨ w.onOwner selfSlot owner = .closed w') :
    ∃ u, w'.threadChain = w.threadChain ++ [u] ∧
      w'.lockChain = w.lockChain ++ [w.currentLockSlot] := by
  cases owner with
  | none => rcases h with h | h <;> cases h
  | some u =>
    simp only [Walk.onOwner] at h
    refine ⟨u, ?_⟩
    split at h
    all_goals
      rcases h with h | h
      all_goals
        cases h
        try exact ⟨rfl, rfl⟩

theorem onWaiting_chains {w w' : Walk} {waiting : Option Nat} (h : w.onWaiting waiting = .more w') :
    w'.threadChain = w.threadChain ∧ w'.lockChain = w.lockChain := by
  cases waiting with
  | none => cases h
  | some l =>
    simp only [Walk.onWaiting] at h
    split at h
    · cases h
      exact ⟨rfl, rfl⟩
    · cases h

/-- One more thread than locks. -/
theorem Walking.length {selfSlot target : Nat} {w : Walk} (h : Walking selfSlot target w) :
    w.threadChain.length = w.lockChain.length + 1 := by
  induction h with
  | start => rfl
  | next _ ho hw ih =>
    obtain ⟨u, ht, hl⟩ := onOwner_chains (Or.inl ho)
    obtain ⟨ht', hl'⟩ := onWaiting_chains hw
    rw [ht', hl', ht, hl, List.length_append, List.length_append, ih]
    rfl

theorem FoundChain.edges (c : FoundChain) : 1 ≤ c.walk.lockChain.length ∧
    c.walk.threadChain.length = c.walk.lockChain.length + 1 := by
  obtain ⟨w₀, owner, hwalk, hclosed⟩ := c.found
  obtain ⟨u, ht, hl⟩ := onOwner_chains (Or.inr hclosed)
  rw [ht, hl, List.length_append, List.length_append, hwalk.length]
  simp

/-! ## The chains of the hooks -/

/-- Where the walk of thread `t` is. -/
def WalkOk (t : Nat) : Pc → Prop
  | .loadOwner m w => Walking t m w
  | .loadWaiting m w => ∃ w₀ owner, Walking t m w₀ ∧ w₀.onOwner t owner = .more w
  | .reported m w => Found t m w
  | _ => True

theorem walkOk_onOwner {t m : Nat} {w : Walk} {owner : Option Nat} (h : Walking t m w) :
    WalkOk t (afterWalk m .loadWaiting (w.onOwner t owner)) := by
  cases hx : w.onOwner t owner with
  | done => trivial
  | closed w' => exact ⟨w, owner, h, hx⟩
  | more w' => exact ⟨w, owner, h, hx⟩

theorem onWaiting_ne_closed {w w' : Walk} {waiting : Option Nat} :
    w.onWaiting waiting ≠ .closed w' := by
  intro h
  cases waiting with
  | none => cases h
  | some l =>
    simp only [Walk.onWaiting] at h
    split at h <;> cases h

theorem walkOk_onWaiting {t m : Nat} {w : Walk} {waiting : Option Nat}
    (h : WalkOk t (.loadWaiting m w)) :
    WalkOk t (afterWalk m .loadOwner (w.onWaiting waiting)) := by
  obtain ⟨w₀, owner, hwalk, ho⟩ := h
  cases hx : w.onWaiting waiting with
  | done => trivial
  | closed w' => exact absurd hx onWaiting_ne_closed
  | more w' => exact .next hwalk ho hx

/-- The walk is where its step leads. -/
theorem walkOk_step {c : Setup} {s s' : State} {t : Nat} {mv : Move} (h : Step c s t mv s')
    (I : WalkOk t (s.thr t).pc) : WalkOk t (s'.thr t).pc := by
  cases h with
  | call pc _ hpc =>
    rw [setPc_pc, if_pos rfl]
    rcases hpc with ⟨m, -, rfl, -⟩ | ⟨m, -, rfl, -⟩ | ⟨m, -, rfl⟩ | ⟨m, -, rfl, -⟩ <;> trivial
  | granted m pc _ hpc =>
    rw [setPc_pc, if_pos rfl]
    rcases hpc with ⟨-, rfl⟩ | ⟨-, rfl⟩ | ⟨-, rfl⟩ | ⟨-, -, rfl⟩ | ⟨-, -, rfl⟩ <;> trivial
  | busy m _ pc hpc =>
    rw [setPc_pc, if_pos rfl]
    rcases hpc with ⟨-, rfl⟩ | ⟨-, rfl⟩ <;> trivial
  | fail m pc hpc =>
    rw [setPc_pc, if_pos rfl]
    rcases hpc with ⟨-, rfl⟩ | ⟨-, rfl⟩ | ⟨-, rfl⟩ | ⟨-, rfl⟩ | ⟨-, rfl⟩ <;> trivial
  | publish m h =>
    rw [setPc_pc, if_pos rfl]
    exact .start
  | loadOwner m w h hmv =>
    rw [h] at I
    rw [setPc_pc, if_pos rfl]
    exact walkOk_onOwner I
  | loadWaiting m w h =>
    rw [h] at I
    rw [setPc_pc, if_pos rfl]
    exact walkOk_onWaiting I
  | exit code h => exact I
  | push m clear ts h hts =>
    rw [setThread_pc, if_pos rfl]
    cases clear <;> trivial
  | topAcquired m h => rw [setThread_pc, if_pos rfl]; trivial
  | released m h => rw [setThread_pc, if_pos rfl]; trivial
  | ends h => rw [setThread_pc, if_pos rfl]; trivial
  | flush w ws h => exact I
  | _ => rw [setPc_pc, if_pos rfl]; trivial

theorem walkOk {c : Setup} {G : State → Act → Prop} {s : State}
    (hr : ReachableBy (system c) G s) (u : Nat) : WalkOk u (s.thr u).pc := by
  have hinit : WalkOk u (initial.thr u).pc := trivial
  refine hr.invariant (P := fun s => WalkOk u (s.thr u).pc) hinit ?_
  intro s s' a _ I _ hs
  have hstep := (step_cases hs).2.2
  by_cases hu : u = a.tid
  · subst hu
    exact walkOk_step hstep I
  · rw [step_thr_other hstep hu]
    exact I

/-- **The hooks report chains found by the walk.** -/
theorem reported_found {c : Setup} {G : State → Act → Prop} {s : State}
    (hr : ReachableBy (system c) G s) {t m : Nat} {w : Walk}
    (h : (s.thr t).pc = .reported m w) : Found t m w := by
  have hok := walkOk hr t
  rw [h] at hok
  exact hok

/-! ## Printing -/

/-- What goes to standard error; a slot stands with its address or thread id. -/
inductive Piece
  | text (s : String)
  | newline
  | lockSlot (slot addr : Nat)
  | threadSlot (slot : Nat) (tid : Int)
  | callsite (s : String)
  deriving DecidableEq, Repr

abbrev Output := List Piece

/-- What the report reads of the tables. -/
structure Tables where
  lockSlotCount : Nat
  threadSlotCount : Nat
  addr : Nat → Nat
  tid : Nat → Int
  waitingOnPc : Nat → Nat
  ownerAcquirePc : Nat → Nat

/-- The other threads go on during the report: the tables when this much is printed. -/
abbrev View := Output → Tables

abbrev Printer := Output → Output

def dprintf (p : Piece) : Printer := fun out => out ++ [p]

def sequence (ps : List Printer) : Printer := fun out => ps.foldl (fun out p => p out) out

/-- A text that ends in a newline. -/
def printLine (s : String) : Printer := sequence [dprintf (.text s), dprintf .newline]

section Report
variable (view : View) (formatCallsite : Nat → String)

def printLockSlot (lockSlot : Nat) : Printer := fun out =>
  let addr := if lockSlot < (view out).lockSlotCount then (view out).addr lockSlot else 0
  dprintf (.lockSlot lockSlot addr) out

def printThreadSlot (threadSlot : Nat) : Printer := fun out =>
  let tid := if threadSlot < (view out).threadSlotCount then (view out).tid threadSlot else -1
  dprintf (.threadSlot threadSlot tid) out

def printThreadCallsite (label : String) (threadSlot pc : Nat) : Printer :=
  sequence [dprintf (.text label), printThreadSlot view threadSlot,
    dprintf (.text " at "), dprintf (.callsite (formatCallsite pc)), dprintf .newline]

def separator : String := "[LOCKDEP] ========================================"

/-- Iteration `i` of the first loop. -/
def printChainEdge (w : Walk) (i : Nat) : Printer :=
  sequence [dprintf (.text " -> "), printLockSlot view (w.lockChain.getD i 0),
    dprintf (.text " -> "), printThreadSlot view (w.threadChain.getD (i + 1) 0)]

/-- Iteration `i` of the second loop. -/
def printWait (w : Walk) (i : Nat) : Printer := fun out =>
  let threadSlot := w.threadChain.getD i 0
  let lockSlot := w.lockChain.getD i 0
  let waitingPc :=
    if threadSlot < (view out).threadSlotCount then (view out).waitingOnPc threadSlot else 0
  let ownerPc :=
    if lockSlot < (view out).lockSlotCount then (view out).ownerAcquirePc lockSlot else 0
  sequence [dprintf (.text "[LOCKDEP]   "), printThreadSlot view threadSlot,
    dprintf (.text " waits for "), printLockSlot view lockSlot, dprintf (.text " held by "),
    printThreadSlot view (w.threadChain.getD (i + 1) 0), dprintf .newline,
    printThreadCallsite view formatCallsite "[LOCKDEP]     waiting site: " threadSlot waitingPc,
    printThreadCallsite view formatCallsite "[LOCKDEP]     owner acquire: "
      (w.threadChain.getD (i + 1) 0) ownerPc] out

def loop (n : Nat) (body : Nat → Printer) : Printer := sequence ((List.range n).map body)

/-- `lockdep_report_actual_deadlock`; `sites` is `g_report_sites_enabled`. -/
def reportActualDeadlock (sites : Bool) (w : Walk) : Printer :=
  let edgeCount := w.lockChain.length
  sequence [printLine separator, printLine "[LOCKDEP] ACTUAL DEADLOCK DETECTED",
    dprintf (.text "[LOCKDEP] wait chain:"),
    if 0 < edgeCount then
      sequence [dprintf (.text " "), printThreadSlot view (w.threadChain.getD 0 0),
        if sites = false then printLine separator
        else
          sequence [loop edgeCount (printChainEdge view w), dprintf .newline,
            loop edgeCount (printWait view formatCallsite w), printLine separator]]
    else printLine separator]

end Report

/-! ## What is seen -/

/-- A piece without the address, the thread id or the text of the call site. -/
inductive Seen
  | text (s : String)
  | newline
  | lock (slot : Nat)
  | thread (slot : Nat)
  | callsite
  deriving DecidableEq, Repr

def Piece.seen : Piece → Seen
  | .text s => .text s
  | .newline => .newline
  | .lockSlot slot _ => .lock slot
  | .threadSlot slot _ => .thread slot
  | .callsite _ => .callsite

/-- `p` appends `shape`, whatever the tables hold. -/
def Prints (p : Printer) (shape : List Seen) : Prop :=
  ∀ out, (p out).map Piece.seen = out.map Piece.seen ++ shape

theorem prints_dprintf (p : Piece) : Prints (dprintf p) [p.seen] := fun _ => List.map_append

theorem prints_sequence {ps : List Printer} {shapes : List (List Seen)}
    (h : List.Forall₂ Prints ps shapes) : Prints (sequence ps) shapes.flatten := by
  induction h with
  | nil =>
    intro out
    simp [sequence]
  | @cons p shape ps shapes hp _ ih =>
    intro out
    change (sequence ps (p out)).map Piece.seen = _
    rw [ih, hp, List.flatten_cons, List.append_assoc]

theorem prints_loop {body : Nat → Printer} {shape : Nat → List Seen}
    (h : ∀ i, Prints (body i) (shape i)) (n : Nat) :
    Prints (loop n body) ((List.range n).flatMap shape) := by
  rw [List.flatMap_def]
  refine prints_sequence ?_
  rw [List.forall₂_map_left_iff, List.forall₂_map_right_iff, List.forall₂_same]
  exact fun i _ => h i

section Shape
variable {view : View} {formatCallsite : Nat → String}

theorem prints_lockSlot (slot : Nat) : Prints (printLockSlot view slot) [.lock slot] :=
  fun out => prints_dprintf _ out

theorem prints_threadSlot (slot : Nat) : Prints (printThreadSlot view slot) [.thread slot] :=
  fun out => prints_dprintf _ out

theorem prints_line (s : String) : Prints (printLine s) [.text s, .newline] :=
  prints_sequence (.cons (prints_dprintf _) (.cons (prints_dprintf _) .nil))

def siteLine (label : String) (threadSlot : Nat) : List Seen :=
  [.text label, .thread threadSlot, .text " at ", .callsite]

def edgeLine (threadSlot lockSlot ownerSlot : Nat) : List Seen :=
  [.text "[LOCKDEP]   ", .thread threadSlot, .text " waits for ", .lock lockSlot,
    .text " held by ", .thread ownerSlot]

def edgeLineAt (w : Walk) (i : Nat) : List Seen :=
  edgeLine (w.threadChain.getD i 0) (w.lockChain.getD i 0) (w.threadChain.getD (i + 1) 0)

def chainEdge (w : Walk) (i : Nat) : List Seen :=
  [.text " -> ", .lock (w.lockChain.getD i 0), .text " -> ",
    .thread (w.threadChain.getD (i + 1) 0)]

def chainLine (w : Walk) : List Seen :=
  [.text "[LOCKDEP] wait chain:", .text " ", .thread (w.threadChain.getD 0 0)] ++
    (List.range w.lockChain.length).flatMap (chainEdge w)

/-- The lines of one edge. -/
def waitLines (w : Walk) (i : Nat) : List (List Seen) :=
  [edgeLineAt w i,
    siteLine "[LOCKDEP]     waiting site: " (w.threadChain.getD i 0),
    siteLine "[LOCKDEP]     owner acquire: " (w.threadChain.getD (i + 1) 0)]

/-- Whole lines. -/
def unlines (ls : List (List Seen)) : List Seen := ls.flatMap (· ++ [.newline])

theorem prints_threadCallsite (label : String) (slot pc : Nat) :
    Prints (printThreadCallsite view formatCallsite label slot pc)
      (siteLine label slot ++ [.newline]) :=
  prints_sequence (.cons (prints_dprintf _) (.cons (prints_threadSlot _)
    (.cons (prints_dprintf _) (.cons (prints_dprintf _) (.cons (prints_dprintf _) .nil)))))

theorem prints_chainEdge (w : Walk) (i : Nat) :
    Prints (printChainEdge view w i) (chainEdge w i) :=
  prints_sequence (.cons (prints_dprintf _) (.cons (prints_lockSlot _)
    (.cons (prints_dprintf _) (.cons (prints_threadSlot _) .nil))))

theorem prints_wait (w : Walk) (i : Nat) :
    Prints (printWait view formatCallsite w i) (unlines (waitLines w i)) := by
  intro out
  refine prints_sequence (.cons (prints_dprintf _) (.cons (prints_threadSlot _)
    (.cons (prints_dprintf _) (.cons (prints_lockSlot _) (.cons (prints_dprintf _)
      (.cons (prints_threadSlot _) (.cons (prints_dprintf _)
        (.cons (prints_threadCallsite _ _ _) (.cons (prints_threadCallsite _ _ _)
          .nil))))))))) out

/-! ## The lines of the report -/

def heading : List (List Seen) :=
  [[.text separator], [.text "[LOCKDEP] ACTUAL DEADLOCK DETECTED"]]

/-- The report with its call sites. -/
def sitesReport (w : Walk) : List (List Seen) :=
  heading ++ chainLine w :: ((List.range w.lockChain.length).flatMap (waitLines w) ++
    [[.text separator]])

/-- What is left of the report without them. -/
def cutReport (w : Walk) : List (List Seen) :=
  heading ++ [[.text "[LOCKDEP] wait chain:", .text " ", .thread (w.threadChain.getD 0 0),
    .text separator]]

theorem unlines_append (xs ys : List (List Seen)) :
    unlines (xs ++ ys) = unlines xs ++ unlines ys := List.flatMap_append

theorem unlines_flatMap (n : Nat) (f : Nat → List (List Seen)) :
    unlines ((List.range n).flatMap f) = (List.range n).flatMap fun i => unlines (f i) :=
  List.flatMap_assoc

theorem prints_report_sites {w : Walk} (hn : 0 < w.lockChain.length) :
    Prints (reportActualDeadlock view formatCallsite true w) (unlines (sitesReport w)) := by
  have hchain : Prints (loop w.lockChain.length (printChainEdge view w))
      ((List.range w.lockChain.length).flatMap (chainEdge w)) := prints_loop (prints_chainEdge w) _
  have hwait : Prints (loop w.lockChain.length (printWait view formatCallsite w))
      ((List.range w.lockChain.length).flatMap fun i => unlines (waitLines w i)) :=
    prints_loop (prints_wait w) _
  have hloops := prints_sequence (.cons hchain (.cons (prints_dprintf .newline)
    (.cons hwait (.cons (prints_line separator) .nil))))
  have hfirst : Prints (printThreadSlot view (w.threadChain.getD 0 0)) _ := prints_threadSlot _
  have hbody := prints_sequence (.cons (prints_dprintf (.text " "))
    (.cons hfirst (.cons hloops .nil)))
  have hall := prints_sequence (.cons (prints_line separator)
    (.cons (prints_line "[LOCKDEP] ACTUAL DEADLOCK DETECTED")
      (.cons (prints_dprintf (.text "[LOCKDEP] wait chain:")) (.cons hbody .nil))))
  intro out
  have hshape : unlines (sitesReport w) = unlines heading ++ (chainLine w ++ [.newline]) ++
      ((List.range w.lockChain.length).flatMap (fun i => unlines (waitLines w i)) ++
        unlines [[.text separator]]) := by
    rw [sitesReport, unlines_append, List.append_assoc]
    congr 1
    rw [← unlines_flatMap, ← unlines_append]
    rfl
  have hout := hall out
  rw [reportActualDeadlock, if_pos hn, if_neg Bool.true_eq_false_eq_False, hout, hshape]
  simp [unlines, heading, chainLine, Piece.seen]

theorem prints_report_plain {w : Walk} (hn : 0 < w.lockChain.length) :
    Prints (reportActualDeadlock view formatCallsite false w) (unlines (cutReport w)) := by
  have hfirst : Prints (printThreadSlot view (w.threadChain.getD 0 0)) _ := prints_threadSlot _
  have hbody := prints_sequence (.cons (prints_dprintf (.text " "))
    (.cons hfirst (.cons (prints_line separator) .nil)))
  have hall := prints_sequence (.cons (prints_line separator)
    (.cons (prints_line "[LOCKDEP] ACTUAL DEADLOCK DETECTED")
      (.cons (prints_dprintf (.text "[LOCKDEP] wait chain:")) (.cons hbody .nil))))
  intro out
  rw [reportActualDeadlock, if_pos hn, if_pos rfl]
  exact hall out

end Shape

/-! ## Reading the report -/

/-- The lines of `ps`; `line` is what stands before them on the first. -/
def linesFrom (line : List Seen) : List Seen → List (List Seen)
  | [] => if line = [] then [] else [line]
  | p :: ps => if p = .newline then line :: linesFrom [] ps else linesFrom (line ++ [p]) ps

def lines (ps : List Seen) : List (List Seen) := linesFrom [] ps

theorem linesFrom_line {line rest : List Seen} (pre : List Seen) (h : Seen.newline ∉ line) :
    linesFrom pre (line ++ .newline :: rest) = (pre ++ line) :: linesFrom [] rest := by
  induction line generalizing pre with
  | nil => simp [linesFrom]
  | cons p line ih =>
    rw [List.mem_cons, not_or] at h
    rw [List.cons_append, linesFrom, if_neg (Ne.symm h.1), ih _ h.2, List.append_assoc]
    rfl

theorem lines_unlines {ls : List (List Seen)} (h : ∀ l ∈ ls, Seen.newline ∉ l) :
    lines (unlines ls) = ls := by
  induction ls with
  | nil => rfl
  | cons l ls ih =>
    have hrest := ih fun k hk => h k (List.mem_cons_of_mem _ hk)
    rw [lines] at hrest ⊢
    rw [unlines, List.flatMap_cons, List.append_assoc, List.singleton_append,
      linesFrom_line [] (h l List.mem_cons_self), List.nil_append]
    exact congrArg (l :: ·) hrest

def Seen.thread? : Seen → Option Nat
  | .thread slot => some slot
  | _ => none

def Seen.lock? : Seen → Option Nat
  | .lock slot => some slot
  | _ => none

/-- The chains as the third line has them. -/
def chainsOf (out : List Seen) : List Nat × List Nat :=
  let line := (lines out).getD 2 []
  (line.filterMap Seen.thread?, line.filterMap Seen.lock?)

/-- A line with a call site. -/
def isSiteLine (line : List Seen) : Bool := line.contains .callsite

/-- The slots of a line. -/
def slots (line : List Seen) : List Seen :=
  line.filter fun p => p.thread?.isSome || p.lock?.isSome

/-- `thread_chain[0]`, `lock_chain[0]`, `thread_chain[1]` and so on. -/
def interleave : List Nat → List Nat → List Seen
  | t :: ts, l :: ls => .thread t :: .lock l :: interleave ts ls
  | ts, _ => ts.map .thread

/-- The report as it is without call-site lines. -/
def plainReport (w : Walk) : List (List Seen) :=
  heading ++ chainLine w :: ((List.range w.lockChain.length).map (edgeLineAt w) ++
    [[.text separator]])

def seenReport (view : View) (formatCallsite : Nat → String) (sites : Bool) (w : Walk) :
    List Seen :=
  (reportActualDeadlock view formatCallsite sites w []).map Piece.seen

/-- The report of `c` determines its chain. -/
structure Determines (view : View) (formatCallsite : Nat → String) (sites : Bool)
    (c : FoundChain) : Prop where
  /-- the wait chain stands in order on one line -/
  chain : ∃ line ∈ lines (seenReport view formatCallsite sites c.walk),
    slots line = interleave c.walk.threadChain c.walk.lockChain
  /-- every edge has its line -/
  edge : ∀ i t l u, c.walk.threadChain[i]? = some t → c.walk.lockChain[i]? = some l →
    c.walk.threadChain[i + 1]? = some u →
      edgeLine t l u ∈ lines (seenReport view formatCallsite sites c.walk)
  recovered : chainsOf (seenReport view formatCallsite sites c.walk) =
    (c.walk.threadChain, c.walk.lockChain)
  unique : ∀ (view' : View) (formatCallsite' : Nat → String) (c' : FoundChain),
    seenReport view' formatCallsite' sites c'.walk = seenReport view formatCallsite sites c.walk →
      c'.walk.threadChain = c.walk.threadChain ∧ c'.walk.lockChain = c.walk.lockChain
  /-- call sites only add lines -/
  sitesAdd : (lines (seenReport view formatCallsite sites c.walk)).filter (!isSiteLine ·) =
    plainReport c.walk

section Lines
variable {view : View} {formatCallsite : Nat → String} {w : Walk}

theorem newline_not_mem_chainLine : Seen.newline ∉ chainLine w := by
  simp [chainLine, chainEdge]

/-- **The lines printed with call sites.** -/
theorem lines_report_sites (hn : 0 < w.lockChain.length) :
    lines (seenReport view formatCallsite true w) = sitesReport w := by
  rw [seenReport, prints_report_sites hn]
  refine lines_unlines fun line hline => ?_
  simp only [sitesReport, heading, List.mem_append, List.mem_cons, List.mem_flatMap,
    List.not_mem_nil, or_false, waitLines] at hline
  rcases hline with (rfl | rfl) | rfl | ⟨i, -, rfl | rfl | rfl⟩ | rfl
  · simp
  · simp
  · exact newline_not_mem_chainLine
  · simp [edgeLineAt, edgeLine]
  · simp [siteLine]
  · simp [siteLine]
  · simp

/-- **The lines printed without.** -/
theorem lines_report_plain (hn : 0 < w.lockChain.length) :
    lines (seenReport view formatCallsite false w) = cutReport w := by
  rw [seenReport, prints_report_plain hn]
  refine lines_unlines fun line hline => ?_
  simp only [cutReport, heading, List.mem_append, List.mem_cons, List.not_mem_nil,
    or_false] at hline
  rcases hline with (rfl | rfl) | rfl <;> simp

/-- The entries of a list by position. -/
theorem map_getD_range (l : List Nat) : (List.range l.length).map (fun i => l.getD i 0) = l := by
  refine List.ext_getElem (by simp) fun i hi hl => ?_
  simp [List.getD_eq_getElem?_getD, hl]

theorem threads_chainLine (h : w.threadChain.length = w.lockChain.length + 1) :
    (chainLine w).filterMap Seen.thread? = w.threadChain := by
  have hmap := map_getD_range w.threadChain
  rw [h, List.range_succ_eq_map, List.map_cons, List.map_map] at hmap
  have hloop : ((List.range w.lockChain.length).flatMap (chainEdge w)).filterMap Seen.thread? =
      (List.range w.lockChain.length).map fun i => w.threadChain.getD (i + 1) 0 := by
    rw [List.filterMap_flatMap, List.map_eq_flatMap]
    rfl
  rw [chainLine, List.filterMap_append, hloop]
  exact hmap

theorem locks_chainLine : (chainLine w).filterMap Seen.lock? = w.lockChain := by
  have hloop : ((List.range w.lockChain.length).flatMap (chainEdge w)).filterMap Seen.lock? =
      (List.range w.lockChain.length).map fun i => w.lockChain.getD i 0 := by
    rw [List.filterMap_flatMap, List.map_eq_flatMap]
    rfl
  rw [chainLine, List.filterMap_append, hloop, map_getD_range]
  rfl

/-- By recursion on the locks; the threads after the first go with them. -/
theorem interleave_eq (t : Nat) (ts ls : List Nat) (h : ts.length = ls.length) :
    interleave (t :: ts) ls = .thread t ::
      (List.range ls.length).flatMap fun i => [.lock (ls.getD i 0), .thread (ts.getD i 0)] := by
  induction ls generalizing t ts with
  | nil =>
    rw [List.eq_nil_of_length_eq_zero h]
    rfl
  | cons l ls ih =>
    cases ts with
    | nil => cases h
    | cons u ts =>
      have hrest := ih u ts (by simpa using h)
      rw [interleave, hrest, List.length_cons, List.range_succ_eq_map, List.flatMap_cons,
        List.flatMap_map]
      rfl

theorem slots_chainLine (h : w.threadChain.length = w.lockChain.length + 1) :
    slots (chainLine w) = interleave w.threadChain w.lockChain := by
  obtain ⟨t, ts, hts⟩ := List.exists_cons_of_length_eq_add_one h
  have hlen : ts.length = w.lockChain.length := by
    rw [hts, List.length_cons] at h
    omega
  have hedge : ∀ i, slots (chainEdge w i) =
      [.lock (w.lockChain.getD i 0), .thread (ts.getD i 0)] := by
    intro i
    rw [chainEdge, hts]
    rfl
  rw [hts, interleave_eq t ts w.lockChain hlen, slots, chainLine, List.filter_append,
    List.filter_flatMap, hts]
  exact congrArg (Seen.thread t :: ·) (List.flatMap_congr fun i _ => hedge i)

theorem chainsOf_sites (hn : 0 < w.lockChain.length)
    (h : w.threadChain.length = w.lockChain.length + 1) :
    chainsOf (seenReport view formatCallsite true w) = (w.threadChain, w.lockChain) := by
  have hline : (sitesReport w).getD 2 [] = chainLine w := rfl
  rw [chainsOf, lines_report_sites hn, hline, threads_chainLine h, locks_chainLine]

theorem edgeLine_mem_sites {i t l u : Nat} (ht : w.threadChain[i]? = some t)
    (hl : w.lockChain[i]? = some l) (hu : w.threadChain[i + 1]? = some u) :
    edgeLine t l u ∈ sitesReport w := by
  have hi : i < w.lockChain.length := (List.getElem?_eq_some_iff.1 hl).1
  have hline : edgeLineAt w i = edgeLine t l u := by
    simp only [edgeLineAt, List.getD_eq_getElem?_getD, ht, hl, hu, Option.getD_some]
  refine List.mem_append_right _ (List.mem_cons_of_mem _ (List.mem_append_left _ ?_))
  refine List.mem_flatMap.2 ⟨i, List.mem_range.2 hi, ?_⟩
  rw [waitLines, hline]
  exact List.mem_cons_self

theorem not_isSiteLine_chainLine : isSiteLine (chainLine w) = false := by
  simp [isSiteLine, chainLine, chainEdge]

theorem sitesReport_filter : (sitesReport w).filter (!isSiteLine ·) = plainReport w := by
  have hwait : ((List.range w.lockChain.length).flatMap (waitLines w)).filter (!isSiteLine ·) =
      (List.range w.lockChain.length).map (edgeLineAt w) := by
    rw [List.filter_flatMap, List.map_eq_flatMap]
    rfl
  rw [sitesReport, List.filter_append, List.filter_cons_of_pos (by simp [not_isSiteLine_chainLine]),
    List.filter_append, hwait]
  rfl

/-- Without call sites no edge has a line. -/
theorem edgeLine_not_mem_plain {t l u : Nat} : edgeLine t l u ∉ cutReport w := by
  simp [cutReport, heading, edgeLine]

end Lines

/-- **The report determines the chain exactly when call sites are printed**: without
`LOCKDEP_REPORT_SITES` it stops after the first thread. -/
theorem determines_iff (view : View) (formatCallsite : Nat → String) (sites : Bool)
    (c : FoundChain) : Determines view formatCallsite sites c ↔ sites = true := by
  obtain ⟨hn, hlen⟩ := c.edges
  constructor
  · intro h
    by_contra hsites
    obtain rfl : sites = false := by simpa using hsites
    have hedge := h.edge 0 _ _ _ (List.getElem?_eq_getElem (by omega))
      (List.getElem?_eq_getElem (by omega)) (List.getElem?_eq_getElem (by omega))
    rw [lines_report_plain hn] at hedge
    exact edgeLine_not_mem_plain hedge
  · rintro rfl
    have hlines : lines (seenReport view formatCallsite true c.walk) = sitesReport c.walk :=
      lines_report_sites hn
    have hback : chainsOf (seenReport view formatCallsite true c.walk) =
        (c.walk.threadChain, c.walk.lockChain) := chainsOf_sites hn hlen
    refine ⟨⟨chainLine c.walk, ?_, slots_chainLine hlen⟩, ?_, hback, ?_, ?_⟩
    · rw [hlines]
      exact List.mem_append_right _ List.mem_cons_self
    · intro i t l u ht hl hu
      rw [hlines]
      exact edgeLine_mem_sites ht hl hu
    · intro view' formatCallsite' c' heq
      obtain ⟨hn', hlen'⟩ := c'.edges
      have hback' : chainsOf (seenReport view' formatCallsite' true c'.walk) =
          (c'.walk.threadChain, c'.walk.lockChain) := chainsOf_sites hn' hlen'
      rw [heq, hback] at hback'
      exact ⟨congrArg Prod.fst hback'.symm, congrArg Prod.snd hback'.symm⟩
    · rw [hlines]
      exact sitesReport_filter

/-! ## Two chains with one report -/

/-- Without call sites the report depends on the first thread only. -/
theorem report_plain_congr {view : View} {formatCallsite : Nat → String} {w w' : Walk}
    (hn : 0 < w.lockChain.length) (hn' : 0 < w'.lockChain.length)
    (hfirst : w.threadChain.getD 0 0 = w'.threadChain.getD 0 0) :
    reportActualDeadlock view formatCallsite false w =
      reportActualDeadlock view formatCallsite false w' := by
  rw [reportActualDeadlock, reportActualDeadlock, if_pos hn, if_pos hn', hfirst]
  simp only [if_true]

/-- Thread 1 waits for the lock `l` of thread 0, which waits for the lock `k` of thread 1. -/
def circularWait (l k : Nat) : FoundChain where
  selfSlot := 1
  target := l
  walk := ⟨[1, 0, 1], [l, k], k⟩
  found := by
    have hwalk : (Walk.start 1 l).onOwner 1 (some 0) = .more ⟨[1, 0], [l], l⟩ := rfl
    have hwait : (⟨[1, 0], [l], l⟩ : Walk).onWaiting (some k) = .more ⟨[1, 0], [l], k⟩ := rfl
    exact ⟨⟨[1, 0], [l], k⟩, some 1, .next .start hwalk hwait, rfl⟩

/-- **Two deadlocks over different locks print the same report.** -/
theorem report_forgets_chain :
    let view : View := fun _ => ⟨4, 2, fun l => 0x1000 + 64 * l, fun t => 125626 + t,
      fun _ => 0, fun _ => 0⟩
    reportActualDeadlock view (fun _ => "unknown") false (circularWait 0 1).walk [] =
        reportActualDeadlock view (fun _ => "unknown") false (circularWait 2 3).walk [] ∧
      (circularWait 0 1).walk.lockChain ≠ (circularWait 2 3).walk.lockChain ∧
      ¬ Determines view (fun _ => "unknown") false (circularWait 0 1) := by
  intro view
  have hreport : reportActualDeadlock view (fun _ => "unknown") false (circularWait 0 1).walk =
      reportActualDeadlock view (fun _ => "unknown") false (circularWait 2 3).walk :=
    report_plain_congr (by decide) (by decide) rfl
  have hlocks : (circularWait 0 1).walk.lockChain ≠ (circularWait 2 3).walk.lockChain := by decide
  refine ⟨congrFun hreport [], hlocks, fun h => ?_⟩
  have hsame := congrArg (List.map Piece.seen) (congrFun hreport [])
  exact hlocks (h.unique view _ (circularWait 2 3) hsame.symm).2.symm

end DeadlockReport

end ScaleLockDep
