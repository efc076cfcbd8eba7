import ScaleLockDep.DeadlockReport
import ScaleLockDep.EdgeSites

/-!
# The report of a potential deadlock

What `lockdep_report_potential_deadlock` prints for the reports of both backends, while the
other threads go on.

* `lines_report`: the lines of the report;
* `Tells`: it names a closed walk of recorded edges, which it determines, and with call
  sites for every edge a thread that made it;
* `report_tells_cycle`: so does every report, in every run.
-/

namespace ScaleLockDep

namespace PotentialReport

open DeadlockReport

/-! ## Printing -/

/-- Nothing is printed. -/
def skip : Printer := id

section Report
variable (view : View) (formatCallsite : Nat → String)

/-- `lockdep_print_edge_info` -/
def printEdgeInfo (label : String) (info : EdgeInfo) : Printer :=
  if info.acquirePc = 0 then
    sequence [dprintf (.text label), printLine "unknown acquire site"]
  else
    match info.threadSlot with
    | some threadSlot => printThreadCallsite view formatCallsite label threadSlot info.acquirePc
    | none => sequence [dprintf (.text label), dprintf (.text "T-1(tid=-1)"),
        dprintf (.text " at "), dprintf (.callsite (formatCallsite info.acquirePc)),
        dprintf .newline]

/-- Iteration `i` of the loops over `existing_chain`. -/
def printChainLock (chain : List Nat) (i : Nat) : Printer :=
  sequence [printLockSlot view (chain.getD i 0),
    if i + 1 < chain.length then dprintf (.text " -> ") else skip]

/-- Iteration `i` of the loop over `existing_edge_infos`. -/
def printExistingEdge (r : Report) (i : Nat) : Printer :=
  sequence [dprintf (.text "[LOCKDEP]   edge "), printLockSlot view (r.existingChain.getD i 0),
    dprintf (.text " -> "), printLockSlot view (r.existingChain.getD (i + 1) 0), dprintf .newline,
    printEdgeInfo view formatCallsite "[LOCKDEP]     observed by "
      (r.existingEdgeInfos.getD i ⟨none, 0⟩)]

/-- `lockdep_report_potential_deadlock`; `sites` is `g_report_sites_enabled`. -/
def reportPotentialDeadlock (sites : Bool) (r : Report) : Printer :=
  let len := r.existingChain.length
  sequence [printLine separator, printLine "[LOCKDEP] POTENTIAL DEADLOCK DETECTED",
    dprintf (.text "[LOCKDEP] new dependency: "), printLockSlot view r.fromLockSlot,
    dprintf (.text " -> "), printLockSlot view r.toLockSlot, dprintf .newline,
    if sites then printEdgeInfo view formatCallsite "[LOCKDEP]   observed by " r.newEdgeInfo
    else skip,
    if 0 < len then
      sequence [dprintf (.text "[LOCKDEP] existing chain: "),
        loop len (printChainLock view r.existingChain), dprintf .newline,
        if sites then loop (len - 1) (printExistingEdge view formatCallsite r) else skip,
        dprintf (.text "[LOCKDEP] cycle: "), printLockSlot view r.fromLockSlot,
        dprintf (.text " -> "), loop len (printChainLock view r.existingChain), dprintf .newline]
    else skip,
    printLine separator]

end Report

/-! ## The lines of the report -/

def infoLine (label : String) (info : EdgeInfo) : List Seen :=
  if info.acquirePc = 0 then [.text label, .text "unknown acquire site"]
  else
    match info.threadSlot with
    | some threadSlot => siteLine label threadSlot
    | none => [.text label, .text "T-1(tid=-1)", .text " at ", .callsite]

def chainLock (chain : List Nat) (i : Nat) : List Seen :=
  .lock (chain.getD i 0) :: if i + 1 < chain.length then [.text " -> "] else []

def chainLocks (chain : List Nat) : List Seen :=
  (List.range chain.length).flatMap (chainLock chain)

def pairLine (label : String) (u v : Nat) : List Seen :=
  [.text label, .lock u, .text " -> ", .lock v]

/-- The two lines of an edge of the existing chain. -/
def edgeLines (r : Report) (i : Nat) : List (List Seen) :=
  [pairLine "[LOCKDEP]   edge " (r.existingChain.getD i 0) (r.existingChain.getD (i + 1) 0),
    infoLine "[LOCKDEP]     observed by " (r.existingEdgeInfos.getD i ⟨none, 0⟩)]

def cycleLine (r : Report) : List Seen :=
  .text "[LOCKDEP] cycle: " :: .lock r.fromLockSlot :: .text " -> " :: chainLocks r.existingChain

def newSiteLines (sites : Bool) (r : Report) : List (List Seen) :=
  if sites then [infoLine "[LOCKDEP]   observed by " r.newEdgeInfo] else []

def allEdgeLines (sites : Bool) (r : Report) : List (List Seen) :=
  if sites then (List.range (r.existingChain.length - 1)).flatMap (edgeLines r) else []

def reportLines (sites : Bool) (r : Report) : List (List Seen) :=
  [[.text separator], [.text "[LOCKDEP] POTENTIAL DEADLOCK DETECTED"],
    pairLine "[LOCKDEP] new dependency: " r.fromLockSlot r.toLockSlot] ++ newSiteLines sites r ++
  (.text "[LOCKDEP] existing chain: " :: chainLocks r.existingChain) :: allEdgeLines sites r ++
  [cycleLine r, [.text separator]]

section Shape
variable {view : View} {formatCallsite : Nat → String} {sites : Bool} {r : Report}

theorem prints_skip : Prints skip [] := fun _ => (List.append_nil _).symm

theorem prints_info (label : String) (info : EdgeInfo) :
    Prints (printEdgeInfo view formatCallsite label info) (infoLine label info ++ [.newline]) := by
  unfold printEdgeInfo infoLine
  split
  · exact prints_sequence (.cons (prints_dprintf _) (.cons (prints_line _) .nil))
  · split
    · exact prints_threadCallsite label _ _
    · exact prints_sequence (.cons (prints_dprintf _) (.cons (prints_dprintf _)
        (.cons (prints_dprintf _) (.cons (prints_dprintf _) (.cons (prints_dprintf _) .nil)))))

theorem prints_chainLock (chain : List Nat) (i : Nat) :
    Prints (printChainLock view chain i) (chainLock chain i) := by
  have hlock : Prints (printLockSlot view (chain.getD i 0)) _ := prints_lockSlot _
  have hsep : Prints (if i + 1 < chain.length then dprintf (.text " -> ") else skip)
      (if i + 1 < chain.length then [.text " -> "] else []) := by
    split
    · exact prints_dprintf _
    · exact prints_skip
  have h := prints_sequence (.cons hlock (.cons hsep .nil))
  intro out
  rw [printChainLock, h out]
  simp [chainLock]

theorem prints_chain (chain : List Nat) :
    Prints (loop chain.length (printChainLock view chain)) (chainLocks chain) :=
  prints_loop (prints_chainLock chain) _

theorem prints_existingEdge (i : Nat) :
    Prints (printExistingEdge view formatCallsite r i) (unlines (edgeLines r i)) := by
  have hu : Prints (printLockSlot view (r.existingChain.getD i 0)) _ := prints_lockSlot _
  have hv : Prints (printLockSlot view (r.existingChain.getD (i + 1) 0)) _ := prints_lockSlot _
  have hinfo : Prints (printEdgeInfo view formatCallsite "[LOCKDEP]     observed by "
      (r.existingEdgeInfos.getD i ⟨none, 0⟩)) _ := prints_info _ _
  have h := prints_sequence (.cons (prints_dprintf (.text "[LOCKDEP]   edge ")) (.cons hu
    (.cons (prints_dprintf (.text " -> ")) (.cons hv (.cons (prints_dprintf .newline)
      (.cons hinfo .nil))))))
  intro out
  rw [printExistingEdge, h out]
  simp [unlines, edgeLines, pairLine, Piece.seen]

theorem prints_newSite :
    Prints (if sites then printEdgeInfo view formatCallsite "[LOCKDEP]   observed by " r.newEdgeInfo
      else skip) (unlines (newSiteLines sites r)) := by
  unfold newSiteLines
  split
  · intro out
    rw [prints_info _ _ out]
    simp [unlines]
  · exact prints_skip

theorem prints_edges :
    Prints (if sites then loop (r.existingChain.length - 1)
      (printExistingEdge view formatCallsite r) else skip) (unlines (allEdgeLines sites r)) := by
  unfold allEdgeLines
  split
  · rw [unlines_flatMap]
    exact prints_loop prints_existingEdge _
  · exact prints_skip

theorem prints_report (hn : 0 < r.existingChain.length) :
    Prints (reportPotentialDeadlock view formatCallsite sites r)
      (unlines (reportLines sites r)) := by
  have hu : Prints (printLockSlot view r.fromLockSlot) _ := prints_lockSlot _
  have hv : Prints (printLockSlot view r.toLockSlot) _ := prints_lockSlot _
  have hsite : Prints (if sites then printEdgeInfo view formatCallsite
    "[LOCKDEP]   observed by " r.newEdgeInfo else skip) _ := prints_newSite
  have hchain : Prints (loop r.existingChain.length (printChainLock view r.existingChain)) _ :=
    prints_chain _
  have hedges : Prints (if sites then loop (r.existingChain.length - 1)
    (printExistingEdge view formatCallsite r) else skip) _ := prints_edges
  have hbody := prints_sequence (.cons (prints_dprintf (.text "[LOCKDEP] existing chain: "))
    (.cons hchain (.cons (prints_dprintf .newline) (.cons hedges
      (.cons (prints_dprintf (.text "[LOCKDEP] cycle: ")) (.cons hu
        (.cons (prints_dprintf (.text " -> ")) (.cons hchain
          (.cons (prints_dprintf .newline) .nil)))))))))
  have hall := prints_sequence (.cons (prints_line separator)
    (.cons (prints_line "[LOCKDEP] POTENTIAL DEADLOCK DETECTED")
      (.cons (prints_dprintf (.text "[LOCKDEP] new dependency: ")) (.cons hu
        (.cons (prints_dprintf (.text " -> ")) (.cons hv (.cons (prints_dprintf .newline)
          (.cons hsite (.cons hbody (.cons (prints_line separator) .nil))))))))))
  intro out
  rw [reportPotentialDeadlock, if_pos hn, hall out]
  simp [unlines, reportLines, pairLine, cycleLine, Piece.seen]

end Shape

/-! ## Reading the report -/

def seenPotential (view : View) (formatCallsite : Nat → String) (sites : Bool) (r : Report) :
    List Seen :=
  (reportPotentialDeadlock view formatCallsite sites r []).map Piece.seen

/-- The locks of the last line but one. -/
def cycleOf (out : List Seen) : List Nat :=
  ((lines out).reverse.getD 1 []).filterMap Seen.lock?

theorem newline_not_mem_chainLocks (chain : List Nat) : Seen.newline ∉ chainLocks chain := by
  intro h
  obtain ⟨i, -, hi⟩ := List.mem_flatMap.mp h
  unfold chainLock at hi
  split at hi <;> simp at hi

theorem newline_not_mem_info (label : String) (info : EdgeInfo) :
    Seen.newline ∉ infoLine label info := by
  unfold infoLine
  split
  · simp
  · split <;> simp [siteLine]

/-- **The lines of the report.** -/
theorem lines_report {view : View} {formatCallsite : Nat → String} {sites : Bool} {r : Report}
    (hn : 0 < r.existingChain.length) :
    lines (seenPotential view formatCallsite sites r) = reportLines sites r := by
  have hprint : seenPotential view formatCallsite sites r = unlines (reportLines sites r) :=
    prints_report hn []
  rw [hprint]
  refine lines_unlines fun line hline => ?_
  simp only [reportLines, List.mem_append, List.mem_cons, List.not_mem_nil, or_false] at hline
  rcases hline with (((rfl | rfl | rfl) | hnew) | rfl | hedge) | rfl | rfl
  · simp
  · simp
  · simp [pairLine]
  · unfold newSiteLines at hnew
    split at hnew
    · rw [List.mem_singleton.mp hnew]
      exact newline_not_mem_info _ _
    · cases hnew
  · simp [newline_not_mem_chainLocks]
  · unfold allEdgeLines at hedge
    split at hedge
    · obtain ⟨i, -, hi⟩ := List.mem_flatMap.mp hedge
      rcases List.mem_pair.mp hi with rfl | rfl
      · simp [pairLine]
      · exact newline_not_mem_info _ _
    · cases hedge
  · simp [cycleLine, newline_not_mem_chainLocks]
  · simp

theorem locks_chainLocks (chain : List Nat) :
    (chainLocks chain).filterMap Seen.lock? = chain := by
  have hone : ∀ i, (chainLock chain i).filterMap Seen.lock? = [chain.getD i 0] := by
    intro i
    unfold chainLock
    split <;> rfl
  rw [chainLocks, List.filterMap_flatMap]
  simp only [hone]
  rw [← List.map_eq_flatMap, map_getD_range]

theorem cycleOf_report {view : View} {formatCallsite : Nat → String} {sites : Bool} {r : Report}
    (hn : 0 < r.existingChain.length) :
    cycleOf (seenPotential view formatCallsite sites r) = r.fromLockSlot :: r.existingChain := by
  have hline : (reportLines sites r).reverse.getD 1 [] = cycleLine r := by
    simp [reportLines]
  rw [cycleOf, lines_report hn, hline]
  exact congrArg (r.fromLockSlot :: ·) (locks_chainLocks _)

/-! ## What the report tells -/

/-- The labels of the edges of the cycle: the new one comes first. -/
def edgeLabel : Nat → String
  | 0 => "[LOCKDEP] new dependency: "
  | _ + 1 => "[LOCKDEP]   edge "

def siteLabel : Nat → String
  | 0 => "[LOCKDEP]   observed by "
  | _ + 1 => "[LOCKDEP]     observed by "

/-- The report of `r`, over the recorded edges `E` and the acquisitions `acqs` so far. -/
structure Tells (E : Nat → Nat → Prop) (acqs : List Acquisition) (view : View)
    (formatCallsite : Nat → String) (sites : Bool) (r : Report) : Prop where
  /-- a closed walk of recorded edges, once through each lock -/
  cycle : ∃ u ls, cycleOf (seenPotential view formatCallsite sites r) = u :: ls ∧
    ls.getLast? = some u ∧ ls.Nodup ∧ (u :: ls).IsChain E
  /-- the line of each edge of it is followed by the thread of an acquisition -/
  observed : sites = true → ∀ i u v,
    (cycleOf (seenPotential view formatCallsite sites r))[i]? = some u →
    (cycleOf (seenPotential view formatCallsite sites r))[i + 1]? = some v →
    ∃ a, a ∈ acqs ∧ a.lockSlot = v ∧ u ∈ a.held ∧ u ≠ v ∧
      [pairLine (edgeLabel i) u v, infoLine (siteLabel i) ⟨some a.threadSlot, a.acquirePc⟩] <:+:
        lines (seenPotential view formatCallsite sites r)
  /-- nothing else is printed so -/
  unique : ∀ (view' : View) (formatCallsite' : Nat → String) (sites' : Bool) (r' : Report),
    0 < r'.existingChain.length →
    seenPotential view' formatCallsite' sites' r' = seenPotential view formatCallsite sites r →
      r'.fromLockSlot = r.fromLockSlot ∧ r'.toLockSlot = r.toLockSlot ∧
      r'.existingChain = r.existingChain

section Tells
variable {E : Nat → Nat → Prop} {acqs : List Acquisition} {view : View}
  {formatCallsite : Nat → String} {sites : Bool} {r : Report}

theorem chain_pos (hv : r.Valid E) : 0 < r.existingChain.length := by
  obtain ⟨tl, htl⟩ := List.head?_eq_some_iff.mp hv.head
  rw [htl]
  exact Nat.zero_lt_succ _

/-- The new edge and where it was observed. -/
theorem newLines_infix (hn : 0 < r.existingChain.length) :
    [pairLine "[LOCKDEP] new dependency: " r.fromLockSlot r.toLockSlot,
      infoLine "[LOCKDEP]   observed by " r.newEdgeInfo] <:+:
        lines (seenPotential view formatCallsite true r) := by
  rw [lines_report hn]
  exact ⟨[[.text separator], [.text "[LOCKDEP] POTENTIAL DEADLOCK DETECTED"]], _, rfl⟩

/-- An edge of the existing chain and where it was observed. -/
theorem edgeLines_infix {i : Nat} (hi : i + 1 < r.existingChain.length) :
    edgeLines r i <:+: lines (seenPotential view formatCallsite true r) := by
  obtain ⟨pre, post, hsplit⟩ := List.append_of_mem
    (List.mem_range.mpr (by omega : i < r.existingChain.length - 1))
  have hmem : edgeLines r i <:+: allEdgeLines true r := by
    refine ⟨pre.flatMap (edgeLines r), post.flatMap (edgeLines r), ?_⟩
    rw [allEdgeLines, if_pos rfl, hsplit, List.flatMap_append, List.flatMap_cons, List.append_assoc]
  rw [lines_report (by omega)]
  exact (hmem.trans (List.infix_cons List.infix_rfl)).trans (List.infix_append _ _ _)

/-- Each edge of the closed walk: the new one first, then the existing ones. -/
theorem observed_report (hv : r.Valid E) (hw : ReportWitnessed acqs r) {i u v : Nat}
    (hu : (r.fromLockSlot :: r.existingChain)[i]? = some u)
    (hv' : (r.fromLockSlot :: r.existingChain)[i + 1]? = some v) :
    ∃ a, a ∈ acqs ∧ a.lockSlot = v ∧ u ∈ a.held ∧ u ≠ v ∧
      [pairLine (edgeLabel i) u v, infoLine (siteLabel i) ⟨some a.threadSlot, a.acquirePc⟩] <:+:
        lines (seenPotential view formatCallsite true r) := by
  rw [List.getElem?_cons_succ] at hv'
  cases i with
  | zero =>
    obtain rfl : r.fromLockSlot = u := by simpa using hu
    obtain rfl : r.toLockSlot = v := by
      rw [← List.head?_eq_getElem?, hv.head] at hv'
      exact Option.some.inj hv'
    obtain ⟨hne, a, ha, hlock, hheld, hinfo⟩ := hw.new
    refine ⟨a, ha, hlock, hheld, hne, ?_⟩
    rw [← hinfo]
    exact newLines_infix (chain_pos hv)
  | succ j =>
    rw [List.getElem?_cons_succ] at hu
    have hj : j + 1 < r.existingChain.length := (List.getElem?_eq_some_iff.mp hv').1
    have hlen : j < r.existingEdgeInfos.length := by
      rw [hw.lines]
      omega
    obtain ⟨hne, a, ha, hlock, hheld, hinfo⟩ :=
      hw.existing j u v _ hu hv' (List.getElem?_eq_getElem hlen)
    refine ⟨a, ha, hlock, hheld, hne, ?_⟩
    have hlines : edgeLines r j = [pairLine "[LOCKDEP]   edge " u v,
        infoLine "[LOCKDEP]     observed by " ⟨some a.threadSlot, a.acquirePc⟩] := by
      simp only [edgeLines, List.getD_eq_getElem?_getD, hu, hv', Option.getD_some,
        List.getElem?_eq_getElem hlen, hinfo]
    have h : _ <:+: lines (seenPotential view formatCallsite true r) := edgeLines_infix hj
    rw [hlines] at h
    exact h

theorem tells (hv : r.Valid E) (hw : sites = true → ReportWitnessed acqs r) :
    Tells E acqs view formatCallsite sites r := by
  have hn := chain_pos hv
  have hcycle : cycleOf (seenPotential view formatCallsite sites r) =
      r.fromLockSlot :: r.existingChain := cycleOf_report hn
  refine ⟨⟨_, _, hcycle, hv.last, hv.nodup, ?_⟩, ?_, ?_⟩
  · obtain ⟨tl, htl⟩ := List.head?_eq_some_iff.mp hv.head
    have hpath := hv.path
    rw [htl] at hpath ⊢
    exact .cons_cons hv.edge hpath
  · rintro rfl i u v hu hv'
    rw [hcycle] at hu hv'
    exact observed_report hv (hw rfl) hu hv'
  · intro view' formatCallsite' sites' r' hn' heq
    have hcycle' : cycleOf (seenPotential view' formatCallsite' sites' r') =
        r'.fromLockSlot :: r'.existingChain := cycleOf_report hn'
    have hnew : pairLine "[LOCKDEP] new dependency: " r'.fromLockSlot r'.toLockSlot =
        pairLine "[LOCKDEP] new dependency: " r.fromLockSlot r.toLockSlot := by
      have h := congrArg (fun out => (lines out).getD 2 []) heq
      simp only [lines_report hn, lines_report hn'] at h
      exact h
    rw [heq, hcycle, List.cons_eq_cons] at hcycle'
    refine ⟨hcycle'.1.symm, ?_, hcycle'.2.symm⟩
    simp only [pairLine, List.cons.injEq, Seen.lock.injEq] at hnew
    exact hnew.2.2.2.1

end Tells

/-- **Every report tells its cycle**, and with call sites who closed it, whatever the other
threads change while it is printed. -/
theorem report_tells_cycle (view : View) (formatCallsite : Nat → String) :
    (∀ (cfg : RbBackend.Config) p, Runs.ReachableBy (RbBackend.sites cfg)
        (fun _ a => cfg.reportSites = true → HasSite a.mover.2) p →
      ∀ r, r ∈ p.1.reports → Tells p.1.graph.E p.2 view formatCallsite cfg.reportSites r) ∧
    (∀ (sites : Bool) p, Runs.Reachable GlobalBackend.sites p →
      ∀ r, r ∈ p.1.reports → Tells p.1.graph.E p.2 view formatCallsite sites r) := by
  constructor
  · intro cfg p h r hr
    have hbase : Runs.Reachable (RbBackend.system cfg) p.1 := h.fst fun _ _ _ => trivial
    refine tells ((RbBackend.reportInv hbase).valid r hr) fun hsites => ?_
    exact (RbBackend.siteInv hsites (h.mono fun _ _ ha => ha hsites)).reports r hr
  · intro sites p h r hr
    have hbase : Runs.Reachable GlobalBackend.system p.1 := h.fst fun _ _ _ => trivial
    refine tells ((GlobalBackend.reportInv hbase).valid r hr) fun _ => ?_
    exact (GlobalBackend.siteInv h).reports r hr

/-- Two locks and two threads are registered. -/
def quietView : View :=
  fun _ => ⟨2, 2, fun l => 0x1000 + 64 * l, fun t => 125626 + t, fun _ => 0, fun _ => 0⟩

/-- Two threads took two mutexes in opposite orders. -/
theorem report_tells_cycle_inverted :
    (∃ s acqs r, RbBackend.execLegs ⟨false, true⟩ RbBackend.hasSite RbBackend.initial
        RbBackend.inverted = some s ∧ r ∈ s.reports ∧
      Tells s.graph.E acqs quietView (fun _ => "unknown") true r) ∧
    (∃ s acqs r, Runs.exec GlobalBackend.system GlobalBackend.initial
        GlobalBackend.inverted = some s ∧ r ∈ s.reports ∧
      Tells s.graph.E acqs quietView (fun _ => "unknown") true r) := by
  have hr := (Option.some_get RbBackend.invertedSites_runs).symm
  have hg := (Option.some_get GlobalBackend.inverted_runs).symm
  obtain ⟨hrb, hglobal⟩ := report_tells_cycle quietView fun _ => "unknown"
  constructor
  · have hrun := (RbBackend.execLegs_reachable (fun _ _ => rfl) .init hr).mono
      (H := fun _ (a : RbBackend.Act) => HasSite a.mover.2) fun _ _ h => of_decide_eq_true h
    obtain ⟨acqs, hacqs⟩ := hrun.exists_history
    have hmade : ((RbBackend.execLegs ⟨false, true⟩ RbBackend.hasSite RbBackend.initial
        RbBackend.inverted).get RbBackend.invertedSites_runs).reports ≠ [] := by decide +kernel
    obtain ⟨r, hmem⟩ := List.exists_mem_of_ne_nil _ hmade
    exact ⟨_, acqs, r, hr, hmem, hrb ⟨false, true⟩ _ (hacqs.mono fun _ _ h _ => h) r hmem⟩
  · obtain ⟨acqs, hacqs⟩ := (Runs.ReachableBy.exec .init hg).exists_history
    have hmade : ((Runs.exec GlobalBackend.system GlobalBackend.initial
        GlobalBackend.inverted).get GlobalBackend.inverted_runs).reports ≠ [] := by decide +kernel
    obtain ⟨r, hmem⟩ := List.exists_mem_of_ne_nil _ hmade
    exact ⟨_, acqs, r, hg, hmem, hglobal true _ hacqs r hmem⟩

end PotentialReport

end ScaleLockDep
