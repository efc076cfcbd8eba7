import ScaleLockDep.RbDue
import ScaleLockDep.RbRefinement
import ScaleLockDep.RbSemaphore

/-!
# The two backends under the same calls

When every call finds the last one worked off, the ring-buffer backend does what the global
one does: the same calls in the same order leave the same edges with the same infos, and the
same reports.

* `Matches`: the global backend is ahead by the insertions that are due;
* `call_matches`, `matches_between`: it takes each call to its end when it begins, and waits
  for the worker;
* `serial_backends_agree`.
-/

namespace ScaleLockDep

open ThreadState

/-- The operations of `t`, with the acquisition it is recording. -/
def Activity.begun (A : Activity) (t : Nat) : List Op :=
  A.hist t ++ (A.call t).toList.map fun c => .acquire c.api c.lockSlot

theorem Activity.Step.begun {A A' : Activity} {t : Nat} {mv : Move} (h : A.Step t mv A')
    (hc : A.call t ≠ none) (u : Nat) : A'.begun u = A.begun u := by
  unfold Activity.begun
  by_cases hu : u = t
  · subst hu
    cases h.own with
    | stay hh hc' => rw [hh, hc']
    | start c hmv hn hh hc' => exact absurd hn hc
    | finish c hn hh hc' => simp [hh, hc', hn]
    | top c hnil hn hh hc' => exact absurd hn hc
    | release l hn hh hc' => exact absurd hn hc
  · rw [(h.others u hu).1, (h.others u hu).2]

theorem WellFormed.room {n l : Nat} {ops : List Op} {api : Api}
    (h : WellFormed n (ops ++ [.acquire api l])) : (heldAfter ops).length < maxHeldLockSlots := by
  generalize hops : ops ++ [Op.acquire api l] = all at h
  cases h with
  | nil => simp at hops
  | acquire api' l' h hl hroom =>
    obtain ⟨rfl, -⟩ := List.append_inj' hops rfl
    exact hroom
  | release l' h hl =>
    have hop := (List.append_inj' hops rfl).2
    simp at hop

/-- A call of the hooks begins. -/
def Move.begins : Move → Bool
  | .run => false
  | .register | .acquire _ | .release _ => true

namespace GlobalBackend

/-- The calls of the hooks, in order. -/
def noteCall (calls : List (Nat × Move)) (_ : State) (a : Act) (_ : State) : List (Nat × Move) :=
  if a.move.begins then calls ++ [(a.tid, a.move)] else calls

def logged : Runs.System (State × List (Nat × Move)) Act := Runs.withHistory system [] noteCall

/-- One hook at a time. -/
def Alone (p : State × List (Nat × Move)) (a : Act) : Prop := a.move.begins = true → Quiet p.1

/-- A whole call. -/
theorem logged_call {g g' : State} {calls : List (Nat × Move)} {t k : Nat} {mv : Move}
    (h : Runs.ReachableBy logged Alone (g, calls)) (hq : Quiet g) (hb : mv.begins = true)
    (hexec : Runs.exec system g (⟨t, mv⟩ :: List.replicate k ⟨t, .run⟩) = some g') :
    Runs.ReachableBy logged Alone (g', calls ++ [(t, mv)]) := by
  obtain ⟨g₁, hstep, hrest⟩ := Option.bind_eq_some_iff.mp hexec
  have hlog : logged.step (g, calls) ⟨t, mv⟩ = some (g₁, noteCall calls g ⟨t, mv⟩ g₁) :=
    Runs.withHistory_of_step hstep
  rw [show noteCall calls g ⟨t, mv⟩ g₁ = calls ++ [(t, mv)] from if_pos hb] at hlog
  have hfirst : Runs.ReachableBy logged Alone (g₁, calls ++ [(t, mv)]) :=
    .step h (fun _ => hq) hlog
  clear hexec hstep hlog
  induction k generalizing g₁ with
  | zero =>
    obtain rfl : g₁ = g' := Option.some.inj hrest
    exact hfirst
  | succ k ih =>
    rw [List.replicate_succ] at hrest
    obtain ⟨g₂, hstep, hrest⟩ := Option.bind_eq_some_iff.mp hrest
    have hlog : logged.step (g₁, calls ++ [(t, mv)]) ⟨t, .run⟩ =
        some (g₂, calls ++ [(t, mv)]) := Runs.withHistory_of_step hstep
    exact ih g₂ hrest (.step hfirst (fun hrun => by cases hrun) hlog)

end GlobalBackend

namespace RbBackend

open State RbGraph

variable {cfg : Config} {s s' : State} {t u v i : Nat} {info : EdgeInfo} {us : List Nat} {mv : Move}

/-! ## Calls -/

/-- Nothing is under way. -/
structure AtRest (s : State) : Prop where
  outside : ∀ t, (s.thr t).pc = .outside
  empty : ∀ t, waiting s t = []
  unladen : ∀ i, Unladen (s.worker i)

/-- A call finds the last one worked off, and has a call site where sites are reported. -/
def Serial (cfg : Config) (s : State) (a : Act) : Prop :=
  a.mover.2.begins = true → AtRest s ∧
    (cfg.reportSites = true → ∀ c, a.mover.2 = .acquire c → c.acquirePc ≠ 0)

/-- The calls of the hooks, in order. -/
def noteCall (calls : List (Nat × Move)) (_ : State) (a : Act) (_ : State) : List (Nat × Move) :=
  if a.mover.2.begins then calls ++ [a.mover] else calls

def logged (cfg : Config) : Runs.System (State × List (Nat × Move)) Act :=
  Runs.withHistory (system cfg) [] noteCall

theorem free_outside {pc : Pc} (h : pc = .outside) : Free pc := by
  subst h
  exact ⟨rfl, by simp⟩

theorem AtRest.nothing (h : AtRest s) : Due cfg s v info [] :=
  .nothing rfl (fun t => free_outside (h.outside t)) h.empty h.unladen

theorem add_ne_empty (e : Event) : Batch.empty.add e ≠ .empty := by
  intro h
  have hprogress := congrArg Batch.madeProgress h
  unfold Batch.add at hprogress
  split at hprogress <;> cases hprogress

theorem AtRest.due (h : AtRest s) (D : Due cfg s v info us) : us = [] := by
  cases D with
  | nothing hus hf hw hn => exact hus
  | thread k hc hf hw hn =>
    cases hc with
    | collecting c bits w hpc hv hbound hi hsite hbits hus =>
      rw [h.outside k] at hpc
      cases hpc
    | carrying e hc he =>
      rw [h.outside k] at hc
      cases hc
  | ring k e he hf hw hother hn =>
    rw [h.empty k] at hw
    cases hw
  | worker i hl hf hw hn =>
    have hun := h.unladen i
    generalize s.worker i = pc at hl hun
    cases hl with
    | drain second k e he hp => exact absurd hun (add_ne_empty e)
    | target second e he hp => cases hun
    | edges second b hp => exact hun.elim

/-! ## The global backend ahead -/

/-- The same edges and infos, and the same reports in some order. -/
structure Agrees (cfg : Config) (r : RbGraph × List Report) (g : GlobalBackend.State) : Prop where
  table : EdgeTable.Same cfg.reportSites r.1.table g.graph.table
  reports : (r.2.map (Report.shown cfg.reportSites)).Perm
    (g.reports.map (Report.shown cfg.reportSites))

/-- **The global backend has taken the same calls**, the last one to its end. -/
structure Matches (cfg : Config) (s : State) (calls : List (Nat × Move))
    (g : GlobalBackend.State) : Prop where
  reachable : Runs.ReachableBy GlobalBackend.logged GlobalBackend.Alone (g, calls)
  running : g.exited = false
  quiet : GlobalBackend.Quiet g
  hist : ∀ t, (g.thr t).hist = (activity s).begun t
  count : g.lockSlotCount = s.lockSlotCount
  due : ∃ v info us, Due cfg s v info us ∧ Agrees cfg (outcome cfg s v info us) g

/-- A held stack is about to overflow. -/
def Overflows (A : Activity) : Prop :=
  ∃ t c, A.call t = some c ∧ maxHeldLockSlots ≤ (A.held t).length

theorem Overflows.step {a : Act} (h : Overflows (activity s)) (T : ∀ t, ThreadOk cfg s t)
    (hs : Step cfg s a s') (hwf : ∀ t, WellFormed s'.lockSlotCount (s'.thr t).hist) :
    Overflows (activity s') := by
  obtain ⟨t, c, hc, hfull⟩ := h
  rcases (activity_step T hs).call_goes_on hc with ⟨hc', hheld⟩ | hh
  · exact ⟨t, c, hc', hheld ▸ hfull⟩
  · -- the stack had no room for the call that is complete
    have hops := hwf t
    rw [show (s'.thr t).hist = _ from hh] at hops
    exact absurd hfull (Nat.not_le.mpr hops.room)

theorem begun_outside (h : (s.thr t).pc = .outside) : (activity s).begun t = (s.thr t).hist := by
  simp [Activity.begun, activity, h]

theorem AtRest.complete (h : AtRest s) (ts : ThreadState) (op : Op) :
    AtRest (s.complete t ts op) where
  outside u := by
    rw [complete_pc]
    split
    · rfl
    · exact h.outside u
  empty := h.empty
  unladen := h.unladen

theorem Matches.at_rest {calls : List (Nat × Move)} {g : GlobalBackend.State}
    (M : Matches cfg s calls g) (h : AtRest s) :
    Agrees cfg (s.graph, s.reports) g ∧ ∀ u, (g.thr u).hist = (s.thr u).hist := by
  obtain ⟨v, info, us, D, hA⟩ := M.due
  obtain rfl := h.due D
  refine ⟨?_, fun u => (M.hist u).trans (begun_outside (h.outside u))⟩
  rwa [outcome, insertAll, List.append_nil] at hA

/-- Both have completed one more call. -/
theorem matches_complete {calls : List (Nat × Move)} {g : GlobalBackend.State}
    {ts ts' : ThreadState} {op : Op}
    (hr : Runs.ReachableBy GlobalBackend.logged GlobalBackend.Alone (g.complete t ts' op, calls))
    (hrun : g.exited = false) (hq : GlobalBackend.Quiet g)
    (hhist : ∀ u, (g.thr u).hist = (s.thr u).hist) (hcount : g.lockSlotCount = s.lockSlotCount)
    (hA : Agrees cfg (s.graph, s.reports) g) (h : AtRest s) :
    Matches cfg (s.complete t ts op) calls (g.complete t ts' op) where
  reachable := hr
  running := hrun
  quiet u := by
    rw [GlobalBackend.State.complete_pc]
    split
    · rfl
    · exact hq u
  hist u := by
    rw [begun_outside ((h.complete ts op).outside u), GlobalBackend.State.complete_hist,
      complete_hist, hhist, hhist]
  count := hcount
  due := by
    refine ⟨0, ⟨none, 0⟩, [], (h.complete ts op).nothing, ?_⟩
    rw [outcome, insertAll, List.append_nil]
    exact ⟨hA.table, hA.reports⟩

/-- What the acquisition comes to in both backends. -/
theorem acquire_agrees {g : GlobalBackend.State} {c : Call} {n : Nat} (hn : n ≤ maxLockSlots)
    (hc : c.lockSlot < n) (W : s.graph.WF n) (W' : g.graph.WF n)
    (hT : Mirrors (s.thr t).tls) (hbound : ∀ u, u ∈ s.held t → u < n)
    (hheld : g.held t = s.held t) (hcount : s.lockSlotCount = n)
    (hA : Agrees cfg (s.graph, s.reports) g) :
    Agrees cfg (outcome cfg s c.lockSlot ⟨some t, c.acquirePc⟩
        (s.graph.edgeTodo n c.lockSlot ((s.thr t).tls.heldLockBits.clear c.lockSlot)))
      { g with
        graph := (g.graph.onAcquire n (g.held t) c.lockSlot ⟨some t, c.acquirePc⟩).1
        reports := g.reports ++
          (g.graph.onAcquire n (g.held t) c.lockSlot ⟨some t, c.acquirePc⟩).2 } := by
  obtain ⟨us, htable, hus⟩ := DependencyGraph.onAcquire_table (g.held t) c.lockSlot
    ⟨some t, c.acquirePc⟩ W'
  have hrb := insertAll_table (if cfg.reportSites then ⟨some t, c.acquirePc⟩ else ⟨none, 0⟩)
    (s.graph.edgeTodo n c.lockSlot ((s.thr t).tls.heldLockBits.clear c.lockSlot)) W hn hc
    fun u hu => ((mem_edgeTodo W hn).mp hu).1
  have hinfo : cfg.reportSites = true → (if cfg.reportSites then ⟨some t, c.acquirePc⟩
      else ⟨none, 0⟩ : EdgeInfo) = ⟨some t, c.acquirePc⟩ := fun hs => if_pos hs
  have hsame := EdgeTable.addAll_same
    (s.graph.edgeTodo n c.lockSlot ((s.thr t).tls.heldLockBits.clear c.lockSlot)) us hn hc
    hA.table hinfo fun u hne he => by
      have he' : g.graph.edge u c.lockSlot = false := (hA.table.edge u c.lockSlot).symm.trans he
      rw [hus u hne he', hheld, mem_edgeTodo W hn, WordSet.test_clear, hT.bits]
      have hE : ¬ s.graph.E u c.lockSlot := Bool.eq_false_iff.mp he
      simp only [hne, hE, ne_eq, not_false_eq_true, decide_true, Bool.and_true, and_true,
        decide_eq_true_eq]
      exact ⟨And.right, fun hu => ⟨hbound u hu, hu⟩⟩
  rw [← hrb, ← htable] at hsame
  refine ⟨?_, ?_⟩
  · rw [outcome, hcount]
    exact hsame.1
  · rw [outcome, hcount, List.map_append, List.map_append]
    exact hA.reports.append hsame.2

section Calls
variable {calls : List (Nat × Move)} {g : GlobalBackend.State}

theorem register_matches (M : Matches cfg s calls g) (hrest : AtRest s) (ht : t < maxThreadSlots)
    (hn : s.lockSlotCount < maxLockSlots) :
    Matches cfg { s with lockSlotCount := s.lockSlotCount + 1 } (calls ++ [(t, .register)])
      g.register := by
  have hstep : GlobalBackend.system.step g ⟨t, .register⟩ = some g.register := by
    change GlobalBackend.step _ _ = _
    unfold GlobalBackend.step
    rw [if_neg (GlobalBackend.step_ok M.running ht)]
    exact if_pos (M.count ▸ hn)
  have hexec : Runs.exec GlobalBackend.system g
      (⟨t, .register⟩ :: List.replicate 0 ⟨t, .run⟩) = some g.register := by
    rw [Runs.exec_cons _ hstep]
    rfl
  obtain ⟨hA, -⟩ := M.at_rest hrest
  have hrest' : AtRest { s with lockSlotCount := s.lockSlotCount + 1 } :=
    ⟨hrest.outside, hrest.empty, hrest.unladen⟩
  exact {
    reachable := GlobalBackend.logged_call M.reachable M.quiet rfl hexec
    running := M.running
    quiet := M.quiet
    hist := M.hist
    count := congrArg (· + 1) M.count
    due := ⟨0, ⟨none, 0⟩, [], hrest'.nothing, by
      rw [outcome, insertAll, List.append_nil]
      exact ⟨hA.table, hA.reports⟩⟩ }

theorem release_matches {l : Nat} (M : Matches cfg s calls g) (hrest : AtRest s)
    (ht : t < maxThreadSlots) (hl : l ∈ g.held t) (ts : ThreadState) :
    ∃ g', Matches cfg (s.complete t ts (.release l)) (calls ++ [(t, .release l)]) g' := by
  obtain ⟨hA, hhist⟩ := M.at_rest hrest
  have hstep : GlobalBackend.system.step g ⟨t, .release l⟩ =
      some (g.complete t ((g.thr t).tls.release .global l) (.release l)) := by
    change GlobalBackend.step _ _ = _
    unfold GlobalBackend.step
    rw [if_neg (GlobalBackend.step_ok M.running ht)]
    simp only [M.quiet t, hl, and_self, if_true]
  have hexec : Runs.exec GlobalBackend.system g
      (⟨t, .release l⟩ :: List.replicate 0 ⟨t, .run⟩) =
      some (g.complete t ((g.thr t).tls.release .global l) (.release l)) := by
    rw [Runs.exec_cons _ hstep]
    rfl
  exact ⟨_, matches_complete (GlobalBackend.logged_call M.reachable M.quiet rfl hexec) M.running
    M.quiet hhist M.count hA hrest⟩

theorem top_matches {c : Call} (M : Matches cfg s calls g) (hrest : AtRest s)
    (ht : t < maxThreadSlots) (hc : c.lockSlot < s.lockSlotCount) (hnil : g.held t = [])
    (ts : ThreadState) : ∃ g', Matches cfg (s.complete t ts (.acquire c.api c.lockSlot))
      (calls ++ [(t, .acquire c)]) g' := by
  obtain ⟨hA, hhist⟩ := M.at_rest hrest
  have hstep : GlobalBackend.system.step g ⟨t, .acquire c⟩ =
      some (g.complete t ((g.thr t).tls.acquireTopLevel .global c.lockSlot)
        (.acquire c.api c.lockSlot)) := by
    change GlobalBackend.step _ _ = _
    unfold GlobalBackend.step
    rw [if_neg (GlobalBackend.step_ok M.running ht)]
    simp only [M.quiet t, M.count, hc, and_self, if_true, if_pos hnil]
  have hexec : Runs.exec GlobalBackend.system g
      (⟨t, .acquire c⟩ :: List.replicate 0 ⟨t, .run⟩) =
      some (g.complete t ((g.thr t).tls.acquireTopLevel .global c.lockSlot)
        (.acquire c.api c.lockSlot)) := by
    rw [Runs.exec_cons _ hstep]
    rfl
  exact ⟨_, matches_complete (GlobalBackend.logged_call M.reachable M.quiet rfl hexec) M.running
    M.quiet hhist M.count hA hrest⟩

theorem nested_matches {c : Call} (T : ThreadOk cfg s t) (E : EdgeInv s)
    (I : GlobalBackend.GraphInv g) (M : Matches cfg s calls g) (hrest : AtRest s)
    (hsite : cfg.reportSites = true → c.acquirePc ≠ 0) (ht : t < maxThreadSlots)
    (hc : c.lockSlot < s.lockSlotCount) (hheld : g.held t = s.held t) (hnil : s.held t ≠ [])
    (hroom : (s.held t).length < maxHeldLockSlots) :
    ∃ g', Matches cfg (s.setPc t (.collect c .empty 0)) (calls ++ [(t, .acquire c)]) g' := by
  obtain ⟨hA, hhist⟩ := M.at_rest hrest
  have hts : (g.thr t).tls.pushHeldLockSlot .global c.lockSlot =
      some { (g.thr t).tls with heldLockSlots := g.held t ++ [c.lockSlot] } := by
    have hlt : (g.held t).length < maxHeldLockSlots := hheld ▸ hroom
    exact if_neg (Nat.not_le.mpr hlt)
  obtain ⟨k, hexec⟩ := GlobalBackend.acquire_runs (c := c) M.running ht (M.quiet t)
    (hheld ▸ hnil) (M.count ▸ hc) hts
  have hagree := acquire_agrees (t := t) E.count hc E.wf (M.count ▸ I.wf) T.mirrors T.heldBound
    hheld rfl hA
  refine ⟨_, GlobalBackend.logged_call M.reachable M.quiet rfl hexec, M.running, fun u => ?_,
    fun u => ?_, M.count, c.lockSlot, ⟨some t, c.acquirePc⟩, _, .thread t (.collecting c .empty 0
      (setPc_at _ _ _) rfl (hc.trans_le E.count) rfl hsite (fun u hu => absurd hu (by omega)) rfl)
      (fun u hu => ?_) hrest.empty hrest.unladen, ?_⟩
  · rw [GlobalBackend.State.complete_pc]
    split
    · rfl
    · exact M.quiet u
  · rw [GlobalBackend.State.complete_hist]
    by_cases hu : u = t
    · subst hu
      simp [Activity.begun, activity, setPc_pc, hhist]
    · simp [Activity.begun, activity, setPc_pc, hhist, hu, hrest.outside u]
  · rw [setPc_pc, if_neg hu]
    exact free_outside (hrest.outside u)
  · rw [M.count, setPc_tls]
    exact ⟨hagree.table, hagree.reports⟩

end Calls

/-- **A call begins**: the global backend takes it to its end. -/
theorem call_matches {calls : List (Nat × Move)} {g : GlobalBackend.State} (T : ThreadOk cfg s t)
    (E : EdgeInv s) (M : Matches cfg s calls g) (hrest : AtRest s)
    (hsite : cfg.reportSites = true → ∀ c, mv = .acquire c → c.acquirePc ≠ 0)
    (ht : t < maxThreadSlots) (hb : mv.begins = true) (hs : threadStep cfg s t mv = some s') :
    Overflows (activity s') ∨ ∃ g', Matches cfg s' (calls ++ [(t, mv)]) g' := by
  have I := GlobalBackend.graphInv (M.reachable.fst fun _ _ _ => trivial :
    Runs.Reachable GlobalBackend.system g)
  have hheld : g.held t = s.held t := by
    rw [I.heldHist, (M.at_rest hrest).2, ← T.heldHist]
  cases mv with
  | register =>
    simp only [threadStep] at hs
    split at hs
    · rename_i hn
      cases hs
      exact Or.inr ⟨_, register_matches M hrest ht hn⟩
    · cases hs
  | acquire c =>
    simp only [threadStep] at hs
    split at hs
    · rename_i hc
      split at hs
      · rename_i hnil
        cases hs
        exact Or.inr (top_matches M hrest ht hc.2 (hheld.trans hnil) _)
      · rename_i hnil
        cases hs
        by_cases hroom : (s.held t).length < maxHeldLockSlots
        · exact Or.inr (nested_matches T E I M hrest (fun h => hsite h c rfl) ht hc.2 hheld hnil
            hroom)
        · refine Or.inl ⟨t, c, ?_, ?_⟩
          · simp [activity, setPc_pc]
          · have hheld' : (activity (s.setPc t (.collect c .empty 0))).held t = s.held t := by
              rw [T.heldHist]
              simp [Activity.held, activity]
            rw [hheld']
            exact Nat.not_lt.mp hroom
    · cases hs
  | release l =>
    simp only [threadStep] at hs
    split at hs
    · rename_i hl
      cases hs
      exact Or.inr (release_matches M hrest ht (hheld ▸ hl.2) _)
    · cases hs
  | run => cases hb

/-- A step that carries on with what is due. -/
theorem Matches.on {calls : List (Nat × Move)} {g : GlobalBackend.State}
    (M : Matches cfg s calls g) (hact : ∀ u, (activity s').begun u = (activity s).begun u)
    (hcount : s'.lockSlotCount = s.lockSlotCount)
    (hdue : ∀ v info us, Due cfg s v info us →
      ∃ us', Due cfg s' v info us' ∧ outcome cfg s' v info us' = outcome cfg s v info us) :
    Matches cfg s' calls g := by
  obtain ⟨v, info, us, D, hA⟩ := M.due
  obtain ⟨us', D', hout⟩ := hdue v info us D
  exact ⟨M.reachable, M.running, M.quiet, fun u => (M.hist u).trans (hact u).symm,
    M.count.trans hcount.symm, v, info, us', D', hout ▸ hA⟩

theorem run_outside (h : threadRun cfg s t = some s') : (s.thr t).pc ≠ .outside := by
  intro hpc
  simp [threadRun, hpc] at h

theorem run_lockSlotCount (h : threadRun cfg s t = some s') :
    s'.lockSlotCount = s.lockSlotCount := by
  unfold threadRun at h
  split at h
  case h_1 => cases h
  case h_2 c bits w hp =>
    split at h
    · cases h
      rfl
    · split at h <;> cases h <;> rfl
  case h_3 c e q hp =>
    cases h
    cases q with
    | loadState | compareExchange | spin =>
      simp only [ensureRun]
      split <;> rfl
    | semInit | storeStop | storePending | create | storeState => rfl
  case h_4 c e hp =>
    obtain ⟨r, -, rfl⟩ := Option.map_eq_some_iff.mp h
    rfl
  case h_5 c e hp =>
    obtain ⟨r, -, rfl⟩ := Option.map_eq_some_iff.mp h
    split
    · split <;> rfl
    · rfl
    · rfl
  case h_6 c e why hp => split at h <;> cases h <;> rfl
  case h_7 c e why hp =>
    cases h
    rfl
  case h_8 c hp => split at h <;> cases h <;> rfl

theorem due_shutdown (h : ShutdownStep s s') (D : Due cfg s v info us) :
    Due cfg s' v info us ∧ outcome cfg s' v info us = outcome cfg s v info us := by
  cases h <;> exact ⟨by
    cases D with
    | nothing hus hf hw hn => exact .nothing hus hf hw hn
    | thread k hc hf hw hn => exact .thread k hc hf hw hn
    | ring k e he hf hw hother hn => exact .ring k e he hf hw hother hn
    | worker i hl hf hw hn => exact .worker i (hl.congr rfl rfl rfl) hf hw hn, rfl⟩

theorem logged_reachable {K : State → Act → Prop} {p : State × List (Nat × Move)}
    (h : Runs.ReachableBy (logged cfg) (fun p a => K p.1 a) p) :
    Runs.ReachableBy (system cfg) K p.1 :=
  Runs.ReachableBy.fst (M := system cfg) (fun _ _ hk => hk) h

theorem thread_step (hs : (system cfg).step s (.thread t mv) = some s') :
    threadStep cfg s t mv = some s' := by
  change step cfg s (.thread t mv) = some s' at hs
  unfold step at hs
  split at hs
  · cases hs
  · simp only at hs
    split at hs
    · exact hs
    · cases hs

theorem matches_initial : Matches cfg initial [] GlobalBackend.initial := by
  have hrest : AtRest initial := ⟨fun _ => rfl, fun _ => rfl, fun _ => trivial⟩
  refine ⟨.init, rfl, fun _ => rfl, fun _ => rfl, rfl, 0, ⟨none, 0⟩, [], hrest.nothing, ?_⟩
  refine ⟨⟨fun u v => ?_, fun _ _ _ => rfl⟩, .nil⟩
  exact Bool.eq_false_iff.mpr (initial_not_E u v)

/-- **Between two calls** the global backend waits. -/
theorem matches_between {a : Act} {calls : List (Nat × Move)} {g : GlobalBackend.State}
    (hr : Runs.ReachableBy (system cfg) (Serial cfg) s) (hg : Serial cfg s a)
    (hs : (system cfg).step s a = some s') (hb : a.mover.2.begins = false)
    (M : Matches cfg s calls g) : Matches cfg s' calls g := by
  have hr' : Runs.ReachableBy (system cfg) (Serial cfg) s' := .step hr hg hs
  have T := threadOk hr
  have R := ringInv hr
  obtain ⟨-, hstep⟩ := step_cases hs
  have hact := activity_step T hstep
  cases hstep with
  | thread t mv ht h =>
    have hrun := thread_step hs
    cases mv with
    | register | acquire c | release l => cases hb
    | run =>
      have hout := run_outside hrun
      have hcount := run_lockSlotCount hrun
      have hcalling : calling (s.thr t).pc ≠ none := by
        cases hpc : (s.thr t).pc with
        | outside => exact absurd hpc hout
        | _ => simp
      refine M.on (hact.begun hcalling) hcount fun v info us D => ?_
      refine ⟨us, due_run (T t) (edgeInv hr) (lifeInv hr) R h hout hcount D, ?_⟩
      exact outcome_same (graph_thread h) hcount (reports_thread h)
  | worker i h =>
    refine M.on (fun u => ?_) (lockSlotCount_worker h) fun v info us D => ?_
    · simp only [Activity.begun, activity, h.life.1]
    · exact due_worker (edgeInv hr) (lifeInv hr) R (ringInv hr') h D
  | shutdown h =>
    refine M.on (fun u => ?_) (by cases h <;> rfl) fun v info us D => ⟨us, due_shutdown h D⟩
    simp only [Activity.begun, activity, h.keeps.thr]

/-- **The global backend takes the same calls**, in every run whose calls do not overlap. -/
theorem matches_run {p : State × List (Nat × Move)}
    (h : Runs.ReachableBy (logged cfg) (fun p a => Serial cfg p.1 a) p) :
    Overflows (activity p.1) ∨ ∃ g, Matches cfg p.1 p.2 g := by
  refine h.invariant (P := fun p => Overflows (activity p.1) ∨ ∃ g, Matches cfg p.1 p.2 g)
    (Or.inr ⟨_, matches_initial⟩) ?_
  rintro ⟨s, calls⟩ ⟨s', calls'⟩ a hr I hg hs
  obtain ⟨hs, hcalls⟩ := Runs.withHistory_step hs
  have hr₀ := logged_reachable hr
  have hr₁ : Runs.ReachableBy (system cfg) (Serial cfg) s' := .step hr₀ hg hs
  obtain ⟨-, hstep⟩ := step_cases hs
  rcases I with hover | ⟨g, M⟩
  · exact Or.inl (hover.step (threadOk hr₀) hstep (wellFormed hr₁).1)
  · change calls' = noteCall calls s a s' at hcalls
    rw [hcalls]
    unfold noteCall
    cases hb : a.mover.2.begins with
    | true =>
      obtain ⟨hrest, hsite⟩ := hg hb
      rw [if_pos rfl]
      cases hstep with
      | thread t mv ht h =>
        exact call_matches (threadOk hr₀ t) (edgeInv hr₀) M hrest hsite ht hb (thread_step hs)
      | worker i h => cases hb
      | shutdown h => cases hb
    | false =>
      rw [if_neg (by simp)]
      exact Or.inr ⟨g, matches_between hr₀ hg hs hb M⟩

/-- **The ring-buffer backend and the global one agree** after the same calls in the same
order, when every call finds the last one worked off. -/
theorem serial_backends_agree {p : State × List (Nat × Move)}
    (h : Runs.ReachableBy (logged cfg) (fun p a => Serial cfg p.1 a) p) (hrest : AtRest p.1) :
    ∃ g, Runs.ReachableBy GlobalBackend.logged GlobalBackend.Alone (g, p.2) ∧
      GlobalBackend.Quiet g ∧ (∀ t, (g.thr t).hist = (p.1.thr t).hist) ∧
      (∀ u v, p.1.graph.edge u v = g.graph.edge u v) ∧
      (cfg.reportSites = true → ∀ u v, p.1.graph.edgeInfo u v = g.graph.edgeInfo u v) ∧
      (p.1.reports.map (Report.shown cfg.reportSites)).Perm
        (g.reports.map (Report.shown cfg.reportSites)) := by
  rcases matches_run h with ⟨t, c, hc, -⟩ | ⟨g, M⟩
  · rw [show (activity p.1).call t = calling (p.1.thr t).pc from rfl, hrest.outside t] at hc
    cases hc
  · obtain ⟨hA, hhist⟩ := M.at_rest hrest
    exact ⟨g, M.reachable, M.quiet, hhist, hA.table.edge, hA.table.infos, hA.reports⟩

/-! ## Two locks in both orders, one call after the other -/

/-- A batch without progress is empty. -/
theorem batch_fresh {G : State → Act → Prop} (h : Runs.ReachableBy (system cfg) G s) :
    ∀ i second k b, s.worker i = .drain second k b → b.madeProgress = false → b = .empty := by
  refine h.invariant (P := fun s => ∀ i second k b, s.worker i = .drain second k b →
    b.madeProgress = false → b = .empty) (fun i second k b hw => by cases hw) ?_
  intro s s' a hr I _ hs j second k b hw hb
  cases (step_cases hs).2 with
  | thread t mv ht h =>
    rcases worker_thread (lifeInv hr) h j with hsame | ⟨-, hnew⟩
    · exact I j second k b (hsame ▸ hw) hb
    · rw [hnew] at hw
      cases hw
      rfl
  | worker i h =>
    obtain rfl := worker_only (lifeInv hr) h j (by rw [hw]; simp)
    rcases drains_worker (ringInv hr) h hw with ⟨-, hb'⟩ | ⟨k₀, b₀, hw₀, rfl | hb', -⟩
    · exact hb'
    · exact I j second k₀ b hw₀ hb
    · rw [hb] at hb'
      cases hb'
  | shutdown h =>
    rw [h.keeps.worker] at hw
    exact I j second k b hw hb

def unladen : WorkerPc → Bool
  | .drain _ _ b => !b.madeProgress
  | .target _ _ rest => rest.isEmpty
  | .edges .. => false
  | .storeIdle | .storeBusy | .loadStop | .scan _ | .semWait | .exited => true

/-- `AtRest`, computed. -/
def atRest (s : State) : Bool :=
  ((List.range maxThreadSlots).all fun t =>
    decide ((s.thr t).pc = .outside) && (waiting s t).isEmpty) && unladen (s.worker (s.created - 1))

theorem atRest_spec {G : State → Act → Prop} (h : Runs.ReachableBy (system cfg) G s)
    (hb : atRest s = true) : AtRest s := by
  simp only [atRest, Bool.and_eq_true, List.all_eq_true, List.mem_range, decide_eq_true_eq,
    List.isEmpty_iff] at hb
  obtain ⟨hthr, hun⟩ := hb
  refine ⟨fun t => ?_, fun t => ?_, fun i => ?_⟩
  · by_cases ht : t < maxThreadSlots
    · exact (hthr t ht).1
    · rw [thr_free h (Nat.le_of_not_lt ht)]
      rfl
  · by_cases ht : t < maxThreadSlots
    · exact (hthr t ht).2
    · exact waiting_free h (Nat.le_of_not_lt ht)
  · by_cases hi : i = s.created - 1
    · rw [hi]
      generalize hw : s.worker (s.created - 1) = pc at hun
      cases pc with
      | drain second k b => exact batch_fresh h _ _ _ _ hw (by simpa [unladen] using hun)
      | target second b rest => exact List.isEmpty_iff.mp hun
      | edges second b v todo rest => cases hun
      | _ => trivial
    · have hex : s.worker i = .exited := by
        by_contra hne
        have := (lifeInv h).latest i hne
        omega
      rw [hex]
      trivial

/-- Every call finds the last one worked off, and has a call site. -/
def serial (s : State) (a : Act) : Bool :=
  match a.mover.2 with
  | .run => true
  | .acquire c => atRest s && decide (c.acquirePc ≠ 0)
  | .register | .release _ => atRest s

/-- Thread 0 locks 0 then 1, thread 1 locks 1 then 0; the worker follows at once. -/
def oneByOne : List (List Act) :=
  [[.thread 0 .register, .thread 0 .register, .thread 0 (.acquire ⟨.lock, 0, 7⟩),
      .thread 0 (.acquire ⟨.lock, 1, 7⟩)] ++ List.replicate 26 (.thread 0 .run) ++
      List.replicate 6 (.worker 0),
    List.replicate 5 (.worker 0) ++ [.thread 0 (.release 1), .thread 0 (.release 0),
      .thread 1 (.acquire ⟨.lock, 1, 9⟩), .thread 1 (.acquire ⟨.lock, 0, 9⟩)] ++
      List.replicate 19 (.thread 1 .run) ++ List.replicate 8 (.worker 0),
    List.replicate 5 (.worker 0) ++ [.thread 1 (.release 0), .thread 1 (.release 1)]]

theorem oneByOne_runs : (execLegs ⟨false, true⟩ serial initial oneByOne).isSome = true := by
  decide +kernel

theorem serial_reachable {legs : List (List Act)}
    (h : execLegs cfg serial initial legs = some s) :
    Runs.ReachableBy (system cfg) (Serial cfg) s := by
  refine (execLegs_reachable (fun _ _ => rfl) .init h).mono_of fun s a hr _ hg hb => ?_
  unfold serial at hg
  split at hg
  · rename_i hmv
    rw [hmv] at hb
    cases hb
  · rename_i c hmv
    rw [Bool.and_eq_true, decide_eq_true_eq] at hg
    refine ⟨atRest_spec hr hg.1, fun _ d hd => ?_⟩
    obtain rfl : c = d := Move.acquire.inj (hmv.symm.trans hd)
    exact hg.2
  · rename_i hmv
    exact ⟨atRest_spec hr hg, fun _ d hd => by rw [hmv] at hd; cases hd⟩
  · rename_i l hmv
    exact ⟨atRest_spec hr hg, fun _ d hd => by rw [hmv] at hd; cases hd⟩

theorem serial_backends_agree_oneByOne : ∃ p g,
    Runs.ReachableBy (logged ⟨false, true⟩) (fun p a => Serial ⟨false, true⟩ p.1 a) p ∧
      Runs.ReachableBy GlobalBackend.logged GlobalBackend.Alone (g, p.2) ∧
      p.1.reports = [⟨1, 0, [0, 1], ⟨some 1, 9⟩, [⟨some 0, 7⟩]⟩] ∧ g.reports ≠ [] ∧
      g.graph.edge 1 0 = true := by
  have hs := (Option.some_get oneByOne_runs).symm
  have hr := serial_reachable hs
  have hrest := atRest_spec hr (by decide +kernel)
  obtain ⟨calls, hp⟩ : ∃ calls, Runs.ReachableBy (logged ⟨false, true⟩)
      (fun p a => Serial ⟨false, true⟩ p.1 a) (_, calls) := hr.exists_history
  obtain ⟨g, hg, -, -, hedge, -, hreports⟩ := serial_backends_agree hp hrest
  have hrb : ((execLegs ⟨false, true⟩ serial initial oneByOne).get oneByOne_runs).reports =
      [⟨1, 0, [0, 1], ⟨some 1, 9⟩, [⟨some 0, 7⟩]⟩] := by decide +kernel
  have h10 : ((execLegs ⟨false, true⟩ serial initial oneByOne).get
      oneByOne_runs).graph.edge 1 0 = true := by decide +kernel
  refine ⟨_, g, hp, hg, hrb, fun hnil => ?_, hedge 1 0 ▸ h10⟩
  rw [hnil, hrb] at hreports
  exact absurd hreports (by simp)

end RbBackend

end ScaleLockDep
