import ScaleLockDep.DependencyGraph
import ScaleLockDep.LockActivity
import ScaleLockDep.Runs

/-!
# The global backend, step by step

`lockdep_potential_on_acquire` in `global` mode, called by any number of threads
at once.  One step is one unlocked read of the predecessor summary
(`lockdep_global_has_unknown_predecessor`), one section under `g_meta_lock`
(`lockdep_add_edge_and_check_cycle`, the registration of a lock slot), or one
report.  Which mutexes a thread may acquire is left open, so every order of
acquisitions and releases is a run.

* `step_cases`: what one step can do;
* `GraphInv`: the graph, its summary and the reports, in every reachable state.
-/

namespace ScaleLockDep.GlobalBackend

open ThreadState DependencyGraph Cycles Relation

/-! ## States and steps -/

inductive Pc
  | outside
  /-- `lockdep_global_has_unknown_predecessor`, at held lock `i` -/
  | scan (c : Call) (i : Nat)
  /-- `lockdep_global_on_acquire`, at held lock `i` -/
  | add (c : Call) (i : Nat)
  /-- the insertion for held lock `i` found a cycle -/
  | report (c : Call) (i : Nat) (r : Report)
  /-- `lockdep_push_held_lock_slot` -/
  | push (c : Call)
  deriving DecidableEq, Repr

/-- `hist` is history: the completed calls of the thread. -/
structure Thread where
  pc : Pc
  tls : ThreadState
  hist : List Op

structure State where
  graph : DependencyGraph
  lockSlotCount : Nat
  thr : Nat → Thread
  reports : List Report
  exited : Bool

def initial : State where
  graph := DependencyGraph.initial
  lockSlotCount := 0
  thr := fun _ => ⟨.outside, ThreadState.initial, []⟩
  reports := []
  exited := false

namespace State

def setPc (s : State) (t : Nat) (pc : Pc) : State :=
  { s with thr := Function.update s.thr t { s.thr t with pc := pc } }

/-- The call `op` of `t` is complete. -/
def complete (s : State) (t : Nat) (ts : ThreadState) (op : Op) : State :=
  { s with thr := Function.update s.thr t ⟨.outside, ts, (s.thr t).hist ++ [op]⟩ }

def held (s : State) (t : Nat) : List Nat := (s.thr t).tls.heldLockSlots

/-- A new lock slot. -/
def register (s : State) : State := { s with lockSlotCount := s.lockSlotCount + 1 }

def setGraph (s : State) (g : DependencyGraph) : State := { s with graph := g }

def addReport (s : State) (x : Report) : State := { s with reports := s.reports ++ [x] }

/-- `lockdep_panic`. -/
def exit (s : State) : State := { s with exited := true }

end State

structure Act where
  tid : Nat
  move : Move
  deriving DecidableEq, Repr

open State

/-- After an insertion: the report it found is made outside `g_meta_lock`. -/
def afterAdd (c : Call) (i : Nat) : Option Report → Pc
  | none => .add c (i + 1)
  | some x => .report c i x

def runStep (s : State) (t : Nat) : Option State :=
  match (s.thr t).pc with
  | .outside => none
  | .scan c i =>
      match (s.held t)[i]? with
      | none => some (s.setPc t (.push c))
      | some h =>
          if h = c.lockSlot then some (s.setPc t (.scan c (i + 1)))
          else if s.graph.bitTest c.lockSlot h then some (s.setPc t (.scan c (i + 1)))
          else some (s.setPc t (.add c 0))
  | .add c i =>
      match (s.held t)[i]? with
      | none => some (s.setPc t (.push c))
      | some h =>
          if h = c.lockSlot then some (s.setPc t (.add c (i + 1)))
          else
            let r := s.graph.addEdgeAndCheckCycle s.lockSlotCount h c.lockSlot
              ⟨some t, c.acquirePc⟩
            some ((s.setGraph r.1).setPc t (afterAdd c i r.2))
  | .report c i x => some ((s.addReport x).setPc t (.add c (i + 1)))
  | .push c =>
      match (s.thr t).tls.pushHeldLockSlot .global c.lockSlot with
      | none => some s.exit
      | some ts => some (s.complete t ts (.acquire c.api c.lockSlot))

def step (s : State) (a : Act) : Option State :=
  if s.exited = true ∨ maxThreadSlots ≤ a.tid then none
  else
    match a.move with
    | .register =>
        if s.lockSlotCount < maxLockSlots then some s.register else none
    | .acquire c =>
        if (s.thr a.tid).pc = .outside ∧ c.lockSlot < s.lockSlotCount then
          -- the first lock of a thread goes on the stack at once
          if s.held a.tid = [] then
            some (s.complete a.tid ((s.thr a.tid).tls.acquireTopLevel .global c.lockSlot)
              (.acquire c.api c.lockSlot))
          else some (s.setPc a.tid (.scan c 0))
        else none
    | .release l =>
        if (s.thr a.tid).pc = .outside ∧ l ∈ s.held a.tid then
          some (s.complete a.tid ((s.thr a.tid).tls.release .global l) (.release l))
        else none
    | .run => runStep s a.tid

def system : Runs.System State Act := ⟨initial, step⟩

/-! ## Step inversion -/

/-- What one step of thread `t` can do. -/
inductive Step (s : State) (t : Nat) (mv : Move) : State → Prop
  | register (h : s.lockSlotCount < maxLockSlots) : Step s t mv s.register
  | top (c : Call) (h : (s.thr t).pc = .outside) (hl : c.lockSlot < s.lockSlotCount)
      (hnil : s.held t = []) (hmv : mv = .acquire c) :
      Step s t mv (s.complete t ((s.thr t).tls.acquireTopLevel .global c.lockSlot)
        (.acquire c.api c.lockSlot))
  | nested (c : Call) (h : (s.thr t).pc = .outside) (hl : c.lockSlot < s.lockSlotCount)
      (hnil : s.held t ≠ []) (hmv : mv = .acquire c) : Step s t mv (s.setPc t (.scan c 0))
  | release (l : Nat) (h : (s.thr t).pc = .outside) (hl : l ∈ s.held t) :
      Step s t mv (s.complete t ((s.thr t).tls.release .global l) (.release l))
  | known (c : Call) (i : Nat) (h : (s.thr t).pc = .scan c i) (u : Nat)
      (hu : (s.held t)[i]? = some u)
      (hk : u = c.lockSlot ∨ s.graph.bitTest c.lockSlot u = true) :
      Step s t mv (s.setPc t (.scan c (i + 1)))
  | unknown (c : Call) (i : Nat) (h : (s.thr t).pc = .scan c i) (u : Nat)
      (hu : (s.held t)[i]? = some u) (hne : u ≠ c.lockSlot)
      (hk : s.graph.bitTest c.lockSlot u = false) : Step s t mv (s.setPc t (.add c 0))
  | toPush (c : Call) (i : Nat) (h : (s.thr t).pc = .scan c i ∨ (s.thr t).pc = .add c i)
      (hu : (s.held t)[i]? = none) : Step s t mv (s.setPc t (.push c))
  | same (c : Call) (i : Nat) (h : (s.thr t).pc = .add c i)
      (hu : (s.held t)[i]? = some c.lockSlot) : Step s t mv (s.setPc t (.add c (i + 1)))
  | insert (c : Call) (i : Nat) (h : (s.thr t).pc = .add c i) (u : Nat)
      (hu : (s.held t)[i]? = some u) (hne : u ≠ c.lockSlot) (r : DependencyGraph × Option Report)
      (hr : r = s.graph.addEdgeAndCheckCycle s.lockSlotCount u c.lockSlot
        ⟨some t, c.acquirePc⟩) :
      Step s t mv ((s.setGraph r.1).setPc t (afterAdd c i r.2))
  | report (c : Call) (i : Nat) (x : Report) (h : (s.thr t).pc = .report c i x) :
      Step s t mv ((s.addReport x).setPc t (.add c (i + 1)))
  | push (c : Call) (h : (s.thr t).pc = .push c) (ts : ThreadState)
      (hts : (s.thr t).tls.pushHeldLockSlot .global c.lockSlot = some ts) :
      Step s t mv (s.complete t ts (.acquire c.api c.lockSlot))
  | overflow (c : Call) (h : (s.thr t).pc = .push c) : Step s t mv s.exit

theorem runStep_cases {s s' : State} {t : Nat} {mv : Move} (h : runStep s t = some s') :
    Step s t mv s' := by
  unfold runStep at h
  split at h
  case h_1 => cases h
  case h_2 c i hp =>
    split at h
    · rename_i hn
      cases h; exact .toPush c i (Or.inl hp) hn
    · rename_i u hu
      split at h
      · rename_i he
        cases h; exact .known c i hp u hu (Or.inl he)
      · rename_i hne
        split at h
        · rename_i hb
          cases h; exact .known c i hp u hu (Or.inr hb)
        · rename_i hb
          cases h; exact .unknown c i hp u hu hne (by simpa using hb)
  case h_3 c i hp =>
    split at h
    · rename_i hn
      cases h; exact .toPush c i (Or.inr hp) hn
    · rename_i u hu
      split at h
      · rename_i he
        cases h; exact .same c i hp (he ▸ hu)
      · rename_i hne
        cases h; exact .insert c i hp u hu hne _ rfl
  case h_4 c i x hp => cases h; exact .report c i x hp
  case h_5 c hp =>
    split at h
    · cases h; exact .overflow c hp
    · rename_i ts hts
      cases h; exact .push c hp ts hts

/-- **Step inversion.** -/
theorem step_cases {s s' : State} {a : Act} (h : system.step s a = some s') :
    s.exited = false ∧ a.tid < maxThreadSlots ∧ Step s a.tid a.move s' := by
  change step s a = some s' at h
  unfold step at h
  split at h
  · cases h
  · rename_i hok
    simp only [not_or, Bool.not_eq_true, not_le] at hok
    refine ⟨hok.1, hok.2, ?_⟩
    split at h
    case h_1 =>
      split at h
      · rename_i hn
        cases h; exact .register hn
      · cases h
    case h_2 c hm =>
      split at h
      · rename_i hc
        split at h
        · rename_i hnil
          cases h; exact .top c hc.1 hc.2 hnil hm
        · rename_i hnil
          cases h; exact .nested c hc.1 hc.2 hnil hm
      · cases h
    case h_3 l hm =>
      split at h
      · rename_i hc
        cases h; exact .release l hc.1 hc.2
      · cases h
    case h_4 => exact runStep_cases h

/-! ## What the operations do -/

namespace State
variable (s : State) (t u : Nat) (pc : Pc) (ts : ThreadState) (op : Op) (g : DependencyGraph)
  (x : Report)

@[grind =] theorem setPc_pc : ((s.setPc t pc).thr u).pc = if u = t then pc else (s.thr u).pc := by
  by_cases h : u = t
  · subst h; simp [setPc]
  · simp [setPc, h]

@[simp, grind =] theorem setPc_tls : ((s.setPc t pc).thr u).tls = (s.thr u).tls := by
  by_cases h : u = t
  · subst h; simp [setPc]
  · simp [setPc, h]

@[simp, grind =] theorem setPc_hist : ((s.setPc t pc).thr u).hist = (s.thr u).hist := by
  by_cases h : u = t
  · subst h; simp [setPc]
  · simp [setPc, h]

@[simp, grind =] theorem setPc_held : (s.setPc t pc).held u = s.held u := by simp [held]
@[simp, grind =] theorem setPc_graph : (s.setPc t pc).graph = s.graph := rfl
@[simp, grind =] theorem setPc_reports : (s.setPc t pc).reports = s.reports := rfl
@[simp, grind =] theorem setPc_lockSlotCount :
    (s.setPc t pc).lockSlotCount = s.lockSlotCount := rfl

@[grind =] theorem complete_pc :
    ((s.complete t ts op).thr u).pc = if u = t then .outside else (s.thr u).pc := by
  by_cases h : u = t
  · subst h; simp [complete]
  · simp [complete, h]

@[grind =] theorem complete_held :
    (s.complete t ts op).held u = if u = t then ts.heldLockSlots else s.held u := by
  by_cases h : u = t
  · subst h; simp [complete, held]
  · simp [complete, held, h]

@[grind =] theorem complete_hist : ((s.complete t ts op).thr u).hist =
    if u = t then (s.thr t).hist ++ [op] else (s.thr u).hist := by
  by_cases h : u = t
  · subst h; simp [complete]
  · simp [complete, h]

@[simp, grind =] theorem complete_graph : (s.complete t ts op).graph = s.graph := rfl
@[simp, grind =] theorem complete_reports : (s.complete t ts op).reports = s.reports := rfl
@[simp, grind =] theorem complete_lockSlotCount :
    (s.complete t ts op).lockSlotCount = s.lockSlotCount := rfl

@[simp, grind =] theorem register_thr : s.register.thr = s.thr := rfl
@[simp, grind =] theorem setGraph_thr : (s.setGraph g).thr = s.thr := rfl
@[simp, grind =] theorem addReport_thr : (s.addReport x).thr = s.thr := rfl
@[simp, grind =] theorem exit_thr : s.exit.thr = s.thr := rfl
@[simp, grind =] theorem register_held : s.register.held u = s.held u := rfl
@[simp, grind =] theorem setGraph_held : (s.setGraph g).held u = s.held u := rfl
@[simp, grind =] theorem addReport_held : (s.addReport x).held u = s.held u := rfl
@[simp, grind =] theorem exit_held : s.exit.held u = s.held u := rfl
@[simp, grind =] theorem register_graph : s.register.graph = s.graph := rfl
@[simp, grind =] theorem setGraph_graph : (s.setGraph g).graph = g := rfl
@[simp, grind =] theorem addReport_graph : (s.addReport x).graph = s.graph := rfl
@[simp, grind =] theorem exit_graph : s.exit.graph = s.graph := rfl
@[simp, grind =] theorem register_reports : s.register.reports = s.reports := rfl
@[simp, grind =] theorem setGraph_reports : (s.setGraph g).reports = s.reports := rfl
@[simp, grind =] theorem addReport_reports : (s.addReport x).reports = s.reports ++ [x] := rfl
@[simp, grind =] theorem exit_reports : s.exit.reports = s.reports := rfl
@[simp, grind =] theorem register_lockSlotCount :
    s.register.lockSlotCount = s.lockSlotCount + 1 := rfl
@[simp, grind =] theorem setGraph_lockSlotCount :
    (s.setGraph g).lockSlotCount = s.lockSlotCount := rfl
@[simp, grind =] theorem addReport_lockSlotCount :
    (s.addReport x).lockSlotCount = s.lockSlotCount := rfl
@[simp, grind =] theorem exit_lockSlotCount : s.exit.lockSlotCount = s.lockSlotCount := rfl

end State

end ScaleLockDep.GlobalBackend
