import ScaleLockDep.RbEdges

/-!
# The worker's tables over any sequence of insertions

`lockdep_rb_add_edge_if_new` called in any order, with lock slots being registered
in between.

* `updateRows_eq`, `foldl_stores`: the loop of `lockdep_rb_update_reachability` in
  place, and an insertion store by store, give the tables of `RbGraph.insert`;
* `tables_consistent`: the four matrices agree after every call, and the reachability
  check, the search and the chain of a report never disagree;
* `RbBackend.tables_reachable`: the tables of the backend are such tables.
-/

namespace ScaleLockDep

open Relation Cycles PathSearch

namespace RbGraph

/-! ## Store by store -/

/-- The loop of `lockdep_rb_update_reachability` over the rows `srcs`. -/
def updateRows (u : Nat) (targets : WordSet) : List Nat → (Nat → WordSet) → Nat → WordSet
  | [], reach => reach
  | src :: srcs, reach =>
      updateRows u targets srcs
        (if src ≠ u ∧ (reach src).test u = false then reach
        else Function.update reach src ((reach src).union targets))

/-- The stores of `lockdep_rb_add_edge_if_new` for a new edge, in order. -/
def stores (lockSlotCount u v : Nat) (info : EdgeInfo) : List (RbGraph → RbGraph) :=
  [fun g => { g with
      adjacencyBits := Function.update g.adjacencyBits u ((g.adjacencyBits u).set v) },
    fun g => { g with
      edgeInfo := Function.update g.edgeInfo u (Function.update (g.edgeInfo u) v info) },
    fun g => { g with
      predecessorBits := Function.update g.predecessorBits v ((g.predecessorBits v).set u) },
    fun g => { g with
      predecessorSnapshot :=
        Function.update g.predecessorSnapshot v ((g.predecessorSnapshot v).set u) },
    fun g => { g with
      reachabilityBits := updateRows u ((g.reachabilityBits v).set v) (List.range lockSlotCount)
        g.reachabilityBits }]

/-- The tables after the first `k` stores. -/
def storeSome (g : RbGraph) (lockSlotCount u v : Nat) (info : EdgeInfo) (k : Nat) : RbGraph :=
  ((stores lockSlotCount u v info).take k).foldl (fun g f => f g) g

variable {g : RbGraph} {n u v x y : Nat} {info : EdgeInfo}

theorem updateRows_apply {targets : WordSet} {srcs : List Nat} (hnd : srcs.Nodup)
    (reach : Nat → WordSet) : updateRows u targets srcs reach x =
      if x ∈ srcs ∧ (x = u ∨ (reach x).test u = true) then (reach x).union targets
      else reach x := by
  induction srcs generalizing reach with
  | nil => simp [updateRows]
  | cons src srcs ih =>
    obtain ⟨hnot, hnd⟩ := List.nodup_cons.mp hnd
    rw [updateRows, ih hnd]
    by_cases hx : x = src
    · subst hx
      simp only [hnot, false_and, if_false, List.mem_cons, true_or, true_and]
      by_cases hrow : x = u ∨ (reach x).test u = true
      · rw [if_pos hrow, if_neg (by grind), Function.update_self]
      · rw [if_neg hrow, if_pos (by grind)]
    · -- the row of `x` is left alone by this pass
      have hsame : (if src ≠ u ∧ (reach src).test u = false then reach
          else Function.update reach src ((reach src).union targets)) x = reach x := by
        split
        · rfl
        · exact Function.update_of_ne hx _ _
      simp only [hsame, List.mem_cons, hx, false_or]

/-- **The loop in place computes the new rows.** -/
theorem updateRows_eq (reach : Nat → WordSet) :
    updateRows u ((reach v).set v) (List.range n) reach = updateReachability reach n u v := by
  funext x
  rw [updateRows_apply List.nodup_range, updateReachability]
  simp only [List.mem_range]

/-- **An insertion, store by store.** -/
theorem foldl_stores : (stores n u v info).foldl (fun g f => f g) g = g.insert n u v info := by
  simp only [stores, List.foldl_cons, List.foldl_nil, updateRows_eq]
  rfl

/-- **The snapshot never runs ahead of the edges**, also between the stores. -/
theorem edge_of_snapshot_storeSome (h : WF n g) (k : Nat)
    (hs : ((g.storeSome n u v info k).predecessorSnapshot y).test x = true) :
    (g.storeSome n u v info k).edge x y = true := by
  have hold := h.snapshot x y
  -- the snapshot is the old one up to the fourth store, and the edge is there from the first on
  have hset (ho : g.edge x y = true ∨ (y = v ∧ x = u)) :
      (Function.update g.adjacencyBits u ((g.adjacencyBits u).set v) x).test y = true := by
    rw [test_update_row, Bool.or_eq_true, decide_eq_true_eq]
    exact ho.imp_right And.symm
  have hnew (hs : (Function.update g.predecessorSnapshot v
      ((g.predecessorSnapshot v).set u) y).test x = true) :
      (Function.update g.adjacencyBits u ((g.adjacencyBits u).set v) x).test y = true := by
    rw [test_update_row, Bool.or_eq_true, decide_eq_true_eq, hold] at hs
    exact hset hs
  rcases k with _ | _ | _ | _ | _ | k
  · exact hold ▸ hs
  · exact hset (Or.inl (hold ▸ hs))
  · exact hset (Or.inl (hold ▸ hs))
  · exact hset (Or.inl (hold ▸ hs))
  · exact hnew hs
  · rw [storeSome, List.take_of_length_le (Nat.le_add_left 5 k), foldl_stores] at hs ⊢
    exact hnew hs

/-- `lockdep_rb_add_edge_if_new`, store by store. -/
def addEdgeStores (g : RbGraph) (lockSlotCount u v : Nat) (info : EdgeInfo) :
    RbGraph × Option Report :=
  if u = v ∨ (g.predecessorBits v).test u = true then (g, none)
  else ((stores lockSlotCount u v info).foldl (fun g f => f g) g,
    g.reportCycleIfAny lockSlotCount u v info)

theorem addEdgeStores_eq : g.addEdgeStores n u v info = g.addEdgeIfNew n u v info := by
  rw [addEdgeStores, addEdgeIfNew, foldl_stores]

/-! ## The search behind a report -/

theorem reach_iff_findPath (h : WF n g) (hn : n ≤ maxLockSlots) (hv : v < n) (hne : u ≠ v) :
    (g.reachabilityBits v).test u = true ↔ (g.findPath n v u).1 = true := by
  rw [h.reach, findPath_iff h hn hv, reflTransGen_iff_eq_or]
  exact (or_iff_right (Ne.symm hne)).symm

/-- After a success the parents lead back from `u` to `v`. -/
theorem backtrack_getLast (hn : n ≤ maxLockSlots) (hv : v < n)
    (hf : (g.findPath n v u).1 = true) :
    (backtrack (g.findPath n v u).2.parent v maxLockSlots (some u)).getLast? = some v := by
  have hhead : (chainFrom (g.findPath n v u).2.parent v u maxLockSlots).head? = some v :=
    (chainFrom_findPath (List.mem_range.mpr hv) (by simpa using hn) (by simpa using hn) hf).1
  by_contra hlast
  rw [chainFrom, if_neg hlast] at hhead
  cases hhead

/-- A report is made for the edges that are new and close a cycle. -/
theorem report_isSome_iff (h : WF n g) (hn : n ≤ maxLockSlots) (hv : v < n) :
    (g.addEdgeIfNew n u v info).2.isSome = true ↔ u ≠ v ∧ ¬ g.E u v ∧ TransGen g.E v u := by
  rcases addEdgeIfNew_cases (u := u) info h hn hv with
    ⟨hold, hr⟩ | ⟨hne, hnew, hp, r, hr, -⟩ | ⟨hne, hnew, hp, hr⟩
  · rw [hr]
    have hno : ¬ (u ≠ v ∧ ¬ g.E u v ∧ TransGen g.E v u) := fun hc => hold.elim hc.1 hc.2.1
    simp [hno]
  · rw [hr]
    have hpath := (reflTransGen_iff_eq_or.mp hp).resolve_left (Ne.symm hne)
    simp [hne, hnew, hpath]
  · rw [hr]
    have hno : ¬ TransGen g.E v u := fun hc => hp hc.to_reflTransGen
    simp [hno]

end RbGraph

/-! ## Sequences of insertions -/

namespace RbTables

open RbGraph

structure State where
  graph : RbGraph
  lockSlotCount : Nat

inductive Act
  | register
  | addEdge (u v : Nat) (info : EdgeInfo)
  deriving DecidableEq, Repr

def initial : State := ⟨RbGraph.initial, 0⟩

def step (s : State) : Act → Option State
  | .register =>
      if s.lockSlotCount < maxLockSlots then some { s with lockSlotCount := s.lockSlotCount + 1 }
      else none
  | .addEdge u v info =>
      if u < s.lockSlotCount ∧ v < s.lockSlotCount then
        some { s with graph := (s.graph.addEdgeStores s.lockSlotCount u v info).1 }
      else none

def system : Runs.System State Act := ⟨initial, step⟩

structure TablesInv (s : State) : Prop where
  count : s.lockSlotCount ≤ maxLockSlots
  wf : s.graph.WF s.lockSlotCount
  irrefl : ∀ u, ¬ s.graph.E u u

theorem tablesInv_initial : TablesInv initial :=
  ⟨Nat.zero_le _, initial_wf _, fun u => initial_not_E u u⟩

theorem tablesInv_step {s s' : State} {a : Act} (I : TablesInv s) (h : step s a = some s') :
    TablesInv s' := by
  cases a with
  | register =>
    simp only [step] at h
    split at h
    · rename_i hn
      cases h
      exact ⟨hn, I.wf.mono (Nat.le_succ _), I.irrefl⟩
    · cases h
  | addEdge u v info =>
    simp only [step, addEdgeStores_eq] at h
    split at h
    · rename_i hb
      cases h
      rcases addEdgeIfNew_cases (u := u) info I.wf I.count hb.2 with
        ⟨-, hr⟩ | ⟨hne, -, -, x, hr, -⟩ | ⟨hne, -, -, hr⟩
      · rw [hr]
        exact I
      all_goals
        rw [hr]
        refine ⟨I.count, I.wf.insert hb.1 hb.2, fun w hw => ?_⟩
        rw [insert_E] at hw
        rcases hw with hw | ⟨rfl, rfl⟩
        · exact I.irrefl w hw
        · exact hne rfl
    · cases h

theorem tablesInv {s : State} (h : Runs.Reachable system s) : TablesInv s :=
  h.invariant (P := TablesInv) tablesInv_initial fun _ _ _ _ I _ hs => tablesInv_step I hs

/-- What the next call finds: the reachability check and the search agree, a search
that succeeds leaves a chain that ends where it should, and there is a report exactly
for a new edge that closes a cycle. -/
structure Agreement (s : State) (u v : Nat) (info : EdgeInfo) : Prop where
  check : u ≠ v →
    (s.graph.reachabilityBits v).test u = (s.graph.findPath s.lockSlotCount v u).1
  chain : (s.graph.findPath s.lockSlotCount v u).1 = true →
    (backtrack (s.graph.findPath s.lockSlotCount v u).2.parent v maxLockSlots
      (some u)).getLast? = some v
  report : (s.graph.addEdgeStores s.lockSlotCount u v info).2.isSome = true ↔
    u ≠ v ∧ ¬ s.graph.E u v ∧ TransGen s.graph.E v u

/-- **The tables are consistent** after every sequence of calls. -/
theorem tables_consistent {s : State} (h : Runs.Reachable system s) :
    (∀ u v, (s.graph.predecessorBits v).test u = (s.graph.adjacencyBits u).test v) ∧
    (∀ u v, (s.graph.predecessorSnapshot v).test u = (s.graph.adjacencyBits u).test v) ∧
    (∀ u, (s.graph.adjacencyBits u).test u = false) ∧
    (∀ u v, (s.graph.reachabilityBits u).test v = true ↔ TransGen s.graph.E u v) ∧
    ∀ u v info, u < s.lockSlotCount → v < s.lockSlotCount → Agreement s u v info := by
  have I := tablesInv h
  refine ⟨I.wf.predecessors, I.wf.snapshot, fun u => ?_, I.wf.reach, fun u v info _ hv => ?_⟩
  · exact Bool.eq_false_iff.mpr (I.irrefl u)
  · constructor
    · intro hne
      exact Bool.eq_iff_iff.mpr (reach_iff_findPath I.wf I.count hv hne)
    · exact backtrack_getLast I.count hv
    · rw [addEdgeStores_eq]
      exact report_isSome_iff I.wf I.count hv

/-- Four slots, and the edges of a cycle with a chord, two of them offered twice. -/
def chordRun : List Act :=
  [.register, .register, .addEdge 0 1 ⟨some 0, 7⟩, .register, .addEdge 1 2 ⟨some 1, 8⟩,
    .addEdge 0 1 ⟨some 1, 9⟩, .addEdge 2 2 ⟨some 1, 9⟩, .addEdge 2 0 ⟨some 2, 5⟩, .register,
    .addEdge 0 2 ⟨some 0, 4⟩, .addEdge 3 1 ⟨some 3, 3⟩]

theorem tables_consistent_chord : ∃ s, Runs.exec system initial chordRun = some s ∧
    s.graph.E 2 0 ∧ (∀ u v, (s.graph.reachabilityBits u).test v = true ↔ TransGen s.graph.E u v) ∧
    Agreement s 1 3 ⟨some 0, 7⟩ := by
  obtain ⟨s, hs, hE, hn⟩ : ∃ s, Runs.exec system initial chordRun = some s ∧
      s.graph.edge 2 0 = true ∧ s.lockSlotCount = 4 :=
    ⟨_, rfl, by decide +kernel, rfl⟩
  have h := tables_consistent (.exec (s := initial) .init hs)
  exact ⟨s, hs, hE, h.2.2.2.1, h.2.2.2.2 1 3 ⟨some 0, 7⟩ (by omega) (by omega)⟩

end RbTables

/-! ## The tables of the backend -/

/-- **The worker's tables are built by such a sequence**, whatever the threads do. -/
theorem RbBackend.tables_reachable {cfg : RbBackend.Config} {s : RbBackend.State}
    (h : Runs.Reachable (RbBackend.system cfg) s) :
    Runs.Reachable RbTables.system ⟨s.graph, s.lockSlotCount⟩ := by
  refine h.invariant (P := fun s => Runs.Reachable RbTables.system ⟨s.graph, s.lockSlotCount⟩)
    .init fun s s' a hr R _ hs => ?_
  cases (RbBackend.step_cases hs).2 with
  | thread t mv ht h =>
    cases h with
    | register hn => exact .step (a := .register) R trivial (if_pos hn)
    | _ => exact R
  | worker i h =>
    cases h with
    | insert second b v u todo rest h r hr' =>
      subst hr'
      have hp := (RbBackend.edgeInv hr).next h
      refine .step (a := .addEdge u v (RbBackend.edgeInfoOf cfg s u v)) R trivial ?_
      exact (if_pos ⟨hp.source, hp.target⟩).trans (by rw [RbGraph.addEdgeStores_eq]; rfl)
    | _ => exact R
  | shutdown h => cases h <;> exact R

end ScaleLockDep
