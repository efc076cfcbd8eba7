import ScaleLockDep.Cycles
import ScaleLockDep.LockHistory
import ScaleLockDep.PathSearch

/-!
# The tables of the ring-buffer worker

`potential.c`: adjacency, predecessors and reachability as bit rows, the published
predecessor snapshot, and `lockdep_rb_add_edge_if_new`.

* `addEdgeIfNew_cases`: an insertion adds exactly its edge, keeps the reachability
  rows closed, and reports exactly when the new edge closes a cycle;
* `mem_edgeTodo`: the edges of one batch row.
-/

namespace ScaleLockDep

open Relation Cycles PathSearch

/-- `g_rb_adjacency_bits`, `g_rb_predecessor_bits`, `g_rb_reachability_bits`,
`g_rb_edge_info` and `g_rb_predecessor_snapshot`. -/
structure RbGraph where
  adjacencyBits : Nat → WordSet
  predecessorBits : Nat → WordSet
  reachabilityBits : Nat → WordSet
  edgeInfo : Nat → Nat → EdgeInfo
  predecessorSnapshot : Nat → WordSet

namespace RbGraph

def initial : RbGraph where
  adjacencyBits _ := WordSet.empty
  predecessorBits _ := WordSet.empty
  reachabilityBits _ := WordSet.empty
  edgeInfo _ _ := ⟨some 0, 0⟩
  predecessorSnapshot _ := WordSet.empty

def edge (g : RbGraph) (u v : Nat) : Bool := (g.adjacencyBits u).test v

/-- The edges as a relation. -/
def E (g : RbGraph) (u v : Nat) : Prop := g.edge u v = true

/-- `lockdep_rb_find_path`, with the arrays it fills. -/
def findPath (g : RbGraph) (lockSlotCount start target : Nat) : Bool × Search Nat :=
  PathSearch.findPath g.edge (List.range lockSlotCount) target maxLockSlots start Search.initial

/-- `lockdep_rb_report_cycle_if_any`. -/
def reportCycleIfAny (g : RbGraph) (lockSlotCount u v : Nat) (info : EdgeInfo) : Option Report :=
  if (g.reachabilityBits v).test u then
    let found := g.findPath lockSlotCount v u
    let chain := chainFrom found.2.parent v u maxLockSlots
    if found.1 ∧ chain ≠ [] then
      some ⟨u, v, chain, info, chainEdgeInfos g.edgeInfo chain⟩
    else none
  else none

/-- The rows after `lockdep_rb_update_reachability`; each pass of its loop reads
and writes its own row, and the targets are copied before it. -/
def updateReachability (reach : Nat → WordSet) (lockSlotCount u v : Nat) (src : Nat) : WordSet :=
  if src < lockSlotCount ∧ (src = u ∨ (reach src).test u = true) then
    (reach src).union ((reach v).set v)
  else reach src

/-- The stores of `lockdep_rb_add_edge_if_new` for a new edge. -/
def insert (g : RbGraph) (lockSlotCount u v : Nat) (info : EdgeInfo) : RbGraph where
  adjacencyBits := Function.update g.adjacencyBits u ((g.adjacencyBits u).set v)
  edgeInfo := Function.update g.edgeInfo u (Function.update (g.edgeInfo u) v info)
  predecessorBits := Function.update g.predecessorBits v ((g.predecessorBits v).set u)
  predecessorSnapshot := Function.update g.predecessorSnapshot v ((g.predecessorSnapshot v).set u)
  reachabilityBits := updateReachability g.reachabilityBits lockSlotCount u v

/-- `lockdep_rb_add_edge_if_new`, with the report it makes. -/
def addEdgeIfNew (g : RbGraph) (lockSlotCount u v : Nat) (info : EdgeInfo) :
    RbGraph × Option Report :=
  if u = v ∨ (g.predecessorBits v).test u = true then (g, none)
  else (g.insert lockSlotCount u v info, g.reportCycleIfAny lockSlotCount u v info)

/-- The sources `lockdep_rb_process_edge_bits` goes through for the target `v`:
the set bits that are no predecessor yet, lowest first. -/
def edgeTodo (g : RbGraph) (lockSlotCount v : Nat) (fromBits : WordSet) : List Nat :=
  ((fromBits.diff (g.predecessorBits v)).toList graphWords).filter (· < lockSlotCount)

/-! ## The invariant of the tables -/

/-- Edges join registered locks, the predecessors and the snapshot mirror the
adjacency, and the reachability rows are its transitive closure. -/
structure WF (n : Nat) (g : RbGraph) : Prop where
  source : ∀ u v, g.E u v → u < n
  target : ∀ u v, g.E u v → v < n
  predecessors : ∀ u v, (g.predecessorBits v).test u = g.edge u v
  snapshot : ∀ u v, (g.predecessorSnapshot v).test u = g.edge u v
  reach : ∀ u v, (g.reachabilityBits u).test v = true ↔ TransGen g.E u v

theorem initial_not_E (u v : Nat) : ¬ initial.E u v := by
  simp [E, edge, initial]

theorem initial_wf (n : Nat) : WF n initial where
  source u v h := (initial_not_E u v h).elim
  target u v h := (initial_not_E u v h).elim
  predecessors u v := by simp [edge, initial]
  snapshot u v := by simp [edge, initial]
  reach u v := by
    constructor
    · intro h
      simp [initial] at h
    · intro h
      obtain ⟨w, hw, -⟩ := TransGen.head'_iff.mp h
      exact (initial_not_E u w hw).elim

theorem WF.mono {n m : Nat} {g : RbGraph} (h : WF n g) (hnm : n ≤ m) : WF m g :=
  ⟨fun u v e => (h.source u v e).trans_le hnm, fun u v e => (h.target u v e).trans_le hnm,
    h.predecessors, h.snapshot, h.reach⟩

variable {g : RbGraph} {n u v x y : Nat} {info : EdgeInfo}

/-- Setting one bit of one row. -/
theorem test_update_row (rows : Nat → WordSet) (i j a b : Nat) :
    (Function.update rows i ((rows i).set j) a).test b =
      ((rows a).test b || decide (a = i ∧ b = j)) := by
  rw [Function.update_apply]
  split
  · rename_i ha
    subst ha
    simp [WordSet.test_set]
  · rename_i ha
    simp [ha]

theorem insert_edge : (g.insert n u v info).edge x y = (g.edge x y || decide (x = u ∧ y = v)) :=
  test_update_row g.adjacencyBits u v x y

theorem insert_E : (g.insert n u v info).E = addEdge g.E u v := by
  funext x y
  simp [E, insert_edge, addEdge]

theorem swap_decide : decide (y = v ∧ x = u) = decide (x = u ∧ y = v) :=
  decide_eq_decide.mpr and_comm

theorem reflTransGen_iff_eq_or {r : Nat → Nat → Prop} :
    ReflTransGen r x y ↔ x = y ∨ TransGen r x y := by
  rw [reflTransGen_iff_eq_or_transGen, eq_comm]

/-- The rows after an update are the closure of the graph with the new edge. -/
theorem WF.updateReachability (h : WF n g) (hu : u < n) :
    (RbGraph.updateReachability g.reachabilityBits n u v x).test y = true ↔
      TransGen (addEdge g.E u v) x y := by
  rw [transGen_addEdge, reflTransGen_iff_eq_or, reflTransGen_iff_eq_or]
  have hrow : x < n ∧ (x = u ∨ (g.reachabilityBits x).test u = true) ↔
      x = u ∨ TransGen g.E x u := by
    rw [h.reach]
    refine ⟨And.right, fun hx => ⟨?_, hx⟩⟩
    rcases hx with rfl | hx
    · exact hu
    · obtain ⟨w, hw, -⟩ := TransGen.head'_iff.mp hx
      exact h.source x w hw
  unfold RbGraph.updateReachability
  by_cases hx : x = u ∨ TransGen g.E x u
  · rw [if_pos (hrow.mpr hx)]
    simp only [WordSet.test_union, WordSet.test_set, Bool.or_eq_true, decide_eq_true_eq, h.reach]
    have hswap : TransGen g.E v y ∨ y = v ↔ v = y ∨ TransGen g.E v y := by
      rw [or_comm, eq_comm]
    simp only [hx, true_and, hswap]
  · rw [if_neg (mt hrow.mp hx), h.reach]
    simp only [hx, false_and, or_false]

theorem WF.insert (h : WF n g) (hu : u < n) (hv : v < n) : WF n (g.insert n u v info) where
  source x y e := by
    rw [insert_E] at e
    rcases e with e | ⟨rfl, -⟩
    · exact h.source x y e
    · exact hu
  target x y e := by
    rw [insert_E] at e
    rcases e with e | ⟨-, rfl⟩
    · exact h.target x y e
    · exact hv
  predecessors x y := by
    rw [insert_edge, ← h.predecessors, ← swap_decide]
    exact test_update_row g.predecessorBits v u y x
  snapshot x y := by
    rw [insert_edge, ← h.snapshot, ← swap_decide]
    exact test_update_row g.predecessorSnapshot v u y x
  reach x y := by
    rw [insert_E]
    exact h.updateReachability hu

/-- The search finds exactly the paths of the graph. -/
theorem findPath_iff (h : WF n g) (hn : n ≤ maxLockSlots) (hv : v < n) :
    (g.findPath n v u).1 = true ↔ ReflTransGen g.E v u := by
  unfold RbGraph.findPath
  rw [PathSearch.findPath_iff (List.mem_range.mpr hv) (by simpa using hn)]
  constructor
  · exact ReflTransGen.mono (fun _ _ e => e.1) _ _
  · exact ReflTransGen.mono (fun x y e => ⟨e, List.mem_range.mpr (h.target x y e)⟩) _ _

/-- **The reachability check filters nothing**: there is a report exactly when the
target reaches the source. -/
theorem reportCycleIfAny_cases (info : EdgeInfo) (h : WF n g) (hn : n ≤ maxLockSlots)
    (hv : v < n) (hne : u ≠ v) :
    (ReflTransGen g.E v u ∧ ∃ r : Report, g.reportCycleIfAny n u v info = some r ∧
      r.fromLockSlot = u ∧ r.toLockSlot = v ∧ r.Valid (addEdge g.E u v)) ∨
    (¬ ReflTransGen g.E v u ∧ g.reportCycleIfAny n u v info = none) := by
  unfold reportCycleIfAny
  have hreach : (g.reachabilityBits v).test u = true ↔ ReflTransGen g.E v u := by
    rw [h.reach, reflTransGen_iff_eq_or]
    exact (or_iff_right (Ne.symm hne)).symm
  by_cases hp : ReflTransGen g.E v u
  · left
    have hf := (findPath_iff (u := u) h hn hv).mpr hp
    obtain ⟨hhead, hlast, hnd, hpath⟩ := @chainFrom_findPath _ _ g.edge (List.range n) u v
      maxLockSlots maxLockSlots (List.mem_range.mpr hv) (by simpa using hn) (by simpa using hn) hf
    have hchain : chainFrom (g.findPath n v u).2.parent v u maxLockSlots ≠ [] := by
      intro hnil
      change (chainFrom (g.findPath n v u).2.parent v u maxLockSlots).head? = some v at hhead
      rw [hnil] at hhead
      cases hhead
    refine ⟨hp, _, (if_pos (hreach.mpr hp)).trans (if_pos ⟨hf, hchain⟩), rfl, rfl, ?_⟩
    exact ⟨Or.inr ⟨rfl, rfl⟩, hhead, hlast, hnd, hpath.imp fun _ _ e => Or.inl e⟩
  · right
    exact ⟨hp, if_neg (mt hreach.mp hp)⟩

/-- **One insertion.** -/
theorem addEdgeIfNew_cases (info : EdgeInfo) (h : WF n g) (hn : n ≤ maxLockSlots) (hv : v < n) :
    ((u = v ∨ g.E u v) ∧ g.addEdgeIfNew n u v info = (g, none)) ∨
    (u ≠ v ∧ ¬ g.E u v ∧ ReflTransGen g.E v u ∧ ∃ r : Report,
      g.addEdgeIfNew n u v info = (g.insert n u v info, some r) ∧
      r.fromLockSlot = u ∧ r.toLockSlot = v ∧ r.Valid (addEdge g.E u v)) ∨
    (u ≠ v ∧ ¬ g.E u v ∧ ¬ ReflTransGen g.E v u ∧
      g.addEdgeIfNew n u v info = (g.insert n u v info, none)) := by
  unfold addEdgeIfNew
  rw [h.predecessors]
  by_cases he : u = v ∨ g.edge u v = true
  · exact Or.inl ⟨he, if_pos he⟩
  · right
    rw [if_neg he]
    rw [not_or] at he
    rcases reportCycleIfAny_cases info h hn hv he.1 with ⟨hp, r, hr, hx⟩ | ⟨hp, hr⟩
    · exact Or.inl ⟨he.1, he.2, hp, r, by rw [hr], hx⟩
    · exact Or.inr ⟨he.1, he.2, hp, by rw [hr]⟩

/-- The sources still to insert: the bits of registered locks without an edge. -/
theorem mem_edgeTodo {bits : WordSet} (h : WF n g) (hn : n ≤ maxLockSlots) :
    u ∈ g.edgeTodo n v bits ↔ u < n ∧ bits.test u = true ∧ ¬ g.E u v := by
  have hw : 64 * graphWords = maxLockSlots := rfl
  simp only [edgeTodo, List.mem_filter, WordSet.mem_toList, WordSet.test_diff, h.predecessors,
    Bool.and_eq_true, Bool.not_eq_true', decide_eq_true_eq, E, Bool.not_eq_true]
  constructor
  · rintro ⟨⟨-, hb, he⟩, hu⟩
    exact ⟨hu, hb, he⟩
  · rintro ⟨hu, hb, he⟩
    exact ⟨⟨by omega, hb, he⟩, hu⟩

end RbGraph

end ScaleLockDep
