import ScaleLockDep.Cycles
import ScaleLockDep.LockHistory
import ScaleLockDep.PathSearch

/-!
# The global dependency graph

`graph.c`: the adjacency matrix with its edge infos and predecessor summary, and
`lockdep_add_edge_and_check_cycle`.

* `addEdge_cases`: an insertion adds exactly its edge, and reports a simple path
  closing a cycle exactly when the new edge closes one.
-/

namespace ScaleLockDep

open Relation Cycles PathSearch

/-- `g_dependency_graph`, `g_dependency_edge_info` and
`g_dependency_predecessor_bits`. -/
structure DependencyGraph where
  edge : Nat → Nat → Bool
  edgeInfo : Nat → Nat → EdgeInfo
  predecessorBits : Nat → WordSet

namespace DependencyGraph

def initial : DependencyGraph where
  edge _ _ := false
  edgeInfo _ _ := ⟨some 0, 0⟩
  predecessorBits _ := WordSet.empty

/-- The edges as a relation. -/
def E (g : DependencyGraph) (u v : Nat) : Prop := g.edge u v = true

/-- `lockdep_global_bit_test`. -/
def bitTest (g : DependencyGraph) (v u : Nat) : Bool := (g.predecessorBits v).test u

/-- `lockdep_find_path_locked` from `start`, with the arrays it fills. -/
def findPathLocked (g : DependencyGraph) (lockSlotCount start target : Nat) :
    Bool × Search Nat :=
  findPath g.edge (List.range lockSlotCount) target maxLockSlots start Search.initial

/-- The part of `lockdep_add_edge_and_check_cycle` that stores the new edge. -/
def insert (g : DependencyGraph) (u v : Nat) (info : EdgeInfo) : DependencyGraph where
  edge := Function.update g.edge u (Function.update (g.edge u) v true)
  edgeInfo := Function.update g.edgeInfo u (Function.update (g.edgeInfo u) v info)
  predecessorBits := Function.update g.predecessorBits v ((g.predecessorBits v).set u)

/-- The section of `lockdep_add_edge_and_check_cycle` under `g_meta_lock`, with the
report to make after it. -/
def addEdgeAndCheckCycle (g : DependencyGraph) (lockSlotCount u v : Nat) (info : EdgeInfo) :
    DependencyGraph × Option Report :=
  if g.edge u v then (g, none)
  else
    let found := g.findPathLocked lockSlotCount v u
    let chain := chainFrom found.2.parent v u maxLockSlots
    (g.insert u v info,
      if found.1 then some ⟨u, v, chain, info, chainEdgeInfos g.edgeInfo chain⟩ else none)

/-- Edges join registered locks, and the summary mirrors the matrix. -/
structure WF (n : Nat) (g : DependencyGraph) : Prop where
  source : ∀ u v, g.E u v → u < n
  target : ∀ u v, g.E u v → v < n
  summary : ∀ u v, g.bitTest v u = g.edge u v

theorem initial_wf (n : Nat) : WF n initial where
  source _ _ h := by cases h
  target _ _ h := by cases h
  summary u v := by simp [bitTest, initial]

theorem WF.mono {n m : Nat} {g : DependencyGraph} (h : WF n g) (hnm : n ≤ m) : WF m g :=
  ⟨fun u v e => (h.source u v e).trans_le hnm, fun u v e => (h.target u v e).trans_le hnm,
    h.summary⟩

variable {g : DependencyGraph} {n u v x y : Nat} {info : EdgeInfo}

theorem insert_edge : (g.insert u v info).edge x y = (g.edge x y || decide (x = u ∧ y = v)) := by
  simp only [insert, Function.update_apply]
  split
  · rename_i hx
    subst hx
    rw [Function.update_apply]
    split <;> simp_all
  · rename_i hx
    simp [hx]

theorem insert_E : (g.insert u v info).E = addEdge g.E u v := by
  funext x y
  simp [E, insert_edge, addEdge]

theorem insert_bitTest :
    (g.insert u v info).bitTest y x = (g.bitTest y x || decide (x = u ∧ y = v)) := by
  simp only [bitTest, insert, Function.update_apply]
  split
  · rename_i hy
    subst hy
    simp [WordSet.test_set]
  · rename_i hy
    simp [hy]

theorem WF.insert (h : WF n g) (hu : u < n) (hv : v < n) : WF n (g.insert u v info) where
  source x y e := by
    rw [insert_E] at e
    rcases e with e | ⟨rfl, -⟩
    · exact h.source x y e
    · exact hu
  target x y e := by
    rw [insert_E] at e
    rcases e with e | ⟨-, rfl⟩
    · exact h.target x y e
    · exact hv
  summary x y := by rw [insert_bitTest, insert_edge, h.summary]

theorem findPathLocked_iff (h : WF n g) (hn : n ≤ maxLockSlots) (hv : v < n) :
    (g.findPathLocked n v u).1 = true ↔ ReflTransGen g.E v u := by
  unfold findPathLocked
  rw [findPath_iff (List.mem_range.mpr hv) (by simpa using hn)]
  constructor
  · exact ReflTransGen.mono (fun _ _ e => e.1) _ _
  · exact ReflTransGen.mono (fun x y e => ⟨e, List.mem_range.mpr (h.target x y e)⟩) _ _

/-- **One insertion.** -/
theorem addEdge_cases (info : EdgeInfo) (h : WF n g) (hn : n ≤ maxLockSlots) (hv : v < n) :
    (g.E u v ∧ g.addEdgeAndCheckCycle n u v info = (g, none)) ∨
    (¬ g.E u v ∧ ReflTransGen g.E v u ∧ ∃ r : Report,
      g.addEdgeAndCheckCycle n u v info = (g.insert u v info, some r) ∧
      r.fromLockSlot = u ∧ r.toLockSlot = v ∧ r.Valid (addEdge g.E u v)) ∨
    (¬ g.E u v ∧ ¬ ReflTransGen g.E v u ∧
      g.addEdgeAndCheckCycle n u v info = (g.insert u v info, none)) := by
  unfold addEdgeAndCheckCycle
  by_cases he : g.edge u v = true
  · exact Or.inl ⟨he, by simp [he]⟩
  · right
    have hiff := findPathLocked_iff (u := u) h hn hv
    rw [if_neg he]
    by_cases hp : ReflTransGen g.E v u
    · left
      have hf := hiff.mpr hp
      obtain ⟨hhead, hlast, hnd, hpath⟩ := @chainFrom_findPath _ _ g.edge (List.range n)
        u v maxLockSlots maxLockSlots (List.mem_range.mpr hv) (by simpa using hn)
        (by simpa using hn) hf
      refine ⟨he, hp, _, Prod.ext rfl (if_pos hf), rfl, rfl, ?_⟩
      exact ⟨Or.inr ⟨rfl, rfl⟩, hhead, hlast, hnd, hpath.imp fun _ _ e => Or.inl e⟩
    · right
      exact ⟨he, hp, Prod.ext rfl (if_neg fun hf => hp (hiff.mp hf))⟩

end DependencyGraph

end ScaleLockDep
