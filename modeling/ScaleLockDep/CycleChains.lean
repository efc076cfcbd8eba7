import ScaleLockDep.DependencyGraph
import ScaleLockDep.RbGraph

/-!
# The search for a cycle and its chain, on any graph

`lockdep_find_path_locked` and `lockdep_rb_find_path` with the loops that rebuild the
chain of a report from the parents.  Nothing is assumed of the matrix: it may be cyclic,
disconnected or dense.

* `correct_findPath`: the search terminates, decides reachability, and leaves parents
  that lead back;
* `cycle_chains_correct`: both copies of the search, and the chains that are reported.
-/

namespace ScaleLockDep.CycleChains

open Relation PathSearch

/-- The edges between the `n` registered slots. -/
def Registered (edge : Nat → Nat → Bool) (n x y : Nat) : Prop := x < n ∧ y < n ∧ edge x y = true

/-- `existing_chain` for a new edge `u → v`. -/
structure SimpleChain (edge : Nat → Nat → Bool) (n u v : Nat) (chain : List Nat) : Prop where
  head : chain.head? = some v
  last : chain.getLast? = some u
  two : 2 ≤ chain.length
  length : chain.length ≤ n
  nodup : chain.Nodup
  registered : ∀ x, x ∈ chain → x < n
  path : chain.IsChain fun x y => edge x y = true

/-- What the search from `v` for `u` leaves behind. -/
structure Correct (edge : Nat → Nat → Bool) (n u v : Nat) (found : Bool × Search Nat) : Prop where
  terminates : ∀ depth, n ≤ depth →
    findPathOpt edge (List.range n) u depth v Search.initial = some found
  reaches : found.1 = true ↔ TransGen (Registered edge n) v u
  walk : found.1 = true → (backtrack found.2.parent v maxLockSlots (some u)).getLast? = some v
  chain : found.1 = true → SimpleChain edge n u v (chainFrom found.2.parent v u maxLockSlots)

variable {edge : Nat → Nat → Bool} {n u v : Nat}

/-- A path from a registered slot through registered slots. -/
theorem reflTransGen_registered (hv : v < n) :
    ReflTransGen (fun x y => edge x y = true ∧ y ∈ List.range n) v u ↔
      ReflTransGen (Registered edge n) v u := by
  constructor
  · intro h
    have hkeep : ∀ {x}, ReflTransGen (fun x y => edge x y = true ∧ y ∈ List.range n) v x →
        x < n := by
      intro x hx
      cases hx with
      | refl => exact hv
      | tail _ hxy => exact List.mem_range.mp hxy.2
    induction h with
    | refl => exact .refl
    | tail hvx hxy ih => exact ih.tail ⟨hkeep hvx, List.mem_range.mp hxy.2, hxy.1⟩
  · exact ReflTransGen.mono (fun x y h => ⟨h.2.2, List.mem_range.mpr h.2.1⟩) _ _

/-- **The search is correct on every matrix.** -/
theorem correct_findPath (hn : n ≤ maxLockSlots) (hv : v < n) (hne : u ≠ v) :
    Correct edge n u v
      (PathSearch.findPath edge (List.range n) u maxLockSlots v Search.initial) := by
  have hmem : v ∈ List.range n := List.mem_range.mpr hv
  have hlen : (List.range n).length ≤ maxLockSlots := by simpa using hn
  constructor
  · intro depth hdepth
    refine findPathOpt_eq depth maxLockSlots v Search.initial rfl hmem ?_ ?_ <;>
      rw [unvisited_initial] <;> simpa
  · rw [findPath_iff hmem hlen, reflTransGen_registered hv, reflTransGen_iff_eq_or_transGen]
    exact or_iff_right hne
  · intro h
    obtain ⟨p, -, hhead, -, -, hb⟩ := backtrack_findPath hmem hlen hlen h
    rw [hb, List.getLast?_reverse, hhead]
  · intro h
    obtain ⟨p, R, hhead, hlast, hp, hb⟩ := backtrack_findPath hmem hlen hlen h
    rw [chainFrom_eq hb hhead]
    refine ⟨hhead, hlast, ?_, by simpa using hp, R.nodup,
      fun x hx => List.mem_range.mp (R.nodes x hx), R.chain.imp fun _ _ h => h.1⟩
    -- a chain of one slot would start and end at the same one
    match p, hhead, hlast with
    | [x], hhead, hlast =>
      simp only [List.head?_cons, List.getLast?_singleton, Option.some.injEq] at hhead hlast
      exact absurd (hlast.symm.trans hhead) hne
    | _ :: _ :: _, _, _ => simp

theorem addEdge_report_iff (g : DependencyGraph) (info : EdgeInfo) :
    (g.addEdgeAndCheckCycle n u v info).2.isSome = true ↔
      g.edge u v = false ∧ (g.findPathLocked n v u).1 = true := by
  unfold DependencyGraph.addEdgeAndCheckCycle
  cases g.edge u v with
  | true => simp
  | false => by_cases h : (g.findPathLocked n v u).1 = true <;> simp [h]

/-- A report of the global backend is about a path that was found. -/
theorem addEdge_report {g : DependencyGraph} {info : EdgeInfo} {r : Report}
    (h : (g.addEdgeAndCheckCycle n u v info).2 = some r) :
    (g.findPathLocked n v u).1 = true ∧
      r.existingChain = chainFrom (g.findPathLocked n v u).2.parent v u maxLockSlots := by
  have hf := (addEdge_report_iff g info).mp (by rw [h]; rfl)
  refine ⟨hf.2, ?_⟩
  simp only [DependencyGraph.addEdgeAndCheckCycle, hf.1, hf.2, Bool.false_eq_true, if_false,
    if_true, Option.some.injEq] at h
  rw [← h]

/-- A report of the worker is about a path that was found. -/
theorem reportCycle_report {g : RbGraph} {info : EdgeInfo} {r : Report}
    (h : g.reportCycleIfAny n u v info = some r) :
    (g.findPath n v u).1 = true ∧
      r.existingChain = chainFrom (g.findPath n v u).2.parent v u maxLockSlots := by
  simp only [RbGraph.reportCycleIfAny] at h
  split at h
  · split at h
    · rename_i hf
      cases h
      exact ⟨hf.1, rfl⟩
    · cases h
  · cases h

/-- **Both searches are correct on every graph, and no chain is empty or broken.** -/
theorem cycle_chains_correct (hn : n ≤ maxLockSlots) (hv : v < n) (hne : u ≠ v) :
    (∀ g : DependencyGraph, Correct g.edge n u v (g.findPathLocked n v u)) ∧
    (∀ (g : DependencyGraph) (info : EdgeInfo),
      (g.addEdgeAndCheckCycle n u v info).2.isSome = true ↔
        g.edge u v = false ∧ TransGen (Registered g.edge n) v u) ∧
    (∀ (g : DependencyGraph) (info : EdgeInfo) (r : Report),
      (g.addEdgeAndCheckCycle n u v info).2 = some r →
        SimpleChain g.edge n u v r.existingChain) ∧
    (∀ g : RbGraph, Correct g.edge n u v (g.findPath n v u)) ∧
    (∀ (g : RbGraph) (info : EdgeInfo) (r : Report), g.reportCycleIfAny n u v info = some r →
      SimpleChain g.edge n u v r.existingChain) := by
  refine ⟨fun g => correct_findPath hn hv hne, fun g info => ?_, fun g info r h => ?_,
    fun g => correct_findPath hn hv hne, fun g info r h => ?_⟩
  · rw [addEdge_report_iff, ← (correct_findPath hn hv hne).reaches]
    rfl
  · obtain ⟨hf, hr⟩ := addEdge_report h
    rw [hr]
    exact (correct_findPath hn hv hne).chain hf
  · obtain ⟨hf, hr⟩ := reportCycle_report h
    rw [hr]
    exact (correct_findPath hn hv hne).chain hf

/-- Five slots: the search from 1 for 0 first runs into the cycle 2, 3 and leaves a
parent there, before it goes through 4. -/
def detour : DependencyGraph where
  edge x y := (x, y) ∈ [(1, 2), (2, 3), (3, 2), (2, 4), (3, 1), (4, 0), (1, 4)]
  edgeInfo _ _ := ⟨some 0, 0⟩
  predecessorBits _ := WordSet.empty

theorem cycle_chains_correct_detour :
    (detour.findPathLocked 5 1 0).1 = true ∧
    SimpleChain detour.edge 5 0 1
      (chainFrom (detour.findPathLocked 5 1 0).2.parent 1 0 maxLockSlots) := by
  have h := (cycle_chains_correct (n := 5) (u := 0) (v := 1) (by decide) (by decide)
    (by decide)).1 detour
  have hf : (detour.findPathLocked 5 1 0).1 = true := by decide +kernel
  exact ⟨hf, h.chain hf⟩

end ScaleLockDep.CycleChains
