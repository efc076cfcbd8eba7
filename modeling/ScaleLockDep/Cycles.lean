import Mathlib.Logic.Relation
import Mathlib.Order.Basic
import Mathlib.Tactic.ByContra

/-!
# Adding edges to a directed graph

A directed graph is a relation.  What one new edge does to its paths and cycles,
and the bookkeeping of a detector that marks each edge which closes a cycle at
the moment it is added.

* `transGen_addEdge`: the paths after adding an edge;
* `Marked.addEdge_closing`, `Marked.addEdge_open`: marking the closing edges leaves no
  unmarked cycle;
* `Marked.cycle_iff`: an edge is marked exactly when the graph has a cycle.
-/

namespace ScaleLockDep.Cycles

open Relation

variable {α : Type} {r s : α → α → Prop} {u v x y : α}

def addEdge (r : α → α → Prop) (u v : α) (x y : α) : Prop := r x y ∨ (x = u ∧ y = v)

/-- No directed cycle, of any length. -/
def Acyclic (r : α → α → Prop) : Prop := ∀ x, ¬ TransGen r x x

theorem Acyclic.mono (h : Acyclic s) (hrs : ∀ x y, r x y → s x y) : Acyclic r :=
  fun x hx => h x (TransGen.mono hrs _ _ hx)

theorem reflTransGen_addEdge_of (h : ReflTransGen r x y) : ReflTransGen (addEdge r u v) x y :=
  ReflTransGen.mono (fun _ _ => Or.inl) _ _ h

/-- **The paths after adding an edge**: an old path, or an old path to its source
and one from its target. -/
theorem transGen_addEdge : TransGen (addEdge r u v) x y ↔
    TransGen r x y ∨ (ReflTransGen r x u ∧ ReflTransGen r v y) := by
  constructor
  · intro h
    induction h with
    | single h =>
      rcases h with h | ⟨rfl, rfl⟩
      · exact Or.inl (.single h)
      · exact Or.inr ⟨.refl, .refl⟩
    | tail _ h ih =>
      rcases h with h | ⟨rfl, rfl⟩
      · exact ih.imp (fun ih => ih.tail h) fun ih => ⟨ih.1, ih.2.tail h⟩
      · exact Or.inr ⟨ih.elim TransGen.to_reflTransGen fun ih => ih.1, .refl⟩
  · rintro (h | ⟨hu, hv⟩)
    · exact TransGen.mono (fun _ _ => Or.inl) _ _ h
    · exact ((TransGen.tail' (reflTransGen_addEdge_of hu) (Or.inr ⟨rfl, rfl⟩)).trans_left
        (reflTransGen_addEdge_of hv))

/-- An edge whose target does not reach its source closes no cycle. -/
theorem Acyclic.addEdge (h : Acyclic r) (hvu : ¬ ReflTransGen r v u) : Acyclic (addEdge r u v) := by
  intro x hx
  rcases transGen_addEdge.mp hx with hx | ⟨hu, hv⟩
  · exact h x hx
  · exact hvu (hv.trans hu)

/-- Relations whose edges all go up in some order have no cycle. -/
theorem acyclic_of_lt {β : Type} [Preorder β] (rank : α → β) (h : ∀ x y, r x y → rank x < rank y) :
    Acyclic r := by
  have hlt : ∀ {x y}, TransGen r x y → rank x < rank y := by
    intro x y hxy
    induction hxy with
    | single hxy => exact h _ _ hxy
    | tail _ hyz ih => exact ih.trans (h _ _ hyz)
  exact fun x hx => lt_irrefl _ (hlt hx)

/-! ## Marking the edges that close a cycle -/

/-- The edges `m` of `r` are marked: each one lies on a cycle, and every cycle
has one. -/
structure Marked (r m : α → α → Prop) : Prop where
  edge : ∀ x y, m x y → r x y
  closes : ∀ x y, m x y → ReflTransGen r y x
  acyclic : Acyclic fun x y => r x y ∧ ¬ m x y

theorem Marked.empty : Marked (fun _ _ : α => False) (fun _ _ => False) where
  edge _ _ h := h
  closes _ _ h := h.elim
  acyclic x hx := by
    cases hx with
    | single h => exact h.1
    | tail _ h => exact h.1

/-- **A new edge that closes a cycle is marked.** -/
theorem Marked.addEdge_closing {m : α → α → Prop} (h : Marked r m) (hvu : ReflTransGen r v u) :
    Marked (addEdge r u v) (addEdge m u v) where
  edge x y := Or.imp (h.edge x y) id
  closes x y hm := by
    rcases hm with hm | ⟨rfl, rfl⟩
    · exact reflTransGen_addEdge_of (h.closes x y hm)
    · exact reflTransGen_addEdge_of hvu
  acyclic := h.acyclic.mono fun x y ⟨hr, hm⟩ =>
    ⟨hr.resolve_right fun e => hm (Or.inr e), fun e => hm (Or.inl e)⟩

/-- **A new edge that closes no cycle needs no mark.** -/
theorem Marked.addEdge_open {m : α → α → Prop} (h : Marked r m) (hvu : ¬ ReflTransGen r v u) :
    Marked (addEdge r u v) m where
  edge x y hm := Or.inl (h.edge x y hm)
  closes x y hm := reflTransGen_addEdge_of (h.closes x y hm)
  acyclic := by
    have hopen : ¬ ReflTransGen (fun x y => r x y ∧ ¬ m x y) v u := fun hp =>
      hvu (ReflTransGen.mono (fun _ _ h => h.1) _ _ hp)
    refine (h.acyclic.addEdge hopen).mono ?_
    rintro x y ⟨hr | he, hm⟩
    · exact Or.inl ⟨hr, hm⟩
    · exact Or.inr he

/-- **There is a mark exactly when there is a cycle.** -/
theorem Marked.cycle_iff {m : α → α → Prop} (h : Marked r m) :
    (∃ x y, m x y) ↔ ∃ x, TransGen r x x := by
  constructor
  · rintro ⟨x, y, hm⟩
    exact ⟨x, TransGen.head' (h.edge x y hm) (h.closes x y hm)⟩
  · rintro ⟨x, hx⟩
    by_contra hno
    exact h.acyclic x (TransGen.mono (fun a b hr => ⟨hr, fun hm => hno ⟨a, b, hm⟩⟩) _ _ hx)

end ScaleLockDep.Cycles
