import ScaleLockDep.GlobalBackend

/-!
# Invariants of the global backend

For every number of threads and every interleaving of their reads and insertions:

* `GraphInv`: an edge stands for an acquisition that is complete or on its way,
  and every complete acquisition has its edges;
* `ReportInv`: the reports, made and about to be made, are exactly the edges that
  closed a cycle when they were inserted.
-/

namespace ScaleLockDep.GlobalBackend

open ThreadState DependencyGraph Cycles Relation State

/-! ## The graph -/

/-- The call a thread is recording. -/
@[simp] def calling : Pc → Option Call
  | .outside => none
  | .scan c _ | .add c _ | .report c _ _ | .push c => some c

@[simp] theorem calling_afterAdd (c : Call) (i : Nat) (o : Option Report) :
    calling (afterAdd c i o) = some c := by
  cases o <;> rfl

/-- The pair of the held lock at `j` is in the graph already. -/
def Done : Pc → Nat → Prop
  | .outside, _ => False
  | .scan _ i, j | .add _ i, j => j < i
  | .report _ i _, j => j ≤ i
  | .push _, _ => True

theorem le_of_done_afterAdd {c : Call} {i j : Nat} {o : Option Report}
    (h : Done (afterAdd c i o) j) : j ≤ i := by
  cases o with
  | none => exact Nat.le_of_lt_succ h
  | some x => exact h

/-- The activity of the threads. -/
def activity (s : State) : Activity := ⟨fun t => (s.thr t).hist, fun t => calling (s.thr t).pc⟩

structure GraphInv (s : State) : Prop where
  wf : WF s.lockSlotCount s.graph
  count : s.lockSlotCount ≤ maxLockSlots
  heldHist : ∀ t, s.held t = heldAfter (s.thr t).hist
  heldBound : ∀ t l, l ∈ s.held t → l < s.lockSlotCount
  callBound : ∀ t c, calling (s.thr t).pc = some c → c.lockSlot < s.lockSlotCount
  sound : ∀ u v, s.graph.E u v → (activity s).Claimed u v
  complete : ∀ t u v, Dependency (s.thr t).hist u v → s.graph.E u v
  progress : ∀ t c j u, calling (s.thr t).pc = some c → Done (s.thr t).pc j →
    (s.held t)[j]? = some u → u ≠ c.lockSlot → s.graph.E u c.lockSlot

theorem GraphInv.held_activity {s : State} (I : GraphInv s) (t : Nat) :
    (activity s).held t = s.held t :=
  (I.heldHist t).symm

theorem graphInv_initial : GraphInv initial where
  wf := initial_wf _
  count := Nat.zero_le _
  heldHist _ := rfl
  heldBound _ _ h := by cases h
  callBound _ _ h := by cases h
  sound _ _ h := by cases h
  complete _ _ _ h := by
    obtain ⟨api, h⟩ := h
    exact (not_acquired_nil _ _ _ h).elim
  progress _ _ _ _ h := by cases h

/-- **What an insertion does to the graph**, whatever it reports. -/
theorem insert_graph {s : State} (I : GraphInv s) {t u : Nat} {c : Call} {i : Nat}
    (h : (s.thr t).pc = .add c i) (hu : u ∈ s.held t) :
    WF s.lockSlotCount (s.graph.addEdgeAndCheckCycle s.lockSlotCount u c.lockSlot
        ⟨some t, c.acquirePc⟩).1 ∧
    ∀ x y, (s.graph.addEdgeAndCheckCycle s.lockSlotCount u c.lockSlot
        ⟨some t, c.acquirePc⟩).1.E x y ↔ s.graph.E x y ∨ (x = u ∧ y = c.lockSlot) := by
  have hv := I.callBound t c (by rw [h]; rfl)
  have hub := I.heldBound t u hu
  rcases addEdge_cases (u := u) ⟨some t, c.acquirePc⟩ I.wf I.count hv with
    ⟨he, hr⟩ | ⟨-, -, x, hr, -⟩ | ⟨-, -, hr⟩
  · rw [hr]
    refine ⟨I.wf, fun x y => ⟨Or.inl, ?_⟩⟩
    rintro (h | ⟨rfl, rfl⟩)
    · exact h
    · exact he
  · rw [hr]
    exact ⟨I.wf.insert hub hv, fun x y => by rw [insert_E]; rfl⟩
  · rw [hr]
    exact ⟨I.wf.insert hub hv, fun x y => by rw [insert_E]; rfl⟩

/-- Edges are never removed. -/
theorem edge_step {s s' : State} {t : Nat} {mv : Move} (I : GraphInv s) (h : Step s t mv s')
    {x y : Nat} (he : s.graph.E x y) : s'.graph.E x y := by
  cases h with
  | insert c i h u hu hne r hr =>
    subst hr
    exact ((insert_graph I h (List.mem_of_getElem? hu)).2 x y).mpr (Or.inl he)
  | _ => exact he

theorem thr_other {s s' : State} {t u : Nat} {mv : Move} (h : Step s t mv s') (hu : u ≠ t) :
    s'.thr u = s.thr u := by
  cases h <;> simp [setPc, State.complete, hu]

theorem held_other {s s' : State} {t u : Nat} {mv : Move} (h : Step s t mv s') (hu : u ≠ t) :
    s'.held u = s.held u := by
  simp only [State.held, thr_other h hu]

theorem heldHist_step {s s' : State} {t : Nat} {mv : Move} (I : GraphInv s) (h : Step s t mv s') :
    s'.held t = heldAfter (s'.thr t).hist := by
  have hh := I.heldHist t
  cases h with
  | top c h hl hnil hmv =>
    rw [hnil] at hh
    rw [complete_held, complete_hist, if_pos rfl, if_pos rfl, heldAfter_concat, ← hh,
      acquireTopLevel_held]
    rfl
  | release l h hl =>
    rw [complete_held, complete_hist, if_pos rfl, if_pos rfl, heldAfter_concat, ← hh,
      release_heldLockSlots]
    rfl
  | push c h ts hts =>
    rw [complete_held, complete_hist, if_pos rfl, if_pos rfl, heldAfter_concat, ← hh,
      pushHeldLockSlot_held hts]
    rfl
  | _ => simpa using hh

theorem lockSlotCount_step {s s' : State} {t : Nat} {mv : Move} (h : Step s t mv s') :
    s.lockSlotCount ≤ s'.lockSlotCount := by
  cases h with
  | register h => exact Nat.le_succ _
  | _ => exact Nat.le_refl _

theorem heldBound_step {s s' : State} {t : Nat} {mv : Move} (I : GraphInv s) (h : Step s t mv s') :
    ∀ l, l ∈ s'.held t → l < s'.lockSlotCount := by
  intro l hl
  refine lt_of_lt_of_le ?_ (lockSlotCount_step h)
  have hh := I.heldBound t l
  cases h with
  | top c h hb hnil hmv =>
    simp only [complete_held, if_true, acquireTopLevel_held, List.mem_singleton] at hl
    exact hl ▸ hb
  | release k h hk =>
    simp only [complete_held, if_true, release_heldLockSlots] at hl
    exact hh (mem_of_mem_removeHeld hl)
  | push c h ts hts =>
    simp only [complete_held, if_true, pushHeldLockSlot_held hts, List.mem_append,
      List.mem_singleton] at hl
    rcases hl with hl | rfl
    · exact hh hl
    · exact I.callBound t c (by rw [h]; rfl)
  | _ => exact hh (by simpa using hl)

/-- A step starts a call, goes on with it, or completes it. -/
theorem calling_step {s s' : State} {t : Nat} {mv : Move} (h : Step s t mv s') {c : Call}
    (hc : calling (s'.thr t).pc = some c) : (calling (s.thr t).pc = some c ∧ s'.held t = s.held t) ∨
      ((s.thr t).pc = .outside ∧ mv = .acquire c ∧ c.lockSlot < s.lockSlotCount ∧
        s' = s.setPc t (.scan c 0)) := by
  cases h with
  | nested d h hl hnil hmv =>
    obtain rfl : d = c := by simpa [setPc_pc] using hc
    exact Or.inr ⟨h, hmv, hl, rfl⟩
  | insert d i h u hu hne r hr =>
    rw [setPc_pc, if_pos rfl] at hc
    left
    rw [h]
    exact ⟨(calling_afterAdd d i r.2).symm.trans hc, by simp⟩
  | toPush d i h hu =>
    left
    rcases h with h | h <;> simpa [h, setPc_pc] using hc
  | register h => exact Or.inl ⟨hc, rfl⟩
  | overflow d h => exact Or.inl ⟨hc, rfl⟩
  | top d h hl hnil hmv => simp [complete_pc] at hc
  | release l h hl => simp [complete_pc] at hc
  | push d h ts hts => simp [complete_pc] at hc
  | known d i h u hu hk => left; simpa [h, setPc_pc] using hc
  | unknown d i h u hu hne hk => left; simpa [h, setPc_pc] using hc
  | same d i h hu => left; simpa [h, setPc_pc] using hc
  | report d i x h => left; simpa [h, setPc_pc] using hc

theorem callBound_step {s s' : State} {t : Nat} {mv : Move} (I : GraphInv s) (h : Step s t mv s') :
    ∀ c, calling (s'.thr t).pc = some c → c.lockSlot < s'.lockSlotCount := by
  intro c hc
  refine lt_of_lt_of_le ?_ (lockSlotCount_step h)
  rcases calling_step h hc with ⟨hc, -⟩ | ⟨-, -, hl, -⟩
  · exact I.callBound t c hc
  · exact hl

/-- **A step as an activity of the threads.** -/
theorem activity_step {s s' : State} {t : Nat} {mv : Move} (I : GraphInv s) (h : Step s t mv s') :
    (activity s).Step t mv (activity s') := by
  refine ⟨?_, fun u hu => ?_⟩
  · have hheld := I.heldHist t
    cases h with
    | top c h hl hnil hmv =>
      exact .top c (hheld.symm.trans hnil) (by simp [activity, h])
        (by simp [activity, complete_hist]) (by simp [activity, complete_pc])
    | nested c h hl hnil hmv =>
      exact .start c hmv (by simp [activity, h]) (by simp [activity])
        (by simp [activity, setPc_pc])
    | release l h hl =>
      exact .release l (by simp [activity, h]) (by simp [activity, complete_hist])
        (by simp [activity, complete_pc])
    | push c h ts hts =>
      exact .finish c (by simp [activity, h]) (by simp [activity, complete_hist])
        (by simp [activity, complete_pc])
    | insert c i h u hu hne r hr =>
      refine .stay (by simp [activity]) ?_
      simp only [activity, h, setPc_pc, if_true, calling_afterAdd]
      rfl
    | toPush c i h hu =>
      refine .stay (by simp [activity]) ?_
      rcases h with h | h <;> simp [activity, h, setPc_pc]
    | register h => exact .stay rfl rfl
    | overflow c h => exact .stay rfl rfl
    | known c i h u hu hk => exact .stay (by simp [activity]) (by simp [activity, h, setPc_pc])
    | unknown c i h u hu hne hk => exact .stay (by simp [activity]) (by simp [activity, h, setPc_pc])
    | same c i h hu => exact .stay (by simp [activity]) (by simp [activity, h, setPc_pc])
    | report c i x h => exact .stay (by simp [activity]) (by simp [activity, h, setPc_pc])
  · simp only [activity, thr_other h hu, and_self]

/-- Every edge is one inserted by this step or an old one. -/
theorem edge_of_step {s s' : State} {t : Nat} {mv : Move} (I : GraphInv s) (h : Step s t mv s')
    {x y : Nat} (he : s'.graph.E x y) : s.graph.E x y ∨
      ∃ c, calling (s.thr t).pc = some c ∧ c.lockSlot = y ∧ x ∈ s.held t ∧ x ≠ y := by
  cases h with
  | insert c i h u hu hne r hr =>
    subst hr
    have hmem := List.mem_of_getElem? hu
    rcases ((insert_graph I h hmem).2 x y).mp he with he | ⟨rfl, rfl⟩
    · exact Or.inl he
    · exact Or.inr ⟨c, by rw [h]; rfl, rfl, hmem, hne⟩
  | _ => exact Or.inl he

theorem sound_step {s s' : State} {t : Nat} {mv : Move} (I : GraphInv s) (h : Step s t mv s') :
    ∀ u v, s'.graph.E u v → (activity s').Claimed u v := by
  intro u v he
  have hold : (activity s).Claimed u v := by
    rcases edge_of_step I h he with he | ⟨c, hc, rfl, hu, hne⟩
    · exact I.sound u v he
    · exact Or.inr ⟨t, c, hc, trivial, rfl, hne, I.held_activity t ▸ hu⟩
  exact hold.step (activity_step I h)

theorem progress_step {s s' : State} {t : Nat} {mv : Move} (I : GraphInv s) (h : Step s t mv s') :
    ∀ c j u, calling (s'.thr t).pc = some c → Done (s'.thr t).pc j → (s'.held t)[j]? = some u →
      u ≠ c.lockSlot → s'.graph.E u c.lockSlot := by
  intro c j u hc hd hu hne
  rcases calling_step h hc with ⟨hc₀, hheld⟩ | ⟨-, -, -, rfl⟩
  · rw [hheld] at hu
    by_cases hold : Done (s.thr t).pc j
    · exact edge_step I h (I.progress t c j u hc₀ hold hu hne)
    · -- the pair handled by this very step
      cases h with
      | known d i h x hx hk =>
        obtain rfl : d = c := by simpa [h] using hc₀
        rw [h] at hold
        have hj : j = i := by
          simp only [setPc_pc, if_true, Done] at hd hold
          omega
        subst hj
        obtain rfl : x = u := Option.some.inj (hx.symm.trans hu)
        rw [setPc_graph]
        rcases hk with hk | hk
        · exact absurd hk hne
        · exact (I.wf.summary x d.lockSlot).symm.trans hk
      | insert d i h x hx hxne r hr =>
        obtain rfl : d = c := by simpa [h] using hc₀
        subst hr
        rw [h] at hold
        have hj : j = i := by
          rw [setPc_pc, if_pos rfl] at hd
          have := le_of_done_afterAdd hd
          simp only [Done] at hold
          omega
        subst hj
        obtain rfl : x = u := Option.some.inj (hx.symm.trans hu)
        exact ((insert_graph I h (List.mem_of_getElem? hx)).2 _ _).mpr (Or.inr ⟨rfl, rfl⟩)
      | same d i h hx =>
        obtain rfl : d = c := by simpa [h] using hc₀
        rw [h] at hold
        have hj : j = i := by
          simp only [setPc_pc, if_true, Done] at hd hold
          omega
        subst hj
        exact absurd (Option.some.inj (hx.symm.trans hu)).symm hne
      | toPush d i h hx =>
        exfalso
        have hji : i ≤ j := by
          rcases h with h | h <;> simp only [h, Done] at hold <;> omega
        rw [List.getElem?_eq_none_iff] at hx
        rw [List.getElem?_eq_none (by omega)] at hu
        cases hu
      | unknown d i h x hx hxne hk => simp [setPc_pc, Done] at hd
      | report d i x h =>
        rw [h] at hold
        simp only [setPc_pc, if_true, Done] at hd hold
        omega
      | register h => exact absurd hd hold
      | overflow d h => exact absurd hd hold
      | top d h hl hnil hmv => simp [h] at hc₀
      | nested d h hl hnil hmv => simp [h] at hc₀
      | release l h hl => simp [h] at hc₀
      | push d h ts hts => simp [complete_pc] at hc
  · simp [setPc_pc, Done] at hd

theorem complete_step {s s' : State} {t : Nat} {mv : Move} (I : GraphInv s) (h : Step s t mv s') :
    ∀ w u v, Dependency (s'.thr w).hist u v → s'.graph.E u v := by
  intro w u v hd
  by_cases hw : w = t
  · subst hw
    have hold : Dependency (s.thr w).hist u v → s'.graph.E u v := fun hd =>
      edge_step I h (I.complete w u v hd)
    cases h with
    | top c h hl hnil hmv =>
      rw [complete_hist, if_pos rfl, dependency_concat, ← I.heldHist w, hnil] at hd
      rcases hd with hd | ⟨-, -, hd⟩
      · exact hold hd
      · cases hd
    | release l h hl =>
      rw [complete_hist, if_pos rfl, dependency_concat] at hd
      rcases hd with hd | ⟨⟨_, ho⟩, -⟩
      · exact hold hd
      · cases ho
    | push c h ts hts =>
      rw [complete_hist, if_pos rfl, dependency_concat, ← I.heldHist w] at hd
      rcases hd with hd | ⟨⟨_, ho⟩, hne, hu⟩
      · exact hold hd
      · cases ho
        obtain ⟨j, hj, hju⟩ := List.mem_iff_getElem.mp hu
        have hc : calling (s.thr w).pc = some c := by rw [h]; rfl
        exact I.progress w c j u hc (by rw [h]; trivial)
          (by rw [List.getElem?_eq_getElem hj, hju]) hne
    | _ => exact hold (by simpa using hd)
  · rw [thr_other h hw] at hd
    exact edge_step I h (I.complete w u v hd)

theorem graphInv_step {s s' : State} {t : Nat} {mv : Move} (I : GraphInv s) (h : Step s t mv s') :
    GraphInv s' where
  wf := by
    cases h with
    | insert c i h u hu hne r hr =>
      subst hr
      exact (insert_graph I h (List.mem_of_getElem? hu)).1
    | register h => exact I.wf.mono (Nat.le_succ _)
    | _ => exact I.wf
  count := by
    cases h with
    | register h => exact h
    | _ => exact I.count
  heldHist w := by
    by_cases hw : w = t
    · exact hw ▸ heldHist_step I h
    · rw [held_other h hw, thr_other h hw]
      exact I.heldHist w
  heldBound w l hl := by
    by_cases hw : w = t
    · exact heldBound_step I h l (hw ▸ hl)
    · rw [held_other h hw] at hl
      exact (I.heldBound w l hl).trans_le (lockSlotCount_step h)
  callBound w c hc := by
    by_cases hw : w = t
    · exact callBound_step I h c (hw ▸ hc)
    · rw [thr_other h hw] at hc
      exact (I.callBound w c hc).trans_le (lockSlotCount_step h)
  sound := sound_step I h
  complete := complete_step I h
  progress w c j u hc hd hu hne := by
    by_cases hw : w = t
    · subst hw
      exact progress_step I h c j u hc hd hu hne
    · rw [thr_other h hw] at hc hd
      rw [held_other h hw] at hu
      exact edge_step I h (I.progress w c j u hc hd hu hne)

theorem graphInv {G : State → Act → Prop} {s : State} (h : Runs.ReachableBy system G s) :
    GraphInv s :=
  h.invariant graphInv_initial fun _ _ _ _ I _ hs => graphInv_step I (step_cases hs).2.2

/-! ## The reports -/

/-- The report a thread is about to make. -/
@[simp] def pendingReport : Pc → Option Report
  | .report _ _ x => some x
  | _ => none

/-- The edge `u → v` closed a cycle when it was inserted: its report is made or
about to be made. -/
def Closing (s : State) (u v : Nat) : Prop :=
  (∃ r, r ∈ s.reports ∧ r.fromLockSlot = u ∧ r.toLockSlot = v) ∨
    ∃ t r, pendingReport (s.thr t).pc = some r ∧ r.fromLockSlot = u ∧ r.toLockSlot = v

/-- The edge a report is about. -/
def pair (r : Report) : Nat × Nat := (r.fromLockSlot, r.toLockSlot)

structure ReportInv (s : State) : Prop where
  marked : Marked s.graph.E (Closing s)
  valid : ∀ r, r ∈ s.reports → r.Valid s.graph.E
  pendingValid : ∀ t r, pendingReport (s.thr t).pc = some r → r.Valid s.graph.E
  nodup : (s.reports.map pair).Nodup
  fresh : ∀ t r, pendingReport (s.thr t).pc = some r → pair r ∉ s.reports.map pair
  distinct : ∀ t t' r r', pendingReport (s.thr t).pc = some r →
    pendingReport (s.thr t').pc = some r' → pair r = pair r' → t = t'

theorem reportInv_initial : ReportInv initial where
  marked := by
    have hE : initial.graph.E = fun _ _ => False := by
      funext u v
      simp [DependencyGraph.E, initial, DependencyGraph.initial]
    have hC : Closing initial = fun _ _ => False := by
      funext u v
      simp [Closing, initial]
    rw [hE, hC]
    exact Marked.empty
  valid _ h := by cases h
  pendingValid _ _ h := by cases h
  nodup := List.nodup_nil
  fresh _ _ h := by cases h
  distinct _ _ _ _ h := by cases h

/-- A step that makes no report, and inserts no edge that closes a cycle. -/
theorem ReportInv.grow {s s' : State} (R : ReportInv s)
    (hE : ∀ u v, s.graph.E u v → s'.graph.E u v) (hm : Marked s'.graph.E (Closing s))
    (hr : s'.reports = s.reports)
    (hp : ∀ w, pendingReport (s'.thr w).pc = pendingReport (s.thr w).pc) : ReportInv s' where
  marked := by
    have hC : Closing s' = Closing s := by
      funext u v
      simp only [Closing, hr, hp]
    rw [hC]
    exact hm
  valid r h := (R.valid r (hr ▸ h)).mono hE
  pendingValid t r h := (R.pendingValid t r (hp t ▸ h)).mono hE
  nodup := hr ▸ R.nodup
  fresh t r h := hr ▸ R.fresh t r (hp t ▸ h)
  distinct t t' r r' h h' := R.distinct t t' r r' (hp t ▸ h) (hp t' ▸ h')

/-- A step that makes no report and inserts no edge. -/
theorem ReportInv.congr {s s' : State} (R : ReportInv s) (hE : s'.graph.E = s.graph.E)
    (hr : s'.reports = s.reports)
    (hp : ∀ w, pendingReport (s'.thr w).pc = pendingReport (s.thr w).pc) : ReportInv s' :=
  R.grow (fun _ _ h => hE ▸ h) (hE ▸ R.marked) hr hp

/-- The pairs of the reports are edges. -/
theorem ReportInv.closing_pair {s : State} {r : Report} (h : pair r ∈ s.reports.map pair) :
    Closing s r.fromLockSlot r.toLockSlot := by
  obtain ⟨x, hx, he⟩ := List.mem_map.mp h
  obtain ⟨h1, h2⟩ := Prod.ext_iff.mp he
  exact Or.inl ⟨x, hx, h1, h2⟩

/-- **The report of a cycle is new**: its edge was not in the graph. -/
theorem reportInv_closing {s : State} (R : ReportInv s) {t : Nat} {c : Call} {i u : Nat}
    {g : DependencyGraph} {x : Report} (hp : pendingReport (s.thr t).pc = none)
    (hE : g.E = addEdge s.graph.E u c.lockSlot) (hnew : ¬ s.graph.E u c.lockSlot)
    (hpath : ReflTransGen s.graph.E c.lockSlot u)
    (hx : x.fromLockSlot = u ∧ x.toLockSlot = c.lockSlot)
    (hv : x.Valid g.E) : ReportInv ((s.setGraph g).setPc t (.report c i x)) := by
  have hpend : ∀ w, pendingReport (((s.setGraph g).setPc t (.report c i x)).thr w).pc =
      if w = t then some x else pendingReport (s.thr w).pc := by
    intro w
    rw [setPc_pc]
    split <;> rfl
  have hother : ∀ w r, pendingReport (s.thr w).pc = some r → pair r ≠ pair x := by
    intro w r hw he
    obtain ⟨h1, h2⟩ := Prod.ext_iff.mp he
    exact hnew (R.marked.edge _ _ (Or.inr ⟨w, r, hw, h1.trans hx.1, h2.trans hx.2⟩))
  have hmono : ∀ a b, s.graph.E a b → g.E a b := fun a b h => by
    rw [hE]
    exact Or.inl h
  refine ⟨?_, fun r hr => (R.valid r hr).mono hmono, fun w r hw => ?_, R.nodup, fun w r hw => ?_,
    fun w w' r r' hw hw' he => ?_⟩
  · have hC : Closing ((s.setGraph g).setPc t (.report c i x)) =
        addEdge (Closing s) u c.lockSlot := by
      funext a b
      simp only [Closing, addEdge, setPc_reports, setGraph_reports, hpend, eq_iff_iff]
      constructor
      · rintro (h | ⟨w, r, hw, h1, h2⟩)
        · exact Or.inl (Or.inl h)
        · split at hw
          · obtain rfl := Option.some.inj hw
            exact Or.inr ⟨h1.symm.trans hx.1, h2.symm.trans hx.2⟩
          · exact Or.inl (Or.inr ⟨w, r, hw, h1, h2⟩)
      · rintro ((h | ⟨w, r, hw, h1, h2⟩) | ⟨rfl, rfl⟩)
        · exact Or.inl h
        · refine Or.inr ⟨w, r, ?_, h1, h2⟩
          rw [if_neg, hw]
          rintro rfl
          rw [hp] at hw
          cases hw
        · exact Or.inr ⟨t, x, by simp, hx.1, hx.2⟩
    rw [hC, setPc_graph, setGraph_graph, hE]
    exact R.marked.addEdge_closing hpath
  · rw [hpend] at hw
    split at hw
    · cases hw
      exact hv
    · exact (R.pendingValid w r hw).mono hmono
  · rw [hpend] at hw
    split at hw
    · cases hw
      intro hmem
      exact hnew (hx.1 ▸ hx.2 ▸ R.marked.edge _ _ (ReportInv.closing_pair hmem))
    · exact R.fresh w r hw
  · rw [hpend] at hw hw'
    split at hw <;> split at hw'
    · rename_i h h'
      rw [h, h']
    · cases hw
      exact absurd he.symm (hother w' r' hw')
    · cases hw'
      exact absurd he (hother w r hw)
    · exact R.distinct w w' r r' hw hw' he

/-- A pending report is made. -/
theorem reportInv_report {s : State} (R : ReportInv s) {t : Nat} {c : Call} {i : Nat} {x : Report}
    (h : (s.thr t).pc = .report c i x) :
    ReportInv ((s.addReport x).setPc t (.add c (i + 1))) := by
  have hx : pendingReport (s.thr t).pc = some x := by rw [h]; rfl
  have hpend : ∀ w, pendingReport (((s.addReport x).setPc t (.add c (i + 1))).thr w).pc =
      if w = t then none else pendingReport (s.thr w).pc := by
    intro w
    rw [setPc_pc]
    split <;> rfl
  have hold : ∀ w r, pendingReport (((s.addReport x).setPc t (.add c (i + 1))).thr w).pc = some r →
      w ≠ t ∧ pendingReport (s.thr w).pc = some r := by
    intro w r hw
    rw [hpend] at hw
    split at hw
    · cases hw
    · rename_i hne
      exact ⟨hne, hw⟩
  have hC : Closing ((s.addReport x).setPc t (.add c (i + 1))) = Closing s := by
    funext a b
    simp only [Closing, setPc_reports, addReport_reports, List.mem_append, List.mem_singleton,
      eq_iff_iff]
    constructor
    · rintro (⟨r, hr | rfl, h1, h2⟩ | ⟨w, r, hw, h1, h2⟩)
      · exact Or.inl ⟨r, hr, h1, h2⟩
      · exact Or.inr ⟨t, r, hx, h1, h2⟩
      · exact Or.inr ⟨w, r, (hold w r hw).2, h1, h2⟩
    · rintro (⟨r, hr, h1, h2⟩ | ⟨w, r, hw, h1, h2⟩)
      · exact Or.inl ⟨r, Or.inl hr, h1, h2⟩
      · by_cases hwt : w = t
        · subst hwt
          obtain rfl : x = r := Option.some.inj (hx.symm.trans hw)
          exact Or.inl ⟨x, Or.inr rfl, h1, h2⟩
        · exact Or.inr ⟨w, r, by rw [hpend, if_neg hwt, hw], h1, h2⟩
  refine ⟨by rw [hC]; exact R.marked, fun r hr => ?_,
    fun w r hw => R.pendingValid w r (hold w r hw).2, ?_, fun w r hw => ?_,
    fun w w' r r' hw hw' => R.distinct w w' r r' (hold w r hw).2 (hold w' r' hw').2⟩
  · rw [setPc_reports, addReport_reports] at hr
    rcases List.mem_append.mp hr with hr | hr
    · exact R.valid r hr
    · rw [List.mem_singleton] at hr
      exact hr ▸ R.pendingValid t x hx
  · simp only [setPc_reports, addReport_reports, List.map_append, List.map_cons, List.map_nil]
    rw [List.nodup_append]
    refine ⟨R.nodup, by simp, ?_⟩
    rintro a ha b hb rfl
    rw [List.mem_singleton] at hb
    exact R.fresh t x hx (hb ▸ ha)
  · obtain ⟨hne, hw⟩ := hold w r hw
    simp only [setPc_reports, addReport_reports, List.map_append, List.map_cons, List.map_nil,
      List.mem_append, List.mem_singleton, not_or]
    exact ⟨R.fresh w r hw, fun he => hne (R.distinct w t r x hw hx he)⟩

theorem reportInv_step {s s' : State} {t : Nat} {mv : Move} (I : GraphInv s) (R : ReportInv s)
    (h : Step s t mv s') : ReportInv s' := by
  have hsame : ∀ {s₁ : State} {pc : Pc}, s₁.thr = s.thr → s₁.graph.E = s.graph.E →
      s₁.reports = s.reports → pendingReport (s.thr t).pc = none → pendingReport pc = none →
      ReportInv (s₁.setPc t pc) := by
    intro s₁ pc h1 h2 h3 h4 h5
    refine R.congr h2 h3 fun w => ?_
    rw [setPc_pc]
    split
    · rename_i hw
      rw [hw, h4, h5]
    · rw [h1]
  have hdone : ∀ ts op, pendingReport (s.thr t).pc = none → ReportInv (s.complete t ts op) := by
    intro ts op h4
    refine R.congr rfl rfl fun w => ?_
    rw [complete_pc]
    split
    · rename_i hw
      rw [hw, h4]
      rfl
    · rfl
  cases h with
  | report c i x h => exact reportInv_report R h
  | insert c i h u hu hne r hr =>
    subst hr
    have hp : pendingReport (s.thr t).pc = none := by rw [h]; rfl
    have hv := I.callBound t c (by rw [h]; rfl)
    rcases addEdge_cases (u := u) ⟨some t, c.acquirePc⟩ I.wf I.count hv with
      ⟨-, hr⟩ | ⟨hnew, hpath, x, hr, hx1, hx2, hval⟩ | ⟨-, hopen, hr⟩
    · rw [hr]
      exact hsame rfl rfl rfl hp rfl
    · rw [hr]
      exact reportInv_closing R hp insert_E hnew hpath ⟨hx1, hx2⟩ (insert_E ▸ hval)
    · rw [hr]
      have hE : (s.graph.insert u c.lockSlot ⟨some t, c.acquirePc⟩).E =
          addEdge s.graph.E u c.lockSlot := insert_E
      refine R.grow (fun a b h => ?_) ?_ rfl fun w => ?_
      · exact hE ▸ Or.inl h
      · exact hE ▸ R.marked.addEdge_open hopen
      · rw [setPc_pc]
        split
        · rename_i hw
          rw [hw, hp]
          rfl
        · rfl
  | register h => exact R.congr rfl rfl fun _ => rfl
  | overflow c h => exact R.congr rfl rfl fun _ => rfl
  | top c h hl hnil hmv => exact hdone _ _ (by rw [h]; rfl)
  | release l h hl => exact hdone _ _ (by rw [h]; rfl)
  | push c h ts hts => exact hdone _ _ (by rw [h]; rfl)
  | toPush c i h hu => exact hsame rfl rfl rfl (by rcases h with h | h <;> rw [h] <;> rfl) rfl
  | nested c h hl hnil hmv => exact hsame rfl rfl rfl (by rw [h]; rfl) rfl
  | known c i h u hu hk => exact hsame rfl rfl rfl (by rw [h]; rfl) rfl
  | unknown c i h u hu hne hk => exact hsame rfl rfl rfl (by rw [h]; rfl) rfl
  | same c i h hu => exact hsame rfl rfl rfl (by rw [h]; rfl) rfl

theorem reportInv {G : State → Act → Prop} {s : State} (h : Runs.ReachableBy system G s) :
    ReportInv s :=
  h.invariant reportInv_initial fun _ _ _ hr R _ hs =>
    reportInv_step (graphInv hr) R (step_cases hs).2.2

end ScaleLockDep.GlobalBackend
