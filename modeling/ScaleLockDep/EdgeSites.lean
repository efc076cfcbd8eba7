import ScaleLockDep.GlobalInvariants
import ScaleLockDep.RbDrops

/-!
# Who took the two locks, and where

The edge infos of both backends against a history of all acquisitions: who acquired
which mutex, at which program counter, holding what.

* `Witnessed`: the edge info names one acquisition of the history;
* `RbGraph.insert_witnessed`, `DependencyGraph.insert_witnessed`: an insertion keeps the
  infos of the edges so, and its report;
* `RbBackend.siteInv`: through rings, batches and `g_rb_pending_edge_info`;
* `edge_sites_observed`: every annotated edge and every line of a report, in both backends.
-/

namespace ScaleLockDep

open Relation Cycles PathSearch

/-! ## Acquisitions -/

/-- Thread `threadSlot` acquired `lockSlot` at `acquirePc` while it held `held`. -/
structure Acquisition where
  threadSlot : Nat
  lockSlot : Nat
  acquirePc : Nat
  held : List Nat
  deriving DecidableEq, Repr

/-- The edge info names an acquisition of `v` under `u ≠ v`. -/
def Witnessed (acqs : List Acquisition) (u v : Nat) (info : EdgeInfo) : Prop :=
  u ≠ v ∧ ∃ a, a ∈ acqs ∧ a.lockSlot = v ∧ u ∈ a.held ∧ info = ⟨some a.threadSlot, a.acquirePc⟩

/-- Every edge is annotated with an acquisition. -/
def EdgesWitnessed (acqs : List Acquisition) (E : Nat → Nat → Prop)
    (info : Nat → Nat → EdgeInfo) : Prop :=
  ∀ u v, E u v → Witnessed acqs u v (info u v)

/-- Every line of the report is annotated with an acquisition. -/
structure ReportWitnessed (acqs : List Acquisition) (r : Report) : Prop where
  new : Witnessed acqs r.fromLockSlot r.toLockSlot r.newEdgeInfo
  lines : r.existingEdgeInfos.length = r.existingChain.length - 1
  existing : ∀ (i u v : Nat) (info : EdgeInfo), r.existingChain[i]? = some u →
    r.existingChain[i + 1]? = some v → r.existingEdgeInfos[i]? = some info →
    Witnessed acqs u v info

variable {acqs acqs' : List Acquisition} {u v : Nat}

theorem Witnessed.mono {info : EdgeInfo} (h : Witnessed acqs u v info) (hsub : acqs ⊆ acqs') :
    Witnessed acqs' u v info := by
  obtain ⟨hne, a, ha, hr⟩ := h
  exact ⟨hne, a, hsub ha, hr⟩

theorem ReportWitnessed.mono {r : Report} (h : ReportWitnessed acqs r) (hsub : acqs ⊆ acqs') :
    ReportWitnessed acqs' r :=
  ⟨h.new.mono hsub, h.lines, fun i u v info hu hv hi => (h.existing i u v info hu hv hi).mono hsub⟩

/-- The infos along a chain of annotated edges. -/
theorem chainEdgeInfos_witnessed {E : Nat → Nat → Prop} {info : Nat → Nat → EdgeInfo}
    (hE : EdgesWitnessed acqs E info) {chain : List Nat} (hc : chain.IsChain E) (i : Nat)
    {x : EdgeInfo} (hu : chain[i]? = some u) (hv : chain[i + 1]? = some v)
    (hx : (chainEdgeInfos info chain)[i]? = some x) : Witnessed acqs u v x := by
  have htail : chain.tail[i]? = some v := by rwa [List.getElem?_tail]
  rw [chainEdgeInfos, List.getElem?_zipWith, hu, htail] at hx
  cases hx
  obtain ⟨hi, rfl⟩ := List.getElem?_eq_some_iff.mp hv
  obtain ⟨_, rfl⟩ := List.getElem?_eq_some_iff.mp hu
  exact hE _ _ (List.isChain_iff_getElem.mp hc i hi)

/-- What an insertion stores keeps the edges annotated. -/
theorem EdgesWitnessed.insert {E : Nat → Nat → Prop} {info : Nat → Nat → EdgeInfo} {x : EdgeInfo}
    (hE : EdgesWitnessed acqs E info) (hx : Witnessed acqs u v x) :
    EdgesWitnessed acqs (addEdge E u v)
      (Function.update info u (Function.update (info u) v x)) := by
  intro a b hab
  by_cases ha : a = u
  · subst ha
    rw [Function.update_self]
    by_cases hb : b = v
    · subst hb
      rwa [Function.update_self]
    · rw [Function.update_of_ne hb]
      exact hE a b (hab.resolve_right fun h => hb h.2)
  · rw [Function.update_of_ne ha]
    exact hE a b (hab.resolve_right fun h => ha h.1)

/-- A report along a path that the search found. -/
theorem reportWitnessed_chain {E : Nat → Nat → Prop} {info : Nat → Nat → EdgeInfo} {x : EdgeInfo}
    {chain : List Nat} (hE : EdgesWitnessed acqs E info) (hx : Witnessed acqs u v x)
    (hc : chain.IsChain E) :
    ReportWitnessed acqs ⟨u, v, chain, x, chainEdgeInfos info chain⟩ where
  new := hx
  lines := by simp [chainEdgeInfos]
  existing i _ _ _ hu hv hi := chainEdgeInfos_witnessed hE hc i hu hv hi

/-! ## Insertions -/

/-- **One insertion of the worker.** -/
theorem RbGraph.insert_witnessed {g : RbGraph} {n : Nat} {x : EdgeInfo} (hn : n ≤ maxLockSlots)
    (hv : v < n) (hE : EdgesWitnessed acqs g.E g.edgeInfo)
    (hx : Witnessed acqs u v x) :
    EdgesWitnessed acqs (g.addEdgeIfNew n u v x).1.E (g.addEdgeIfNew n u v x).1.edgeInfo ∧
      ∀ r, r ∈ (g.addEdgeIfNew n u v x).2 → ReportWitnessed acqs r := by
  unfold RbGraph.addEdgeIfNew
  split
  · exact ⟨hE, fun r hr => by cases hr⟩
  · refine ⟨?_, fun r hr => ?_⟩
    · rw [RbGraph.insert_E]
      exact hE.insert hx
    · simp only [RbGraph.reportCycleIfAny] at hr
      split at hr
      · split at hr
        · rename_i hf
          cases hr
          exact reportWitnessed_chain hE hx (chainFrom_findPath (List.mem_range.mpr hv)
            (by simpa using hn) (by simpa using hn) hf.1).2.2.2
        · cases hr
      · cases hr

/-- **One insertion under `g_meta_lock`.** -/
theorem DependencyGraph.insert_witnessed {g : DependencyGraph} {n : Nat} {x : EdgeInfo}
    (hn : n ≤ maxLockSlots) (hv : v < n) (hE : EdgesWitnessed acqs g.E g.edgeInfo)
    (hx : Witnessed acqs u v x) :
    EdgesWitnessed acqs (g.addEdgeAndCheckCycle n u v x).1.E
        (g.addEdgeAndCheckCycle n u v x).1.edgeInfo ∧
      ∀ r, r ∈ (g.addEdgeAndCheckCycle n u v x).2 → ReportWitnessed acqs r := by
  unfold DependencyGraph.addEdgeAndCheckCycle
  split
  · exact ⟨hE, fun r hr => by cases hr⟩
  · refine ⟨?_, fun r hr => ?_⟩
    · rw [DependencyGraph.insert_E]
      exact hE.insert hx
    · simp only at hr
      split at hr
      · rename_i hf
        cases hr
        exact reportWitnessed_chain hE hx (chainFrom_findPath (List.mem_range.mpr hv)
          (by simpa using hn) (by simpa using hn) hf).2.2.2
      · cases hr

/-! ## The history of the acquisitions -/

/-- What the move of a thread adds to the history. -/
def noteAcquisition (acqs : List Acquisition) (A : Activity) (t : Nat) : Move → List Acquisition
  | .acquire c => acqs ++ [⟨t, c.lockSlot, c.acquirePc, A.held t⟩]
  | .register | .release _ | .run => acqs

theorem subset_noteAcquisition (A : Activity) (t : Nat) (mv : Move) :
    acqs ⊆ noteAcquisition acqs A t mv := by
  cases mv with
  | acquire c => exact List.subset_append_left _ _
  | register => exact List.Subset.refl _
  | release l => exact List.Subset.refl _
  | run => exact List.Subset.refl _

/-- With report sites every acquisition has a program counter. -/
def HasSite : Move → Prop
  | .acquire c => c.acquirePc ≠ 0
  | .register | .release _ | .run => True

instance (mv : Move) : Decidable (HasSite mv) :=
  match mv with
  | .acquire c => inferInstanceAs (Decidable (c.acquirePc ≠ 0))
  | .register | .release _ | .run => isTrue trivial

/-- Every acquisition that is being recorded is in the history. -/
def CallsNoted (acqs : List Acquisition) (A : Activity) : Prop :=
  ∀ t c, A.call t = some c → ⟨t, c.lockSlot, c.acquirePc, A.held t⟩ ∈ acqs

theorem site_noteAcquisition {A : Activity} {t : Nat} {mv : Move} (hmv : HasSite mv)
    (hacqs : ∀ a, a ∈ acqs → a.acquirePc ≠ 0) :
    ∀ a, a ∈ noteAcquisition acqs A t mv → a.acquirePc ≠ 0 := by
  cases mv with
  | acquire c =>
    intro a ha
    rcases List.mem_append.mp ha with ha | ha
    · exact hacqs a ha
    · rw [List.mem_singleton.mp ha]
      exact hmv
  | register => exact hacqs
  | release l => exact hacqs
  | run => exact hacqs

theorem CallsNoted.step {A A' : Activity} {t : Nat} {mv : Move} (hA : CallsNoted acqs A)
    (h : A.Step t mv A') : CallsNoted (noteAcquisition acqs A t mv) A' := by
  intro w c hc
  by_cases hw : w = t
  · subst hw
    have hheld (hh : A'.hist w = A.hist w) : A'.held w = A.held w := by
      rw [Activity.held, hh, Activity.held]
    cases h.own with
    | stay hh hc' =>
      rw [hheld hh]
      exact subset_noteAcquisition _ _ _ (hA w c (hc' ▸ hc))
    | start d hmv hn hh hc' =>
      cases hc'.symm.trans hc
      rw [hheld hh, hmv]
      exact List.mem_append_right _ List.mem_cons_self
    | finish d hn hh hc' => cases hc'.symm.trans hc
    | top d hnil hn hh hc' => cases hc'.symm.trans hc
    | release l hn hh hc' => cases hc'.symm.trans hc
  · obtain ⟨hh, hc'⟩ := h.others w hw
    rw [Activity.held, hh]
    exact subset_noteAcquisition _ _ _ (hA w c (hc' ▸ hc))

/-! ## The global backend -/

namespace GlobalBackend

open State

/-- The backend with the history of the acquisitions. -/
def sites : Runs.System (State × List Acquisition) Act :=
  Runs.withHistory system [] fun acqs s a _ => noteAcquisition acqs (activity s) a.tid a.move

structure SiteInv (s : State) (acqs : List Acquisition) : Prop where
  calls : CallsNoted acqs (activity s)
  edges : EdgesWitnessed acqs s.graph.E s.graph.edgeInfo
  pending : ∀ t r, pendingReport (s.thr t).pc = some r → ReportWitnessed acqs r
  reports : ∀ r, r ∈ s.reports → ReportWitnessed acqs r

theorem siteInv_initial : SiteInv initial [] where
  calls _ _ h := by cases h
  edges _ _ h := by cases h
  pending _ _ h := by cases h
  reports _ h := by cases h

/-- What an insertion stores comes from the acquisition that is being recorded. -/
theorem SiteInv.insert {s : State} {t u i : Nat} {c : Call} (G : GraphInv s) (I : SiteInv s acqs)
    (h : (s.thr t).pc = .add c i) (hu : (s.held t)[i]? = some u) (hne : u ≠ c.lockSlot)
    {r : DependencyGraph × Option Report} (hr : r = s.graph.addEdgeAndCheckCycle s.lockSlotCount u
      c.lockSlot ⟨some t, c.acquirePc⟩) :
    EdgesWitnessed acqs r.1.E r.1.edgeInfo ∧ ∀ x, r.2 = some x → ReportWitnessed acqs x := by
  have hc : calling (s.thr t).pc = some c := by rw [h]; rfl
  have hx : Witnessed acqs u c.lockSlot ⟨some t, c.acquirePc⟩ := by
    refine ⟨hne, _, I.calls t c hc, rfl, ?_, rfl⟩
    change u ∈ (activity s).held t
    rw [G.held_activity]
    exact List.mem_of_getElem? hu
  rw [hr]
  exact DependencyGraph.insert_witnessed G.count (G.callBound t c hc) I.edges hx

theorem siteInv_step {s s' : State} {t : Nat} {mv : Move} (G : GraphInv s) (I : SiteInv s acqs)
    (h : Step s t mv s') : SiteInv s' (noteAcquisition acqs (activity s) t mv) := by
  have hsub : acqs ⊆ noteAcquisition acqs (activity s) t mv := subset_noteAcquisition _ _ _
  refine ⟨I.calls.step (activity_step G h), fun u v he => ?_, fun w r hr => ?_, fun r hr => ?_⟩
  · refine Witnessed.mono ?_ hsub
    cases h with
    | insert c i h u' hu hne r hr => exact (I.insert G h hu hne hr).1 u v he
    | _ => exact I.edges u v he
  · refine ReportWitnessed.mono ?_ hsub
    by_cases hw : w = t
    · subst hw
      cases h with
      | insert c i h u hu hne x hx =>
        rw [setPc_pc, if_pos rfl] at hr
        cases h2 : x.2 with
        | none =>
          rw [h2] at hr
          cases hr
        | some y =>
          rw [h2] at hr
          cases hr
          exact (I.insert G h hu hne hx).2 r h2
      | register h => exact I.pending w r hr
      | overflow c h => exact I.pending w r hr
      | _ => simp [setPc_pc, complete_pc] at hr
    · rw [thr_other h hw] at hr
      exact I.pending w r hr
  · refine ReportWitnessed.mono ?_ hsub
    cases h with
    | report c i x h =>
      rw [setPc_reports, addReport_reports, List.mem_append, List.mem_singleton] at hr
      rcases hr with hr | rfl
      · exact I.reports r hr
      · exact I.pending t r (by rw [h]; rfl)
    | _ => exact I.reports r hr

theorem siteInv {p : State × List Acquisition} (h : Runs.Reachable sites p) : SiteInv p.1 p.2 :=
  h.invariant (P := fun p => SiteInv p.1 p.2) siteInv_initial fun p p' a hr I _ hs => by
    have hb : Runs.Reachable system p.1 := hr.fst fun _ _ _ => trivial
    obtain ⟨hs, hacq⟩ := Runs.withHistory_step hs
    rw [hacq]
    exact siteInv_step (graphInv hb) I (step_cases hs).2.2

end GlobalBackend

/-! ## The ring-buffer backend -/

namespace RbBackend

open State RbGraph

/-- The backend with the history of the acquisitions. -/
def sites (cfg : Config) : Runs.System (State × List Acquisition) Act :=
  Runs.withHistory (system cfg) [] fun acqs s a _ =>
    noteAcquisition acqs (activity s) a.mover.1 a.mover.2

/-- Every pair of the event is annotated with an acquisition. -/
structure EventWitnessed (acqs : List Acquisition) (e : Event) : Prop where
  site : e.acquirePc ≠ 0
  pairs : ∀ u, e.bits.test u = true →
    Witnessed acqs u e.toLockSlot ⟨some e.threadSlot, e.acquirePc⟩

structure SiteInv (s : State) (acqs : List Acquisition) : Prop where
  calls : CallsNoted acqs (activity s)
  sites : ∀ a, a ∈ acqs → a.acquirePc ≠ 0
  offered : ∀ t e, offerOf none (s.thr t).pc = some e → EventWitnessed acqs e
  accepted : ∀ t e, e ∈ (s.ring t).accepted → EventWitnessed acqs e
  batch : ∀ i u v, Holds (s.worker i) u v → Witnessed acqs u v (s.pendingEdgeInfo v u)
  edges : EdgesWitnessed acqs s.graph.E s.graph.edgeInfo
  reports : ∀ r, r ∈ s.reports → ReportWitnessed acqs r

theorem siteInv_initial : SiteInv initial [] where
  calls _ _ h := by cases h
  sites _ h := by cases h
  offered _ _ h := by cases h
  accepted _ _ h := by cases h
  batch _ _ _ h := h.elim
  edges u v h := (initial_not_E u v h).elim
  reports _ h := by cases h

variable {cfg : Config} {s s' : State} {t : Nat}

theorem EventWitnessed.mono {e : Event} (h : EventWitnessed acqs e) (hsub : acqs ⊆ acqs') :
    EventWitnessed acqs' e :=
  ⟨h.site, fun u hu => (h.pairs u hu).mono hsub⟩

theorem offerOf_const {pc : Pc} {e : Event} (h : offerOf none pc = some e) (old : Option Event) :
    offerOf old pc = some e := by
  cases pc with
  | outside | push c | collect c bits w => cases h
  | ensure c x p | enqueue c x | ring c x | exchange c x why | post c x why => exact h

theorem calling_of_offerOf {pc : Pc} {e : Event} (h : offerOf none pc = some e) :
    ∃ c, calling pc = some c := by
  cases pc with
  | outside => cases h
  | push c | collect c bits w | ensure c x p | enqueue c x | ring c x | exchange c x why
  | post c x why => exact ⟨c, rfl⟩

/-- What a thread has collected is annotated with its acquisition. -/
theorem SiteInv.collected {c : Call} {bits : WordSet} {w : Nat} (T : ThreadOk cfg s t)
    (I : SiteInv s acqs) (h : (s.thr t).pc = .collect c bits w) :
    EventWitnessed acqs (eventOf t c (bits.clear c.lockSlot)) := by
  have hc : calling (s.thr t).pc = some c := by rw [h]; rfl
  refine ⟨I.sites _ (I.calls t c hc), fun u hu => ?_⟩
  rw [test_eventOf, WordSet.test_clear, Bool.and_eq_true, Bool.and_eq_true, decide_eq_true_eq,
    decide_eq_true_eq] at hu
  refine ⟨hu.2.2, _, I.calls t c hc, rfl, ?_, rfl⟩
  change u ∈ (activity s).held t
  rw [T.held_activity]
  exact (T.collected c bits w h).2 u hu.2.1

/-- What a thread offers after its step. -/
theorem SiteInv.offers {mv : Move} {e : Event} (T : ThreadOk cfg s t) (I : SiteInv s acqs)
    (h : ThreadStep cfg s t mv s') (he : offerOf none (s'.thr t).pc = some e) :
    EventWitnessed acqs e := by
  obtain ⟨c, hc⟩ := calling_of_offerOf he
  cases (callStep T h hc).1 with
  | start h' =>
    rw [h'] at he
    cases he
  | load bits w hpc h' =>
    rw [h'] at he
    cases he
  | unknown bits w hpc hw h' =>
    rw [h'] at he
    cases he
    exact I.collected T hpc
  | known bits w hpc hw hb h' =>
    rw [h'] at he
    cases he
  | same h' => exact I.offered t e (h' ▸ he)
  | goesOn hc' hcol hoffer hsettled =>
    have hold := hoffer _ (offerOf_idem none (s.thr t).pc)
    rw [offerOf_const he] at hold
    exact I.offered t e hold.symm

/-! ### The worker -/

variable {b : Batch} {e : Event} {pending : Nat → Nat → EdgeInfo}

/-- A pair the batch holds already keeps its info. -/
theorem notePending_of_test (h : (b.fromBits v).test u = true) :
    notePending pending b e v u = pending v u := by
  unfold notePending
  split
  · rw [Function.update_apply]
    split
    · rename_i hv
      subst hv
      simp [h]
    · rfl
  · rfl

/-- A pair new to the batch takes the info of the event. -/
theorem notePending_of_new (hto : e.toLockSlot < maxLockSlots) (hsite : e.acquirePc ≠ 0)
    (hnew : (b.fromBits e.toLockSlot).test u = false) (hu : e.bits.test u = true) :
    notePending pending b e e.toLockSlot u = ⟨some e.threadSlot, e.acquirePc⟩ := by
  simp [notePending, hto, hsite, hnew, hu]

/-- The batch after one more event. -/
theorem batch_add {i : Nat} {second : Bool} (I : SiteInv s acqs)
    (hw : s.worker i = .drain second t b) (he : EventWitnessed acqs e) (hh : Holds (.drain second t (b.add e)) u v) :
    Witnessed acqs u v (notePending s.pendingEdgeInfo b e v u) := by
  cases hold : (b.fromBits v).test u with
  | true =>
    rw [notePending_of_test hold]
    exact I.batch i u v (by rw [hw]; exact hold)
  | false =>
    have hnot : ¬ Holds (.drain second t b) u v := by simp [Holds, hold]
    rcases Nat.lt_or_ge e.toLockSlot maxLockSlots with hto | hto
    · obtain ⟨rfl, hu⟩ := ((holds_add hto).mp hh).resolve_left hnot
      rw [notePending_of_new hto he.site hold hu]
      exact he.pairs u hu
    · exact absurd ((holds_add_of_le hto).mp hh) hnot

theorem batch_step {a : Act} (hr : Runs.Reachable (system cfg) s)
    (hr' : Runs.Reachable (system cfg) s') (I : SiteInv s acqs) (h : Step cfg s a s') (i : Nat)
    (hh : Holds (s'.worker i) u v) : Witnessed acqs u v (s'.pendingEdgeInfo v u) := by
  cases h with
  | thread t mv ht h =>
    have hsame : s'.pendingEdgeInfo = s.pendingEdgeInfo := by cases h <;> rfl
    rw [hsame]
    rcases worker_thread (lifeInv hr) h i with hw | ⟨-, hw⟩ <;> rw [hw] at hh
    · exact I.batch i u v hh
    · exact absurd hh (not_holds_empty _ u v)
  | worker j h =>
    by_cases hij : i = j
    · subst hij
      rcases batch_worker (edgeInv hr) h with ⟨hp, hold⟩ | ⟨second, t, b, e, hw, hw', he, hp⟩
      · rw [hp]
        exact I.batch i u v (hold u v hh)
      · rw [hp]
        rw [hw'] at hh
        have hacc : e ∈ (s.ring t).accepted := by
          rw [← accepted_worker h]
          exact (ringInv hr' t).order.subset he
        exact batch_add I hw (I.accepted t e hacc) hh
    · -- there is one worker only
      rw [h.life.2.2.2.2.2 i hij] at hh
      exact absurd ((lifeInv hr).one (holds_alive hh) h.life.2.2.2.2.1) hij
  | shutdown h => cases h <;> exact I.batch i u v hh

/-- What the worker inserts is annotated with an acquisition. -/
theorem SiteInv.insert {i tgt x : Nat} {second : Bool} {todo rest : List Nat}
    (hsites : cfg.reportSites = true) (E : EdgeInv s) (I : SiteInv s acqs)
    (h : s.worker i = .edges second b tgt (x :: todo) rest) {r : RbGraph × Option Report}
    (hr : r = s.graph.addEdgeIfNew s.lockSlotCount x tgt (edgeInfoOf cfg s x tgt)) :
    EdgesWitnessed acqs r.1.E r.1.edgeInfo ∧ ∀ y, r.2 = some y → ReportWitnessed acqs y := by
  have hx : Witnessed acqs x tgt (edgeInfoOf cfg s x tgt) := by
    rw [edgeInfoOf, if_pos hsites]
    exact I.batch i x tgt (by rw [h]; exact Or.inl ⟨rfl, List.mem_cons_self⟩)
  rw [hr]
  exact RbGraph.insert_witnessed E.count (E.next h).target I.edges hx

theorem siteInv_step {a : Act} (hsites : cfg.reportSites = true) (hmv : HasSite a.mover.2)
    (hr : Runs.Reachable (system cfg) s) (hr' : Runs.Reachable (system cfg) s')
    (I : SiteInv s acqs) (h : Step cfg s a s') :
    SiteInv s' (noteAcquisition acqs (activity s) a.mover.1 a.mover.2) := by
  have hsub : acqs ⊆ noteAcquisition acqs (activity s) a.mover.1 a.mover.2 :=
    subset_noteAcquisition _ _ _
  have T := threadOk hr
  refine ⟨I.calls.step (activity_step T h), site_noteAcquisition hmv I.sites, fun t e he => ?_,
    fun t e he => ?_, fun i u v hh => (batch_step hr hr' I h i hh).mono hsub, fun u v he => ?_,
    fun r hrep => ?_⟩
  · refine EventWitnessed.mono ?_ hsub
    cases h with
    | thread w mv hw h =>
      by_cases htw : t = w
      · subst htw
        exact I.offers (T t) h he
      · rw [thr_other h htw] at he
        exact I.offered t e he
    | worker i h =>
      rw [h.life.1] at he
      exact I.offered t e he
    | shutdown h => exact I.offered t e (by cases h <;> exact he)
  · refine EventWitnessed.mono ?_ hsub
    rcases accepted_step T h he with he | ⟨-, c, hpc⟩
    · exact I.accepted t e he
    · exact I.offered t e (by rw [hpc]; rfl)
  · refine Witnessed.mono ?_ hsub
    cases h with
    | thread t mv ht h => cases h <;> exact I.edges u v he
    | worker i h =>
      cases h with
      | insert second b tgt x todo rest h r hx =>
        exact (I.insert hsites (edgeInv hr) h hx).1 u v he
      | _ => exact I.edges u v he
    | shutdown h => cases h <;> exact I.edges u v he
  · refine ReportWitnessed.mono ?_ hsub
    cases h with
    | thread t mv ht h => cases h <;> exact I.reports r hrep
    | worker i h =>
      cases h with
      | insert second b tgt x todo rest h y hx =>
        simp only [List.mem_append, Option.mem_toList] at hrep
        rcases hrep with hrep | hrep
        · exact I.reports r hrep
        · exact (I.insert hsites (edgeInv hr) h hx).2 r hrep
      | _ => exact I.reports r hrep
    | shutdown h => cases h <;> exact I.reports r hrep

theorem siteInv (hsites : cfg.reportSites = true) {p : State × List Acquisition}
    (h : Runs.ReachableBy (sites cfg) (fun _ a => HasSite a.mover.2) p) : SiteInv p.1 p.2 :=
  h.invariant (P := fun p => SiteInv p.1 p.2) siteInv_initial fun p p' a hr I hg hs => by
    have hb : Runs.Reachable (system cfg) p.1 := hr.fst fun _ _ _ => trivial
    obtain ⟨hs, hacq⟩ := Runs.withHistory_step hs
    rw [hacq]
    exact siteInv_step hsites hg hb (.step hb trivial hs) I (step_cases hs).2

def hasSite (_ : State) (a : Act) : Bool := HasSite a.mover.2

theorem invertedSites_runs :
    (execLegs ⟨false, true⟩ hasSite initial inverted).isSome = true := by decide +kernel

end RbBackend

/-! ## Both backends -/

/-- **Every annotated edge is a true observation.**  With report sites, in every run of either
backend, the info of an edge names one acquisition of its target under its source, and so
does every line of a report. -/
theorem edge_sites_observed :
    (∀ (drops : Bool) p, Runs.ReachableBy (RbBackend.sites ⟨drops, true⟩)
        (fun _ a => HasSite a.mover.2) p →
      EdgesWitnessed p.2 p.1.graph.E p.1.graph.edgeInfo ∧
      ∀ r, r ∈ p.1.reports → ReportWitnessed p.2 r) ∧
    (∀ p, Runs.Reachable GlobalBackend.sites p →
      EdgesWitnessed p.2 p.1.graph.E p.1.graph.edgeInfo ∧
      ∀ r, r ∈ p.1.reports → ReportWitnessed p.2 r) := by
  refine ⟨fun drops p h => ?_, fun p h => ?_⟩
  · have I := RbBackend.siteInv rfl h
    exact ⟨I.edges, I.reports⟩
  · have I := GlobalBackend.siteInv h
    exact ⟨I.edges, I.reports⟩

theorem edge_sites_observed_inverted :
    (∃ s acqs, RbBackend.execLegs ⟨false, true⟩ RbBackend.hasSite RbBackend.initial
        RbBackend.inverted = some s ∧
      s.graph.E 0 1 ∧ Witnessed acqs 0 1 (s.graph.edgeInfo 0 1) ∧
      s.reports ≠ [] ∧ ∀ r, r ∈ s.reports → ReportWitnessed acqs r) ∧
    (∃ s acqs, Runs.exec GlobalBackend.system GlobalBackend.initial
        GlobalBackend.inverted = some s ∧
      s.graph.E 0 1 ∧ Witnessed acqs 0 1 (s.graph.edgeInfo 0 1) ∧
      s.reports ≠ [] ∧ ∀ r, r ∈ s.reports → ReportWitnessed acqs r) := by
  have hr := (Option.some_get RbBackend.invertedSites_runs).symm
  have hg := (Option.some_get GlobalBackend.inverted_runs).symm
  obtain ⟨hrb, hglobal⟩ := edge_sites_observed
  constructor
  · have hrun := (RbBackend.execLegs_reachable (fun _ _ => rfl) .init hr).mono
      (H := fun _ (a : RbBackend.Act) => HasSite a.mover.2) fun _ _ h => of_decide_eq_true h
    obtain ⟨acqs, hacqs⟩ := hrun.exists_history
    have hobserved : ∀ s, Runs.ReachableBy (RbBackend.sites ⟨false, true⟩)
        (fun _ a => HasSite a.mover.2) (s, acqs) → s.graph.E 0 1 →
        Witnessed acqs 0 1 (s.graph.edgeInfo 0 1) ∧ ∀ r, r ∈ s.reports → ReportWitnessed acqs r :=
      fun s h h01 => ⟨(hrb false _ h).1 0 1 h01, (hrb false _ h).2⟩
    have h01 : ((RbBackend.execLegs ⟨false, true⟩ RbBackend.hasSite RbBackend.initial
        RbBackend.inverted).get RbBackend.invertedSites_runs).graph.edge 0 1 = true := by
      decide +kernel
    obtain ⟨hE, hrep⟩ := hobserved _ hacqs h01
    exact ⟨_, acqs, hr, h01, hE, by decide +kernel, hrep⟩
  · obtain ⟨acqs, hacqs⟩ := (Runs.ReachableBy.exec .init hg).exists_history
    obtain ⟨hE, hrep⟩ := hglobal _ hacqs
    have h01 : ((Runs.exec GlobalBackend.system GlobalBackend.initial
        GlobalBackend.inverted).get GlobalBackend.inverted_runs).graph.edge 0 1 = true := by
      decide +kernel
    exact ⟨_, acqs, hg, h01, hE 0 1 h01, by decide +kernel, hrep⟩

end ScaleLockDep
