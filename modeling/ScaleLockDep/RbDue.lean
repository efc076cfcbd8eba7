import ScaleLockDep.EdgeTables
import ScaleLockDep.RbPotential

/-!
# The insertions that are due

A run of the ring-buffer backend in which at most one event is under way: where that event is,
and which insertions it stands for.

* `Due`: with the collecting thread, in a ring, or with the worker;
* `due_run`: a step of a hook carries on with what is due, and loses none of it;
* `due_worker`: a step of the worker carries it out.
-/

namespace ScaleLockDep

open ThreadState

namespace RbGraph

variable {g : RbGraph} {n u v : Nat} {b b' : WordSet}

theorem edgeTodo_congr (h : g.WF n) (hb : ∀ u, u < n → g.edge u v = false → b.test u = b'.test u) :
    g.edgeTodo n v b = g.edgeTodo n v b' := by
  unfold edgeTodo WordSet.toList
  rw [List.filter_filter, List.filter_filter]
  refine List.filter_congr fun u _ => ?_
  rw [WordSet.test_diff, WordSet.test_diff, h.predecessors]
  by_cases hu : u < n
  · cases he : g.edge u v with
    | true => simp
    | false => rw [hb u hu he]
  · simp [hu]

end RbGraph

namespace RbBackend

open State RbGraph

/-! ## Where the event of a call is -/

/-- The thread collects nothing and has no event of its own. -/
def Free (pc : Pc) : Prop := carried pc = none ∧ ∀ c bits w, pc ≠ .collect c bits w

/-- The worker has no event. -/
def Unladen : WorkerPc → Prop
  | .drain _ _ b => b = .empty
  | .target _ _ rest => rest = []
  | .edges .. => False
  | .storeIdle | .storeBusy | .loadStop | .scan _ | .semWait | .exited => True

/-- The event stands for the insertions of `us` into `v`. -/
structure Stands (cfg : Config) (g : RbGraph) (n : Nat) (v : Nat) (info : EdgeInfo) (us : List Nat)
    (e : Event) : Prop where
  target : e.toLockSlot = v
  bound : v < maxLockSlots
  info : info = ⟨some e.threadSlot, e.acquirePc⟩
  site : cfg.reportSites = true → e.acquirePc ≠ 0
  sources : us = g.edgeTodo n v e.bits

/-- Thread `t` is about to publish. -/
inductive Coming (cfg : Config) (g : RbGraph) (n v : Nat) (info : EdgeInfo) (us : List Nat)
    (t : Nat) (x : Thread) : Prop
  | collecting (c : Call) (bits : WordSet) (w : Nat) (hpc : x.pc = .collect c bits w)
      (hv : c.lockSlot = v) (hbound : v < maxLockSlots) (hi : info = ⟨some t, c.acquirePc⟩)
      (hsite : cfg.reportSites = true → c.acquirePc ≠ 0)
      (hbits : ∀ u, u < 64 * w → bits.test u = (x.tls.heldLockBits.test u && !g.edge u v))
      (hus : us = g.edgeTodo n v (x.tls.heldLockBits.clear v))
  | carrying (e : Event) (hc : carried x.pc = some e) (he : Stands cfg g n v info us e)

/-- The worker has the event. -/
inductive Laden (cfg : Config) (s : State) (v : Nat) (info : EdgeInfo) (us : List Nat) :
    WorkerPc → Prop
  | drain (second : Bool) (k : Nat) (e : Event)
      (he : Stands cfg s.graph s.lockSlotCount v info us e)
      (hp : cfg.reportSites = true → ∀ u, u ∈ us → s.pendingEdgeInfo v u = info) :
      Laden cfg s v info us (.drain second k (Batch.empty.add e))
  | target (second : Bool) (e : Event) (he : Stands cfg s.graph s.lockSlotCount v info us e)
      (hp : cfg.reportSites = true → ∀ u, u ∈ us → s.pendingEdgeInfo v u = info) :
      Laden cfg s v info us (.target second (Batch.empty.add e) [v])
  | edges (second : Bool) (b : Batch)
      (hp : cfg.reportSites = true → ∀ u, u ∈ us → s.pendingEdgeInfo v u = info) :
      Laden cfg s v info us (.edges second b v us [])

/-- **What is due**: the insertions of `us` into `v`. -/
inductive Due (cfg : Config) (s : State) (v : Nat) (info : EdgeInfo) (us : List Nat) : Prop
  | nothing (hus : us = []) (hfree : ∀ t, Free (s.thr t).pc) (hw : ∀ t, waiting s t = [])
      (hun : ∀ i, Unladen (s.worker i))
  | thread (t : Nat) (hc : Coming cfg s.graph s.lockSlotCount v info us t (s.thr t))
      (hfree : ∀ u, u ≠ t → Free (s.thr u).pc) (hw : ∀ t, waiting s t = [])
      (hun : ∀ i, Unladen (s.worker i))
  | ring (t : Nat) (e : Event) (he : Stands cfg s.graph s.lockSlotCount v info us e)
      (hfree : ∀ u, Free (s.thr u).pc) (hw : waiting s t = [e])
      (hother : ∀ u, u ≠ t → waiting s u = []) (hun : ∀ i, Unladen (s.worker i))
  | worker (i : Nat) (hl : Laden cfg s v info us (s.worker i)) (hfree : ∀ u, Free (s.thr u).pc)
      (hw : ∀ t, waiting s t = []) (hun : ∀ j, j ≠ i → Unladen (s.worker j))

variable {cfg : Config} {s s' : State} {t u v : Nat} {info : EdgeInfo} {us : List Nat} {mv : Move}

/-! ## A thread goes on in its hook -/

/-- An event is dropped only when the ring is full. -/
theorem kept_of_room {r : Ring} (R : SpscRing.RingInv (ringParams cfg) (s.ring t))
    (hw : waiting s t = []) (hr : SpscRing.step (ringParams cfg) (s.ring t) .produce = some r)
    (hacc : r.accepted = (s.ring t).accepted) :
    producing r.producer = producing (s.ring t).producer := by
  have hlen : (s.ring t).accepted.length ≤ (s.ring t).delivered.length :=
    List.drop_eq_nil_iff.mp hw
  have hcount := R.count (ringParams_lawful cfg)
  have hpos := (ringParams_lawful cfg).pos
  have P := R.producer
  cases hp : (s.ring t).producer with
  | idle => simp [SpscRing.step, hp] at hr
  | loadTail e =>
    simp only [SpscRing.step, hp, Option.some.injEq] at hr
    subst hr
    rfl
  | loadHead e tail =>
    simp only [SpscRing.ProducerOk, hp] at P
    simp only [SpscRing.step, hp] at hr
    rw [P, hcount, if_pos (by omega), Option.some.injEq] at hr
    subst hr
    rfl
  | write e tail todo =>
    cases todo with
    | nil =>
      simp only [SpscRing.step, hp, Option.some.injEq] at hr
      subst hr
      simp at hacc
    | cons f todo =>
      simp only [SpscRing.step, hp, Option.some.injEq] at hr
      subst hr
      rfl

/-- What a step of a call does with its event. -/
inductive Takes (s : State) (t : Nat) (s' : State) : Prop
  | load (c : Call) (bits : WordSet) (w : Nat) (hpc : (s.thr t).pc = .collect c bits w)
      (htls : (s'.thr t).tls = (s.thr t).tls)
      (hpc' : (s'.thr t).pc = .collect c (Function.update bits w
        ((s.thr t).tls.heldLockBits w &&& ~~~ s.graph.predecessorSnapshot c.lockSlot w)) (w + 1))
      (hw : ∀ u, waiting s' u = waiting s u)
  | unknown (c : Call) (bits : WordSet) (hpc : (s.thr t).pc = .collect c bits graphWords)
      (hpc' : carried (s'.thr t).pc = some (eventOf t c (bits.clear c.lockSlot)))
      (hw : ∀ u, waiting s' u = waiting s u)
  | known (c : Call) (bits : WordSet) (hpc : (s.thr t).pc = .collect c bits graphWords)
      (hb : (bits.clear c.lockSlot).hasAnyBits graphWords = false) (hpc' : Free (s'.thr t).pc)
      (hw : ∀ u, waiting s' u = waiting s u)
  | keep (hsame : carried (s'.thr t).pc = carried (s.thr t).pc)
      (hno : ∀ c bits w, (s.thr t).pc ≠ .collect c bits w)
      (hno' : ∀ c bits w, (s'.thr t).pc ≠ .collect c bits w)
      (hw : ∀ u, waiting s' u = waiting s u)
  | publish (e : Event) (hpc : carried (s.thr t).pc = some e) (hpc' : Free (s'.thr t).pc)
      (hw : waiting s' t = waiting s t ++ [e]) (hother : ∀ u, u ≠ t → waiting s' u = waiting s u)

/-- A step to `pc` that keeps the event. -/
theorem Takes.on {pc : Pc} (hpc : (s'.thr t).pc = pc) (hsame : carried pc = carried (s.thr t).pc)
    (hno : ∀ c bits w, (s.thr t).pc ≠ .collect c bits w) (hno' : ∀ c bits w, pc ≠ .collect c bits w)
    (hw : ∀ u, waiting s' u = waiting s u) : Takes s t s' :=
  .keep (by rw [hpc, hsame]) hno (by rw [hpc]; exact hno') hw

theorem ThreadStep.takes (T : ThreadOk cfg s t)
    (R : ∀ u, SpscRing.RingInv (ringParams cfg) (s.ring u)) (h : ThreadStep cfg s t mv s')
    (hout : (s.thr t).pc ≠ .outside) (hcount : s'.lockSlotCount = s.lockSlotCount)
    (hempty : carried (s.thr t).pc ≠ none → waiting s t = []) : Takes s t s' := by
  cases h with
  | register h => simp at hcount
  | top c h hl hnil hmv | nested c h hl hnil hmv | release l h hl => exact absurd h hout
  | load c bits w h hw => exact .load c bits w h (setPc_tls ..) (setPc_at _ _ _) fun _ => rfl
  | unknown c bits w h hw hb =>
    obtain rfl : w = graphWords := Nat.le_antisymm (T.collected c bits w h).1 hw
    exact .unknown c bits h (by rw [setPc_at]; rfl) fun _ => rfl
  | known c bits w h hw hb =>
    obtain rfl : w = graphWords := Nat.le_antisymm (T.collected c bits w h).1 hw
    exact .known c bits h hb (by rw [setPc_at]; exact ⟨rfl, by simp⟩) fun _ => rfl
  | started c e p h hp hs | ensure c e p q h hp hq | claim c e h hs | semInit c e h
  | storeStop c e h | storePending c e h | create c e h | storeState c e h =>
    exact .on (setPc_at _ _ _) (by rw [h]; rfl) (by simp [h]) (by simp) fun _ => rfl
  | enqueue c e r h hr hu hp =>
    exact .on (setPc_at _ _ _) (by rw [h]; rfl) (by simp [h]) (by simp) hu.waiting
  | ring c e r h hr hu hp => exact .keep rfl (by simp [h]) (by simp [h]) hu.waiting
  | full c e r h hr hu hp =>
    have hkept := kept_of_room (R t) (hempty (by simp [h])) hr hu.accepted
    have hsync := T.sync
    cases hd : cfg.drops with
    | true =>
      rw [hp, hd, if_pos rfl, hsync, h] at hkept
      cases hkept
    | false => exact .on (setPc_at _ _ _) (by rw [h]; rfl) (by simp [h]) (by simp) hu.waiting
  | publish c e x r h hr hx hacc hdel hp =>
    have hsync := T.sync
    rw [hx, h] at hsync
    obtain rfl : x = e := Option.some.inj hsync
    refine .publish x (by rw [h]; rfl) (by rw [setPc_at]; exact ⟨rfl, by simp⟩) ?_ fun u hu => ?_
    · change waiting (s.setRing t r) t = _
      rw [waiting_setRing, if_pos rfl, (R t).contents_publish hacc hdel]
      rfl
    · change waiting (s.setRing t r) u = _
      rw [waiting_setRing, if_neg hu]
  | signalled c e why h hw | post c e why h =>
    refine .on (setPc_at _ _ _) ?_ (by simp [h]) ?_ fun _ => rfl
    · rw [h]
      cases why <;> rfl
    · cases why <;> simp [afterSignal]
  | exchange c e why h hw =>
    refine .on (setPc_at _ _ _) ?_ (by simp [h]) (by simp) fun _ => rfl
    rw [h]
    cases why <;> rfl
  | push c h ts hts =>
    exact .on (by rw [complete_pc, if_pos rfl]) (by rw [h]; rfl) (by simp [h]) (by simp)
      fun _ => rfl
  | overflow c h => exact .keep rfl (by simp [h]) (by simp [h]) fun _ => rfl

theorem pending_thread (h : ThreadStep cfg s t mv s') : s'.pendingEdgeInfo = s.pendingEdgeInfo := by
  cases h <;> rfl

theorem reports_thread (h : ThreadStep cfg s t mv s') : s'.reports = s.reports := by
  cases h <;> rfl

theorem Laden.congr {pc : WorkerPc} (h : Laden cfg s v info us pc) (hgraph : s'.graph = s.graph)
    (hcount : s'.lockSlotCount = s.lockSlotCount)
    (hpending : s'.pendingEdgeInfo = s.pendingEdgeInfo) : Laden cfg s' v info us pc := by
  cases h with
  | drain second k e he hp => exact .drain second k e (by rwa [hgraph, hcount]) (by rwa [hpending])
  | target second e he hp => exact .target second e (by rwa [hgraph, hcount]) (by rwa [hpending])
  | edges second b hp => exact .edges second b (by rwa [hpending])

theorem Laden.alive {pc : WorkerPc} (h : Laden cfg s v info us pc) : pc ≠ .exited := by
  rintro rfl
  cases h

/-- A thread without an event goes on without one. -/
theorem Takes.free (h : Takes s t s') (hf : Free (s.thr t).pc) :
    Free (s'.thr t).pc ∧ ∀ u, waiting s' u = waiting s u := by
  cases h with
  | load c bits w hpc htls hpc' hw => exact absurd hpc (hf.2 c bits w)
  | unknown c bits hpc hpc' hw => exact absurd hpc (hf.2 c bits graphWords)
  | known c bits hpc hb hpc' hw => exact absurd hpc (hf.2 c bits graphWords)
  | keep hsame hno hno' hw => exact ⟨⟨hsame.trans hf.1, hno'⟩, hw⟩
  | publish e hpc hpc' hw hother =>
    rw [hf.1] at hpc
    cases hpc

/-- The bits collected so far are those of the missing edges. -/
theorem collected_load {g : RbGraph} {n w : Nat} {held bits : WordSet} (hwf : g.WF n)
    (hbits : ∀ u, u < 64 * w → bits.test u = (held.test u && !g.edge u v)) (hu : u < 64 * (w + 1)) :
    WordSet.test (Function.update bits w (held w &&& ~~~ g.predecessorSnapshot v w)) u =
      (held.test u && !g.edge u v) := by
  rw [test_update_word]
  split
  · rw [hwf.snapshot]
  · rename_i hne
    exact hbits u (by omega)

/-- The event that is made of them stands for the insertions. -/
theorem stands_eventOf {g : RbGraph} {n : Nat} {c : Call} {held bits : WordSet} (hwf : g.WF n)
    (hn : n ≤ maxLockSlots) (hbound : c.lockSlot < maxLockSlots)
    (hsite : cfg.reportSites = true → c.acquirePc ≠ 0)
    (hbits : ∀ u, u < 64 * graphWords → bits.test u = (held.test u && !g.edge u c.lockSlot)) :
    Stands cfg g n c.lockSlot ⟨some t, c.acquirePc⟩
      (g.edgeTodo n c.lockSlot (held.clear c.lockSlot))
      (eventOf t c (bits.clear c.lockSlot)) where
  target := rfl
  bound := hbound
  info := rfl
  site := hsite
  sources := by
    refine edgeTodo_congr hwf fun u hu he => ?_
    have hlt : u < 64 * graphWords := hu.trans_le hn
    rw [test_eventOf, WordSet.test_clear, WordSet.test_clear, hbits u hlt, he, Bool.not_false,
      Bool.and_true, decide_eq_true (show u < maxLockSlots from hlt), Bool.true_and]

/-- When nothing is unknown nothing is due. -/
theorem todo_known {g : RbGraph} {n : Nat} {held bits : WordSet} (hwf : g.WF n)
    (hn : n ≤ maxLockSlots) (hb : (bits.clear v).hasAnyBits graphWords = false)
    (hbits : ∀ u, u < 64 * graphWords → bits.test u = (held.test u && !g.edge u v)) :
    g.edgeTodo n v (held.clear v) = [] := by
  refine List.eq_nil_iff_forall_not_mem.mpr fun u hu => ?_
  obtain ⟨hlt, htest, hE⟩ := (mem_edgeTodo hwf hn).mp hu
  have hany : (bits.clear v).hasAnyBits graphWords = true := by
    refine WordSet.hasAnyBits_iff.mpr ⟨u, hlt.trans_le hn, ?_⟩
    rw [WordSet.test_clear] at htest ⊢
    rw [hbits u (hlt.trans_le hn), Bool.eq_false_iff.mpr hE, Bool.not_false, Bool.and_true]
    exact htest
  rw [hb] at hany
  cases hany

/-- **A step of a hook carries on with what is due.** -/
theorem due_run (T : ThreadOk cfg s t) (E : EdgeInv s) (L : LifeInv s)
    (R : ∀ u, SpscRing.RingInv (ringParams cfg) (s.ring u)) (h : ThreadStep cfg s t mv s')
    (hout : (s.thr t).pc ≠ .outside) (hcount : s'.lockSlotCount = s.lockSlotCount)
    (D : Due cfg s v info us) : Due cfg s' v info us := by
  have hgraph := graph_thread h
  have hpending := pending_thread h
  have hthr : ∀ u, u ≠ t → s'.thr u = s.thr u := fun u hu => thr_other h hu
  have hun : ∀ i, Unladen (s.worker i) → Unladen (s'.worker i) := by
    intro i hi
    rcases worker_thread L h i with hw | ⟨-, hw⟩
    · rwa [hw]
    · rw [hw]
      rfl
  -- a step of a thread without an event
  have hfree : (∀ u, Free (s.thr u).pc) → Takes s t s' →
      (∀ u, Free (s'.thr u).pc) ∧ ∀ u, waiting s' u = waiting s u := by
    intro hf hT
    obtain ⟨hf', hw⟩ := hT.free (hf t)
    refine ⟨fun u => ?_, hw⟩
    by_cases hu : u = t
    · rw [hu]
      exact hf'
    · rw [hthr u hu]
      exact hf u
  cases D with
  | nothing hus hf hw hn =>
    have hT := h.takes T R hout hcount fun _ => hw t
    obtain ⟨hf', hw'⟩ := hfree hf hT
    exact .nothing hus hf' (fun u => (hw' u).trans (hw u)) fun i => hun i (hn i)
  | ring k e he hf hw hother hn =>
    have hT := h.takes T R hout hcount fun hc => absurd (hf t).1 hc
    obtain ⟨hf', hw'⟩ := hfree hf hT
    exact .ring k e (by rwa [hgraph, hcount]) hf' ((hw' k).trans hw)
      (fun u hu => (hw' u).trans (hother u hu)) fun i => hun i (hn i)
  | worker i hl hf hw hn =>
    have hT := h.takes T R hout hcount fun _ => hw t
    obtain ⟨hf', hw'⟩ := hfree hf hT
    have hsame : s'.worker i = s.worker i := by
      rcases worker_thread L h i with hw | ⟨hex, -⟩
      · exact hw
      · exact absurd hex hl.alive
    exact .worker i (by rw [hsame]; exact hl.congr hgraph hcount hpending) hf'
      (fun u => (hw' u).trans (hw u)) fun j hj => hun j (hn j hj)
  | thread k hc hf hw hn =>
    have hT := h.takes T R hout hcount fun _ => hw t
    have hn' : ∀ i, Unladen (s'.worker i) := fun i => hun i (hn i)
    by_cases hk : t = k
    · subst hk
      have hothers : ∀ u, u ≠ t → Free (s'.thr u).pc := fun u hu => by
        rw [hthr u hu]
        exact hf u hu
      have hall : Free (s'.thr t).pc → ∀ u, Free (s'.thr u).pc := by
        intro ht u
        by_cases hu : u = t
        · rw [hu]
          exact ht
        · exact hothers u hu
      cases hc with
      | collecting c bits w hpc hv hbound hi hsite hbits hus =>
        subst hv hus hi
        cases hT with
        | load c' bits' w' hpc₀ htls hpc' hw' =>
          rw [hpc] at hpc₀
          cases hpc₀
          refine .thread t ?_ hothers (fun u => (hw' u).trans (hw u)) hn'
          refine .collecting c _ (w + 1) hpc' rfl hbound rfl hsite (fun u hu => ?_) ?_
          · rw [htls, hgraph]
            exact collected_load E.wf hbits hu
          · rw [htls, hgraph, hcount]
        | unknown c' bits' hpc₀ hpc' hw' =>
          rw [hpc] at hpc₀
          cases hpc₀
          refine .thread t (.carrying _ hpc' ?_) hothers (fun u => (hw' u).trans (hw u)) hn'
          rw [hgraph, hcount]
          exact stands_eventOf E.wf E.count hbound hsite hbits
        | known c' bits' hpc₀ hb hpc' hw' =>
          rw [hpc] at hpc₀
          cases hpc₀
          exact .nothing (todo_known E.wf E.count hb hbits) (hall hpc')
            (fun u => (hw' u).trans (hw u)) hn'
        | keep hsame hno hno' hw' => exact absurd hpc (hno c bits w)
        | publish e hpc₀ hpc' hw' hother' =>
          rw [hpc] at hpc₀
          cases hpc₀
      | carrying e hc he =>
        have hnot : ∀ c bits w, (s.thr t).pc ≠ .collect c bits w := by
          intro c bits w hpc
          rw [hpc] at hc
          cases hc
        cases hT with
        | load c' bits' w' hpc₀ htls hpc' hw' => exact absurd hpc₀ (hnot c' bits' w')
        | unknown c' bits' hpc₀ hpc' hw' => exact absurd hpc₀ (hnot c' bits' graphWords)
        | known c' bits' hpc₀ hb hpc' hw' => exact absurd hpc₀ (hnot c' bits' graphWords)
        | keep hsame hno hno' hw' =>
          exact .thread t (.carrying e (hsame.trans hc) (by rwa [hgraph, hcount])) hothers
            (fun u => (hw' u).trans (hw u)) hn'
        | publish e' hpc₀ hpc' hw' hother' =>
          obtain rfl : e' = e := Option.some.inj (hpc₀.symm.trans hc)
          refine .ring t e' (by rwa [hgraph, hcount]) (hall hpc') ?_ (fun u hu => ?_) hn'
          · rw [hw', hw t]
            rfl
          · rw [hother' u hu]
            exact hw u
    · -- another thread, without an event
      obtain ⟨hf', hw'⟩ := hT.free (hf t hk)
      refine .thread k ?_ (fun u hu => ?_) (fun u => (hw' u).trans (hw u)) hn'
      · rw [hthr k (Ne.symm hk), hgraph, hcount]
        exact hc
      · by_cases hut : u = t
        · rw [hut]
          exact hf'
        · rw [hthr u hut]
          exact hf u hu

/-! ## The worker -/

/-- What `s` comes to, with `us` inserted. -/
def outcome (cfg : Config) (s : State) (v : Nat) (info : EdgeInfo) (us : List Nat) :
    RbGraph × List Report :=
  let r := s.graph.insertAll s.lockSlotCount v
    (fun _ => if cfg.reportSites then info else ⟨none, 0⟩) us
  (r.1, s.reports ++ r.2)

theorem outcome_same (hgraph : s'.graph = s.graph) (hcount : s'.lockSlotCount = s.lockSlotCount)
    (hreports : s'.reports = s.reports) :
    outcome cfg s' v info us = outcome cfg s v info us := by
  rw [outcome, outcome, hgraph, hcount, hreports]

/-- What a worker without an event does. -/
inductive Works (s : State) (i : Nat) (s' : State) : Prop
  | on (hun : Unladen (s'.worker i)) (hw : ∀ u, waiting s' u = waiting s u)
      (hpending : s'.pendingEdgeInfo = s.pendingEdgeInfo)
  | takes (second : Bool) (t : Nat) (e : Event) (hw : waiting s t = e :: waiting s' t)
      (hother : ∀ u, u ≠ t → waiting s' u = waiting s u)
      (hworker : s'.worker i = .drain second t (Batch.empty.add e))
      (hpending : s'.pendingEdgeInfo = notePending s.pendingEdgeInfo .empty e)

theorem unladen_afterDrain (second progress : Bool) : Unladen (afterDrain second progress) := by
  cases second <;> cases progress <;> first | rfl | trivial

variable {i : Nat}

theorem waiting_pop {r : Ring} {e : Event} (R : SpscRing.RingInv (ringParams cfg) (s.ring t))
    (R' : SpscRing.RingInv (ringParams cfg) r) (hacc : r.accepted = (s.ring t).accepted)
    (hdel : r.delivered = (s.ring t).delivered ++ [e]) :
    waiting s t = e :: waiting (s.setRing t r) t := by
  rw [waiting_setRing, if_pos rfl]
  exact R.contents_deliver R' hacc hdel

theorem WorkerStep.works (R : ∀ u, SpscRing.RingInv (ringParams cfg) (s.ring u))
    (R' : ∀ u, SpscRing.RingInv (ringParams cfg) (s'.ring u)) (h : WorkerStep cfg s i s')
    (hun : Unladen (s.worker i)) : Works s i s' ∧ s'.graph = s.graph ∧ s'.reports = s.reports := by
  cases h with
  | read second t b r a h ht hr hu hp =>
    refine ⟨.on ?_ hu.waiting rfl, rfl, rfl⟩
    exact hun
  | next second t b r head h ht hr hu hp hc hempty =>
    refine ⟨.on ?_ hu.waiting rfl, rfl, rfl⟩
    rw [h] at hun
    rw [setWorker_at]
    exact hun
  | pop second t b r e h ht hr hacc hdel hp =>
    rw [h] at hun
    obtain rfl : b = .empty := hun
    have hring := R' t
    simp only [setWorker_ring, setRing_ring, if_true] at hring
    refine ⟨.takes second t e (waiting_pop (R t) hring hacc hdel) (fun u hu => ?_)
      (setWorker_at ..) rfl, rfl, rfl⟩
    change waiting (s.setRing t r) u = _
    rw [waiting_setRing, if_neg hu]
  | drained second t b h ht =>
    refine ⟨.on ?_ (fun _ => rfl) rfl, rfl, rfl⟩
    rw [h] at hun
    obtain rfl : b = .empty := hun
    rw [setWorker_at]
    rfl
  | processed second b h =>
    refine ⟨.on ?_ (fun _ => rfl) rfl, rfl, rfl⟩
    rw [setWorker_at]
    exact unladen_afterDrain second b.madeProgress
  | pick second b v rest h =>
    rw [h] at hun
    cases hun
  | picked second b v rest h | insert second b v u todo rest h r hr =>
    rw [h] at hun
    exact hun.elim
  | storeIdle h | storeBusy h | stop h hs | noStop h hs | scanNext t h ht hempty
  | scanFound t h ht hne | scanDone t h ht | wait h hsem =>
    refine ⟨.on ?_ (fun _ => rfl) rfl, rfl, rfl⟩
    first
    | exact (setWorker_at s i _).symm ▸ rfl
    | exact (setWorker_at s i _).symm ▸ trivial

theorem bits_add_empty (e : Event) (hv : e.toLockSlot < maxLockSlots) :
    (Batch.empty.add e).toLocks = [e.toLockSlot] ∧
      ∀ u, ((Batch.empty.add e).fromBits e.toLockSlot).test u = e.bits.test u := by
  unfold Batch.add
  rw [if_neg (Nat.not_le.mpr hv)]
  exact ⟨rfl, fun u => by simp [Batch.empty]⟩

/-- A worker with an event carries out what is due. -/
theorem WorkerStep.carries (E : EdgeInv s) (hw : ∀ t, waiting s t = [])
    (R : ∀ u, SpscRing.RingInv (ringParams cfg) (s.ring u))
    (R' : ∀ u, SpscRing.RingInv (ringParams cfg) (s'.ring u)) (h : WorkerStep cfg s i s')
    (hl : Laden cfg s v info us (s.worker i)) :
    ∃ us', (Laden cfg s' v info us' (s'.worker i) ∨ us' = [] ∧ Unladen (s'.worker i)) ∧
      (∀ u, waiting s' u = waiting s u) ∧ outcome cfg s' v info us' = outcome cfg s v info us := by
  generalize hpc : s.worker i = pc at hl
  cases hl with
  | drain second k e he hp =>
    cases h with
    | read second' t b r a h ht hr hu hp' =>
      refine ⟨us, Or.inl ?_, hu.waiting, rfl⟩
      rw [setRing_worker, hpc]
      exact .drain second k e he hp
    | next second' t b r head h ht hr hu hp' hc hempty =>
      rw [hpc] at h
      cases h
      refine ⟨us, Or.inl ?_, hu.waiting, rfl⟩
      rw [setWorker_at]
      exact .drain second (k + 1) e he hp
    | pop second' t b r e' h ht hr hacc hdel hp' =>
      have hring := R' t
      simp only [setWorker_ring, setRing_ring, if_true] at hring
      have hsome := waiting_pop (R t) hring hacc hdel
      rw [hw t] at hsome
      cases hsome
    | drained second' t b h ht =>
      rw [hpc] at h
      cases h
      refine ⟨us, Or.inl ?_, fun _ => rfl, rfl⟩
      have hto : (Batch.empty.add e).toLocks = [v] := by
        rw [(bits_add_empty e (he.target ▸ he.bound)).1, he.target]
      rw [setWorker_at, hto]
      exact .target second e he hp
    | processed second' b h | pick second' b x rest h | picked second' b x rest h
    | insert second' b x u todo rest h r hr | storeIdle h | storeBusy h | stop h hs
    | noStop h hs | scanNext t h ht hempty | scanFound t h ht hne | scanDone t h ht
    | wait h hsem =>
      rw [hpc] at h
      cases h
  | target second e he hp =>
    cases h with
    | pick second' b x rest h =>
      rw [hpc] at h
      cases h
      refine ⟨us, Or.inl ?_, fun _ => rfl, rfl⟩
      have htodo : s.graph.edgeTodo s.lockSlotCount v ((Batch.empty.add e).fromBits v) = us := by
        rw [he.sources]
        refine edgeTodo_congr E.wf fun u _ _ => ?_
        have hbits := (bits_add_empty e (he.target ▸ he.bound)).2 u
        rwa [he.target] at hbits
      rw [setWorker_at, htodo]
      exact .edges second _ hp
    | read second' t b r a h ht hr hu hp' | next second' t b r head h ht hr hu hp' hc hempty
    | pop second' t b r e' h ht hr hacc hdel hp' | drained second' t b h ht
    | processed second' b h | picked second' b x rest h | insert second' b x u todo rest h r hr
    | storeIdle h | storeBusy h | stop h hs | noStop h hs | scanNext t h ht hempty
    | scanFound t h ht hne | scanDone t h ht | wait h hsem =>
      rw [hpc] at h
      cases h
  | edges second b hp =>
    cases h with
    | picked second' b' x rest h =>
      rw [hpc] at h
      cases h
      refine ⟨[], Or.inr ⟨rfl, ?_⟩, fun _ => rfl, rfl⟩
      rw [setWorker_at]
      rfl
    | insert second' b' x u todo rest h r hr =>
      rw [hpc] at h
      cases h
      subst hr
      refine ⟨todo, Or.inl ?_, fun _ => rfl, ?_⟩
      · rw [setWorker_at]
        exact .edges second b fun hs x hx => hp hs x (List.mem_cons_of_mem _ hx)
      · have hinfo : edgeInfoOf cfg s u v = if cfg.reportSites then info else ⟨none, 0⟩ := by
          unfold edgeInfoOf
          split
          · rename_i hs
            exact hp hs u List.mem_cons_self
          · rfl
        simp only [outcome, insertAll, hinfo, List.append_assoc, setWorker_lockSlotCount]
    | read second' t b r a h ht hr hu hp' | next second' t b r head h ht hr hu hp' hc hempty
    | pop second' t b r e' h ht hr hacc hdel hp' | drained second' t b h ht
    | processed second' b h | pick second' b x rest h | storeIdle h | storeBusy h | stop h hs
    | noStop h hs | scanNext t h ht hempty | scanFound t h ht hne | scanDone t h ht
    | wait h hsem =>
      rw [hpc] at h
      cases h

/-- **A step of the worker carries out what is due.** -/
theorem due_worker (E : EdgeInv s) (L : LifeInv s)
    (R : ∀ u, SpscRing.RingInv (ringParams cfg) (s.ring u))
    (R' : ∀ u, SpscRing.RingInv (ringParams cfg) (s'.ring u)) (h : WorkerStep cfg s i s')
    (D : Due cfg s v info us) :
    ∃ us', Due cfg s' v info us' ∧ outcome cfg s' v info us' = outcome cfg s v info us := by
  have hthr : s'.thr = s.thr := h.life.1
  have hcount := lockSlotCount_worker h
  have hothers : ∀ j, j ≠ i → Unladen (s'.worker j) := by
    intro j hj
    have hex : s'.worker j = .exited := by
      by_contra hne
      exact hj (worker_only L h j hne)
    rw [hex]
    trivial
  have hall : Unladen (s'.worker i) → ∀ j, Unladen (s'.worker j) := by
    intro hi j
    by_cases hj : j = i
    · rw [hj]
      exact hi
    · exact hothers j hj
  cases D with
  | nothing hus hf hw hn =>
    obtain ⟨hW, hgraph, hreports⟩ := h.works R R' (hn i)
    refine ⟨us, ?_, outcome_same hgraph hcount hreports⟩
    cases hW with
    | on hun hw' hpending =>
      exact .nothing hus (by rwa [hthr]) (fun u => (hw' u).trans (hw u)) (hall hun)
    | takes second t e hw' hother hworker hpending =>
      rw [hw t] at hw'
      cases hw'
  | thread k hc hf hw hn =>
    obtain ⟨hW, hgraph, hreports⟩ := h.works R R' (hn i)
    refine ⟨us, ?_, outcome_same hgraph hcount hreports⟩
    cases hW with
    | on hun hw' hpending =>
      exact .thread k (by rwa [hthr, hgraph, hcount]) (by rwa [hthr])
        (fun u => (hw' u).trans (hw u)) (hall hun)
    | takes second t e hw' hother hworker hpending =>
      rw [hw t] at hw'
      cases hw'
  | ring k e he hf hw hother hn =>
    obtain ⟨hW, hgraph, hreports⟩ := h.works R R' (hn i)
    refine ⟨us, ?_, outcome_same hgraph hcount hreports⟩
    cases hW with
    | on hun hw' hpending =>
      exact .ring k e (by rwa [hgraph, hcount]) (by rwa [hthr]) ((hw' k).trans hw)
        (fun u hu => (hw' u).trans (hother u hu)) (hall hun)
    | takes second t e' hw' hother' hworker hpending =>
      -- the event leaves the one ring that is not empty
      obtain rfl : t = k := by
        by_contra hne
        rw [hother t hne] at hw'
        cases hw'
      rw [hw] at hw'
      obtain ⟨rfl, hnil⟩ := List.cons.inj hw'
      refine .worker i ?_ (by rwa [hthr]) (fun u => ?_) hothers
      · rw [hworker]
        refine .drain second t e (by rwa [hgraph, hcount]) fun hs u hu => ?_
        rw [he.sources] at hu
        have hbit := ((mem_edgeTodo E.wf E.count).mp hu).2.1
        have hlt : e.toLockSlot < maxLockSlots := he.target ▸ he.bound
        rw [hpending, notePending, if_pos ⟨hlt, he.site hs⟩, he.target, Function.update_self,
          if_pos (by simp [hbit, Batch.empty]), he.info]
      · by_cases hu : u = t
        · rw [hu]
          exact hnil.symm
        · rw [hother' u hu]
          exact hother u hu
  | worker j hl hf hw hn =>
    obtain rfl : j = i := L.one hl.alive h.life.2.2.2.2.1
    obtain ⟨us', hl', hw', hout⟩ := h.carries E hw R R' hl
    refine ⟨us', ?_, hout⟩
    rcases hl' with hl' | ⟨hus, hun⟩
    · exact .worker j hl' (by rwa [hthr]) (fun u => (hw' u).trans (hw u)) hothers
    · exact .nothing hus (by rwa [hthr]) (fun u => (hw' u).trans (hw u)) (hall hun)

end RbBackend

end ScaleLockDep
