import ScaleLockDep.RbDue
import ScaleLockDep.RbLoops

/-!
# One call of `lockdep_rb_drain_once`

The call as it is written, over the events it dequeues, against the call in the running
backend, where every load and every insertion is a step of its own and the threads go on
in between.

* `pass_is_sequential`: a call that runs among the steps of the threads computes what the
  loops compute from the events it dequeued;
* `pass_records_first`: it records every pair that was offered, with the site of the first
  event that offers it.
-/

namespace ScaleLockDep

namespace RbGraph

variable {g : RbGraph} {n m u v : Nat} {info : EdgeInfo} {b : WordSet}

/-! ## Locks registered during a call -/

theorem findPath_mono (h : g.WF n) (hnm : n ≤ m) : g.findPath m u v = g.findPath n u v := by
  obtain ⟨k, rfl⟩ := Nat.exists_eq_add_of_le hnm
  have hdead : ∀ x y, y ∈ (List.range k).map (n + ·) → g.edge x y = false := by
    intro x y hy
    obtain ⟨j, -, rfl⟩ := List.mem_map.mp hy
    apply Bool.eq_false_iff.mpr
    intro he
    have := h.target x _ he
    omega
  unfold findPath
  rw [List.range_add, PathSearch.findPath_append hdead]

theorem updateReachability_mono (h : g.WF n) (hnm : n ≤ m) (hu : u < n) :
    updateReachability g.reachabilityBits m u v = updateReachability g.reachabilityBits n u v := by
  funext src
  unfold updateReachability
  by_cases hsrc : src < n
  · simp only [hsrc, hsrc.trans_le hnm, true_and]
  · have hno : ¬ (src = u ∨ (g.reachabilityBits src).test u = true) := by
      rintro (rfl | hr)
      · exact hsrc hu
      · obtain ⟨y, he, -⟩ := Relation.TransGen.head'_iff.mp ((h.reach src u).mp hr)
        exact hsrc (h.source src y he)
    simp only [hno, and_false, if_false]

/-- **Locks registered later** take no part in an insertion. -/
theorem addEdgeIfNew_mono (h : g.WF n) (hnm : n ≤ m) (hu : u < n) :
    g.addEdgeIfNew m u v info = g.addEdgeIfNew n u v info := by
  have hinsert : g.insert m u v info = g.insert n u v info := by
    unfold insert
    rw [updateReachability_mono h hnm hu]
  have hreport : g.reportCycleIfAny m u v info = g.reportCycleIfAny n u v info := by
    unfold reportCycleIfAny
    rw [findPath_mono h hnm]
  rw [addEdgeIfNew, addEdgeIfNew, hinsert, hreport]

theorem edgeTodo_mono (hb : ∀ u, b.test u = true → u < n) (hnm : n ≤ m) :
    g.edgeTodo m v b = g.edgeTodo n v b := by
  unfold edgeTodo
  refine List.filter_congr fun u hu => ?_
  have htest : b.test u = true := by
    have := (List.mem_filter.mp hu).2
    rw [WordSet.test_diff, Bool.and_eq_true] at this
    exact this.1
  have hun := hb u htest
  simp [hun, hun.trans_le hnm]

end RbGraph

namespace RbBackend

open State RbGraph

/-! ## The call as it is written -/

/-- The report sites `lockdep_rb_drain_once` passes on for the target `v`. -/
def infosOf (cfg : Config) (info : Nat → Nat → EdgeInfo) (v : Nat) : Option (Nat → EdgeInfo) :=
  if cfg.reportSites then some (info v) else none

/-- The second loop of `lockdep_rb_drain_once`, over the targets `vs`. -/
def processTargets (cfg : Config) (lockSlotCount : Nat) (info : Nat → Nat → EdgeInfo)
    (fromBits : Nat → WordSet) (vs : List Nat) (r : RbGraph × List Report) :
    RbGraph × List Report :=
  vs.foldl (fun r v => processEdgeBits lockSlotCount v (fromBits v) (infosOf cfg info v) r) r

/-- `lockdep_rb_drain_once`, where `es` are the events it dequeues: the rows of
`g_rb_pending_edge_info`, the tables with the reports, and whether it made progress. -/
def drainOnce (cfg : Config) (lockSlotCount : Nat) (es : List Event)
    (info : Nat → Nat → EdgeInfo) (r : RbGraph × List Report) :
    (Nat → Nat → EdgeInfo) × (RbGraph × List Report) × Bool :=
  let p := es.foldl takeEvent (info, Batch.empty)
  (p.1, processTargets cfg lockSlotCount p.1 p.2.fromBits p.2.toLocks r, p.2.madeProgress)

/-! ## The call in the running backend -/

/-- The runs from `s₀` in which worker `i` does not return from the call. -/
def DuringCall (cfg : Config) (s₀ : State) (i : Nat) : State → Prop :=
  Runs.ReachableBy ⟨s₀, step cfg⟩ fun s a =>
    a = .worker i → ∀ second b, s.worker i ≠ .target second b []

/-- The events dequeued from the ring of `t` since `s₀`. -/
def dequeuedFrom (s₀ s : State) (t : Nat) : List Event :=
  (s.ring t).delivered.drop (s₀.ring t).delivered.length

/-- The events the worker dequeued since `s₀`, in the order of the rings. -/
def dequeued (s₀ s : State) : List Event := (List.range maxThreadSlots).flatMap (dequeuedFrom s₀ s)

/-- What is left to insert. -/
def toInsert (cfg : Config) (n : Nat) (s : State) : WorkerPc → RbGraph × List Report
  | .target _ b rest => processTargets cfg n s.pendingEdgeInfo b.fromBits rest (s.graph, s.reports)
  | .edges _ b v todo rest =>
      let r := s.graph.insertAll n v (passedInfo (infosOf cfg s.pendingEdgeInfo v)) todo
      processTargets cfg n s.pendingEdgeInfo b.fromBits rest (r.1, s.reports ++ r.2)
  | _ => (s.graph, s.reports)

/-- The batch of a worker in the second loop. -/
def insertingBatch : WorkerPc → Option Batch
  | .target _ b _ | .edges _ b _ _ _ => some b
  | _ => none

/-- Where the call that began in `s₀` is. -/
inductive InCall (cfg : Config) (s₀ : State) (i : Nat) (s : State) : Prop
  /-- in the first loop, at the ring of `t` -/
  | taking (second : Bool) (t : Nat) (b : Batch) (hw : s.worker i = .drain second t b)
      (ht : t ≤ maxThreadSlots)
      (hp : (s.pendingEdgeInfo, b) =
        ((List.range t).flatMap (dequeuedFrom s₀ s) ++ dequeuedFrom s₀ s t).foldl takeEvent
          (s₀.pendingEdgeInfo, Batch.empty))
      (hg : s.graph = s₀.graph) (hr : s.reports = s₀.reports)
      (hlater : ∀ u, t < u → dequeuedFrom s₀ s u = [])
  /-- in the second loop -/
  | inserting (b : Batch) (hw : insertingBatch (s.worker i) = some b)
      (hp : (s.pendingEdgeInfo, b) =
        (dequeued s₀ s).foldl takeEvent (s₀.pendingEdgeInfo, Batch.empty))
      (hout : ∀ n, s.lockSlotCount ≤ n → toInsert cfg n s (s.worker i) =
        processTargets cfg n s.pendingEdgeInfo b.fromBits b.toLocks (s₀.graph, s₀.reports))

structure CallInv (cfg : Config) (s₀ : State) (i : Nat) (s : State) : Prop where
  reachable : Runs.Reachable (system cfg) s
  grown : ∀ t, (s₀.ring t).delivered.length ≤ (s.ring t).delivered.length
  accepted : ∀ t, (s₀.ring t).accepted <+: (s.ring t).accepted
  count : s₀.lockSlotCount ≤ s.lockSlotCount
  bound : ∀ t, maxThreadSlots ≤ t → dequeuedFrom s₀ s t = []
  /-- the rings before the worker's were empty since -/
  emptied : ∀ t, t < maxThreadSlots → t < atRing (s.worker i) →
    (s₀.ring t).accepted.length ≤ (s.ring t).delivered.length
  call : InCall cfg s₀ i s

variable {cfg : Config} {s₀ s s' : State} {i t : Nat}

/-! ## Steps of the others -/

/-- A step that the worker takes no part in. -/
structure Aside (i : Nat) (s s' : State) : Prop where
  worker : s'.worker i = s.worker i
  graph : s'.graph = s.graph
  reports : s'.reports = s.reports
  pending : s'.pendingEdgeInfo = s.pendingEdgeInfo
  delivered : ∀ t, (s'.ring t).delivered = (s.ring t).delivered
  count : s.lockSlotCount ≤ s'.lockSlotCount

theorem ThreadStep.aside {mv : Move} (L : LifeInv s) (hi : s.worker i ≠ .exited)
    (h : ThreadStep cfg s t mv s') : Aside i s s' where
  worker := by
    cases h.starts with
    | same hst hc hp hw | claim hst hst' hc hp hp' hw | finish hst hc hp hp' hw => rw [hw]
    | create hst hc hp hp' hw => exact absurd (L.preparing t hp i) hi
  graph := graph_thread h
  reports := reports_thread h
  pending := pending_thread h
  delivered _ := delivered_thread h
  count := lockSlotCount_thread h

theorem ShutdownStep.aside (h : ShutdownStep s s') : Aside i s s' := by
  cases h <;> exact ⟨rfl, rfl, rfl, rfl, fun _ => rfl, le_rfl⟩

theorem dequeuedFrom_congr (h : (s'.ring t).delivered = (s.ring t).delivered) :
    dequeuedFrom s₀ s' t = dequeuedFrom s₀ s t := by
  rw [dequeuedFrom, dequeuedFrom, h]

theorem Aside.inCall (h : Aside i s s') (I : InCall cfg s₀ i s) : InCall cfg s₀ i s' := by
  have htaken : dequeuedFrom s₀ s' = dequeuedFrom s₀ s :=
    funext fun t => dequeuedFrom_congr (h.delivered t)
  cases I with
  | taking second t b hw ht hp hg hr hlater =>
    refine .taking second t b (h.worker.trans hw) ht ?_ (h.graph.trans hg) (h.reports.trans hr) ?_
    · rw [htaken, h.pending]
      exact hp
    · rw [htaken]
      exact hlater
  | inserting b hw hp hout =>
    refine .inserting b (by rw [h.worker, hw]) ?_ fun n hn => ?_
    · rw [dequeued, htaken, h.pending]
      exact hp
    · rw [h.pending, h.worker, ← hout n (h.count.trans hn)]
      unfold toInsert
      rw [h.graph, h.reports, h.pending]

/-! ## Steps of the worker -/

theorem edgeInfoOf_eq (u v : Nat) :
    edgeInfoOf cfg s u v = passedInfo (infosOf cfg s.pendingEdgeInfo v) u := by
  unfold edgeInfoOf infosOf
  cases cfg.reportSites <;> rfl

theorem aside_read {r : Ring} (hu : Unmoved (s.ring t) r) :
    Aside i s (s.setRing t r) where
  worker := rfl
  graph := rfl
  reports := rfl
  pending := rfl
  delivered u := setRing_keeps s t u r SpscRing.State.delivered hu.delivered
  count := le_rfl

theorem dequeuedFrom_pop {r : Ring} {e : Event}
    (hgrown : (s₀.ring t).delivered.length ≤ (s.ring t).delivered.length)
    (hring : s'.ring = (s.setRing t r).ring) (hdel : r.delivered = (s.ring t).delivered ++ [e])
    (u : Nat) : dequeuedFrom s₀ s' u =
      if u = t then dequeuedFrom s₀ s t ++ [e] else dequeuedFrom s₀ s u := by
  rw [dequeuedFrom, hring, setRing_ring]
  by_cases hu : u = t
  · subst hu
    rw [if_pos rfl, if_pos rfl, hdel, List.drop_append_of_le_length hgrown]
    rfl
  · rw [if_neg hu, if_neg hu]
    rfl

/-- **A step of the worker** goes on with the call. -/
theorem WorkerStep.inCall (E : EdgeInv s) (I : CallInv cfg s₀ i s) (h : WorkerStep cfg s i s')
    (hstay : ∀ second b, s.worker i ≠ .target second b []) : InCall cfg s₀ i s' := by
  cases h with
  | read second t b r a h ht hr hu hp => exact (aside_read hu).inCall I.call
  | next second t b r head h ht hr hu hp hc hempty =>
    have hsame : dequeuedFrom s₀ ((s.setRing t r).setWorker i (.drain second (t + 1) b)) =
        dequeuedFrom s₀ s :=
      funext fun u => dequeuedFrom_congr
        (setRing_keeps s t u r SpscRing.State.delivered hu.delivered)
    cases I.call with
    | inserting b' hw =>
      rw [h] at hw
      cases hw
    | taking second' t' b' hw htle hp' hg hrep hlater =>
      rw [h] at hw
      cases hw
      refine .taking second (t + 1) b (setWorker_at ..) ht ?_ hg hrep fun u hu => ?_
      · rw [hsame, hlater (t + 1) (Nat.lt_succ_self t), List.append_nil, List.range_succ,
          List.flatMap_append, List.flatMap_singleton]
        exact hp'
      · rw [hsame]
        exact hlater u (by omega)
  | pop second t b r e h ht hr hacc hdel hp =>
    cases I.call with
    | inserting b' hw =>
      rw [h] at hw
      cases hw
    | taking second' t' b' hw htle hp' hg hrep hlater =>
      rw [h] at hw
      cases hw
      generalize hs' : { (s.setRing t r).setWorker i (.drain second t (b.add e)) with
        pendingEdgeInfo := notePending s.pendingEdgeInfo b e } = s'
      have hring : s'.ring = (s.setRing t r).ring := by rw [← hs']; rfl
      have htaken := dequeuedFrom_pop (I.grown t) hring hdel
      have hbefore : (List.range t).flatMap (dequeuedFrom s₀ s') =
          (List.range t).flatMap (dequeuedFrom s₀ s) :=
        List.flatMap_congr fun u hu => by rw [htaken, if_neg (List.mem_range.mp hu).ne]
      subst hs'
      refine .taking second t (b.add e) (setWorker_at ..) htle ?_ hg hrep fun u hu => ?_
      · rw [hbefore, htaken, if_pos rfl, ← List.append_assoc, List.foldl_append, ← hp',
          List.foldl_cons, List.foldl_nil, takeEvent_eq]
      · rw [htaken, if_neg hu.ne']
        exact hlater u hu
  | drained second t b h ht =>
    cases I.call with
    | inserting b' hw =>
      rw [h] at hw
      cases hw
    | taking second' t' b' hw htle hp hg hrep hlater =>
      rw [h] at hw
      cases hw
      obtain rfl : t = maxThreadSlots := Nat.le_antisymm htle ht
      rw [I.bound _ le_rfl, List.append_nil] at hp
      refine .inserting b (by rw [setWorker_at]; rfl) hp fun n hn => ?_
      rw [setWorker_at, ← hg, ← hrep]
      rfl
  | processed second b h => exact absurd h (hstay second b)
  | pick second b v rest h =>
    cases I.call with
    | taking second' t' b' hw =>
      rw [h] at hw
      cases hw
    | inserting b' hw hp hout =>
      rw [h] at hw hout
      cases hw
      refine .inserting b (by rw [setWorker_at]; rfl) hp fun n hn => ?_
      -- the bits of the batch are registered locks
      have hbits : ∀ u, (b.fromBits v).test u = true → u < s.lockSlotCount := fun u hu =>
        (E.batch i u v (by rw [h]; exact ⟨List.mem_cons_self, hu⟩)).source
      rw [setWorker_at]
      refine Eq.trans ?_ (hout n hn)
      rw [← edgeTodo_mono hbits hn]
      simp only [toInsert, processTargets, List.foldl_cons, processEdgeBits_eq]
      rfl
  | picked second b v rest h =>
    cases I.call with
    | taking second' t' b' hw =>
      rw [h] at hw
      cases hw
    | inserting b' hw hp hout =>
      rw [h] at hw hout
      cases hw
      refine .inserting b (by rw [setWorker_at]; rfl) hp fun n hn => ?_
      rw [setWorker_at]
      refine Eq.trans ?_ (hout n hn)
      simp only [toInsert, insertAll, List.append_nil]
      rfl
  | insert second b v u todo rest h r hr =>
    cases I.call with
    | taking second' t' b' hw =>
      rw [h] at hw
      cases hw
    | inserting b' hw hp hout =>
      rw [h] at hw hout
      cases hw
      subst hr
      refine .inserting b (by simp only [setWorker_at]; rfl) hp fun n hn => ?_
      have hmono : s.graph.addEdgeIfNew s.lockSlotCount u v (edgeInfoOf cfg s u v) =
          s.graph.addEdgeIfNew n u v (passedInfo (infosOf cfg s.pendingEdgeInfo v) u) := by
        rw [edgeInfoOf_eq, addEdgeIfNew_mono E.wf hn (E.next h).source]
      refine Eq.trans ?_ (hout n hn)
      simp only [setWorker_at, toInsert, insertAll, hmono, List.append_assoc]
      rfl
  | storeIdle h | storeBusy h | stop h hs | noStop h hs | scanNext t h ht hempty
  | scanFound t h ht hne | scanDone t h ht | wait h hsem =>
    cases I.call with
    | taking second t b hw =>
      rw [h] at hw
      cases hw
    | inserting b hw =>
      rw [h] at hw
      cases hw

theorem delivered_worker {u : Nat} (h : WorkerStep cfg s i s') (hu : maxThreadSlots ≤ u) :
    (s'.ring u).delivered = (s.ring u).delivered := by
  cases h with
  | read second t b r a h ht hr hun hp =>
    exact setRing_keeps s t u r SpscRing.State.delivered hun.delivered
  | next second t b r head h ht hr hun hp hc hempty =>
    exact setRing_keeps s t u r SpscRing.State.delivered hun.delivered
  | pop second t b r e h ht hr hacc hdel hp =>
    change ((s.setRing t r).ring u).delivered = _
    rw [setRing_ring, if_neg (ht.trans_le hu).ne']
  | _ => rfl

/-- A worker past a ring has found it empty. -/
theorem atRing_worker (R : ∀ u, SpscRing.RingInv (ringParams cfg) (s.ring u))
    (I : InCall cfg s₀ i s) (h : WorkerStep cfg s i s') (ht : t < maxThreadSlots)
    (hat : t < atRing (s'.worker i)) :
    t < atRing (s.worker i) ∨ (s.ring t).accepted.length ≤ (s.ring t).delivered.length := by
  cases I with
  | inserting b hw =>
    left
    cases hpc : s.worker i <;> rw [hpc] at hw <;> first | exact ht | cases hw
  | taking second k b hw =>
    cases h with
    | drained second' k' b' h hk =>
      rw [h]
      exact Or.inl (ht.trans_le hk)
    | read second' k' b' r a h hk hr hu hp => exact Or.inl hat
    | next second' k' b' r head h hk hr hu hp hc hempty =>
      rw [setWorker_at] at hat
      rcases Nat.lt_succ_iff_lt_or_eq.mp hat with hlt | rfl
      · rw [h]
        exact Or.inl hlt
      · have hC := (R t).consumer
        simp only [SpscRing.ConsumerOk, hc] at hC
        have hnil := (waiting_nil (ringParams_lawful cfg) (R t)).mpr (hC ▸ hempty)
        exact Or.inr (List.drop_eq_nil_iff.mp hnil)
    | pop second' k' b' r e h hk hr hacc hdel hp =>
      rw [h]
      exact Or.inl (by rwa [setWorker_at] at hat)
    | processed second' b' h | pick second' b' v rest h | picked second' b' v rest h
    | insert second' b' v u todo rest h r hr | storeIdle h | storeBusy h | stop h hs
    | noStop h hs | scanNext k' h hk hempty | scanFound k' h hk hne | scanDone k' h hk
    | wait h hsem =>
      rw [h] at hw
      cases hw

theorem callInv_initial (h₀ : Runs.Reachable (system cfg) s₀) {second : Bool}
    (hw : s₀.worker i = .drain second 0 .empty) : CallInv cfg s₀ i s₀ := by
  have hnil : ∀ t, dequeuedFrom s₀ s₀ t = [] := fun t => List.drop_length
  refine ⟨h₀, fun _ => le_rfl, fun _ => List.prefix_rfl, le_rfl, fun t _ => hnil t, fun t _ ht => ?_,
    .taking second 0 .empty hw (Nat.zero_le _) ?_ rfl rfl fun u _ => hnil u⟩
  · rw [hw] at ht
    exact absurd ht (Nat.not_lt_zero t)
  · rw [hnil]
    rfl

theorem CallInv.alive (I : CallInv cfg s₀ i s) : s.worker i ≠ .exited := by
  intro hex
  cases I.call with
  | taking second t b hw =>
    rw [hex] at hw
    cases hw
  | inserting b hw =>
    rw [hex] at hw
    cases hw

theorem CallInv.step {a : Act} (I : CallInv cfg s₀ i s) (hs : RbBackend.step cfg s a = some s')
    (hstay : a = .worker i → ∀ second b, s.worker i ≠ .target second b []) :
    CallInv cfg s₀ i s' := by
  have hr : Runs.Reachable (system cfg) s' := .step I.reachable trivial hs
  have L := lifeInv I.reachable
  have h := (step_cases hs).2
  have h₁ := h
  have hgrow := ring_grows h
  have haside : Aside i s s' → CallInv cfg s₀ i s' := fun hA =>
    ⟨hr, fun t => by rw [hA.delivered]; exact I.grown t, fun t => (I.accepted t).trans (hgrow t).1,
      I.count.trans (lockSlotCount_step h),
      fun t ht => by rw [dequeuedFrom_congr (hA.delivered t)]; exact I.bound t ht,
      fun t ht hat => by rw [hA.delivered]; exact I.emptied t ht (hA.worker ▸ hat), hA.inCall I.call⟩
  cases h with
  | thread t mv ht h => exact haside (h.aside L I.alive)
  | shutdown h => exact haside h.aside
  | worker j h =>
    obtain rfl : j = i := L.one h.life.2.2.2.2.1 I.alive
    have hin := h.inCall (edgeInv I.reachable) I (hstay rfl)
    refine ⟨hr, fun t => (I.grown t).trans (hgrow t).2.length_le,
      fun t => (I.accepted t).trans (hgrow t).1,
      I.count.trans (lockSlotCount_step h₁), fun t ht => ?_, fun t ht hat => ?_, hin⟩
    · rw [dequeuedFrom_congr (delivered_worker h ht)]
      exact I.bound t ht
    · refine le_trans ?_ (hgrow t).2.length_le
      rcases atRing_worker (fun u => ringInv I.reachable u) I.call h ht hat with hat | hle
      · exact I.emptied t ht hat
      · exact (I.accepted t).length_le.trans hle

theorem callInv (h₀ : Runs.Reachable (system cfg) s₀) {second : Bool}
    (hw : s₀.worker i = .drain second 0 .empty) (h : DuringCall cfg s₀ i s) :
    CallInv cfg s₀ i s := by
  induction h with
  | init => exact callInv_initial h₀ hw
  | step hr hstay hs ih => exact ih.step hs hstay

/-- **A call among the steps of the threads is the call as it is written**, over the events
it dequeued: all that were in the rings when it began are among them. -/
theorem pass_is_sequential {second : Bool} {b : Batch} (h₀ : Runs.Reachable (system cfg) s₀)
    (hw : s₀.worker i = .drain second 0 .empty) (h : DuringCall cfg s₀ i s)
    (hend : s.worker i = .target second b []) :
    (s.pendingEdgeInfo, (s.graph, s.reports), b.madeProgress) =
        drainOnce cfg s.lockSlotCount (dequeued s₀ s) s₀.pendingEdgeInfo (s₀.graph, s₀.reports) ∧
      ∀ t, t < maxThreadSlots → waiting s₀ t <+: dequeuedFrom s₀ s t := by
  have I := callInv h₀ hw h
  constructor
  · cases I.call with
    | taking second' t b' hw' =>
      rw [hend] at hw'
      cases hw'
    | inserting b' hw' hp hout =>
      have hout := hout s.lockSlotCount le_rfl
      rw [hend] at hw' hout
      cases hw'
      unfold drainOnce
      rw [← hp]
      simp only [← hout]
      rfl
  · intro t ht
    have hat : t < atRing (s.worker i) := by
      rw [hend]
      exact ht
    have hprefix : (s₀.ring t).accepted <+: (s.ring t).delivered :=
      List.prefix_of_prefix_length_le (I.accepted t) (ringInv I.reachable t).order
        (I.emptied t ht hat)
    exact hprefix.drop _

/-! ## What a call records -/

def offers (u v : Nat) (e : Event) : Bool := decide (e.toLockSlot = v) && e.bits.test u

/-- The site of the first event that offers the pair; without a return address the row of an
earlier call is left. -/
def firstSite (es : List Event) (info : Nat → Nat → EdgeInfo) (u v : Nat) : EdgeInfo :=
  match es.find? (offers u v) with
  | some e => if e.acquirePc ≠ 0 then ⟨some e.threadSlot, e.acquirePc⟩ else info v u
  | none => info v u

variable {es : List Event} {e : Event} {b : Batch} {info : Nat → Nat → EdgeInfo} {u v : Nat}

theorem offers_iff : offers u v e = true ↔ Carries e u v := by
  rw [offers, Bool.and_eq_true, decide_eq_true_eq, Carries]

theorem fromBits_add : ((b.add e).fromBits v).test u =
    ((b.fromBits v).test u || (decide (v < maxLockSlots) && offers u v e)) := by
  unfold Batch.add offers
  by_cases hto : maxLockSlots ≤ e.toLockSlot
  · rw [if_pos hto]
    by_cases hev : v = e.toLockSlot
    · simp [hev, Nat.not_lt.mpr hto]
    · simp [Ne.symm hev]
  · rw [if_neg hto]
    simp only [Function.update_apply]
    by_cases hev : v = e.toLockSlot
    · subst hev
      simp [Nat.lt_of_not_le hto]
    · simp [hev, Ne.symm hev]

theorem mem_toLocks_add (hv : v < maxLockSlots) :
    v ∈ (b.add e).toLocks ↔ v ∈ b.toLocks ∨ e.toLockSlot = v := by
  unfold Batch.add
  split
  · rename_i hto
    have hne : e.toLockSlot ≠ v := by omega
    simp [hne]
  · by_cases hmem : e.toLockSlot ∈ b.toLocks
    · rw [if_pos hmem]
      constructor
      · exact Or.inl
      · rintro (h | rfl)
        · exact h
        · exact hmem
    · rw [if_neg hmem, List.mem_append, List.mem_singleton, eq_comm]

theorem notePending_apply (hv : v < maxLockSlots) : notePending info b e v u =
    if e.acquirePc ≠ 0 ∧ offers u v e = true ∧ (b.fromBits v).test u = false then
      ⟨some e.threadSlot, e.acquirePc⟩
    else info v u := by
  unfold notePending offers
  by_cases hev : e.toLockSlot = v
  · subst hev
    by_cases hpc : e.acquirePc = 0
    · simp [hpc]
    · simp [hv, hpc]
  · have hne : v ≠ e.toLockSlot := Ne.symm hev
    split
    · simp [hev, Function.update_of_ne hne]
    · simp [hev]

/-- The first loop: the batch offers what its events offer, first come first noted. -/
theorem foldl_takeEvent (es : List Event) (info : Nat → Nat → EdgeInfo) (u v : Nat) :
    let p := es.foldl takeEvent (info, Batch.empty)
    (p.2.fromBits v).test u = (decide (v < maxLockSlots) && es.any (offers u v)) ∧
      (v < maxLockSlots → (v ∈ p.2.toLocks ↔ ∃ e, e ∈ es ∧ e.toLockSlot = v) ∧
        p.1 v u = firstSite es info u v) := by
  induction es using List.reverseRecOn with
  | nil => simp [Batch.empty, firstSite]
  | append_singleton es e ih =>
    obtain ⟨hbits, hrest⟩ := ih
    rw [List.foldl_append, List.foldl_cons, List.foldl_nil]
    revert hbits hrest
    generalize es.foldl takeEvent (info, Batch.empty) = p
    obtain ⟨info', b⟩ := p
    intro hbits hrest
    rw [takeEvent_eq]
    refine ⟨?_, fun hv => ?_⟩
    · rw [fromBits_add, hbits, List.any_append, ← Bool.and_or_distrib_left]
      simp
    obtain ⟨hlocks, hinfo⟩ := hrest hv
    rw [decide_eq_true hv, Bool.true_and] at hbits
    constructor
    · rw [mem_toLocks_add hv, hlocks]
      simp [or_and_right, exists_or]
    · change notePending info' b e v u = _
      change info' v u = _ at hinfo
      rw [notePending_apply hv, hbits, hinfo, firstSite, firstSite, List.find?_append]
      cases hfind : es.find? (offers u v) with
      | some x =>
        have hany : es.any (offers u v) = true :=
          List.any_eq_true.mpr ⟨x, List.mem_of_find?_eq_some hfind, List.find?_some hfind⟩
        simp [hany]
      | none =>
        have hany : es.any (offers u v) = false := by
          rw [List.any_eq_false]
          intro x hx
          exact List.find?_eq_none.mp hfind x hx
        cases hoff : offers u v e <;> simp [hany, hoff]

end RbBackend

namespace RbGraph

variable {g : RbGraph} {n u v : Nat} {info : Nat → EdgeInfo}

/-- What recording the pairs of `P` does, where `site` are their infos. -/
structure Records (n : Nat) (g : RbGraph) (P : Nat → Nat → Prop) (site : Nat → Nat → EdgeInfo)
    (g' : RbGraph) : Prop where
  wf : g'.WF n
  edge : ∀ x y, g'.E x y ↔ g.E x y ∨ P x y
  old : ∀ x y, g.E x y → g'.edgeInfo x y = g.edgeInfo x y
  new : ∀ x y, ¬ g.E x y → P x y → g'.edgeInfo x y = site x y

theorem Records.refl (h : g.WF n) {site : Nat → Nat → EdgeInfo} :
    Records n g (fun _ _ => False) site g where
  wf := h
  edge _ _ := (or_false _).symm.to_iff
  old _ _ _ := rfl
  new _ _ _ h := h.elim

theorem Records.trans {g₁ g₂ : RbGraph} {P Q : Nat → Nat → Prop} {site : Nat → Nat → EdgeInfo}
    (h : Records n g P site g₁) (h' : Records n g₁ Q site g₂) :
    Records n g (fun x y => P x y ∨ Q x y) site g₂ where
  wf := h'.wf
  edge x y := by rw [h'.edge, h.edge, or_assoc]
  old x y he := by rw [h'.old x y ((h.edge x y).mpr (Or.inl he)), h.old x y he]
  new x y hno hp := by
    by_cases hP : P x y
    · rw [h'.old x y ((h.edge x y).mpr (Or.inr hP)), h.new x y hno hP]
    · exact h'.new x y (fun he => ((h.edge x y).mp he).elim hno hP) (hp.resolve_left hP)

theorem Records.congr {g' : RbGraph} {P Q : Nat → Nat → Prop} {site : Nat → Nat → EdgeInfo}
    (h : Records n g P site g') (hPQ : ∀ x y, ¬ g.E x y → (P x y ↔ Q x y)) :
    Records n g Q site g' where
  wf := h.wf
  edge x y := by
    rw [h.edge]
    by_cases he : g.E x y
    · simp [he]
    · simp [he, hPQ x y he]
  old := h.old
  new x y hno hq := h.new x y hno ((hPQ x y hno).mpr hq)

theorem addEdgeIfNew_records (h : g.WF n) (hu : u < n) (hv : v < n) (hne : u ≠ v)
    (site : Nat → Nat → EdgeInfo) :
    Records n g (fun x y => x = u ∧ y = v) site (g.addEdgeIfNew n u v (site u v)).1 := by
  unfold addEdgeIfNew
  by_cases he : g.E u v
  · have hpred : (g.predecessorBits v).test u = true := (h.predecessors u v).trans he
    rw [if_pos (Or.inr hpred)]
    refine (Records.refl h).congr fun x y hno => ?_
    constructor
    · exact False.elim
    · rintro ⟨rfl, rfl⟩
      exact hno he
  · have hpred : ¬ (u = v ∨ (g.predecessorBits v).test u = true) := by
      rw [h.predecessors]
      exact not_or.mpr ⟨hne, he⟩
    rw [if_neg hpred]
    have hinfo : ∀ x y, (g.insert n u v (site u v)).edgeInfo x y =
        if x = u ∧ y = v then site u v else g.edgeInfo x y :=
      fun x y => update_twice g.edgeInfo u v x y (site u v)
    refine ⟨h.insert hu hv, fun x y => ?_, fun x y hxy => ?_, fun x y _ hxy => ?_⟩
    · rw [insert_E]
      rfl
    · have hxy' : ¬ (x = u ∧ y = v) := by
        rintro ⟨rfl, rfl⟩
        exact he hxy
      rw [hinfo, if_neg hxy']
    · rw [hinfo, if_pos hxy, hxy.1, hxy.2]

theorem insertAll_records (h : g.WF n) {us : List Nat}
    (hus : ∀ u, u ∈ us → u < n ∧ v < n ∧ u ≠ v) (site : Nat → Nat → EdgeInfo) :
    Records n g (fun x y => y = v ∧ x ∈ us) site (g.insertAll n v (fun u => site u v) us).1 := by
  induction us generalizing g with
  | nil =>
    refine (Records.refl h).congr fun x y _ => ?_
    simp
  | cons u us ih =>
    obtain ⟨hu, hv, hne⟩ := hus u List.mem_cons_self
    have hone := addEdgeIfNew_records h hu hv hne site
    have hrest := ih hone.wf fun w hw => hus w (List.mem_cons_of_mem u hw)
    refine (hone.trans hrest).congr fun x y _ => ?_
    rw [List.mem_cons]
    tauto

end RbGraph

namespace RbBackend

open State RbGraph

variable {cfg : Config} {s₀ s : State} {n i : Nat} {info : Nat → Nat → EdgeInfo}

/-- The second loop records the pairs of the batch. -/
theorem processTargets_records (cfg : Config) (info : Nat → Nat → EdgeInfo) {bits : Nat → WordSet}
    {vs : List Nat} {r : RbGraph × List Report}
    (h : r.1.WF n) (hn : n ≤ maxLockSlots)
    (hbits : ∀ u v, v ∈ vs → (bits v).test u = true → u < n ∧ v < n ∧ u ≠ v) :
    Records n r.1 (fun x y => y ∈ vs ∧ (bits y).test x = true)
      (fun x y => passedInfo (infosOf cfg info y) x) (processTargets cfg n info bits vs r).1 := by
  induction vs generalizing r with
  | nil =>
    refine (Records.refl h).congr fun x y _ => ?_
    simp
  | cons v vs ih =>
    obtain ⟨g, reports⟩ := r
    have htodo : ∀ u, u ∈ g.edgeTodo n v (bits v) → u < n ∧ v < n ∧ u ≠ v := fun u hu =>
      hbits u v List.mem_cons_self ((mem_edgeTodo h hn).mp hu).2.1
    have hone := insertAll_records h htodo fun x y => passedInfo (infosOf cfg info y) x
    have hrest := ih (r := processEdgeBits n v (bits v) (infosOf cfg info v) (g, reports))
      (by rw [processEdgeBits_eq]; exact hone.wf) fun u w hw => hbits u w (List.mem_cons_of_mem v hw)
    have hcons : processTargets cfg n info bits (v :: vs) (g, reports) =
        processTargets cfg n info bits vs
          (processEdgeBits n v (bits v) (infosOf cfg info v) (g, reports)) := rfl
    rw [hcons]
    rw [processEdgeBits_eq] at hrest ⊢
    refine (hone.trans hrest).congr fun x y hno => ?_
    have hno : ¬ g.E x y := hno
    rw [List.mem_cons]
    constructor
    · rintro (⟨rfl, hx⟩ | ⟨hy, hx⟩)
      · exact ⟨Or.inl rfl, ((mem_edgeTodo h hn).mp hx).2.1⟩
      · exact ⟨Or.inr hy, hx⟩
    · rintro ⟨rfl | hy, hx⟩
      · exact Or.inl ⟨rfl, (mem_edgeTodo h hn).mpr
          ⟨(hbits x y List.mem_cons_self hx).1, hx, hno⟩⟩
      · exact Or.inr ⟨hy, hx⟩

/-- **A call records every pair that was offered**, with the site of the first event that
offers it; the edges from before keep theirs. -/
theorem pass_records_first {second : Bool} {b : Batch} (h₀ : Runs.Reachable (system cfg) s₀)
    (hw : s₀.worker i = .drain second 0 .empty) (h : DuringCall cfg s₀ i s)
    (hend : s.worker i = .target second b []) (u v : Nat) :
    (s.graph.E u v ↔ s₀.graph.E u v ∨ ∃ e, e ∈ dequeued s₀ s ∧ Carries e u v) ∧
      (s₀.graph.E u v → s.graph.edgeInfo u v = s₀.graph.edgeInfo u v) ∧
      (¬ s₀.graph.E u v → s.graph.E u v → s.graph.edgeInfo u v =
        if cfg.reportSites then firstSite (dequeued s₀ s) s₀.pendingEdgeInfo u v
        else ⟨none, 0⟩) := by
  have I := callInv h₀ hw h
  have E := edgeInv I.reachable
  have hok : ∀ x y, (∃ e, e ∈ dequeued s₀ s ∧ Carries e x y) → PairOk s x y := by
    rintro x y ⟨e, he, hc⟩
    obtain ⟨t, -, he⟩ := List.mem_flatMap.mp he
    exact E.accepted t e x y
      ((ringInv I.reachable t).order.subset (List.mem_of_mem_drop he)) hc
  have hany : ∀ x y, (dequeued s₀ s).any (offers x y) = true ↔
      ∃ e, e ∈ dequeued s₀ s ∧ Carries e x y := fun x y => by
    simp only [List.any_eq_true, offers_iff]
  have hspec := foldl_takeEvent (dequeued s₀ s) s₀.pendingEdgeInfo
  have hgraph : s.graph = (drainOnce cfg s.lockSlotCount (dequeued s₀ s) s₀.pendingEdgeInfo
      (s₀.graph, s₀.reports)).2.1.1 := by
    rw [← (pass_is_sequential h₀ hw h hend).1]
  have hpairs : ∀ x y, (y ∈ ((dequeued s₀ s).foldl takeEvent
        (s₀.pendingEdgeInfo, Batch.empty)).2.toLocks ∧
      (((dequeued s₀ s).foldl takeEvent (s₀.pendingEdgeInfo, Batch.empty)).2.fromBits y).test x =
        true) ↔ ∃ e, e ∈ dequeued s₀ s ∧ Carries e x y := by
    intro x y
    rw [(hspec x y).1, Bool.and_eq_true, decide_eq_true_eq, hany]
    constructor
    · exact fun hp => hp.2.2
    · intro hp
      have hy := (hok x y hp).target.trans_le E.count
      obtain ⟨e, he, hto, hx⟩ := hp
      exact ⟨((hspec x y).2 hy).1.mpr ⟨e, he, hto⟩, hy, e, he, hto, hx⟩
  have hrec := processTargets_records cfg
    ((dequeued s₀ s).foldl takeEvent (s₀.pendingEdgeInfo, Batch.empty)).1
    (r := (s₀.graph, s₀.reports)) ((edgeInv h₀).wf.mono I.count) E.count fun x y hy hx => by
      have hp := hok x y ((hpairs x y).mp ⟨hy, hx⟩)
      exact ⟨hp.source, hp.target, hp.claimed.ne⟩
  have hrec := hrec.congr fun x y _ => hpairs x y
  refine ⟨?_, fun he => ?_, fun hno he => ?_⟩
  · rw [hgraph]
    exact hrec.edge u v
  · rw [hgraph]
    exact hrec.old u v he
  · rw [hgraph] at he ⊢
    have hp := ((hrec.edge u v).mp he).resolve_left hno
    have hv := (hok u v hp).target.trans_le E.count
    refine (hrec.new u v hno hp).trans ?_
    rw [← ((hspec u v).2 hv).2]
    unfold infosOf
    cases cfg.reportSites <;> rfl

/-! ## A call that meets a second event -/

/-- The rest of the first loop over empty rings. -/
theorem duringCall_skip (n : Nat) (h : DuringCall cfg s₀ i s) (hex : s.exited = false)
    {second : Bool} {k : Nat} {b : Batch} (hw : s.worker i = .drain second k b)
    (hn : k + n = maxThreadSlots)
    (hd : ∀ t, k ≤ t → t < maxThreadSlots → Drained (s.ring t)) :
    DuringCall cfg s₀ i (s.setWorker i (.drain second maxThreadSlots b)) := by
  induction n generalizing s k with
  | zero => rwa [setWorker_self (hw.trans (by rw [← hn, Nat.add_zero]))]
  | succ n ih =>
    have hstay : ∀ {s₁ : State}, s₁.worker i = .drain second k b →
        ∀ second' b', s₁.worker i ≠ .target second' b' [] := by
      intro s₁ h₁ second' b' ht
      rw [h₁] at ht
      cases ht
    obtain ⟨s₁, h₁, hw₁, h₂⟩ : ∃ s₁, RbBackend.step cfg s (.worker i) = some s₁ ∧
        s₁.worker i = .drain second k b ∧ RbBackend.step cfg s₁ (.worker i) =
          some (s.setWorker i (.drain second (k + 1) b)) :=
      drain_empty_steps hex hw (by omega) (hd k le_rfl (by omega))
    have hnext : DuringCall cfg s₀ i (s.setWorker i (.drain second (k + 1) b)) :=
      Runs.ReachableBy.step (a := .worker i)
        (Runs.ReachableBy.step (a := .worker i) h (fun _ => hstay hw) h₁) (fun _ => hstay hw₁) h₂
    have := ih (k := k + 1) hnext hex (by simp [setWorker]) (by omega) fun t ht => hd t (by omega)
    simpa [setWorker] using this

/-- The worker does not return from a call. -/
def stays (s : State) (a : Act) : Bool :=
  match a, s.worker 0 with
  | .worker _, .target _ _ [] => false
  | _, _ => true

theorem stays_spec {a : Act} (hs : stays s a = true) (ha : a = .worker 0) (second : Bool)
    (b : Batch) : s.worker 0 ≠ .target second b [] := by
  intro hw
  subst ha
  simp [stays, hw] at hs

/-- Thread 0 locks 0 then 1, and the worker has begun nothing yet. -/
def offered : List Act :=
  [.thread 0 .register, .thread 0 .register, .thread 0 (.acquire ⟨.lock, 0, 7⟩),
    .thread 0 (.acquire ⟨.lock, 1, 7⟩)] ++ List.replicate 26 (.thread 0 .run) ++
  [.thread 0 (.release 1), .thread 0 (.release 0), .thread 1 (.acquire ⟨.lock, 0, 9⟩)]

/-- The worker empties the first ring before thread 1 locks 1, and the second after. -/
def offeredAgain : List Act :=
  List.replicate 6 (.worker 0) ++ [.thread 1 (.acquire ⟨.lock, 1, 9⟩)] ++
    List.replicate 19 (.thread 1 .run) ++ List.replicate 6 (.worker 0)

def begun : Option State := Runs.exec (system ⟨false, true⟩) initial offered

theorem begun_runs : begun.isSome = true := by decide +kernel

def emptied : Option State :=
  Runs.execBy ⟨begun.get begun_runs, step ⟨false, true⟩⟩ stays (begun.get begun_runs) offeredAgain

theorem emptied_runs : emptied.isSome = true := by decide +kernel

def ended : Option State :=
  Runs.execBy ⟨begun.get begun_runs, step ⟨false, true⟩⟩ stays
    ((emptied.get emptied_runs).skip 0) (List.replicate 4 (.worker 0))

theorem ended_runs : ended.isSome = true := by decide +kernel

theorem begun_reachable : Runs.Reachable (system ⟨false, true⟩) (begun.get begun_runs) :=
  Runs.ReachableBy.exec .init (Option.some_get begun_runs).symm

theorem ended_during : DuringCall ⟨false, true⟩ (begun.get begun_runs) 0 (ended.get ended_runs) := by
  obtain ⟨b, hb⟩ : ∃ b, (emptied.get emptied_runs).worker 0 = .drain false 2 b := ⟨_, rfl⟩
  have hskip : (emptied.get emptied_runs).skip 0 =
      (emptied.get emptied_runs).setWorker 0 (.drain false maxThreadSlots b) := by
    simp only [State.skip, hb]
  have hfirst : DuringCall ⟨false, true⟩ (begun.get begun_runs) 0 (emptied.get emptied_runs) :=
    Runs.ReachableBy.execBy (fun _ _ => stays_spec) .init (Option.some_get emptied_runs).symm
  have hrest := duringCall_skip 126 hfirst (by decide +kernel) hb rfl (by decide +kernel)
  rw [← hskip] at hrest
  exact Runs.ReachableBy.execBy (fun _ _ => stays_spec) hrest (Option.some_get ended_runs).symm

/-- The worker is about to return from the call. -/
def returns : WorkerPc → Bool
  | .target false _ [] => true
  | _ => false

theorem returns_spec {pc : WorkerPc} (h : returns pc = true) : ∃ b, pc = .target false b [] := by
  unfold returns at h
  split at h
  · exact ⟨_, rfl⟩
  · cases h

theorem begun_worker : (begun.get begun_runs).worker 0 = .drain false 0 .empty := rfl

theorem pass_is_sequential_ended : ∃ s₀ s b,
    DuringCall ⟨false, true⟩ s₀ 0 s ∧ s.worker 0 = .target false b [] ∧
      (dequeued s₀ s).map Event.threadSlot = [0, 1] ∧
      (s.pendingEdgeInfo, (s.graph, s.reports), b.madeProgress) =
        drainOnce ⟨false, true⟩ s.lockSlotCount (dequeued s₀ s) s₀.pendingEdgeInfo
          (s₀.graph, s₀.reports) := by
  obtain ⟨b, hb⟩ : ∃ b, (ended.get ended_runs).worker 0 = .target false b [] :=
    returns_spec (by decide +kernel)
  exact ⟨_, _, b, ended_during, hb, by decide +kernel,
    (pass_is_sequential begun_reachable begun_worker ended_during hb).1⟩

theorem pass_records_first_ended : ∃ s₀ s, DuringCall ⟨false, true⟩ s₀ 0 s ∧
    ¬ s₀.graph.E 0 1 ∧ (dequeued s₀ s).map Event.threadSlot = [0, 1] ∧
      s.graph.edgeInfo 0 1 = ⟨some 0, 7⟩ := by
  obtain ⟨b, hb⟩ : ∃ b, (ended.get ended_runs).worker 0 = .target false b [] :=
    returns_spec (by decide +kernel)
  have hno : ¬ (begun.get begun_runs).graph.edge 0 1 = true := by decide +kernel
  have hE : (ended.get ended_runs).graph.edge 0 1 = true := by decide +kernel
  have hrec := pass_records_first begun_reachable begun_worker ended_during hb 0 1
  refine ⟨_, _, ended_during, hno, by decide +kernel, (hrec.2.2 hno hE).trans ?_⟩
  decide +kernel

end RbBackend

end ScaleLockDep
