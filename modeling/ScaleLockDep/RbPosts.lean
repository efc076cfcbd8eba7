import ScaleLockDep.RbPotential

/-!
# The wakeup semaphore cannot overflow

A post of `lockdep_rb_signal_worker` sets `g_rb_work_pending`, which only the worker
clears, and the worker waits once for every time it has cleared the flag unless it makes
a pass.

* `PostBound`, `postBound`: the value of `g_rb_wakeup_sem` against the passes;
* `created_le`: at most two workers are created;
* `post_never_overflows`: the value stays below `SEM_VALUE_MAX`.
-/

namespace ScaleLockDep.RbBackend

open ThreadState State RbGraph

/-! ## Posts and passes -/

/-- The thread is about to post. -/
def postsAt : Pc → Nat
  | .post _ _ _ => 1
  | _ => 0

/-- The thread has cleared the flag for the worker it is about to create. -/
def createsAt : Pc → Nat
  | .ensure _ _ .create => 1
  | _ => 0

/-- The worker has cleared the flag since it last waited or made a pass. -/
def clearedAt : WorkerPc → Nat
  | .drain false _ _ | .target false _ _ | .edges false _ _ _ _ | .storeIdle | .storeBusy => 0
  | .drain true _ _ | .target true _ _ | .edges true _ _ _ _ => 1
  | .loadStop | .scan _ | .semWait | .exited => 1

/-- The shutdown has posted. -/
def stopPosts : ShutdownPc → Nat
  | .join | .destroy | .storeState | .returned => 1
  | .idle | .loadState | .storeStop | .post => 0

/-- The posts made and to come, and the one a cleared flag allows, against the times the
flag was cleared. -/
def PostBound (p : State × PassHistory) : Prop :=
  p.1.sem + ∑ t ∈ Finset.range maxThreadSlots, postsAt (p.1.thr t).pc + (!p.1.workPending).toNat ≤
    p.2.passes.length + 2 * p.1.created +
      ∑ t ∈ Finset.range maxThreadSlots, createsAt (p.1.thr t).pc +
      clearedAt (p.1.worker (p.1.created - 1)) + stopPosts p.1.shutdown

variable {cfg : Config} {s s' : State} {t i : Nat} {mv : Move} {H : PassHistory}
  {p : State × PassHistory} {G : State × PassHistory → Act → Prop}

theorem postBound_initial : PostBound (initial, .initial) := by
  have hposts : ∀ t, postsAt (initial.thr t).pc = 0 := fun _ => rfl
  have hcreates : ∀ t, createsAt (initial.thr t).pc = 0 := fun _ => rfl
  simp only [PostBound, hposts, hcreates, Finset.sum_const_zero]
  exact Nat.le_refl 1

/-- A sum in which one summand changes. -/
theorem sum_change {n : Nat} {f g : Nat → Nat} (ht : t < n) (h : ∀ u, u ≠ t → g u = f u) :
    ∑ u ∈ Finset.range n, g u + f t = ∑ u ∈ Finset.range n, f u + g t := by
  have hmem := Finset.mem_range.mpr ht
  have herase : ∑ u ∈ (Finset.range n).erase t, g u = ∑ u ∈ (Finset.range n).erase t, f u :=
    Finset.sum_congr rfl fun u hu => h u (Finset.ne_of_mem_erase hu)
  rw [← Finset.sum_erase_add _ g hmem, ← Finset.sum_erase_add _ f hmem, herase]
  omega

/-- A step of thread `t` raises the left side of the bound by no more than the right one. -/
def ThreadPays (s : State) (t : Nat) (s' : State) : Prop :=
  s'.sem + postsAt (s'.thr t).pc + (!s'.workPending).toNat +
      (2 * s.created + createsAt (s.thr t).pc + clearedAt (s.worker (s.created - 1))) ≤
    s.sem + postsAt (s.thr t).pc + (!s.workPending).toNat +
      (2 * s'.created + createsAt (s'.thr t).pc + clearedAt (s'.worker (s'.created - 1)))

/-- A step that neither signals nor starts the worker. -/
theorem ThreadPays.quiet {pc : Pc} (hpc : (s'.thr t).pc = pc)
    (hposts : postsAt pc = postsAt (s.thr t).pc) (hcreates : createsAt pc = createsAt (s.thr t).pc)
    (hs : s'.sem = s.sem) (hp : s'.workPending = s.workPending) (hc : s'.created = s.created)
    (hw : s'.worker = s.worker) : ThreadPays s t s' := by
  rw [ThreadPays, hpc, hposts, hcreates, hs, hp, hc, hw]

theorem posts_thread (L : LifeInv s) (h : ThreadStep cfg s t mv s') : ThreadPays s t s' := by
  cases h with
  | register h | overflow c h | ring c e r h hr hu hp => exact Nat.le_refl _
  | top c h hl hnil hmv | release l h hl =>
    exact .quiet (by rw [complete_pc, if_pos rfl]) (by rw [h]) (by rw [h]) rfl rfl rfl rfl
  | push c h ts hts =>
    exact .quiet (by rw [complete_pc, if_pos rfl]) (by rw [h]; rfl) (by rw [h]; rfl) rfl rfl rfl rfl
  | nested c h hl hnil hmv | load c bits w h hw | unknown c bits w h hw hb
  | known c bits w h hw hb | claim c e h hs | storeState c e h | enqueue c e r h hr hu hp
  | full c e r h hr hu hp | publish c e x r h hr hx hacc hdel hp | storeStop c e h =>
    exact .quiet (setPc_at _ _ _) (by rw [h]; rfl) (by rw [h]; rfl) rfl rfl rfl rfl
  | started c e p h hp hs =>
    refine .quiet (setPc_at _ _ _) (by rw [h]; rfl) ?_ rfl rfl rfl rfl
    rw [h]
    rcases hp with rfl | rfl <;> rfl
  | ensure c e p q h hp hq =>
    refine .quiet (setPc_at _ _ _) (by rw [h]; rfl) ?_ rfl rfl rfl rfl
    rw [h]
    rcases hp with rfl | rfl | rfl <;> rcases hq with rfl | rfl <;> rfl
  | signalled c e why h hw =>
    refine .quiet (setPc_at _ _ _) ?_ ?_ rfl rfl rfl rfl <;> rw [h] <;> cases why <;> rfl
  | semInit c e h =>
    simp only [ThreadPays, setPc_at, h, postsAt, createsAt, setPc_workPending, setPc_created,
      setPc_worker]
    omega
  | storePending c e h =>
    -- the thread is about to create the worker
    have hle := Bool.toNat_le (!s.workPending)
    simp only [ThreadPays, setPc_at, h, postsAt, createsAt, setPc_sem, setPc_created, setPc_worker,
      Bool.not_false, Bool.toNat_true]
    omega
  | create c e h =>
    have hexited : s.worker (s.created - 1) = .exited := L.preparing t (by rw [h]; rfl) _
    simp only [ThreadPays, setWorker_thr, setPc_at, h, hexited, postsAt, createsAt, clearedAt,
      setWorker_worker, setWorker_sem, setWorker_workPending, setPc_sem, setPc_workPending,
      Nat.add_sub_cancel, if_true]
    omega
  | exchange c e why h hw =>
    simp only [ThreadPays, setPc_at, h, hw, postsAt, createsAt, Bool.not_false, Bool.not_true,
      Bool.toNat_true, Bool.toNat_false, setPc_sem, setPc_created, setPc_worker]
    omega
  | post c e why h =>
    have hafter : postsAt (afterSignal c e why) = 0 ∧ createsAt (afterSignal c e why) = 0 := by
      cases why <;> exact ⟨rfl, rfl⟩
    simp only [ThreadPays, setPc_at, h, hafter, setPc_workPending, setPc_created, setPc_worker]
    simp only [postsAt, createsAt]
    omega

/-- A step of worker `i` raises the left side of the bound by no more than the right one. -/
def WorkerPays (s : State) (H : PassHistory) (i : Nat) (s' : State) (H' : PassHistory) : Prop :=
  s'.sem + (!s'.workPending).toNat + (H.passes.length + clearedAt (s.worker i)) ≤
    s.sem + (!s.workPending).toNat + (H'.passes.length + clearedAt (s'.worker i))

/-- A step between a store to the flag and the next. -/
theorem WorkerPays.quiet {H' : PassHistory} (hs : s'.sem = s.sem)
    (hp : s'.workPending = s.workPending) (hpasses : H'.passes = H.passes)
    (hc : clearedAt (s'.worker i) = clearedAt (s.worker i)) : WorkerPays s H i s' H' := by
  rw [WorkerPays, hs, hp, hpasses, hc]

theorem posts_worker (h : WorkerStep cfg s i s') :
    WorkerPays s H i s' (H.noteWorker s i s') := by
  cases h with
  | read second t b r a h ht hr hu hp =>
    refine .quiet rfl rfl ?_ rfl
    rw [noteWorker_drain h]
    cases second <;> rfl
  | next second t b r head h ht hr hu hp hc hempty | pop second t b r e h ht hr hacc hdel hp
  | drained second t b h ht =>
    refine .quiet rfl rfl ?_ ?_
    · rw [noteWorker_drain h]
      cases second <;> rfl
    · simp only [setWorker_at, h]
      cases second <;> rfl
  | processed second b h =>
    cases second with
    | false =>
      refine .quiet rfl rfl ?_ ?_
      · simp only [PassHistory.noteWorker, h]
      · rw [setWorker_at, h]
        cases b.madeProgress <;> rfl
    | true =>
      cases hb : b.madeProgress with
      | false =>
        refine .quiet rfl rfl ?_ ?_
        · simp [PassHistory.noteWorker, h, hb]
        · rw [setWorker_at, h]
          rfl
      | true =>
        -- the pass counts for the cleared flag
        simp only [WorkerPays, PassHistory.noteWorker, h, hb, if_true, setWorker_at, setWorker_sem,
          setWorker_workPending, List.length_append, List.length_singleton]
        simp only [clearedAt, afterDrain]
        omega
  | pick second b v rest h | picked second b v rest h =>
    refine .quiet rfl rfl ?_ ?_
    · simp only [PassHistory.noteWorker, h]
    · rw [setWorker_at, h]
      cases second <;> rfl
  | insert second b v u todo rest h r hr =>
    refine .quiet rfl rfl ?_ ?_
    · simp only [PassHistory.noteWorker, h]
      split <;> rfl
    · simp only [setWorker_at, h]
      cases second <;> rfl
  | storeIdle h =>
    have hle := Bool.toNat_le (!s.workPending)
    simp only [WorkerPays, PassHistory.noteWorker, h, setWorker_at, setWorker_sem, clearedAt,
      Bool.not_false, Bool.toNat_true]
    omega
  | storeBusy h =>
    simp only [WorkerPays, PassHistory.noteWorker, h, setWorker_at, setWorker_sem, clearedAt,
      Bool.not_true, Bool.toNat_false]
    omega
  | wait h hsem =>
    simp only [WorkerPays, PassHistory.noteWorker, h, setWorker_at, setWorker_workPending,
      clearedAt]
    omega
  | stop h hs | noStop h hs | scanNext t h ht hempty | scanFound t h ht hne | scanDone t h ht =>
    refine .quiet rfl rfl ?_ ?_
    · simp only [PassHistory.noteWorker, h]
    · simp only [setWorker_at, h]
      rfl

theorem posts_shutdown (h : ShutdownStep s s') :
    s'.sem + stopPosts s.shutdown ≤ s.sem + stopPosts s'.shutdown := by
  cases h with
  | start h | load h hs | storeStop h | post h | join h hw | destroy h | storeState h | skip h hs =>
    rw [h]
    simp only [stopPosts]
    omega

/-- **The semaphore against the passes.** -/
theorem postBound (h : Runs.ReachableBy (passCounting cfg) G p) : PostBound p := by
  refine passes_invariant postBound_initial (fun s s' H a _ hr _ I hs => ?_) h
  unfold PostBound at I ⊢
  cases hs with
  | thread t mv ht h =>
    have hstep := posts_thread (lifeInv hr) h
    unfold ThreadPays at hstep
    have hposts := sum_change (f := fun u => postsAt (s.thr u).pc)
      (g := fun u => postsAt (s'.thr u).pc) ht fun u hu => by rw [thr_other h hu]
    have hcreates := sum_change (f := fun u => createsAt (s.thr u).pc)
      (g := fun u => createsAt (s'.thr u).pc) ht fun u hu => by rw [thr_other h hu]
    simp only [PassHistory.note, shutdown_thread h] at I ⊢
    omega
  | worker i h =>
    have hstep := posts_worker (H := H) h
    unfold WorkerPays at hstep
    have hi := (lifeInv hr).latest i h.life.2.2.2.2.1
    obtain ⟨hthr, -, hc, hsd, -, -⟩ := h.life
    rw [show i = s.created - 1 by omega] at hstep ⊢
    simp only [PassHistory.note, hthr, hc, hsd] at I ⊢
    omega
  | shutdown h =>
    have hstep := posts_shutdown h
    obtain ⟨hthr, -, hworker, hcreated, -, hpending⟩ := h.keeps
    simp only [PassHistory.note, hthr, hworker, hcreated, hpending] at I ⊢
    omega

/-! ## At most two workers -/

/-- The shutdown has returned. -/
def returned : ShutdownPc → Nat
  | .returned => 1
  | _ => 0

/-- A worker is created once before the shutdown and once after it. -/
structure CreatedInv (s : State) : Prop where
  created : s.created ≤ returned s.shutdown + 1
  startable : s.workerState = .none ∨ (∃ t, phase (s.thr t).pc = .preparing) →
    s.created ≤ returned s.shutdown

theorem createdInv_initial : CreatedInv initial where
  created := Nat.zero_le _
  startable _ := Nat.zero_le _

theorem createdInv_thread (L : LifeInv s) (I : CreatedInv s) (h : ThreadStep cfg s t mv s') :
    CreatedInv s' := by
  have hsd := shutdown_thread h
  have hother : ∀ u, u ≠ t → phase (s'.thr u).pc = phase (s.thr u).pc := fun u hu => by
    rw [thr_other h hu]
  cases h.starts with
  | same hst hc hp hw =>
    refine ⟨by rw [hc, hsd]; exact I.created, fun hn => ?_⟩
    rw [hc, hsd]
    rw [hst] at hn
    refine I.startable (hn.imp_right fun ⟨u, hu⟩ => ⟨u, ?_⟩)
    by_cases hut : u = t
    · subst hut
      rwa [← hp]
    · rwa [← hother u hut]
  | claim hst hst' hc hp hp' hw =>
    have hle := I.startable (Or.inl hst)
    rw [← hc, ← hsd] at hle
    exact ⟨hle.trans (Nat.le_succ _), fun _ => hle⟩
  | create hst hc hp hp' hw =>
    have hle := I.startable (Or.inr ⟨t, hp⟩)
    refine ⟨by rw [hc, hsd]; omega, fun hn => ?_⟩
    -- the thread that creates the worker is past the preparation, and no other has begun
    have hstarting := L.starting t (by rw [hp]; simp)
    rcases hn with hn | ⟨u, hu⟩
    · rw [hst, hstarting] at hn
      cases hn
    · by_cases hut : u = t
      · subst hut
        rw [hp'] at hu
        cases hu
      · rw [hother u hut, L.others (by rw [hp]; simp) hut] at hu
        cases hu
  | finish hst' hc hp hp' hw =>
    refine ⟨by rw [hc, hsd]; exact I.created, fun hn => ?_⟩
    rcases hn with hn | ⟨u, hu⟩
    · rw [hst'] at hn
      cases hn
    · by_cases hut : u = t
      · subst hut
        rw [hp'] at hu
        cases hu
      · rw [hother u hut, L.others (by rw [hp]; simp) hut] at hu
        cases hu

theorem createdInv_shutdown (I : CreatedInv s) (h : ShutdownStep s s') : CreatedInv s' := by
  cases h with
  | start h | load h hs | storeStop h | post h | join h hw | destroy h =>
    have hI := I.created
    have hn := I.startable
    rw [h] at hI hn
    exact ⟨hI, hn⟩
  | skip h hs =>
    have hI := I.created
    have hn := I.startable
    rw [h] at hI hn
    exact ⟨hI.trans (Nat.le_succ _), fun hx => (hn hx).trans (Nat.zero_le _)⟩
  | storeState h =>
    have hI := I.created
    rw [h] at hI
    exact ⟨hI.trans (Nat.le_succ _), fun _ => hI⟩

theorem createdInv {K : State → Act → Prop} (h : Runs.ReachableBy (system cfg) K s) :
    CreatedInv s :=
  h.invariant createdInv_initial fun _ _ _ hr I _ hs => by
    cases (step_cases hs).2 with
    | thread t mv ht h => exact createdInv_thread (lifeInv hr) I h
    | worker i h =>
      obtain ⟨hthr, hst, hc, hsd, -, -⟩ := h.life
      exact ⟨by rw [hc, hsd]; exact I.created, by rw [hthr, hst, hc, hsd]; exact I.startable⟩
    | shutdown h => exact createdInv_shutdown I h

theorem createsAt_le_one (pc : Pc) : createsAt pc ≤ 1 := by
  unfold createsAt
  split <;> omega

theorem preparing_of_createsAt {pc : Pc} (h : createsAt pc ≠ 0) : phase pc = .preparing := by
  unfold createsAt at h
  split at h
  · rfl
  · exact absurd rfl h

/-- At most one thread is about to create a worker, and at most two are created. -/
theorem creations_le {K : State → Act → Prop} (h : Runs.ReachableBy (system cfg) K s) :
    2 * s.created + ∑ t ∈ Finset.range maxThreadSlots, createsAt (s.thr t).pc ≤ 4 := by
  have I := createdInv h
  have hle : returned s.shutdown ≤ 1 := by
    cases s.shutdown <;> simp [returned]
  by_cases hall : ∀ t ∈ Finset.range maxThreadSlots, createsAt (s.thr t).pc = 0
  · have := I.created
    rw [Finset.sum_eq_zero hall]
    omega
  · simp only [not_forall] at hall
    obtain ⟨t, ht, hne⟩ := hall
    have hprep := preparing_of_createsAt hne
    have hsum : ∑ u ∈ Finset.range maxThreadSlots, createsAt (s.thr u).pc =
        createsAt (s.thr t).pc := by
      refine Finset.sum_eq_single_of_mem t ht fun u _ hu => ?_
      by_contra hu'
      exact hu ((lifeInv h).unique u t (by rw [preparing_of_createsAt hu']; simp)
        (by rw [hprep]; simp))
    have := I.startable (Or.inr ⟨t, hprep⟩)
    have := createsAt_le_one (s.thr t).pc
    omega

/-! ## The value of the semaphore -/

/-- `SEM_VALUE_MAX` -/
def semValueMax : Nat := 2 ^ 31 - 1

/-- **`sem_post` never fails with `EOVERFLOW`**, for any number of acquisitions by any
threads, with a ring that stalls or drops, before and after a shutdown.  The value of the
semaphore is bounded by the passes that cleared the flag and made progress; each of them
added an edge or dequeued events only whose edges were inserted after the check of their
producers; so their number is bounded by that of the edges, and these are finitely many. -/
theorem post_never_overflows (cfg : Config) :
    (∀ p, Runs.Reachable (passCounting cfg) p →
      p.1.sem ≤ p.2.passes.length + 6 ∧
      (∀ P ∈ p.2.passes, P.drained ≠ [] ∧ (P.AddsEdge ∨ P.Late)) ∧
      p.2.passes.length ≤ passesPerEdge * (p.1.graph.edges maxLockSlots).card + 1 ∧
      (p.1.graph.edges maxLockSlots).card ≤ maxLockSlots * maxLockSlots) ∧
    ∀ s, Runs.Reachable (system cfg) s → s.sem < semValueMax := by
  have hbound : ∀ p, Runs.Reachable (passCounting cfg) p → p.1.sem ≤ p.2.passes.length + 6 := by
    intro p h
    have hpost := postBound h
    have hcreated := creations_le (reachable_fst h)
    have hcleared : clearedAt (p.1.worker (p.1.created - 1)) ≤ 1 := by
      unfold clearedAt
      split <;> omega
    have hstop : stopPosts p.1.shutdown ≤ 1 := by
      unfold stopPosts
      split <;> omega
    unfold PostBound at hpost
    omega
  refine ⟨fun p h => ⟨hbound p h, (passInv h).passes, passes_bounded h, card_edges_le _ _⟩,
    fun s h => ?_⟩
  obtain ⟨H, h⟩ : ∃ H, Runs.Reachable (passCounting cfg) (s, H) := h.exists_history
  have hsem : s.sem ≤ H.passes.length + 6 := hbound (s, H) h
  have hpasses : H.passes.length ≤ passesPerEdge * (s.graph.edges maxLockSlots).card + 1 :=
    passes_bounded h
  have hedges := Nat.mul_le_mul_left passesPerEdge (card_edges_le s.graph maxLockSlots)
  have hvalue : passesPerEdge * (maxLockSlots * maxLockSlots) + 7 < semValueMax := by decide
  omega

/-- Thread 0 publishes its event and posts after the worker has stored 0 to the flag, and the
worker takes the event out in the same pass. -/
def passing : List (List Act) :=
  [[.thread 0 .register, .thread 0 .register, .thread 0 (.acquire ⟨.lock, 0, 0⟩),
      .thread 0 (.acquire ⟨.lock, 1, 0⟩)] ++ List.replicate 12 (.thread 0 .run),
    List.replicate 3 (.worker 0) ++ List.replicate 13 (.thread 0 .run) ++
      List.replicate 4 (.worker 0),
    List.replicate 4 (.worker 0)]

/-- The worker is at the end of a pass. -/
def ending : WorkerPc → Bool
  | .target true b [] => b.madeProgress
  | _ => false

theorem passing_runs : (after passing).isSome = true := by decide +kernel

/-- A pass is noted when it ends. -/
theorem pass_noted (hr : Runs.Reachable (passCounting cfg) (s, H)) (hex : s.exited = false)
    (hw : ending (s.worker i) = true) : ∃ p, Runs.Reachable (passCounting cfg) p ∧
      p.1.sem = s.sem ∧ p.2.passes = H.passes ++ [⟨H.before, s.graph, H.drained⟩] := by
  unfold ending at hw
  split at hw
  · rename_i b hpc
    have hs : (system cfg).step s (.worker i) =
        some (s.setWorker i (afterDrain true b.madeProgress)) := by
      change step cfg s (.worker i) = _
      simp [step, hex, workerStep, hpc]
    refine ⟨_, .step hr trivial (Runs.withHistory_of_step hs), rfl, ?_⟩
    simp [PassHistory.note, PassHistory.noteWorker, hpc, hw]
  · cases hw

theorem post_never_overflows_pass :
    ∃ p, Runs.Reachable (passCounting ⟨false, false⟩) p ∧ p.1.sem = 1 ∧ p.2.passes ≠ [] ∧
      p.1.sem ≤ p.2.passes.length + 6 ∧
      (∀ P ∈ p.2.passes, P.drained ≠ [] ∧ (P.AddsEdge ∨ P.Late)) ∧
      p.2.passes.length ≤ passesPerEdge * (p.1.graph.edges maxLockSlots).card + 1 ∧
      p.1.sem < semValueMax := by
  have h := (Option.some_get passing_runs).symm
  have hsem : ((after passing).get passing_runs).sem = 1 := by decide +kernel
  obtain ⟨H, hr⟩ := (after_reachable h).exists_history
  obtain ⟨p, hp, hsem', hpasses⟩ := pass_noted (i := 0) hr (by decide +kernel) (by decide +kernel)
  obtain ⟨hle, hcases, hcount, -⟩ := (post_never_overflows ⟨false, false⟩).1 p hp
  refine ⟨p, hp, hsem'.trans hsem, by rw [hpasses]; simp, hle, hcases, hcount, ?_⟩
  exact (post_never_overflows ⟨false, false⟩).2 p.1 (reachable_fst hp)

end ScaleLockDep.RbBackend
