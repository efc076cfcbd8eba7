import ScaleLockDep.FairRuns
import ScaleLockDep.RbRanks
import Mathlib.Data.Prod.Lex
import Mathlib.Order.Lattice.Nat

/-!
# The ring-buffer backend gets done

What must happen under fair schedules, in which every thread and the worker get their turns
again and again.

* `rank`: what the threads have to do, then what the rings hold, then how far the next helpful
  step is;
* `backend_settles`: before the shutdown, when nobody starts a new call, all calls return, all
  rings are emptied and the worker goes to sleep, with everything recorded.
-/

namespace ScaleLockDep.RbBackend

open ThreadState State

variable {cfg : Config} {s s' : State} {t u : Nat}

/-! ## Before the shutdown -/

def BeforeShutdown (_ : State) : Act → Prop
  | .shutdown => False
  | .thread _ _ | .worker _ => True

structure StartInv (s : State) : Prop where
  idle : s.shutdown = .idle
  fresh : ∀ t, phase (s.thr t).pc = .preparing → s.created = 0
  one : s.created ≤ 1
  spins : ∀ t c e, (s.thr t).pc = .ensure c e .spin → s.workerState ≠ .none

/-- A thread comes to spin when another one starts the worker. -/
theorem spins_run {c : Call} {e : Event} (hs : threadRun cfg s t = some s')
    (hp : (s'.thr t).pc = .ensure c e .spin) :
    s'.workerState ≠ .none ∨ (s.thr t).pc = .ensure c e .spin := by
  cases threadRun_steps hs with
  | load c bits bits' w h hw => simp [setPc_at] at hp
  | unknown c bits e w h => simp [setPc_at] at hp
  | known c bits w h => simp [setPc_at] at hp
  | ensure c' e' p _ h hm =>
    cases hm with
    | started p hp' hst => simp [setPc_at] at hp
    | unstarted hst => simp [setPc_at] at hp
    | claim hst => simp [setPc_at] at hp
    | lost hst => exact Or.inl hst
    | spin hst =>
      rw [setPc_at] at hp
      exact Or.inr (h.trans hp)
    | prepare _ q _ hfirst hq hspin hthr =>
      rw [hthr, setPc_at] at hp
      simp [hspin] at hp
    | storeState => simp [setPc_at] at hp
  | enqueue c e h => simp [setPc_at] at hp
  | ring c e _ h hm =>
    cases hm with
    | loadTail x hx => simp [h] at hp
    | room x tail hx hroom => simp [h] at hp
    | full x tail hx hroom hd => simp [setPc_at] at hp
    | drop x tail hx hroom hd => simp [setPc_at] at hp
    | store x tail f todo hx cells => simp [h] at hp
    | publish x tail hx r => simp [setPc_at] at hp
  | signalled c e why h hw => cases why <;> simp [setPc_at, afterSignal] at hp
  | exchange c e why h hw => simp [setPc_at] at hp
  | post c e why h => cases why <;> simp [setPc_at, afterSignal] at hp
  | push c ts op h => simp [complete_pc] at hp
  | overflow c h => simp [h] at hp

theorem startInv_thread {mv : Move} (L : LifeInv s) (I : StartInv s)
    (h : ThreadStep cfg s t mv s') (hs : threadStep cfg s t mv = some s') : StartInv s' := by
  have hother : ∀ u, u ≠ t → phase (s'.thr u).pc = phase (s.thr u).pc := fun u hu => by
    rw [thr_other h hu]
  have hidle := (shutdown_thread h).trans I.idle
  have hspins : ∀ u c e, (s'.thr u).pc = .ensure c e .spin → s'.workerState ≠ .none := by
    intro u c e hp
    have hkeep : s.workerState ≠ .none → s'.workerState ≠ .none := fun hne => by
      obtain ⟨h₀, -⟩ | ⟨h₀, h₁, -⟩ | ⟨h₀, -⟩ | ⟨h₁, -⟩ := h.starts
      · rwa [h₀]
      · rw [h₁]
        simp
      · rwa [h₀]
      · rw [h₁]
        simp
    by_cases hu : u = t
    · subst hu
      cases mv with
      | run =>
        rcases spins_run hs hp with hne | hp'
        · exact hne
        · exact hkeep (I.spins u c e hp')
      | register =>
        simp only [threadStep] at hs
        split at hs <;> cases hs
        exact I.spins u c e hp
      | acquire k =>
        simp only [threadStep] at hs
        split at hs
        · split at hs <;> cases hs
          · simp [complete_pc] at hp
          · simp [setPc_at] at hp
        · cases hs
      | release l =>
        simp only [threadStep] at hs
        split at hs <;> cases hs
        simp [complete_pc] at hp
    · rw [thr_other h hu] at hp
      exact hkeep (I.spins u c e hp)
  obtain ⟨-, hc, hp, -⟩ | ⟨hnone, -, hc, -, -, -⟩ | ⟨-, hc, hp, hp', -⟩ | ⟨-, hc, hp, hp', -⟩ :=
    h.starts
  · refine ⟨hidle, fun u hu => hc.trans (I.fresh u ?_), hc.le.trans I.one, hspins⟩
    by_cases hut : u = t
    · subst hut
      rwa [hp] at hu
    · rwa [hother u hut] at hu
  · have h₀ := L.first hnone (by rw [I.idle]; simp)
    exact ⟨hidle, fun _ _ => hc.trans h₀, by omega, hspins⟩
  · have h₀ := I.fresh t hp
    refine ⟨hidle, fun u hu => ?_, by omega, hspins⟩
    -- the thread that starts the worker is the only one
    have hut : u ≠ t := by
      rintro rfl
      rw [hp'] at hu
      cases hu
    rw [hother u hut] at hu
    have := L.unique u t (by rw [hu]; simp) (by rw [hp]; simp)
    exact absurd this hut
  · refine ⟨hidle, fun u hu => hc.trans (I.fresh u ?_), hc.le.trans I.one, hspins⟩
    have hut : u ≠ t := by
      rintro rfl
      rw [hp'] at hu
      cases hu
    rwa [hother u hut] at hu

theorem startInv (h : Runs.ReachableBy (system cfg) BeforeShutdown s) : StartInv s :=
  h.invariant ⟨rfl, fun _ _ => rfl, Nat.zero_le _, fun _ _ _ hp => by cases hp⟩
    fun s s' a hr I hg hs => by
      have hex := (step_cases hs).1
      cases (step_cases hs).2 with
      | thread t mv ht h =>
        exact startInv_thread (lifeInv hr) I h ((step_thread hex ht).symm.trans hs)
      | worker i h =>
        obtain ⟨hthr, hst, hc, hsd, -, -⟩ := h.life
        exact ⟨hsd.trans I.idle, fun t hp => hc.trans (I.fresh t (hthr ▸ hp)), hc.le.trans I.one,
          fun t c e hp => hst ▸ I.spins t c e (hthr ▸ hp)⟩
      | shutdown h => exact hg.elim

/-! ## What there is to do -/

/-- The sum over the thread slots. -/
def total (f : Nat → Nat) : Nat := ∑ t ∈ Finset.range maxThreadSlots, f t

theorem total_lt {f g : Nat → Nat} (ht : t < maxThreadSlots) (hlt : f t < g t)
    (hother : ∀ u, u ≠ t → f u = g u) : total f < total g := by
  refine Finset.sum_lt_sum (fun u _ => ?_) ⟨t, Finset.mem_range.mpr ht, hlt⟩
  by_cases hu : u = t
  · rw [hu]
    exact hlt.le
  · exact (hother u hu).le

/-- The thread waits for another party: for the worker to be started, or for room in its ring. -/
def Stuck (cfg : Config) (s : State) (t : Nat) : Prop :=
  (∃ c e, (s.thr t).pc = .ensure c e .spin) ∧ s.workerState ≠ .started ∨
    0 < retry s t ∧ cfg.drops = false ∧ rbCapacity ≤ (waiting s t).length

def Inside (s : State) (t : Nat) : Prop := (s.thr t).pc ≠ .outside

/-- The thread gets on by itself. -/
def Able (cfg : Config) (s : State) (t : Nat) : Prop := Inside s t ∧ ¬ Stuck cfg s t

def Asleep (s : State) : Prop := s.worker 0 = .semWait ∧ s.sem = 0

/-- Nothing is left to do. -/
structure AllDone (s : State) : Prop where
  quiet : Quiet s
  empty : ∀ t, waiting s t = []
  worker : (∀ i, s.worker i = .exited) ∨ Asleep s

theorem inside_retry (h : 0 < retry s t) : Inside s t := by
  intro hp
  simp [retry, hp, retrying] at h

theorem able_of_retry (h : 0 < retry s t) :
    Able cfg s t ↔ ¬ (cfg.drops = false ∧ rbCapacity ≤ (waiting s t).length) := by
  constructor
  · exact fun ha hfull => ha.2 (Or.inr ⟨h, hfull⟩)
  · refine fun hroom => ⟨inside_retry h, ?_⟩
    rintro (⟨⟨c, e, hp⟩, -⟩ | ⟨-, hfull⟩)
    · simp [retry, hp, retrying] at h
    · exact hroom hfull

/-! ## The rank -/

/-- Some ring holds an event. -/
def Waiting (s : State) : Prop := ∃ u, u < maxThreadSlots ∧ waiting s u ≠ []

theorem waiting_congr (h : ∀ u, waiting s' u = waiting s u) : Waiting s' ↔ Waiting s := by
  simp only [Waiting, h]

/-- The worker comes to an event before it sleeps. -/
def Ahead (s : State) : Prop :=
  ∃ u, u < maxThreadSlots ∧ waiting s u ≠ [] ∧ ¬ passed (s.worker 0) u

/-- The threads that are not about to post. -/
def silent (s : State) : Nat := total fun t => if retry s t = 3 then 0 else 1

open Classical in
/-- The action that helps: of a thread that gets on by itself, else of one that wakes the
worker, else of the worker. -/
noncomputable def helpful (cfg : Config) (s : State) : Act :=
  if ∃ t, Able cfg s t then .thread (sInf {t | Able cfg s t}) .run
  else if Asleep s then
    if ∃ t, retry s t = 3 then .thread (sInf {t | retry s t = 3}) .run
    else .thread (sInf {t | Inside s t}) .run
  else .worker 0

open Classical in
/-- How far the next event is. -/
noncomputable def distance (cfg : Config) (s : State) : ℕ ×ₗ ℕ :=
  if ∃ t, Able cfg s t then toLex (0, retry s (sInf {t | Able cfg s t}))
  else if Asleep s then
    toLex (1, 1 + silent s + if ∃ t, retry s t = 3 then 0 else retry s (sInf {t | Inside s t}) % 4)
  else if Waiting s then
    toLex (if Ahead s then 0 else if s.worker 0 = .semWait then 1 else 2, toSleep s 0)
  else toLex (s.sem, toSleep s 0)

noncomputable def rank (cfg : Config) (s : State) : ℕ ×ₗ ℕ ×ₗ (ℕ ×ₗ ℕ) :=
  toLex (total (toGo s), toLex (total fun t => (waiting s t).length, distance cfg s))

section
variable (hable : ¬ ∃ t, Able cfg s t)

theorem distance_able (h : ∃ t, Able cfg s t) :
    distance cfg s = toLex (0, retry s (sInf {t | Able cfg s t})) := by
  rw [distance, if_pos h]

theorem helpful_able (h : ∃ t, Able cfg s t) :
    helpful cfg s = .thread (sInf {t | Able cfg s t}) .run := by
  rw [helpful, if_pos h]

include hable

theorem distance_posting (hs : Asleep s) (hp : ∃ t, retry s t = 3) :
    distance cfg s = toLex (1, 1 + silent s) := by
  rw [distance, if_neg hable, if_pos hs, if_pos hp, Nat.add_zero]

theorem distance_silent (hs : Asleep s) (hp : ¬ ∃ t, retry s t = 3) :
    distance cfg s = toLex (1, 1 + silent s + retry s (sInf {t | Inside s t}) % 4) := by
  rw [distance, if_neg hable, if_pos hs, if_neg hp]

theorem distance_ahead (hs : ¬ Asleep s) (hw : Waiting s) (ha : Ahead s) :
    distance cfg s = toLex (0, toSleep s 0) := by
  rw [distance, if_neg hable, if_neg hs, if_pos hw, if_pos ha]

theorem distance_woken (hs : ¬ Asleep s) (hw : Waiting s) (ha : ¬ Ahead s)
    (hsem : s.worker 0 = .semWait) : distance cfg s = toLex (1, toSleep s 0) := by
  rw [distance, if_neg hable, if_neg hs, if_pos hw, if_neg ha, if_pos hsem]

theorem distance_bound (hs : ¬ Asleep s) (hw : Waiting s) (ha : ¬ Ahead s)
    (hsem : s.worker 0 ≠ .semWait) : distance cfg s = toLex (2, toSleep s 0) := by
  rw [distance, if_neg hable, if_neg hs, if_pos hw, if_neg ha, if_neg hsem]

theorem distance_done (hs : ¬ Asleep s) (hw : ¬ Waiting s) :
    distance cfg s = toLex (s.sem, toSleep s 0) := by
  rw [distance, if_neg hable, if_neg hs, if_neg hw]

theorem helpful_posting (hs : Asleep s) (hp : ∃ t, retry s t = 3) :
    helpful cfg s = .thread (sInf {t | retry s t = 3}) .run := by
  rw [helpful, if_neg hable, if_pos hs, if_pos hp]

theorem helpful_silent (hs : Asleep s) (hp : ¬ ∃ t, retry s t = 3) :
    helpful cfg s = .thread (sInf {t | Inside s t}) .run := by
  rw [helpful, if_neg hable, if_pos hs, if_neg hp]

theorem helpful_worker (hs : ¬ Asleep s) : helpful cfg s = .worker 0 := by
  rw [helpful, if_neg hable, if_neg hs]

end

theorem rank_lt_of_toGo (h : total (toGo s') < total (toGo s)) : rank cfg s' < rank cfg s :=
  Prod.Lex.toLex_lt_toLex.mpr (Or.inl h)

theorem rank_lt_of_waiting (h : total (toGo s') = total (toGo s))
    (hlt : total (fun t => (waiting s' t).length) < total fun t => (waiting s t).length) :
    rank cfg s' < rank cfg s :=
  Prod.Lex.toLex_lt_toLex.mpr (Or.inr ⟨h, Prod.Lex.toLex_lt_toLex.mpr (Or.inl hlt)⟩)

theorem rank_lt_of_distance (h : total (toGo s') = total (toGo s))
    (hw : ∀ t, waiting s' t = waiting s t) (hlt : distance cfg s' < distance cfg s) :
    rank cfg s' < rank cfg s := by
  refine Prod.Lex.toLex_lt_toLex.mpr (Or.inr ⟨h, Prod.Lex.toLex_lt_toLex.mpr (Or.inr ⟨?_, hlt⟩)⟩)
  simp only [hw]

theorem rank_eq (h : total (toGo s') = total (toGo s)) (hw : ∀ t, waiting s' t = waiting s t)
    (hd : distance cfg s' = distance cfg s) : rank cfg s' = rank cfg s := by
  simp only [rank, h, hw, hd]

/-! ## What the reachable states are like -/

/-- What holds before the shutdown. -/
structure Facts (cfg : Config) (s : State) : Prop where
  ring : ∀ t, SpscRing.RingInv (ringParams cfg) (s.ring t)
  wake : WakeInv s
  life : LifeInv s
  start : StartInv s
  early : EarlyInv s
  stop : StopInv s
  thread : ∀ t, ThreadOk cfg s t
  stalled : ∀ t, Stalled s t
  free : ∀ t, Inside s t → t < maxThreadSlots

theorem facts (h : Runs.ReachableBy (system cfg) BeforeShutdown s) : Facts cfg s where
  ring := ringInv h
  wake := wakeInv h
  life := lifeInv h
  start := startInv h
  early := earlyInv h
  stop := stopInv h
  thread := threadOk h
  stalled := RbBackend.stalled h
  free t ht := by
    by_contra hno
    exact ht (by rw [thr_free h (Nat.le_of_not_lt hno)]; rfl)

section
variable (F : Facts cfg s)
include F

/-- Where no thread gets on by itself, those in a call have a full ring. -/
theorem stuck_full (hable : ¬ ∃ t, Able cfg s t) (ht : Inside s t) :
    0 < retry s t ∧ cfg.drops = false ∧ rbCapacity ≤ (waiting s t).length := by
  have hstuck : Stuck cfg s t := by
    by_contra hno
    exact hable ⟨t, ht, hno⟩
  refine hstuck.resolve_left ?_
  rintro ⟨⟨c, e, hp⟩, hs⟩
  -- the thread that starts the worker gets on
  have hstarting : s.workerState = .starting := by
    cases hw : s.workerState with
    | none => exact absurd hw (F.start.spins t c e hp)
    | starting => rfl
    | started => exact absurd hw hs
  obtain ⟨v, hv⟩ := F.life.starter hstarting
  refine hable ⟨v, ?_, ?_⟩
  · intro hout
    exact hv (by rw [hout]; rfl)
  · rintro (⟨⟨c', e', hp'⟩, -⟩ | ⟨hretry, -⟩)
    · exact hv (by rw [hp']; rfl)
    · cases hpc : (s.thr v).pc with
      | ensure c' e' p => simp [retry, hpc, retrying] at hretry
      | outside | collect | enqueue | ring | exchange | post | push =>
        exact hv (by rw [hpc]; rfl)

theorem waiting_of_stuck (hable : ¬ ∃ t, Able cfg s t) (ht : Inside s t) : Waiting s := by
  refine ⟨t, F.free t ht, fun hnil => ?_⟩
  have hfull := (stuck_full F hable ht).2.2
  rw [hnil] at hfull
  exact absurd hfull (by decide)

/-- Something is left to do, but by none of the threads alone. -/
theorem worker_alive (hable : ¬ ∃ t, Able cfg s t) (hns : ¬ AllDone s) : s.worker 0 ≠ .exited := by
  intro hdead
  have hc : s.created = 0 := by
    by_contra hne
    have hafter := F.stop.finished 0 (Nat.pos_of_ne_zero hne) hdead
    rw [F.start.idle] at hafter
    exact hafter
  have hempty : ∀ t, waiting s t = [] := fun t => by
    by_contra hne
    obtain ⟨e, he⟩ := List.exists_mem_of_ne_nil _ hne
    have := F.early.published t e (List.mem_of_mem_drop he)
    omega
  refine hns ⟨fun t => ?_, hempty, Or.inl fun i => ?_⟩
  · by_contra hin
    obtain ⟨u, hu, hne⟩ := waiting_of_stuck F hable hin
    exact hne (hempty u)
  · by_contra halive
    have := F.life.latest i halive
    omega

/-- A sleeping worker with something to do is about to be woken. -/
theorem pending_of_asleep (hable : ¬ ∃ t, Able cfg s t) (hsleep : Asleep s)
    (hpost : ¬ ∃ t, retry s t = 3) : s.workPending = false := by
  by_contra hp
  rcases F.wake.posted 0 (by rw [hsleep.1]; trivial) (by simpa using hp) with h | ⟨t, ht⟩
  · rw [hsleep.2] at h
    exact absurd h (Nat.lt_irrefl 0)
  · cases hpc : (s.thr t).pc with
    | post c e why =>
      have hin : Inside s t := by simp [Inside, hpc]
      have hretry := (stuck_full F hable hin).1
      cases why with
      | stalled => exact hpost ⟨t, by simp [retry, hpc, retrying]⟩
      | published => simp [retry, hpc, retrying] at hretry
      | dropped => simp [retry, hpc, retrying] at hretry
    | outside | collect | ensure | enqueue | ring | exchange | push =>
      rw [hpc] at ht
      exact ht

/-- A thread in a call keeps a settled state away. -/
theorem inside_of_asleep (hable : ¬ ∃ t, Able cfg s t) (hsleep : Asleep s) (hns : ¬ AllDone s) :
    ∃ t, Inside s t := by
  by_contra hno
  have hquiet : Quiet s := fun t => by
    by_contra hin
    exact hno ⟨t, hin⟩
  refine hns ⟨hquiet, fun t => ?_, Or.inr hsleep⟩
  by_contra hne
  have hlt : t < maxThreadSlots := by
    obtain ⟨e, he⟩ := List.exists_mem_of_ne_nil _ hne
    exact F.early.slots t e (List.mem_of_mem_drop he)
  rcases F.wake.announced 0 t (by rw [hsleep.1]; trivial) hlt hne with h | h
  · rw [hquiet t] at h
    exact h
  · have hpost : ¬ ∃ t, retry s t = 3 := fun ⟨u, hu⟩ =>
      hno ⟨u, inside_retry (by omega)⟩
    rw [pending_of_asleep F hable hsleep hpost] at h
    cases h

end

/-! ## Retries -/

theorem Loop.pos (h : Loop cfg s t s') : 0 < retry s t ∧ 0 < retry s' t := by
  cases h <;> omega

/-- With room in the ring a retry gets closer to the store. -/
theorem Loop.closer (h : Loop cfg s t s')
    (hroom : ¬ (cfg.drops = false ∧ rbCapacity ≤ (waiting s t).length)) :
    retry s' t < retry s t := by
  cases h with
  | full h h' hs hd hfull => exact absurd ⟨hd, hfull⟩ hroom
  | _ => omega

theorem Loop.sem_le (h : Loop cfg s t s') : s.sem ≤ s'.sem := by
  cases h <;> omega

namespace Retry

variable (h : Retry cfg s t s')
include h

theorem toGo_eq (u : Nat) : RbBackend.toGo s' u = RbBackend.toGo s u := by
  by_cases hu : u = t
  · rw [hu, h.left]
  · simp only [RbBackend.toGo, h.thr u hu, h.ring u hu]

theorem total_eq : total (RbBackend.toGo s') = total (RbBackend.toGo s) :=
  congrArg total (funext h.toGo_eq)

theorem retry_other (hu : u ≠ t) : retry s' u = retry s u := by
  simp only [retry, h.thr u hu, h.ring u hu]

theorem inside_iff (u : Nat) : Inside s' u ↔ Inside s u := by
  by_cases hu : u = t
  · subst hu
    exact iff_of_true (inside_retry h.loop.pos.2) (inside_retry h.loop.pos.1)
  · rw [Inside, Inside, h.thr u hu]

theorem able_iff (u : Nat) : Able cfg s' u ↔ Able cfg s u := by
  by_cases hu : u = t
  · subst hu
    rw [able_of_retry h.loop.pos.2, able_of_retry h.loop.pos.1, h.contents]
  · rw [Able, Able, Stuck, Stuck, h.inside_iff, h.retry_other hu, h.thr u hu, h.contents,
      h.workerState]

theorem able_set : {u | Able cfg s' u} = {u | Able cfg s u} := Set.ext h.able_iff

theorem inside_set : {u | Inside s' u} = {u | Inside s u} := Set.ext h.inside_iff

theorem toSleep_eq : toSleep s' 0 = toSleep s 0 := by
  simp only [toSleep, h.worker, h.consumer]

theorem ahead_iff : Ahead s' ↔ Ahead s := by
  simp only [Ahead, h.contents, h.worker]

/-- The thread that gets on by itself gets closer to the store; the others leave it alone. -/
theorem steady_able (hable : ∃ t, Able cfg s t) : rank cfg s' < rank cfg s ∨
    rank cfg s' = rank cfg s ∧ helpful cfg s' = helpful cfg s ∧
      Act.thread t .run ≠ helpful cfg s := by
  have hmem : Able cfg s (sInf {u | Able cfg s u}) := Nat.sInf_mem hable
  have hable' : ∃ t, Able cfg s' t := hable.imp fun u => (h.able_iff u).mpr
  have hd := distance_able hable'
  rw [h.able_set] at hd
  by_cases ht : t = sInf {u | Able cfg s u}
  · left
    refine rank_lt_of_distance h.total_eq h.contents ?_
    rw [hd, distance_able hable, ← ht]
    rw [← ht, able_of_retry h.loop.pos.1] at hmem
    exact Prod.Lex.toLex_lt_toLex.mpr (Or.inr ⟨rfl, h.loop.closer hmem⟩)
  · right
    refine ⟨rank_eq h.total_eq h.contents ?_, ?_, ?_⟩
    · rw [hd, distance_able hable, h.retry_other (Ne.symm ht)]
    · rw [helpful_able hable, helpful_able hable', h.able_set]
    · rw [helpful_able hable]
      simpa using ht

theorem silent_eq (h₁ : retry s t ≠ 3) (h₂ : retry s' t ≠ 3) : silent s' = silent s := by
  refine congrArg total (funext fun u => ?_)
  by_cases hu : u = t
  · rw [hu, if_neg h₁, if_neg h₂]
  · rw [h.retry_other hu]

theorem post_set (h₁ : retry s t ≠ 3) (h₂ : retry s' t ≠ 3) :
    {u | retry s' u = 3} = {u | retry s u = 3} := by
  ext u
  by_cases hu : u = t
  · subst hu
    exact iff_of_false h₂ h₁
  · change retry s' u = 3 ↔ retry s u = 3
    rw [h.retry_other hu]

theorem not_able (hable : ¬ ∃ t, Able cfg s t) : ¬ ∃ t, Able cfg s' t :=
  fun hable' => hable (hable'.imp fun u => (h.able_iff u).mp)

/-- A step on the way to the signal, while the worker sleeps. -/
theorem steady_silent (hable : ¬ ∃ t, Able cfg s t) (hsleep : Asleep s) (hsleep' : Asleep s')
    (h₁ : retry s t ≠ 3) (h₂ : retry s' t ≠ 3)
    (hcloser : retry s' t % 4 < retry s t % 4 ∨ ∃ t, retry s t = 3) : rank cfg s' < rank cfg s ∨
    rank cfg s' = rank cfg s ∧ helpful cfg s' = helpful cfg s ∧
      Act.thread t .run ≠ helpful cfg s := by
  have hable' := h.not_able hable
  have hset := h.post_set h₁ h₂
  have hpost : (∃ u, retry s' u = 3) ↔ ∃ u, retry s u = 3 :=
    exists_congr fun u => Set.ext_iff.mp hset u
  by_cases hp : ∃ u, retry s u = 3
  · right
    have hmem : retry s (sInf {u | retry s u = 3}) = 3 := Nat.sInf_mem hp
    refine ⟨rank_eq h.total_eq h.contents ?_, ?_, ?_⟩
    · rw [distance_posting hable hsleep hp, distance_posting hable' hsleep' (hpost.mpr hp),
        h.silent_eq h₁ h₂]
    · rw [helpful_posting hable hsleep hp, helpful_posting hable' hsleep' (hpost.mpr hp), hset]
    · rw [helpful_posting hable hsleep hp]
      intro heq
      simp only [Act.thread.injEq, and_true] at heq
      rw [← heq] at hmem
      exact h₁ hmem
  · have hp' : ¬ ∃ u, retry s' u = 3 := fun hp' => hp (hpost.mp hp')
    have hd := distance_silent hable' hsleep' hp'
    rw [h.silent_eq h₁ h₂, h.inside_set] at hd
    by_cases hu : t = sInf {u | Inside s u}
    · left
      refine rank_lt_of_distance h.total_eq h.contents ?_
      rw [hd, distance_silent hable hsleep hp, ← hu]
      refine Prod.Lex.toLex_lt_toLex.mpr (Or.inr ⟨rfl, ?_⟩)
      exact Nat.add_lt_add_left (hcloser.resolve_right hp) _
    · right
      refine ⟨rank_eq h.total_eq h.contents ?_, ?_, ?_⟩
      · rw [hd, distance_silent hable hsleep hp, h.retry_other (Ne.symm hu)]
      · rw [helpful_silent hable hsleep hp, helpful_silent hable' hsleep' hp', h.inside_set]
      · rw [helpful_silent hable hsleep hp]
        simpa using hu

/-- While the worker sleeps, the stalled threads come to wake it. -/
theorem steady_asleep (F : Facts cfg s) (ht : t < maxThreadSlots)
    (hable : ¬ ∃ t, Able cfg s t) (hsleep : Asleep s) : rank cfg s' < rank cfg s ∨
    rank cfg s' = rank cfg s ∧ helpful cfg s' = helpful cfg s ∧
      Act.thread t .run ≠ helpful cfg s := by
  have hable' := h.not_able hable
  have hkeep : s'.sem = s.sem → Asleep s' := fun hs => ⟨h.worker ▸ hsleep.1, hs.trans hsleep.2⟩
  have hle : distance cfg s = toLex (1, 1 + silent s) ∨
      distance cfg s = toLex (1, 1 + silent s + retry s (sInf {t | Inside s t}) % 4) := by
    by_cases hp : ∃ u, retry s u = 3
    · exact Or.inl (distance_posting hable hsleep hp)
    · exact Or.inr (distance_silent hable hsleep hp)
  cases h.loop with
  | loadTail h₁ h₂ hs =>
    exact h.steady_silent hable hsleep (hkeep hs) (by omega) (by omega) (Or.inl (by omega))
  | full h₁ h₂ hs hdr hfull =>
    exact h.steady_silent hable hsleep (hkeep hs) (by omega) (by omega) (Or.inl (by omega))
  | signalled h₁ h₂ hs hp =>
    refine h.steady_silent hable hsleep (hkeep hs) (by omega) (by omega) (Or.inr ?_)
    by_contra hpost
    rw [pending_of_asleep F hable hsleep hpost] at hp
    cases hp
  | exchange h₁ h₂ hs hp =>
    left
    refine rank_lt_of_distance h.total_eq h.contents ?_
    have hlt : silent s' < silent s := by
      refine total_lt ht ?_ fun u hu => by rw [h.retry_other hu]
      rw [h₁, h₂]
      decide
    rw [distance_posting hable' (hkeep hs) ⟨t, h₂⟩]
    rcases hle with hd | hd <;> rw [hd] <;>
      exact Prod.Lex.toLex_lt_toLex.mpr (Or.inr ⟨rfl, by dsimp only; omega⟩)
  | post h₁ h₂ hs =>
    left
    refine rank_lt_of_distance h.total_eq h.contents ?_
    have hwake : ¬ Asleep s' := fun ha => by
      have := ha.2
      omega
    have hw : Waiting s' := (waiting_congr h.contents).mpr
      (waiting_of_stuck F hable (inside_retry h.loop.pos.1))
    have hpass : ¬ Ahead s' := by
      rintro ⟨v, -, -, hv⟩
      rw [h.worker, hsleep.1] at hv
      exact hv trivial
    have h0 : toSleep s' 0 = 0 := by simp [toSleep, h.worker, hsleep.1, stepsToSleep]
    rw [distance_woken hable' hwake hw hpass (h.worker ▸ hsleep.1), h0]
    rcases hle with hd | hd <;> rw [hd] <;>
      exact Prod.Lex.toLex_lt_toLex.mpr (Or.inr ⟨rfl, by dsimp only; omega⟩)

/-- The worker is on its way, and goes on from where it is. -/
theorem distance_awake (hable : ¬ ∃ t, Able cfg s t) (hsleep : ¬ Asleep s) (hsleep' : ¬ Asleep s')
    (hw : Waiting s) : distance cfg s' = distance cfg s := by
  have hable' := h.not_able hable
  have hw' := (waiting_congr h.contents).mpr hw
  by_cases ha : Ahead s
  · rw [distance_ahead hable hsleep hw ha, distance_ahead hable' hsleep' hw' (h.ahead_iff.mpr ha),
      h.toSleep_eq]
  · have ha' : ¬ Ahead s' := fun ha' => ha (h.ahead_iff.mp ha')
    by_cases hsem : s.worker 0 = .semWait
    · rw [distance_woken hable hsleep hw ha hsem,
        distance_woken hable' hsleep' hw' ha' (h.worker ▸ hsem), h.toSleep_eq]
    · rw [distance_bound hable hsleep hw ha hsem,
        distance_bound hable' hsleep' hw' ha' (h.worker ▸ hsem), h.toSleep_eq]

/-- **A retry raises no rank, and leaves the helpful action to be taken.** -/
theorem steady (F : Facts cfg s) (ht : t < maxThreadSlots) : rank cfg s' < rank cfg s ∨
    rank cfg s' = rank cfg s ∧ helpful cfg s' = helpful cfg s ∧
      Act.thread t .run ≠ helpful cfg s := by
  by_cases hable : ∃ t, Able cfg s t
  · exact h.steady_able hable
  · by_cases hsleep : Asleep s
    · exact h.steady_asleep F ht hable hsleep
    · right
      have hsleep' : ¬ Asleep s' := by
        rintro ⟨hw, hs⟩
        have := h.loop.sem_le
        exact hsleep ⟨h.worker ▸ hw, by omega⟩
      have hw : Waiting s := waiting_of_stuck F hable (inside_retry h.loop.pos.1)
      refine ⟨rank_eq h.total_eq h.contents (h.distance_awake hable hsleep hsleep' hw), ?_, ?_⟩
      · rw [helpful_worker hable hsleep, helpful_worker (h.not_able hable) hsleep']
      · rw [helpful_worker hable hsleep]
        simp

end Retry

/-! ## Steps -/

/-- The end: everything is done, or a held stack has overflowed. -/
def Finished (s : State) : Prop := s.exited = true ∨ AllDone s

theorem spin_stuck {c : Call} {e : Event} (h : (s.thr t).pc = .ensure c e .spin)
    (hs : s.workerState ≠ .started) : ¬ Able cfg s t :=
  fun ha => ha.2 (Or.inl ⟨⟨c, e, h⟩, hs⟩)

theorem thread_steady (F : Facts cfg s) (hns : ¬ AllDone s) (ht : t < maxThreadSlots)
    (hs : threadRun cfg s t = some s') : Finished s' ∨ rank cfg s' < rank cfg s ∨
    rank cfg s' = rank cfg s ∧ helpful cfg s' = helpful cfg s ∧
      Act.thread t .run ≠ helpful cfg s := by
  have hT : ThreadStep cfg s t .run s' := threadRun_cases hs
  cases run_effect (F.ring t) (F.stalled t) hs with
  | exits h => exact Or.inl (Or.inl h)
  | advances h =>
    refine Or.inr (Or.inl (rank_lt_of_toGo (total_lt ht h fun u hu => ?_)))
    simp only [toGo, thr_other hT hu, ring_other hT hu]
  | spins c e h hst h' =>
    subst h'
    refine Or.inr (Or.inr ⟨rfl, rfl, fun heq => ?_⟩)
    -- a thread that spins is not the one that helps
    by_cases hable : ∃ t, Able cfg s' t
    · rw [helpful_able hable] at heq
      simp only [Act.thread.injEq, and_true] at heq
      have hmem : Able cfg s' (sInf {u | Able cfg s' u}) := Nat.sInf_mem hable
      rw [← heq] at hmem
      exact spin_stuck h hst hmem
    · have hin : Inside s' t := by simp [Inside, h]
      have hretry := (stuck_full F hable hin).1
      simp [retry, h, retrying] at hretry
  | retries h => exact Or.inr (h.steady F ht)

section
variable (hable : ¬ ∃ t, Able cfg s t) (hable' : ¬ ∃ t, Able cfg s' t)
  (hgo : total (toGo s') = total (toGo s)) (hw' : ∀ u, waiting s' u = waiting s u)
include hable hable' hgo hw'

/-- The worker wakes up. -/
theorem wakes_lowers (h : s.worker 0 = .semWait) (hsem : s.sem ≠ 0)
    (hpc : s'.worker 0 = .drain false 0 .empty) (hs : s'.sem = s.sem - 1) :
    rank cfg s' < rank cfg s := by
  have hsleep : ¬ Asleep s := fun ha => hsem ha.2
  have hsleep' : ¬ Asleep s' := fun ha => by
    have := hpc.symm.trans ha.1
    cases this
  refine rank_lt_of_distance hgo hw' ?_
  by_cases hw : Waiting s
  · have ha : ¬ Ahead s := by
      rintro ⟨v, -, -, hv⟩
      rw [h] at hv
      exact hv trivial
    have ha' : Ahead s' := by
      obtain ⟨u, hu, hne⟩ := hw
      refine ⟨u, hu, by rwa [hw'], ?_⟩
      rw [hpc]
      exact id
    rw [distance_ahead hable' hsleep' ((waiting_congr hw').mpr hw) ha',
      distance_woken hable hsleep hw ha h]
    exact Prod.Lex.toLex_lt_toLex.mpr (Or.inl Nat.one_pos)
  · rw [distance_done hable' hsleep' (mt (waiting_congr hw').mp hw),
      distance_done hable hsleep hw]
    refine Prod.Lex.toLex_lt_toLex.mpr (Or.inl ?_)
    rw [hs]
    exact Nat.sub_one_lt hsem

/-- The worker goes on, and some ring holds an event. -/
theorem walks_lowers (hw : Waiting s) (hsem : s.worker 0 ≠ .semWait)
    (hlt : toSleep s' 0 < toSleep s 0)
    (hp : ∀ u, u < maxThreadSlots → waiting s u ≠ [] → passed (s'.worker 0) u →
      passed (s.worker 0) u) : rank cfg s' < rank cfg s := by
  have hsleep : ¬ Asleep s := fun ha => hsem ha.1
  have hw₁ : Waiting s' := (waiting_congr hw').mpr hw
  refine rank_lt_of_distance hgo hw' ?_
  by_cases ha : Ahead s
  · have ha' : Ahead s' := by
      obtain ⟨u, hu, hne, hpass⟩ := ha
      exact ⟨u, hu, by rwa [hw'], fun h => hpass (hp u hu hne h)⟩
    have hsleep' : ¬ Asleep s' := by
      obtain ⟨u, -, -, hpass⟩ := ha'
      intro hsl
      rw [hsl.1] at hpass
      exact hpass trivial
    rw [distance_ahead hable' hsleep' hw₁ ha', distance_ahead hable hsleep hw ha]
    exact Prod.Lex.toLex_lt_toLex.mpr (Or.inr ⟨rfl, hlt⟩)
  · rw [distance_bound hable hsleep hw ha hsem]
    by_cases hsleep' : Asleep s'
    · by_cases hpost : ∃ t, retry s' t = 3
      · rw [distance_posting hable' hsleep' hpost]
        exact Prod.Lex.toLex_lt_toLex.mpr (Or.inl Nat.one_lt_two)
      · rw [distance_silent hable' hsleep' hpost]
        exact Prod.Lex.toLex_lt_toLex.mpr (Or.inl Nat.one_lt_two)
    · by_cases ha' : Ahead s'
      · rw [distance_ahead hable' hsleep' hw₁ ha']
        exact Prod.Lex.toLex_lt_toLex.mpr (Or.inl Nat.two_pos)
      · by_cases hsem' : s'.worker 0 = .semWait
        · rw [distance_woken hable' hsleep' hw₁ ha' hsem']
          exact Prod.Lex.toLex_lt_toLex.mpr (Or.inl Nat.one_lt_two)
        · rw [distance_bound hable' hsleep' hw₁ ha' hsem']
          exact Prod.Lex.toLex_lt_toLex.mpr (Or.inr ⟨rfl, hlt⟩)

/-- The worker goes on, and the rings are empty. -/
theorem idles_lowers (hw : ¬ Waiting s) (hsem : s.worker 0 ≠ .semWait) (hsleep' : ¬ Asleep s')
    (hs : s'.sem = s.sem) (hlt : toSleep s' 0 < toSleep s 0) : rank cfg s' < rank cfg s := by
  refine rank_lt_of_distance hgo hw' ?_
  rw [distance_done hable' hsleep' (mt (waiting_congr hw').mp hw),
    distance_done hable (fun ha => hsem ha.1) hw, hs]
  exact Prod.Lex.toLex_lt_toLex.mpr (Or.inr ⟨rfl, hlt⟩)

end

/-- What a worker leaves alone. -/
structure Beside (s s' : State) : Prop where
  thr : s'.thr = s.thr
  producer : ∀ u, (s'.ring u).producer = (s.ring u).producer
  workerState : s'.workerState = s.workerState

theorem WorkerStep.beside {i : Nat} (h : WorkerStep cfg s i s') : Beside s s' :=
  ⟨h.life.1, fun _ => producer_worker h, h.life.2.1⟩

namespace Beside

variable (h : Beside s s')
include h

theorem total_eq : total (toGo s') = total (toGo s) := by
  refine congrArg total (funext fun u => ?_)
  rw [toGo, toGo, h.thr, h.producer]

theorem retry_eq (u : Nat) : retry s' u = retry s u := by
  rw [retry, retry, h.thr, h.producer]

theorem able_iff (hw : ∀ u, waiting s' u = waiting s u) (u : Nat) :
    Able cfg s' u ↔ Able cfg s u := by
  rw [Able, Able, Stuck, Stuck, Inside, Inside, h.retry_eq, h.thr, h.workerState, hw]

/-- A thread gets on by itself meanwhile. -/
theorem steady (hw : ∀ u, waiting s' u = waiting s u) (hable : ∃ t, Able cfg s t) {i : Nat} :
    rank cfg s' = rank cfg s ∧ helpful cfg s' = helpful cfg s ∧ Act.worker i ≠ helpful cfg s := by
  have hable' : ∃ t, Able cfg s' t := hable.imp fun u => (h.able_iff hw u).mpr
  have hset : {u | Able cfg s' u} = {u | Able cfg s u} := Set.ext (h.able_iff hw)
  refine ⟨rank_eq h.total_eq hw ?_, ?_, ?_⟩
  · rw [distance_able hable, distance_able hable', hset, h.retry_eq]
  · rw [helpful_able hable, helpful_able hable', hset]
  · rw [helpful_able hable]
    simp

end Beside

/-- A step of the worker. -/
theorem worker_steady (F : Facts cfg s) {i : Nat} (hs : workerStep cfg s i = some s') :
    Finished s' ∨ rank cfg s' < rank cfg s ∨
      rank cfg s' = rank cfg s ∧ helpful cfg s' = helpful cfg s ∧ Act.worker i ≠ helpful cfg s := by
  have hW := workerStep_cases hs
  have hB := hW.beside
  -- there is one worker only
  obtain rfl : i = 0 := by
    have := F.life.latest i hW.life.2.2.2.2.1
    have := F.start.one
    omega
  have hnot : (∀ u, waiting s' u = waiting s u) → (¬ ∃ t, Able cfg s t) → ¬ ∃ t, Able cfg s' t :=
    fun hw hable hable' => hable (hable'.imp fun u => (hB.able_iff hw u).mp)
  cases worker_effect F.ring hs with
  | pops t ht hlt hother =>
    refine Or.inr (Or.inl (rank_lt_of_waiting hB.total_eq (total_lt ht hlt fun u hu => ?_)))
    rw [hother u hu]
  | wakes h hsem h' =>
    subst h'
    by_cases hable : ∃ t, Able cfg s t
    · exact Or.inr (Or.inr (hB.steady (fun _ => rfl) hable))
    · exact Or.inr (Or.inl (wakes_lowers hable (hnot (fun _ => rfl) hable) hB.total_eq
        (fun _ => rfl) h hsem (setWorker_at s 0 _) rfl))
  | walks hw' hs' hlt hp =>
    have hsem : s.worker 0 ≠ .semWait := fun h => by
      rw [show toSleep s 0 = 0 by simp [toSleep, h, stepsToSleep]] at hlt
      exact absurd hlt (Nat.not_lt_zero _)
    by_cases hable : ∃ t, Able cfg s t
    · exact Or.inr (Or.inr (hB.steady hw' hable))
    · have hable' := hnot hw' hable
      by_cases hw : Waiting s
      · exact Or.inr (Or.inl (walks_lowers hable hable' hB.total_eq hw' hw hsem hlt hp))
      · by_cases hsleep' : Asleep s'
        · -- nothing was left, and now the worker sleeps
          have hquiet : Quiet s := fun t => by
            by_contra hin
            exact hw (waiting_of_stuck F hable hin)
          refine Or.inl (Or.inr ⟨fun t => ?_, fun t => ?_, Or.inr hsleep'⟩)
          · rw [hB.thr]
            exact hquiet t
          · by_contra hne
            rw [hw'] at hne
            obtain ⟨e, he⟩ := List.exists_mem_of_ne_nil _ hne
            exact hw ⟨t, F.early.slots t e (List.mem_of_mem_drop he), hne⟩
        · exact Or.inr (Or.inl (idles_lowers hable hable' hB.total_eq hw' hw hsem hsleep' hs' hlt))

/-! ## What is possible -/

theorem produce_enabled {p : SpscRing.Params Event} {r : Ring} {e : Event}
    (h : producing r.producer = some e) : ∃ r', SpscRing.step p r .produce = some r' := by
  unfold SpscRing.step
  cases hp : r.producer with
  | idle => simp [hp] at h
  | loadTail x => exact ⟨_, rfl⟩
  | loadHead x tail =>
    simp only
    split
    · exact ⟨_, rfl⟩
    · split <;> exact ⟨_, rfl⟩
  | write x tail todo => cases todo <;> exact ⟨_, rfl⟩

/-- A thread in a call can always go on. -/
theorem run_enabled (T : ThreadOk cfg s t) (ht : Inside s t) :
    ∃ s', threadRun cfg s t = some s' := by
  have hsync := T.sync
  cases hpc : (s.thr t).pc with
  | outside => exact absurd hpc ht
  | collect c bits w =>
    simp only [threadRun, hpc]
    split
    · exact ⟨_, rfl⟩
    · split <;> exact ⟨_, rfl⟩
  | ensure c e p => simp [threadRun, hpc]
  | enqueue c e =>
    rw [hpc] at hsync
    cases hp : (s.ring t).producer with
    | idle => simp [threadRun, hpc, SpscRing.step, hp]
    | loadTail x => simp [hp] at hsync
    | loadHead x tail => simp [hp] at hsync
    | write x tail todo => simp [hp] at hsync
  | ring c e =>
    rw [hpc] at hsync
    obtain ⟨r, hr⟩ := produce_enabled (p := ringParams cfg) (hsync.trans rfl)
    simp [threadRun, hpc, ringRun, hr]
  | exchange c e why =>
    simp only [threadRun, hpc]
    split <;> exact ⟨_, rfl⟩
  | post c e why => simp [threadRun, hpc]
  | push c =>
    simp only [threadRun, hpc]
    split <;> exact ⟨_, rfl⟩

/-- A worker that is alive can go on unless it sleeps. -/
theorem worker_enabled {i : Nat} (ha : s.worker i ≠ .exited)
    (hs : ¬ (s.worker i = .semWait ∧ s.sem = 0)) : ∃ s', workerStep cfg s i = some s' := by
  unfold workerStep
  cases h : s.worker i with
  | drain second t b =>
    simp only
    split
    · unfold drainRun
      cases hc : (s.ring t).consumer with
      | idle => simp [SpscRing.step, hc]
      | loadTail head =>
        simp only [SpscRing.step, hc]
        split <;> exact ⟨_, rfl⟩
      | copy head => simp [SpscRing.step, hc]
      | storeHead head e => simp [SpscRing.step, hc]
    · exact ⟨_, rfl⟩
  | target second b rest => cases rest <;> exact ⟨_, rfl⟩
  | edges second b v todo rest => cases todo <;> exact ⟨_, rfl⟩
  | storeIdle => exact ⟨_, rfl⟩
  | storeBusy => exact ⟨_, rfl⟩
  | loadStop => exact ⟨_, rfl⟩
  | scan t =>
    simp only
    split <;> exact ⟨_, rfl⟩
  | semWait =>
    simp only
    rw [if_neg fun h0 => hs ⟨h, h0⟩]
    exact ⟨_, rfl⟩
  | exited => exact absurd h ha

theorem helpful_enabled (F : Facts cfg s) (hex : s.exited = false) (hns : ¬ AllDone s) :
    ∃ s', (system cfg).step s (helpful cfg s) = some s' := by
  have hrun : ∀ t, Inside s t → ∃ s', (system cfg).step s (.thread t .run) = some s' := by
    intro t ht
    rw [step_thread hex (F.free t ht)]
    exact run_enabled (F.thread t) ht
  by_cases hable : ∃ t, Able cfg s t
  · rw [helpful_able hable]
    have hmem : Able cfg s (sInf {t | Able cfg s t}) := Nat.sInf_mem hable
    exact hrun _ hmem.1
  · by_cases hsleep : Asleep s
    · by_cases hpost : ∃ t, retry s t = 3
      · rw [helpful_posting hable hsleep hpost]
        have hmem : retry s (sInf {t | retry s t = 3}) = 3 := Nat.sInf_mem hpost
        exact hrun _ (inside_retry (by omega))
      · rw [helpful_silent hable hsleep hpost]
        have hmem : Inside s (sInf {t | Inside s t}) :=
          Nat.sInf_mem (inside_of_asleep F hable hsleep hns)
        exact hrun _ hmem
    · rw [helpful_worker hable hsleep, step_worker hex]
      exact worker_enabled (worker_alive F hable hns) hsleep

/-! ## Everything gets done -/

/-- Nobody starts a call, and nobody shuts down. -/
def GoesOn : Act → Prop
  | .thread _ .run | .worker _ => True
  | _ => False

/-- Whoever must get its turns: the threads and the worker. -/
def Turns : Act → Prop
  | .thread t .run => t < maxThreadSlots
  | .worker i => i = 0
  | _ => False

theorem helpful_turns (F : Facts cfg s) (hns : ¬ AllDone s) : Turns (helpful cfg s) := by
  by_cases hable : ∃ t, Able cfg s t
  · rw [helpful_able hable]
    have hmem : Able cfg s (sInf {t | Able cfg s t}) := Nat.sInf_mem hable
    exact F.free _ hmem.1
  · by_cases hsleep : Asleep s
    · by_cases hpost : ∃ t, retry s t = 3
      · rw [helpful_posting hable hsleep hpost]
        have hmem : retry s (sInf {t | retry s t = 3}) = 3 := Nat.sInf_mem hpost
        exact F.free _ (inside_retry (by omega))
      · rw [helpful_silent hable hsleep hpost]
        have hmem : Inside s (sInf {t | Inside s t}) :=
          Nat.sInf_mem (inside_of_asleep F hable hsleep hns)
        exact F.free _ hmem
    · rw [helpful_worker hable hsleep]
      rfl

theorem goesOn_before {x : Act} (h : GoesOn x) (s : State) : BeforeShutdown s x := by
  cases x with
  | thread t mv => trivial
  | worker i => trivial
  | shutdown => exact h

noncomputable def settling (cfg : Config) :
    FairRuns.Progress (system cfg) (ℕ ×ₗ ℕ ×ₗ (ℕ ×ₗ ℕ)) where
  allowed := GoesOn
  turns := Turns
  inv s := Runs.ReachableBy (system cfg) BeforeShutdown s
  goal := Finished
  rank := rank cfg
  helpful := helpful cfg
  keeps _ _ _ hr hx hs := .step hr (goesOn_before hx _) hs
  named _ hr hg := helpful_turns (facts hr) fun h => hg (Or.inr h)
  enabled s hr hg := helpful_enabled (facts hr) (by simpa using fun h => hg (Or.inl h))
    fun h => hg (Or.inr h)
  steady s s' x hr hg hx hs := by
    have hex := (step_cases hs).1
    have F := facts hr
    have hns : ¬ AllDone s := fun h => hg (Or.inr h)
    cases (step_cases hs).2 with
    | thread t mv ht h =>
      cases mv with
      | run => exact thread_steady F hns ht ((step_thread hex ht).symm.trans hs)
      | register | acquire | release => exact hx.elim
    | worker i h => exact worker_steady F ((step_worker hex).symm.trans hs)
    | shutdown h => exact hx.elim

/-- In a settled state nobody moves. -/
theorem AllDone.stays {x : Act} (h : AllDone s) (L : LifeInv s) (hx : GoesOn x) :
    (system cfg).step s x = none := by
  cases hs : (system cfg).step s x with
  | none => rfl
  | some s' =>
    exfalso
    have hex := (step_cases hs).1
    cases x with
    | thread t mv =>
      cases mv with
      | run =>
        have hrun : threadRun cfg s t = none := by simp [threadRun, h.quiet t]
        cases (step_cases hs).2 with
        | thread t mv ht hT =>
          rw [step_thread hex ht] at hs
          exact absurd (hrun.symm.trans hs) (by simp)
      | register | acquire | release => exact hx
    | worker i =>
      cases (step_cases hs).2 with
      | worker i hW =>
        have halive := hW.life.2.2.2.2.1
        rcases h.worker with hdead | hsleep
        · exact halive (hdead i)
        · have hi : i = 0 := L.one halive (by rw [hsleep.1]; simp)
          subst hi
          rw [step_worker hex] at hs
          simp [workerStep, hsleep.1, hsleep.2] at hs
    | shutdown => exact hx

/-- What a settled backend has recorded. -/
theorem AllDone.recorded (h : AllDone s) (hr : Runs.ReachableBy (system cfg) BeforeShutdown s)
    {u v : Nat} (hk : Known s u v) : s.graph.E u v := by
  rcases hk with (he | ⟨i, hh⟩) | ⟨t, e, he, hc⟩
  · exact he
  · rcases h.worker with hdead | hsleep
    · exact absurd (hdead i) (holds_alive hh)
    · have hi : i = 0 := (lifeInv hr).one (holds_alive hh) (by rw [hsleep.1]; simp)
      subst hi
      rw [hsleep.1] at hh
      exact hh.elim
  · rw [h.empty t] at he
    cases he

theorem AllDone.edge_iff (h : AllDone s) (hr : Runs.ReachableBy (system cfg) BeforeShutdown s)
    (hd : cfg.drops = false) (u v : Nat) :
    s.graph.edge u v = true ↔ ∃ t, Dependency (s.thr t).hist u v := by
  constructor
  · intro he
    rcases ((edgeInv hr).sound u v he).claimed with ⟨t, api, -, ha⟩ | ⟨t, c, hc, -⟩
    · exact ⟨t, api, ha⟩
    · simp only [activity, h.quiet t] at hc
      cases hc
  · rintro ⟨t, hdep⟩
    exact h.recorded hr ((completeInv hd hr).complete t u v hdep)

/-- **The backend gets done.**  From every state before the shutdown on, when nobody starts a
new call and the threads and the worker get their turns again and again: in the end no call is
left, all rings are empty, the worker sleeps and nobody moves any more, or a held stack has
overflowed.  Every accepted event has been worked off, and with a stalling ring the graph holds
exactly what the threads did. -/
theorem backend_settles (hr : Runs.ReachableBy (system cfg) BeforeShutdown s) {a : Nat → Act}
    (ha : ∀ n, GoesOn (a n)) (hfair : FairRuns.Fair Turns a) :
    ∃ n z, z = FairRuns.play (system cfg) a s n ∧ (z.exited = true ∨
      AllDone z ∧ (∀ m, n ≤ m → FairRuns.play (system cfg) a s m = z) ∧
      (∀ t e u, e ∈ (z.ring t).accepted → e.bits.test u = true →
        z.graph.edge u e.toLockSlot = true) ∧
      (cfg.drops = false → ∀ u v,
        z.graph.edge u v = true ↔ ∃ t, Dependency (z.thr t).hist u v)) := by
  obtain ⟨n, hn⟩ := (settling cfg).eventually ha hfair hr
  have hz := FairRuns.play_reachable (a := a) (fun n s => goesOn_before (ha n) s) hr n
  refine ⟨n, _, rfl, hn.imp_right fun hset => ⟨hset, fun m hm => ?_, fun t e u he hu => ?_,
    hset.edge_iff hz⟩⟩
  · exact FairRuns.play_const (fun m => hset.stays (lifeInv hz) (ha m)) hm
  · refine hset.recorded hz ?_
    by_cases hdel : e ∈ (waiting (FairRuns.play (system cfg) a s n) t)
    · exact Or.inr ⟨t, e, hdel, rfl, hu⟩
    · refine Or.inl (deliveryInv hz t e u _ ?_ ⟨rfl, hu⟩)
      rw [hset.empty t] at hdel
      have hnil := hset.empty t
      have hpre := (ringInv hz t).order
      rw [waiting, SpscRing.contents, List.drop_eq_nil_iff] at hnil
      rwa [hpre.eq_of_length (Nat.le_antisymm hpre.length_le hnil)]

/-- Thread 0 holds one lock and is in its call for the next, with the worker just created. -/
def halfway : List Act :=
  [.thread 0 .register, .thread 0 .register, .thread 0 (.acquire ⟨.lock, 0, 0⟩),
    .thread 0 (.acquire ⟨.lock, 1, 0⟩)] ++ List.replicate 12 (.thread 0 .run)

/-- The threads and the worker in turn. -/
def inTurn (n : Nat) : Act :=
  if n % (maxThreadSlots + 1) < maxThreadSlots then .thread (n % (maxThreadSlots + 1)) .run
  else .worker 0

theorem inTurn_goesOn (n : Nat) : GoesOn (inTurn n) := by
  unfold inTurn
  split <;> trivial

theorem inTurn_fair : FairRuns.Fair Turns inTurn := by
  intro p hp n
  have hmod : ∀ k, k ≤ maxThreadSlots →
      ((maxThreadSlots + 1) * n + k) % (maxThreadSlots + 1) = k := fun k hk => by
    rw [Nat.mul_add_mod, Nat.mod_eq_of_lt (by omega)]
  have hle : ∀ k, n ≤ (maxThreadSlots + 1) * n + k := fun k =>
    (Nat.le_mul_of_pos_left n (Nat.succ_pos _)).trans (Nat.le_add_right _ _)
  cases p with
  | thread t mv =>
    cases mv with
    | run =>
      have ht : t < maxThreadSlots := hp
      exact ⟨_, hle t, by rw [inTurn, hmod t (Nat.le_of_lt ht), if_pos ht]⟩
    | register | acquire | release => exact hp.elim
  | worker i =>
    refine ⟨_, hle maxThreadSlots, ?_⟩
    rw [inTurn, hmod _ (Nat.le_refl _), if_neg (Nat.lt_irrefl _), show i = 0 from hp]
  | shutdown => exact hp.elim

theorem halfway_runs : (Runs.execBy (system ⟨false, false⟩) (fun _ a => decide (a ≠ .shutdown))
    initial halfway).isSome = true := by
  decide +kernel

theorem backend_settles_halfway : ∃ s n, s.created = 1 ∧ (s.thr 0).pc ≠ .outside ∧
    ((FairRuns.play (system ⟨false, false⟩) inTurn s n).exited = true ∨
      AllDone (FairRuns.play (system ⟨false, false⟩) inTurn s n)) := by
  have hs := (Option.some_get halfway_runs).symm
  have hr : Runs.ReachableBy (system ⟨false, false⟩) BeforeShutdown _ :=
    Runs.ReachableBy.execBy (fun s a h => by
      cases a with
      | thread t mv => trivial
      | worker i => trivial
      | shutdown => exact absurd h (by decide)) .init hs
  obtain ⟨n, z, rfl, h⟩ := backend_settles hr inTurn_goesOn inTurn_fair
  exact ⟨_, n, by decide +kernel, by decide +kernel, h.imp_right fun h => h.1⟩

/-! ## The shutdown returns -/

/-- The steps of `lockdep_potential_shutdown` to its return. -/
def toReturn : ShutdownPc → Nat
  | .idle => 7
  | .loadState => 6
  | .storeStop => 5
  | .post => 4
  | .join => 3
  | .destroy => 2
  | .storeState => 1
  | .returned => 0

/-- After the threads have finished. -/
structure ClosingInv (cfg : Config) (s : State) : Prop where
  one : s.created ≤ 1
  before : s.shutdown = .idle → Runs.ReachableBy (system cfg) BeforeShutdown s
  stop : s.shutdown = .post ∨ s.shutdown = .join → s.shouldStop = true

theorem closingInv (h : Runs.ReachableBy (system cfg) FinishedFirst s) : ClosingInv cfg s :=
  h.invariant ⟨Nat.zero_le _, fun _ => .init, fun h => by rcases h with h | h <;> cases h⟩
    fun s s' a hr I hg hs => by
      cases (step_cases hs).2 with
      | thread t mv ht h =>
        have hb := (I.before hg).step (show BeforeShutdown s (.thread t mv) from trivial) hs
        have hsd := (shutdown_thread h).trans hg
        refine ⟨(startInv hb).one, fun _ => hb, fun hstop => ?_⟩
        rw [hsd] at hstop
        rcases hstop with h | h <;> cases h
      | worker i h =>
        obtain ⟨-, -, hc, hsd, -, -⟩ := h.life
        refine ⟨hc.le.trans I.one, fun hidle => ?_, fun hstop => ?_⟩
        · exact (I.before (hsd.symm.trans hidle)).step
            (show BeforeShutdown s (.worker i) from trivial) hs
        · rw [hsd] at hstop
          rw [(shouldStop_worker h).1]
          exact I.stop hstop
      | shutdown h =>
        cases h with
        | storeStop h => exact ⟨I.one, fun hidle => (by cases hidle), fun _ => rfl⟩
        | post h => exact ⟨I.one, fun hidle => (by cases hidle), fun _ => I.stop (Or.inl h)⟩
        | start h | load h hw | skip h hw | join h hw | destroy h | storeState h =>
          refine ⟨I.one, fun hidle => (by cases hidle), fun hstop => ?_⟩
          rcases hstop with h | h <;> cases h

/-- The state of the shutdown once the threads have finished. -/
structure Closing (cfg : Config) (s : State) : Prop where
  reach : Runs.ReachableBy (system cfg) FinishedFirst s
  quiet : Quiet s
  alive : s.exited = false

/-- Only the worker and the shutdown are left. -/
def Closes : Act → Prop
  | .worker _ | .shutdown => True
  | .thread _ _ => False

def ClosingTurns : Act → Prop
  | .worker i => i = 0
  | .shutdown => True
  | .thread _ _ => False

theorem exited_worker {i : Nat} (h : WorkerStep cfg s i s') : s'.exited = s.exited := by
  cases h <;> rfl

theorem Closing.step {x : Act} (h : Closing cfg s) (hx : Closes x)
    (hs : (system cfg).step s x = some s') : Closing cfg s' := by
  cases (step_cases hs).2 with
  | thread t mv ht hT => exact hx.elim
  | worker i hW =>
    refine ⟨h.reach.step (show FinishedFirst s (.worker i) from trivial) hs, fun t => ?_, ?_⟩
    · rw [hW.life.1]
      exact h.quiet t
    · rw [exited_worker hW]
      exact h.alive
  | shutdown hS =>
    have hr := h.reach.step (show FinishedFirst s .shutdown from fun _ => h.quiet) hs
    cases hS <;> exact ⟨hr, h.quiet, h.alive⟩

/-- The worker in its join is not asleep. -/
theorem Closing.awake (h : Closing cfg s) (hj : s.shutdown = .join) {i : Nat} :
    ¬ (s.worker i = .semWait ∧ s.sem = 0) := by
  rintro ⟨hw, hsem⟩
  have hnone : ∀ {P : Pc → Prop}, ¬ P .outside → ¬ ∃ t, P (s.thr t).pc := by
    rintro P hP ⟨t, ht⟩
    rw [h.quiet t] at ht
    exact hP ht
  have W := wakeInv h.reach
  rcases W.stop i hw ((closingInv h.reach).stop (Or.inr hj)) with h' | h' | ⟨t, ht, hne⟩
  · rw [hj] at h'
    cases h'
  · omega
  · rcases W.announced i t (by rw [hw]; trivial) ht hne with h' | h'
    · exact hnone (P := announcing) id ⟨t, h'⟩
    · rcases W.posted i (by rw [hw]; trivial) h' with h'' | h''
      · omega
      · exact hnone (P := posting) id h''

/-- What is left until the return. -/
def closingRank (s : State) : ℕ ×ₗ ℕ ×ₗ (ℕ ×ₗ ℕ) :=
  toLex (toReturn s.shutdown, toLex (total fun t => (waiting s t).length,
    toLex (s.sem, toSleep s 0)))

theorem closingRank_lt (hsd : s'.shutdown = s.shutdown)
    (hlt : total (fun t => (waiting s' t).length) < total fun t => (waiting s t).length) :
    closingRank s' < closingRank s :=
  Prod.Lex.toLex_lt_toLex.mpr (Or.inr ⟨congrArg toReturn hsd,
    Prod.Lex.toLex_lt_toLex.mpr (Or.inl hlt)⟩)

theorem closingRank_lt_of_waiting (hsd : s'.shutdown = s.shutdown)
    (hw : ∀ u, waiting s' u = waiting s u)
    (hlt : toLex (s'.sem, toSleep s' 0) < toLex (s.sem, toSleep s 0)) :
    closingRank s' < closingRank s := by
  refine Prod.Lex.toLex_lt_toLex.mpr (Or.inr ⟨congrArg toReturn hsd, ?_⟩)
  refine Prod.Lex.toLex_lt_toLex.mpr (Or.inr ⟨?_, hlt⟩)
  simp only [hw]

/-- Every step takes the shutdown closer to its return. -/
theorem Closing.lowers {x : Act} (h : Closing cfg s) (hx : Closes x)
    (hs : (system cfg).step s x = some s') : closingRank s' < closingRank s := by
  cases (step_cases hs).2 with
  | thread t mv ht hT => exact hx.elim
  | worker i hW =>
    obtain rfl : i = 0 := by
      have := (lifeInv h.reach).latest i hW.life.2.2.2.2.1
      have := (closingInv h.reach).one
      omega
    have hsd := hW.life.2.2.2.1
    cases worker_effect (ringInv h.reach) ((step_worker h.alive).symm.trans hs) with
    | pops t ht hlt hother =>
      exact closingRank_lt hsd (total_lt ht hlt fun u hu => by rw [hother u hu])
    | wakes hw hsem h' =>
      subst h'
      exact closingRank_lt_of_waiting hsd (fun _ => rfl)
        (Prod.Lex.toLex_lt_toLex.mpr (Or.inl (Nat.sub_one_lt hsem)))
    | walks hw' hsem hlt hp =>
      exact closingRank_lt_of_waiting hsd hw' (Prod.Lex.toLex_lt_toLex.mpr (Or.inr ⟨hsem, hlt⟩))
  | shutdown hS =>
    refine Prod.Lex.toLex_lt_toLex.mpr (Or.inl ?_)
    cases hS with
    | load hpc hw | skip hpc hw | join hpc hw => simp [hpc, toReturn]
    | start hpc | storeStop hpc | post hpc | destroy hpc | storeState hpc => simp [hpc, toReturn]

open Classical in
/-- The join waits for the worker. -/
noncomputable def closingHelp (s : State) : Act :=
  if s.shutdown = .join ∧ s.worker 0 ≠ .exited then .worker 0 else .shutdown

theorem Closing.enabled (h : Closing cfg s) (hret : s.shutdown ≠ .returned) :
    ∃ s', (system cfg).step s (closingHelp s) = some s' := by
  rw [closingHelp]
  split
  · rename_i hj
    rw [step_worker h.alive]
    exact worker_enabled hj.2 (h.awake hj.1)
  · rename_i hj
    have hs : (system cfg).step s .shutdown = shutdownStep s := by
      simp [system, RbBackend.step, h.alive]
    rw [hs]
    unfold shutdownStep
    cases hsd : s.shutdown with
    | join =>
      have hdead : s.worker (s.created - 1) = .exited := by
        have hone := (closingInv h.reach).one
        rw [show s.created - 1 = 0 by omega]
        by_contra hne
        exact hj ⟨hsd, hne⟩
      simp [hdead]
    | returned => exact absurd hsd hret
    | idle | loadState | storeStop | post | destroy | storeState => exact ⟨_, rfl⟩

noncomputable def closing (cfg : Config) :
    FairRuns.Progress (system cfg) (ℕ ×ₗ ℕ ×ₗ (ℕ ×ₗ ℕ)) where
  allowed := Closes
  turns := ClosingTurns
  inv := Closing cfg
  goal s := s.shutdown = .returned
  rank := closingRank
  helpful := closingHelp
  keeps _ _ _ h hx hs := h.step hx hs
  named s _ _ := by
    rw [closingHelp]
    split
    · rfl
    · trivial
  enabled _ h hret := h.enabled hret
  steady _ _ _ h _ hx hs := Or.inr (Or.inl (h.lowers hx hs))

/-- **The shutdown returns.**  Once the threads have finished, when the worker and the shutdown
get their turns again and again, `lockdep_potential_shutdown` returns; with a stalling ring the
graph then holds exactly what the threads did. -/
theorem shutdown_returns (h : Runs.ReachableBy (system cfg) FinishedFirst s) (hq : Quiet s)
    (hex : s.exited = false) {a : Nat → Act} (ha : ∀ n, Closes (a n))
    (hfair : FairRuns.Fair ClosingTurns a) :
    ∃ n z, z = FairRuns.play (system cfg) a s n ∧ z.shutdown = .returned ∧
      (∀ i, z.worker i = .exited) ∧ (∀ t, (z.thr t).hist = (s.thr t).hist) ∧
      (cfg.drops = false → ∀ u v,
        z.graph.edge u v = true ↔ ∃ t, Dependency (s.thr t).hist u v) := by
  have hclose : Closing cfg s := ⟨h, hq, hex⟩
  obtain ⟨n, hn⟩ := (closing cfg).eventually ha hfair hclose
  -- the threads do not move
  have hz : Closing cfg (FairRuns.play (system cfg) a s n) ∧
      (FairRuns.play (system cfg) a s n).thr = s.thr := by
    refine FairRuns.play_invariant (P := fun z => Closing cfg z ∧ z.thr = s.thr) ha ?_
      ⟨hclose, rfl⟩ n
    rintro z z' x ⟨hz, hthr⟩ hx hs
    refine ⟨hz.step hx hs, ?_⟩
    cases (step_cases hs).2 with
    | thread t mv ht hT => exact hx.elim
    | worker i hW => rw [hW.life.1, hthr]
    | shutdown hS => cases hS <;> exact hthr
  refine ⟨n, _, rfl, hn, ((finishedInv hz.1.reach).returned hn).1, fun t => by rw [hz.2],
    fun hd u v => ?_⟩
  have hedge := edge_returned hd hz.1.reach hn u v
  rw [hz.2] at hedge
  exact hedge

/-- Thread 0 takes two locks, and the shutdown begins with the event still in the ring. -/
def closingDown : List Act :=
  [.thread 0 .register, .thread 0 .register] ++ lockPair 0 0 1 26 ++ [.shutdown]

theorem closingDown_runs :
    (Runs.execBy (system ⟨false, false⟩) finishedFirst initial closingDown).isSome = true := by
  decide +kernel

theorem finishedFirst_exec {run : List Act}
    (h : Runs.execBy (system cfg) finishedFirst initial run = some s) :
    Runs.ReachableBy (system cfg) FinishedFirst s := by
  have hr : Runs.ReachableBy (system cfg) (fun s a => finishedFirst s a = true) s :=
    Runs.ReachableBy.execBy (fun _ _ => id) .init h
  refine hr.mono_of fun s a hr _ hg => ?_
  cases a with
  | thread t mv => exact of_decide_eq_true (p := s.shutdown = .idle) hg
  | worker i => trivial
  | shutdown =>
    intro hidle t
    by_cases ht : t < maxThreadSlots
    · exact of_decide_eq_true
        (p := s.shutdown = .idle → ∀ t, t < maxThreadSlots → (s.thr t).pc = .outside) hg hidle t ht
    · rw [thr_free hr (Nat.le_of_not_lt ht)]
      rfl

/-- The worker and the shutdown in turn. -/
def byTurns (n : Nat) : Act := if n % 2 = 0 then .worker 0 else .shutdown

theorem byTurns_closes (n : Nat) : Closes (byTurns n) := by
  unfold byTurns
  split <;> trivial

theorem byTurns_fair : FairRuns.Fair ClosingTurns byTurns := by
  intro p hp n
  cases p with
  | thread t mv => exact hp.elim
  | worker i =>
    refine ⟨2 * n, by omega, ?_⟩
    rw [byTurns, if_pos (by omega), show i = 0 from hp]
  | shutdown => exact ⟨2 * n + 1, by omega, by rw [byTurns, if_neg (by omega)]⟩

theorem shutdown_returns_closingDown : ∃ s n,
    Runs.execBy (system ⟨false, false⟩) finishedFirst initial closingDown = some s ∧
      s.graph.edge 0 1 = false ∧
      (FairRuns.play (system ⟨false, false⟩) byTurns s n).shutdown = .returned ∧
      (FairRuns.play (system ⟨false, false⟩) byTurns s n).graph.edge 0 1 = true := by
  have hs := (Option.some_get closingDown_runs).symm
  have hr := finishedFirst_exec hs
  have hdep : Dependency (((Runs.execBy (system ⟨false, false⟩) finishedFirst initial
      closingDown).get closingDown_runs).thr 0).hist 0 1 :=
    ⟨.lock, by decide, [.acquire .lock 0], [.release 1, .release 0], by decide +kernel,
      by decide⟩
  obtain ⟨n, z, rfl, hret, -, -, hedge⟩ := shutdown_returns hr
    ((finishedInv hr).quiet (by decide +kernel)) (by decide +kernel) byTurns_closes byTurns_fair
  exact ⟨_, n, hs, by decide +kernel, hret, (hedge rfl 0 1).mpr ⟨0, hdep⟩⟩

end ScaleLockDep.RbBackend
