import ScaleLockDep.FairRuns
import ScaleLockDep.RegistryInvariants
import Mathlib.Data.Nat.Pairing

/-!
# The sections under `g_meta_lock`

`g_meta_lock` is a spin lock.  In rb mode the functions of `state.c` are all that takes it.

* `section_bounded`: a thread that has it gives it back within `sectionSteps` turns of its own,
  whatever the others do;
* `someone_enters`: as long as a thread spins, some thread gets it again and again;
* `metaLock_progress`: both, in every reachable state.
-/

namespace ScaleLockDep.Registry

open State

variable {tid : Nat → Nat} {s s' : State} {t u : Nat} {g : Goal} {a : Nat → Act}

/-! ## The steps of a section -/

/-- The steps until `lockdep_meta_unlock` has been done. -/
def sectionLeft : Pc → Nat
  | .loadCount g => g.limit + 6
  | .scan _ i n => n - i + 5
  | .storeEntry _ _ => 4
  | .storeCount _ _ => 3
  | .storeSlot _ => 2
  | .unlock _ _ | .unlockFull _ => 1
  | .outside | .fast _ _ | .cache _ _ | .metaLock _ | .storeCache _ _ | .panic _ => 0

def sectionSteps : Nat := maxLockSlots + 6

theorem critical_of_sectionLeft {pc : Pc} (h : sectionLeft pc = 0) : critical pc = false := by
  cases pc <;> first | rfl | cases h

theorem sectionLeft_found (g : Goal) (l : Nat) : sectionLeft (g.found l) ≤ 2 := by
  cases g with
  | lockSlot create cached mutex => exact Nat.le_succ 1
  | threadSlot => exact Nat.le_refl 2

theorem sectionLeft_afterUnlock (g : Goal) (slot : Option Nat) :
    sectionLeft (g.afterUnlock slot) = 0 := by
  cases g with
  | lockSlot create cached mutex => cases cached <;> cases slot <;> rfl
  | threadSlot => rfl

theorem Goal.limit_le (g : Goal) : g.limit ≤ maxLockSlots := by
  cases g with
  | lockSlot create cached mutex => exact Nat.le_refl _
  | threadSlot => decide

/-- A scan has at most the slots of its table before it. -/
theorem sectionLeft_le (I : Inv tid s) (t : Nat) : sectionLeft (s.thr t).pc ≤ sectionSteps := by
  have hpc := I.pc t
  cases h : (s.thr t).pc with
  | loadCount g =>
    have := g.limit_le
    simp only [sectionLeft, sectionSteps]
    omega
  | scan g i n =>
    rw [h] at hpc
    have := I.limit g
    have := g.limit_le
    have hn : n = (s.table g).count := hpc.2.1
    simp only [sectionLeft, sectionSteps]
    omega
  | _ =>
    simp only [sectionLeft, sectionSteps]
    omega

/-- Every step of a section brings it nearer to its end. -/
theorem section_own (I : Inv tid s) (hc : critical (s.thr t).pc = true)
    (hs : run tid s t = some s') :
    sectionLeft (s'.thr t).pc < sectionLeft (s.thr t).pc := by
  cases run_cases hs with
  | loadCount g h =>
    have := I.limit g
    simp only [setPc_thr, if_true, h, sectionLeft]
    omega
  | found g i n h hi he =>
    have := sectionLeft_found g i
    rw [setPc_thr, if_pos rfl, h]
    show sectionLeft (g.found i) < n - i + 5
    omega
  | next g i n h hi he =>
    simp only [setPc_thr, if_true, h, sectionLeft]
    omega
  | full g i n h hi hcr hn | new g i n h hi hcr hn | unknown g i n h hi hcr =>
    simp only [setPc_thr, if_true, h, sectionLeft]
    omega
  | storeEntry g n h => simp [h, sectionLeft]
  | storeCount g n h =>
    have := sectionLeft_found g n
    rw [setPc_thr, if_pos rfl, h]
    show sectionLeft (g.found n) < 3
    omega
  | storeSlot l h => simp [h, sectionLeft]
  | unlock g slot h =>
    simp only [setPc_thr, if_true, h]
    exact (sectionLeft_afterUnlock g slot).trans_lt Nat.one_pos
  | unlockFull g h => simp [h, sectionLeft]
  | hit create mutex h hm => rcases h with h | h <;> rw [h] at hc <;> cases hc
  | miss create mutex pc h => rcases h with ⟨h, -⟩ | ⟨h, -⟩ <;> rw [h] at hc <;> cases hc
  | call c h _ | spin g h | lock g h _ | storeCache mutex l h | panic g h =>
    rw [h] at hc
    cases hc

theorem outside_of_call {c : Call} (hs : (system tid).step s ⟨t, .call c⟩ = some s') :
    (s.thr t).pc = .outside := by
  change step tid s ⟨t, .call c⟩ = some s' at hs
  unfold step at hs
  split at hs
  · cases hs
  · dsimp only at hs
    split at hs
    · rename_i hok
      exact hok.1
    · cases hs

/-- Only its own turns move a thread in a section. -/
theorem section_other {x : Act} (hc : critical (s.thr t).pc = true) (hx : x ≠ ⟨t, .run⟩)
    (hs : (system tid).step s x = some s') : s'.thr t = s.thr t := by
  refine thr_step (step_cases hs).2 ?_
  rintro rfl
  obtain ⟨u, mv⟩ := x
  cases mv with
  | run => exact hx rfl
  | call c =>
    rw [show (s.thr u).pc = .outside from outside_of_call hs] at hc
    cases hc

/-- A thread in a call can always go on. -/
theorem run_enabled (hin : (s.thr t).pc ≠ .outside) : ∃ s', run tid s t = some s' := by
  unfold run
  split
  · rename_i h
    exact absurd h hin
  all_goals
    repeat' split
    all_goals exact ⟨_, rfl⟩

/-- **A section is bounded.** -/
theorem section_bounded (h : Runs.Reachable (system tid) s) {n : Nat}
    (hn : sectionSteps ≤ FairRuns.turnsOf a ⟨t, .run⟩ n) :
    ∃ k, k ≤ n ∧ ((FairRuns.play (system tid) a s k).panicked = true ∨
      critical ((FairRuns.play (system tid) a s k).thr t).pc = false) := by
  refine @FairRuns.boundedly State Act (system tid) a s _ (fun _ => True)
    (Runs.Reachable (system tid))
    (fun s => s.panicked = true ∨ critical (s.thr t).pc = false)
    (fun s => sectionLeft (s.thr t).pc) ⟨t, .run⟩ ?keeps ?enabled ?own ?other ?done
    (fun _ => trivial) h n ((sectionLeft_le (inv h) t).trans hn)
  case keeps => exact fun s s' x hr _ hs => .step hr trivial hs
  case enabled =>
    intro s hr hg
    rw [not_or] at hg
    rw [step_run (by simpa using hg.1)]
    refine run_enabled fun ho => hg.2 ?_
    rw [ho]
    rfl
  case own =>
    intro s s' hr hg hs
    rw [not_or] at hg
    rw [step_run (by simpa using hg.1)] at hs
    exact Or.inr (section_own (inv hr) (by simpa using hg.2) hs)
  case other =>
    intro s s' x hr hg _ hx hs
    rw [not_or] at hg
    right
    rw [section_other (by simpa using hg.2) hx hs]
  case done => exact fun s _ h0 => Or.inr (critical_of_sectionLeft h0)

/-! ## Spinning threads -/

/-- Whoever has set `g_meta_lock` is in its section. -/
def HeldByOne (s : State) : Prop := s.metaLock = true → ∃ t, critical (s.thr t).pc = true

theorem heldByOne_step (H : HeldByOne s) (h : Step tid s t s') : HeldByOne s' := by
  intro hl
  -- where the step does not end the section of `t`, the one who had the lock has it
  have hkeep : s'.metaLock = s.metaLock →
      (critical (s.thr t).pc = true → critical (s'.thr t).pc = true) →
      ∃ u, critical (s'.thr u).pc = true := by
    intro hsame hc
    obtain ⟨u, hu⟩ := H (hsame ▸ hl)
    by_cases hut : u = t
    · subst hut
      exact ⟨u, hc hu⟩
    · exact ⟨u, by rw [thr_step h hut]; exact hu⟩
  cases h with
  | lock g h _ => exact ⟨t, by simp [critical]⟩
  | unlock g slot h => cases hl
  | unlockFull g h => cases hl
  | call c h _ => exact hkeep rfl fun hc => by rw [h] at hc; cases hc
  | hit create mutex h hm =>
    exact hkeep rfl fun hc => by rcases h with h | h <;> rw [h] at hc <;> cases hc
  | miss create mutex pc h =>
    exact hkeep rfl fun hc => by rcases h with ⟨h, -⟩ | ⟨h, -⟩ <;> rw [h] at hc <;> cases hc
  | spin g h => exact hkeep rfl id
  | panic g h => exact hkeep rfl id
  | storeCache mutex l h => exact hkeep rfl fun hc => by rw [h] at hc; cases hc
  | found g i n h hi he => exact hkeep rfl fun _ => by cases g <;> simp [Goal.found, critical]
  | storeCount g n h =>
    refine hkeep (setTable_metaLock _) fun _ => ?_
    cases g <;> simp [Goal.found, critical]
  | storeEntry g n h => exact hkeep (setTable_metaLock _) fun _ => by simp [critical]
  | loadCount g h | next g i n h hi he | full g i n h hi hc hn | new g i n h hi hc hn
  | unknown g i n h hi hc | storeSlot l h => exact hkeep rfl fun _ => by simp [critical]

theorem heldByOne (h : Runs.Reachable (system tid) s) : HeldByOne s :=
  h.invariant (P := HeldByOne) (fun hl => by cases hl) fun _ _ _ _ H _ hs =>
    heldByOne_step H (step_cases hs).2

/-- Thread `t` gets `g_meta_lock`. -/
def Enters (s s' : State) (t : Nat) : Prop :=
  critical (s.thr t).pc = false ∧ critical (s'.thr t).pc = true

/-- A spinning thread moves on only into its section. -/
theorem spins_step (h : Step tid s t s') (ht : (s.thr u).pc = .metaLock g)
    (hno : ¬ Enters s s' u) : (s'.thr u).pc = .metaLock g := by
  by_cases hut : u = t
  · subst hut
    cases h with
    | spin g' h => exact ht
    | lock g' h _ =>
      refine absurd ⟨?_, ?_⟩ hno
      · rw [ht]
        rfl
      · simp [critical]
    | hit create mutex h _ => rcases h with h | h <;> rw [h] at ht <;> cases ht
    | miss create mutex pc h => rcases h with ⟨h, -⟩ | ⟨h, -⟩ <;> rw [h] at ht <;> cases ht
    | call c h _ | loadCount g' h | found g' i n h _ _ | next g' i n h _ _ | full g' i n h _ _ _
    | new g' i n h _ _ _ | unknown g' i n h _ _ | storeEntry g' n h | storeCount g' n h
    | storeSlot l h | unlock g' slot h | unlockFull g' h | storeCache mutex l h | panic g' h =>
      rw [h] at ht
      cases ht
  · rw [thr_step h hut]
    exact ht

/-- While nobody enters, a spinning thread spins, and the sections only get fewer. -/
theorem nobody_enters (hno : ∀ n u, ¬ Enters (FairRuns.play (system tid) a s n)
      (FairRuns.play (system tid) a s (n + 1)) u) (ht : (s.thr t).pc = .metaLock g) (n : Nat) :
    ((FairRuns.play (system tid) a s n).thr t).pc = .metaLock g ∧
      ∀ k u, k ≤ n → critical ((FairRuns.play (system tid) a s n).thr u).pc = true →
        critical ((FairRuns.play (system tid) a s k).thr u).pc = true := by
  induction n with
  | zero =>
    refine ⟨ht, fun k u hk hu => ?_⟩
    obtain rfl := Nat.le_zero.mp hk
    exact hu
  | succ n ih =>
    constructor
    · rcases FairRuns.next_cases (system tid) (FairRuns.play (system tid) a s n) (a n) with hs | hs
      · rw [FairRuns.play, hs]
        exact ih.1
      · exact spins_step (step_cases hs).2 ih.1 (hno n t)
    · intro k u hk hu
      rcases Nat.le_succ_iff.mp hk with hk | rfl
      · refine ih.2 k u hk ?_
        by_contra hc
        exact hno n u ⟨by simpa using hc, hu⟩
      · exact hu

/-- From some moment on, if nobody enters, nobody is in a section. -/
theorem exists_free (h : Runs.Reachable (system tid) s)
    (hfair : FairRuns.Fair (fun p : Act => p.move = .run) a)
    (hp : ∀ n, (FairRuns.play (system tid) a s n).panicked = false)
    (hno : ∀ n u, ¬ Enters (FairRuns.play (system tid) a s n)
      (FairRuns.play (system tid) a s (n + 1)) u) (ht : (s.thr t).pc = .metaLock g) :
    ∃ k, ∀ n u, k ≤ n → critical ((FairRuns.play (system tid) a s n).thr u).pc = false := by
  have hkept := fun n => (nobody_enters hno ht n).2
  by_cases hall : ∀ u, critical (s.thr u).pc = false
  · refine ⟨0, fun n u hn => Bool.eq_false_iff.mpr fun hu => ?_⟩
    exact Bool.eq_false_iff.mp (hall u) (hkept n 0 u hn hu)
  · simp only [not_forall, Bool.not_eq_false] at hall
    obtain ⟨u, hu⟩ := hall
    obtain ⟨n, hn⟩ := FairRuns.Fair.turnsOf_ge hfair (p := ⟨u, .run⟩) rfl sectionSteps
    obtain ⟨k, -, hk⟩ := section_bounded h hn
    replace hk := hk.resolve_left (Bool.eq_false_iff.mp (hp k))
    refine ⟨k, fun m v hm => Bool.eq_false_iff.mpr fun hv => ?_⟩
    -- whoever is in a section has been in it from the start, as `u` has
    have hvu : v = u := (inv h).unique v u (hkept m 0 v (Nat.zero_le m) hv) hu
    exact Bool.eq_false_iff.mp hk (hvu ▸ hkept m k v hm hv)

/-- **No deadlock over `g_meta_lock`.**  While a thread spins, some thread gets the lock, under
every schedule that gives all threads their turns again and again. -/
theorem someone_enters (h : Runs.Reachable (system tid) s)
    (hfair : FairRuns.Fair (fun p : Act => p.move = .run) a) (ht : (s.thr t).pc = .metaLock g) :
    ∃ n, (FairRuns.play (system tid) a s n).panicked = true ∨
      ∃ u, Enters (FairRuns.play (system tid) a s n) (FairRuns.play (system tid) a s (n + 1)) u := by
  by_contra hnone
  simp only [not_exists, not_or] at hnone
  have hp : ∀ n, (FairRuns.play (system tid) a s n).panicked = false := fun n => by
    simpa using (hnone n).1
  have hno := fun n => (hnone n).2
  have hreach := fun n => FairRuns.play_reachable (a := a) (fun _ _ => trivial) h n
  obtain ⟨k, hk⟩ := exists_free h hfair hp hno ht
  obtain ⟨n, hkn, hturn⟩ := hfair ⟨t, .run⟩ rfl k
  have hunlocked : (FairRuns.play (system tid) a s n).metaLock = false := by
    refine Bool.eq_false_iff.mpr fun hl => ?_
    obtain ⟨u, hu⟩ := heldByOne (hreach n) hl
    rw [hk n u hkn] at hu
    cases hu
  have hspin := (nobody_enters hno ht n).1
  have hstep : (system tid).step (FairRuns.play (system tid) a s n) (a n) =
      some { (FairRuns.play (system tid) a s n).setPc t (.loadCount g) with metaLock := true } := by
    rw [hturn, step_run (hp n)]
    simp [run, hspin, hunlocked]
  refine hno n t ⟨by rw [hspin]; rfl, ?_⟩
  rw [FairRuns.play, FairRuns.next_eq hstep]
  simp [critical]

/-- **Sections under `g_meta_lock` end, and spinning threads do not block each other.**  Unless
the process panics, a thread in a section leaves it within `sectionSteps` turns of its own under
every schedule, and while one spins, some thread gets the lock under every fair schedule. -/
theorem metaLock_progress (h : Runs.Reachable (system tid) s) :
    (∀ (a : Nat → Act) (t n : Nat), sectionSteps ≤ FairRuns.turnsOf a ⟨t, .run⟩ n →
      ∃ k, k ≤ n ∧ ((FairRuns.play (system tid) a s k).panicked = true ∨
        critical ((FairRuns.play (system tid) a s k).thr t).pc = false)) ∧
    ∀ a : Nat → Act, FairRuns.Fair (fun p : Act => p.move = .run) a →
      ∀ t g, (s.thr t).pc = .metaLock g →
        ∃ n, (FairRuns.play (system tid) a s n).panicked = true ∨ ∃ u,
          Enters (FairRuns.play (system tid) a s n) (FairRuns.play (system tid) a s (n + 1)) u :=
  ⟨fun _ _ _ hn => section_bounded h hn, fun _ hfair _ _ ht => someone_enters h hfair ht⟩

/-- Thread 0 registers itself and is scanning; thread 1 spins. -/
def contended : List Act :=
  [⟨0, .call .threadSlot⟩, ⟨0, .run⟩, ⟨0, .run⟩, ⟨1, .call .threadSlot⟩, ⟨1, .run⟩]

theorem contended_runs : (Runs.exec (system id) initial contended).isSome = true := by decide

/-- Every thread again and again. -/
def everyThread (n : Nat) : Act := ⟨n.unpair.1, .run⟩

theorem everyThread_fair : FairRuns.Fair (fun p : Act => p.move = .run) everyThread := by
  rintro ⟨t, mv⟩ (rfl : mv = .run) n
  exact ⟨Nat.pair t n, Nat.right_le_pair t n, by simp [everyThread]⟩

theorem metaLock_progress_contended : ∃ s : State, critical (s.thr 0).pc = true ∧
    (∃ k, k ≤ sectionSteps ∧
      ((FairRuns.play (system id) (fun _ => ⟨0, .run⟩) s k).panicked = true ∨
        critical ((FairRuns.play (system id) (fun _ => ⟨0, .run⟩) s k).thr 0).pc = false)) ∧
    ∃ n, (FairRuns.play (system id) everyThread s n).panicked = true ∨ ∃ u,
      Enters (FairRuns.play (system id) everyThread s n)
        (FairRuns.play (system id) everyThread s (n + 1)) u := by
  have hreach : Runs.Reachable (system id) (Option.get _ contended_runs) :=
    Runs.ReachableBy.exec .init (Option.some_get contended_runs).symm
  obtain ⟨hsection, hspin⟩ := metaLock_progress hreach
  refine ⟨_, by decide, hsection _ 0 sectionSteps ?_, hspin everyThread everyThread_fair 1
    .threadSlot rfl⟩
  simp [FairRuns.turnsOf, Nat.count_true]

end ScaleLockDep.Registry
