import ScaleLockDep.RbRefinement
import Mathlib.Algebra.Order.BigOperators.Group.Finset

/-!
# How far the threads and the worker have to go

* `toGo`: what a thread still has to do in its call; a retry at a full ring and a spin for the
  worker leave it as it is;
* `run_effect`: what a step of a call does to it;
* `toSleep`: the steps of the worker to its `sem_wait`;
* `worker_effect`: what a step of the worker does to them.
-/

namespace ScaleLockDep.RbBackend

open ThreadState State

variable {cfg : Config} {s s' : State} {t u : Nat}

/-! ## Application threads -/

/-- What is left of `lockdep_rb_ensure_worker_started`. -/
def EnsurePc.toGo : EnsurePc → Nat
  | .loadState => 22
  | .compareExchange => 21
  | .semInit | .spin => 20
  | .storeStop => 19
  | .storePending => 18
  | .create => 17
  | .storeState => 16

/-- What is left of a call at `pc`, with its producer at `p`. -/
def remaining (p : SpscRing.ProducerPc Event) : Pc → Nat
  | .outside => 0
  | .push _ => 1
  | .post _ _ .stalled | .exchange _ _ .stalled => 14
  | .post _ _ _ => 2
  | .exchange _ _ _ => 3
  | .ring _ _ =>
      match p with
      | .write _ _ todo => 5 + todo.length
      | _ => 14
  | .enqueue _ _ => 15
  | .ensure _ _ p => p.toGo
  | .collect _ _ w => 23 + (graphWords - w)

/-- The place of a producer in its retries, counted to the load of `head`. -/
def retrying (p : SpscRing.ProducerPc Event) : Pc → Nat
  | .exchange _ _ .stalled => 4
  | .post _ _ .stalled => 3
  | .ring _ _ =>
      match p with
      | .loadTail _ => 2
      | .loadHead _ _ => 1
      | _ => 0
  | _ => 0

def toGo (s : State) (t : Nat) : Nat := remaining (s.ring t).producer (s.thr t).pc

def retry (s : State) (t : Nat) : Nat := retrying (s.ring t).producer (s.thr t).pc

/-- What a retry does. -/
inductive Loop (cfg : Config) (s : State) (t : Nat) (s' : State) : Prop
  | loadTail (h : retry s t = 2) (h' : retry s' t = 1) (hs : s'.sem = s.sem)
  | full (h : retry s t = 1) (h' : retry s' t = 4) (hs : s'.sem = s.sem)
      (hd : cfg.drops = false) (hfull : rbCapacity ≤ (waiting s t).length)
  | signalled (h : retry s t = 4) (h' : retry s' t = 2) (hs : s'.sem = s.sem)
      (hp : s.workPending = true)
  | exchange (h : retry s t = 4) (h' : retry s' t = 3) (hs : s'.sem = s.sem)
      (hp : s.workPending = false)
  | post (h : retry s t = 3) (h' : retry s' t = 2) (hs : s'.sem = s.sem + 1)

/-- A retry, with what it leaves alone. -/
structure Retry (cfg : Config) (s : State) (t : Nat) (s' : State) : Prop where
  thr : ∀ u, u ≠ t → s'.thr u = s.thr u
  ring : ∀ u, u ≠ t → s'.ring u = s.ring u
  contents : ∀ u, waiting s' u = waiting s u
  consumer : ∀ u, (s'.ring u).consumer = (s.ring u).consumer
  inside : (s'.thr t).pc ≠ .outside ∧ ∀ c e, (s'.thr t).pc ≠ .ensure c e .spin
  left : toGo s' t = toGo s t
  worker : s'.worker = s.worker
  workerState : s'.workerState = s.workerState
  created : s'.created = s.created
  loop : Loop cfg s t s'

/-- What a step of a call does. -/
inductive Effect (cfg : Config) (s : State) (t : Nat) (s' : State) : Prop
  | exits (h : s'.exited = true)
  | advances (h : toGo s' t < toGo s t)
  | spins (c : Call) (e : Event) (h : (s.thr t).pc = .ensure c e .spin)
      (hs : s.workerState ≠ .started) (h' : s' = s)
  | retries (h : Retry cfg s t s')

theorem setPc_self {pc : Pc} (h : (s.thr t).pc = pc) : s.setPc t pc = s := by
  subst h
  simp [State.setPc]

theorem setRing_self (s : State) (t : Nat) : (s.setRing t (s.ring t)).ring = s.ring := by
  simp [setRing]

/-- A step that only moves `t` on. -/
theorem Effect.setPc {pc : Pc} (h : remaining (s.ring t).producer pc < toGo s t) :
    Effect cfg s t (s.setPc t pc) :=
  .advances (by simpa [toGo, setPc_at] using h)

/-! ### What a step of a call is -/

/-- The steps of `lockdep_rb_ensure_worker_started`. -/
inductive EnsureMove (s : State) (t : Nat) (c : Call) (e : Event) : EnsurePc → State → Prop
  | started (p : EnsurePc) (hp : p = .loadState ∨ p = .spin) (hs : s.workerState = .started) :
      EnsureMove s t c e p (s.setPc t (.enqueue c e))
  | unstarted (hs : s.workerState ≠ .started) :
      EnsureMove s t c e .loadState (s.setPc t (.ensure c e .compareExchange))
  | claim (hs : s.workerState = .none) :
      EnsureMove s t c e .compareExchange
        { s.setPc t (.ensure c e .semInit) with workerState := .starting }
  | lost (hs : s.workerState ≠ .none) :
      EnsureMove s t c e .compareExchange (s.setPc t (.ensure c e .spin))
  | spin (hs : s.workerState ≠ .started) :
      EnsureMove s t c e .spin (s.setPc t (.ensure c e .spin))
  | prepare (p q : EnsurePc) (s' : State) (hfirst : p.phase ≠ .none) (hq : q.toGo < p.toGo)
      (hspin : q ≠ .spin)
      (hthr : s'.thr = (s.setPc t (.ensure c e q)).thr) : EnsureMove s t c e p s'
  | storeState : EnsureMove s t c e .storeState
      { s.setPc t (.enqueue c e) with workerState := .started }

theorem ensureRun_moves (c : Call) (e : Event) (p : EnsurePc) :
    EnsureMove s t c e p (ensureRun s t c e p) := by
  cases p with
  | loadState =>
    by_cases hs : s.workerState = .started
    · simp only [ensureRun, if_pos hs]
      exact .started _ (Or.inl rfl) hs
    · simp only [ensureRun, if_neg hs]
      exact .unstarted hs
  | compareExchange =>
    by_cases hs : s.workerState = .none
    · simp only [ensureRun, if_pos hs]
      exact .claim hs
    · simp only [ensureRun, if_neg hs]
      exact .lost hs
  | semInit => exact .prepare _ .storeStop _ (by decide) (by decide) (by decide) rfl
  | storeStop => exact .prepare _ .storePending _ (by decide) (by decide) (by decide) rfl
  | storePending => exact .prepare _ .create _ (by decide) (by decide) (by decide) rfl
  | create => exact .prepare _ .storeState _ (by decide) (by decide) (by decide) rfl
  | storeState => exact .storeState
  | spin =>
    by_cases hs : s.workerState = .started
    · simp only [ensureRun, if_pos hs]
      exact .started _ (Or.inr rfl) hs
    · simp only [ensureRun, if_neg hs]
      exact .spin hs

/-- The steps of `lockdep_rb_enqueue_edge_batch`, by the place of the producer. -/
inductive RingMove (cfg : Config) (s : State) (t : Nat) (c : Call) (e : Event) : State → Prop
  | loadTail (x : Event) (h : (s.ring t).producer = .loadTail x) :
      RingMove cfg s t c e
        (s.setRing t { s.ring t with producer := .loadHead x (s.ring t).tail })
  | room (x : Event) (tail : UInt32) (h : (s.ring t).producer = .loadHead x tail)
      (hroom : (tail - (s.ring t).head).toNat < rbCapacity) :
      RingMove cfg s t c e (s.setRing t { s.ring t with producer := .write x tail x.stores })
  | full (x : Event) (tail : UInt32) (h : (s.ring t).producer = .loadHead x tail)
      (hroom : ¬ (tail - (s.ring t).head).toNat < rbCapacity) (hd : cfg.drops = false) :
      RingMove cfg s t c e
        ((s.setRing t { s.ring t with producer := .loadTail x }).setPc t (.exchange c e .stalled))
  | drop (x : Event) (tail : UInt32) (h : (s.ring t).producer = .loadHead x tail)
      (hroom : ¬ (tail - (s.ring t).head).toNat < rbCapacity) (hd : cfg.drops = true) :
      RingMove cfg s t c e
        ((s.setRing t { s.ring t with producer := .idle }).setPc t (.exchange c e .dropped))
  | store (x : Event) (tail : UInt32) (f : Event → Event) (todo : List (Event → Event))
      (h : (s.ring t).producer = .write x tail (f :: todo)) (cells : Nat → Event) :
      RingMove cfg s t c e
        (s.setRing t { s.ring t with cells := cells, producer := .write x tail todo })
  | publish (x : Event) (tail : UInt32) (h : (s.ring t).producer = .write x tail [])
      (r : Ring) : RingMove cfg s t c e ((s.setRing t r).setPc t (.exchange c e .published))

theorem ringRun_moves {c : Call} {e : Event} (hs : ringRun cfg s t c e = some s') :
    RingMove cfg s t c e s' := by
  obtain ⟨r, hr, hs⟩ := Option.map_eq_some_iff.mp hs
  unfold SpscRing.step at hr
  cases hpc : (s.ring t).producer with
  | idle => simp [hpc] at hr
  | loadTail x =>
    simp only [hpc, Option.some.injEq] at hr hs
    subst hr hs
    exact .loadTail x hpc
  | loadHead x tail =>
    have hcap : (ringParams cfg).capacity = rbCapacity := rfl
    have hdrops : (ringParams cfg).drops = cfg.drops := rfl
    simp only [hpc, hcap, hdrops] at hr hs
    by_cases hroom : (tail - (s.ring t).head).toNat < rbCapacity
    · rw [if_pos hroom, Option.some.injEq] at hr
      rw [if_pos hroom] at hs
      subst hr hs
      exact .room x tail hpc hroom
    · rw [if_neg hroom] at hr hs
      cases hd : cfg.drops with
      | true =>
        simp only [hd, if_true, Option.some.injEq] at hr hs
        subst hr hs
        exact .drop x tail hpc hroom hd
      | false =>
        simp only [hd, Bool.false_eq_true, if_false, Option.some.injEq] at hr hs
        subst hr hs
        exact .full x tail hpc hroom hd
  | write x tail todo =>
    cases todo with
    | nil =>
      simp only [hpc] at hs
      subst hs
      exact .publish x tail hpc r
    | cons f todo =>
      simp only [hpc, Option.some.injEq] at hr hs
      subst hr hs
      exact .store x tail f todo hpc _

/-- The steps of a call. -/
inductive RunStep (cfg : Config) (s : State) (t : Nat) : State → Prop
  | load (c : Call) (bits bits' : WordSet) (w : Nat) (h : (s.thr t).pc = .collect c bits w)
      (hw : w < graphWords) : RunStep cfg s t (s.setPc t (.collect c bits' (w + 1)))
  | unknown (c : Call) (bits : WordSet) (e : Event) (w : Nat)
      (h : (s.thr t).pc = .collect c bits w) :
      RunStep cfg s t (s.setPc t (.ensure c e .loadState))
  | known (c : Call) (bits : WordSet) (w : Nat) (h : (s.thr t).pc = .collect c bits w) :
      RunStep cfg s t (s.setPc t (.push c))
  | ensure (c : Call) (e : Event) (p : EnsurePc) (s' : State) (h : (s.thr t).pc = .ensure c e p)
      (hm : EnsureMove s t c e p s') : RunStep cfg s t s'
  | enqueue (c : Call) (e : Event) (h : (s.thr t).pc = .enqueue c e) :
      RunStep cfg s t
        ((s.setRing t { s.ring t with producer := .loadTail e }).setPc t (.ring c e))
  | ring (c : Call) (e : Event) (s' : State) (h : (s.thr t).pc = .ring c e)
      (hm : RingMove cfg s t c e s') : RunStep cfg s t s'
  | signalled (c : Call) (e : Event) (why : Why) (h : (s.thr t).pc = .exchange c e why)
      (hp : s.workPending = true) : RunStep cfg s t (s.setPc t (afterSignal c e why))
  | exchange (c : Call) (e : Event) (why : Why) (h : (s.thr t).pc = .exchange c e why)
      (hp : s.workPending = false) :
      RunStep cfg s t { s.setPc t (.post c e why) with workPending := true }
  | post (c : Call) (e : Event) (why : Why) (h : (s.thr t).pc = .post c e why) :
      RunStep cfg s t { s.setPc t (afterSignal c e why) with sem := s.sem + 1 }
  | push (c : Call) (ts : ThreadState) (op : Op) (h : (s.thr t).pc = .push c) :
      RunStep cfg s t (s.complete t ts op)
  | overflow (c : Call) (h : (s.thr t).pc = .push c) : RunStep cfg s t { s with exited := true }

/-- **Step inversion.** -/
theorem threadRun_steps (h : threadRun cfg s t = some s') : RunStep cfg s t s' := by
  cases hpc : (s.thr t).pc with
  | outside => simp [threadRun, hpc] at h
  | collect c bits w =>
    simp only [threadRun, hpc] at h
    split at h
    · rename_i hw
      cases h
      exact .load c bits _ w hpc hw
    · split at h <;> cases h
      · exact .unknown c bits _ w hpc
      · exact .known c bits w hpc
  | ensure c e p =>
    simp only [threadRun, hpc, Option.some.injEq] at h
    subst h
    exact .ensure c e p _ hpc (ensureRun_moves c e p)
  | enqueue c e =>
    simp only [threadRun, hpc] at h
    obtain ⟨r, hr, rfl⟩ := Option.map_eq_some_iff.mp h
    cases hp : (s.ring t).producer with
    | idle =>
      simp only [SpscRing.step, hp, Option.some.injEq] at hr
      subst hr
      exact .enqueue c e hpc
    | loadTail x => simp [SpscRing.step, hp] at hr
    | loadHead x tail => simp [SpscRing.step, hp] at hr
    | write x tail todo => simp [SpscRing.step, hp] at hr
  | ring c e =>
    simp only [threadRun, hpc] at h
    exact .ring c e s' hpc (ringRun_moves h)
  | exchange c e why =>
    simp only [threadRun, hpc] at h
    split at h
    · rename_i hp
      cases h
      exact .signalled c e why hpc hp
    · rename_i hp
      cases h
      exact .exchange c e why hpc (by simpa using hp)
  | post c e why =>
    simp only [threadRun, hpc, Option.some.injEq] at h
    subst h
    exact .post c e why hpc
  | push c =>
    simp only [threadRun, hpc] at h
    split at h <;> cases h
    · exact .overflow c hpc
    · exact .push c _ _ hpc

/-! ### What a step of a call does -/

theorem ensure_effect {c : Call} {e : Event} {p : EnsurePc} (h : (s.thr t).pc = .ensure c e p)
    (hm : EnsureMove s t c e p s') : Effect cfg s t s' := by
  have hgo : toGo s t = p.toGo := by simp [toGo, h, remaining]
  cases hm with
  | started p hp hs =>
    refine .setPc ?_
    rw [hgo]
    rcases hp with rfl | rfl <;> simp [remaining, EnsurePc.toGo]
  | unstarted hs => exact .setPc (by simp [hgo, remaining, EnsurePc.toGo])
  | lost hs => exact .setPc (by simp [hgo, remaining, EnsurePc.toGo])
  | spin hs => exact .spins c e h hs (setPc_self h)
  | claim hs =>
    refine .advances ?_
    rw [hgo]
    simp [toGo, setPc_at, remaining, EnsurePc.toGo]
  | prepare _ q _ hfirst hq hspin hthr =>
    refine .advances ?_
    rw [hgo, toGo, hthr, setPc_at]
    exact hq
  | storeState =>
    refine .advances ?_
    rw [hgo]
    simp [toGo, setPc_at, remaining, EnsurePc.toGo]

theorem stores_length (e : Event) : e.stores.length = 7 := rfl

/-- A retry in the ring of `t`. -/
theorem Retry.of_ring (r : Ring) (pc : Pc) (hgo : remaining r.producer pc = toGo s t)
    (hu : Unmoved (s.ring t) r) (hc : r.consumer = (s.ring t).consumer)
    (hin : pc ≠ .outside ∧ ∀ c e, pc ≠ .ensure c e .spin)
    (hs' : s'.thr = (s.setPc t pc).thr) (hr' : s'.ring = (s.setRing t r).ring)
    (hw : s'.worker = s.worker) (hst : s'.workerState = s.workerState)
    (hcr : s'.created = s.created)
    (hloop : retry s' t = retrying r.producer pc → Loop cfg s t s') : Retry cfg s t s' where
  thr u hu := by
    rw [hs']
    simp [State.setPc, hu]
  ring u hu := by
    rw [hr', setRing_ring, if_neg hu]
  contents u := (waiting_of_ring (congrFun hr' u)).trans (hu.waiting u)
  consumer u := by
    rw [hr']
    exact setRing_keeps s t u r SpscRing.State.consumer hc
  inside := by
    rw [hs', setPc_at]
    exact hin
  left := by
    rw [toGo, hs', hr', setPc_at, setRing_ring, if_pos rfl]
    exact hgo
  worker := hw
  workerState := hst
  created := hcr
  loop := hloop (by rw [retry, hs', hr', setPc_at, setRing_ring, if_pos rfl])

theorem ring_effect {c : Call} {e : Event} (R : SpscRing.RingInv (ringParams cfg) (s.ring t))
    (h : (s.thr t).pc = .ring c e) (hm : RingMove cfg s t c e s') : Effect cfg s t s' := by
  have hin : Pc.ring c e ≠ .outside ∧ ∀ c' e', Pc.ring c e ≠ .ensure c' e' .spin := by simp
  cases hm with
  | loadTail x hp =>
    refine .retries (.of_ring { s.ring t with producer := .loadHead x (s.ring t).tail } (.ring c e)
      (by simp [toGo, h, hp, remaining]) ⟨rfl, rfl⟩ rfl hin
      (congrArg State.thr (setPc_self h)).symm rfl rfl rfl rfl fun hr => ?_)
    exact .loadTail (by simp [retry, h, hp, retrying]) hr rfl
  | room x tail hp hroom =>
    refine .advances ?_
    simp [toGo, h, hp, remaining, setRing_ring, stores_length]
  | full x tail hp hroom hd =>
    have hcount := R.count (ringParams_lawful cfg)
    have hP := R.producer
    simp only [SpscRing.ProducerOk, hp] at hP
    rw [hP, hcount] at hroom
    refine .retries (.of_ring { s.ring t with producer := .loadTail x } (.exchange c e .stalled)
      (by simp [toGo, h, hp, remaining]) ⟨rfl, rfl⟩ rfl (by simp) rfl rfl rfl rfl rfl fun hr => ?_)
    refine .full (by simp [retry, h, hp, retrying]) hr rfl hd ?_
    rw [waiting, SpscRing.contents, List.length_drop]
    omega
  | drop x tail hp hroom hd =>
    refine .advances ?_
    simp [toGo, h, hp, remaining, setPc_at]
  | store x tail f todo hp cells =>
    refine .advances ?_
    simp [toGo, h, hp, remaining, setRing_ring]
  | publish x tail hp r =>
    refine .advances ?_
    simp [toGo, h, hp, remaining, setPc_at]

/-! ### The signal -/

/-- A stalled producer starts over with the load of `tail`. -/
def Stalled (s : State) (t : Nat) : Prop :=
  ∀ c e, (s.thr t).pc = .exchange c e .stalled ∨ (s.thr t).pc = .post c e .stalled →
    ∃ x, (s.ring t).producer = .loadTail x

theorem Stalled.of_pc {pc : Pc} (hpc : (s'.thr t).pc = pc)
    (h : ∀ c e, pc ≠ .exchange c e .stalled ∧ pc ≠ .post c e .stalled) : Stalled s' t := by
  intro c e hp
  rw [hpc] at hp
  exact absurd hp (not_or.mpr (h c e))

theorem Stalled.of_set {s'' : State} {pc : Pc} (hthr : s'.thr = (s''.setPc t pc).thr)
    (h : ∀ c e, pc ≠ .exchange c e .stalled ∧ pc ≠ .post c e .stalled) : Stalled s' t :=
  .of_pc (by rw [hthr, setPc_at]) h

theorem signalled_effect {c : Call} {e : Event} {why : Why} (S : Stalled s t)
    (h : (s.thr t).pc = .exchange c e why) (hp : s.workPending = true) :
    Effect cfg s t (s.setPc t (afterSignal c e why)) := by
  cases why with
  | published => exact .setPc (by simp [toGo, h, remaining, afterSignal])
  | dropped => exact .setPc (by simp [toGo, h, remaining, afterSignal])
  | stalled =>
    obtain ⟨x, hx⟩ := S c e (Or.inl h)
    refine .retries (.of_ring (s.ring t) (.ring c e) (by simp [toGo, h, hx, remaining])
      ⟨rfl, rfl⟩ rfl (by simp) rfl (setRing_self s t).symm rfl rfl rfl fun h' => ?_)
    rw [hx] at h'
    exact .signalled (by simp [retry, h, retrying]) h' rfl hp

theorem exchange_effect {c : Call} {e : Event} {why : Why}
    (h : (s.thr t).pc = .exchange c e why) (hp : s.workPending = false) :
    Effect cfg s t { s.setPc t (.post c e why) with workPending := true } := by
  cases why with
  | published => exact .advances (by simp [toGo, h, remaining, setPc_at])
  | dropped => exact .advances (by simp [toGo, h, remaining, setPc_at])
  | stalled =>
    refine .retries (.of_ring (s.ring t) (.post c e .stalled) (by simp [toGo, h, remaining])
      ⟨rfl, rfl⟩ rfl (by simp) rfl (setRing_self s t).symm rfl rfl rfl fun h' => ?_)
    exact .exchange (by simp [retry, h, retrying]) h' rfl hp

theorem post_effect {c : Call} {e : Event} {why : Why} (S : Stalled s t)
    (h : (s.thr t).pc = .post c e why) :
    Effect cfg s t { s.setPc t (afterSignal c e why) with sem := s.sem + 1 } := by
  cases why with
  | published => exact .advances (by simp [toGo, h, remaining, setPc_at, afterSignal])
  | dropped => exact .advances (by simp [toGo, h, remaining, setPc_at, afterSignal])
  | stalled =>
    obtain ⟨x, hx⟩ := S c e (Or.inr h)
    refine .retries (.of_ring (s.ring t) (.ring c e) (by simp [toGo, h, hx, remaining])
      ⟨rfl, rfl⟩ rfl (by simp) rfl (setRing_self s t).symm rfl rfl rfl fun h' => ?_)
    rw [hx] at h'
    exact .post (by simp [retry, h, retrying]) h' rfl

/-- **What a step of a call does.** -/
theorem run_effect (R : SpscRing.RingInv (ringParams cfg) (s.ring t)) (S : Stalled s t)
    (hs : threadRun cfg s t = some s') : Effect cfg s t s' := by
  cases threadRun_steps hs with
  | load c bits bits' w h hw =>
    refine .setPc ?_
    simp only [toGo, h, remaining]
    omega
  | unknown c bits e w h =>
    refine .setPc ?_
    simp only [toGo, h, remaining, EnsurePc.toGo]
    omega
  | known c bits w h =>
    refine .setPc ?_
    simp only [toGo, h, remaining]
    omega
  | ensure c e p _ h hm => exact ensure_effect h hm
  | enqueue c e h => exact .advances (by simp [toGo, h, remaining, setPc_at, setRing_ring])
  | ring c e _ h hm => exact ring_effect R h hm
  | signalled c e why h hp => exact signalled_effect S h hp
  | exchange c e why h hp => exact exchange_effect h hp
  | post c e why h => exact post_effect S h
  | push c ts op h => exact .advances (by simp [toGo, h, remaining, complete_pc])
  | overflow c h => exact .exits rfl

/-! ### Stalled producers -/

theorem stalled_run (S : Stalled s t) (hs : threadRun cfg s t = some s') : Stalled s' t := by
  cases threadRun_steps hs with
  | load c bits bits' w h hw => exact .of_set rfl (by simp)
  | unknown c bits e w h => exact .of_set rfl (by simp)
  | known c bits w h => exact .of_set rfl (by simp)
  | ensure c e p _ h hm =>
    cases hm with
    | started p hp hs => exact .of_set rfl (by simp)
    | unstarted hs => exact .of_set rfl (by simp)
    | claim hs => exact .of_set rfl (by simp)
    | lost hs => exact .of_set rfl (by simp)
    | spin hs => exact .of_set rfl (by simp)
    | prepare _ q _ hfirst hq hspin hthr => exact .of_set hthr (by simp)
    | storeState => exact .of_set rfl (by simp)
  | enqueue c e h => exact .of_set rfl (by simp)
  | ring c e _ h hm =>
    cases hm with
    | loadTail x hp => exact .of_pc h (by simp)
    | room x tail hp hroom => exact .of_pc h (by simp)
    | full x tail hp hroom hd => exact fun c' e' _ => ⟨x, by simp [setRing_ring]⟩
    | drop x tail hp hroom hd => exact .of_set rfl (by simp)
    | store x tail f todo hp cells => exact .of_pc h (by simp)
    | publish x tail hp r => exact .of_set rfl (by simp)
  | signalled c e why h hp => exact .of_set rfl (by cases why <;> simp [afterSignal])
  | exchange c e why h hp =>
    cases why with
    | published => exact .of_set rfl (by simp)
    | dropped => exact .of_set rfl (by simp)
    | stalled => exact fun c' e' _ => S c e (Or.inl h)
  | post c e why h => exact .of_set rfl (by cases why <;> simp [afterSignal])
  | push c ts op h => exact .of_pc (by rw [complete_pc, if_pos rfl]) (by simp)
  | overflow c h => exact .of_pc h (by simp)

/-- A step of `t` itself. -/
theorem stalled_own {mv : Move} (S : Stalled s t) (hs : threadStep cfg s t mv = some s') :
    Stalled s' t := by
  cases mv with
  | run => exact stalled_run S hs
  | register =>
    simp only [threadStep] at hs
    split at hs <;> cases hs
    exact S
  | acquire c =>
    simp only [threadStep] at hs
    split at hs
    · split at hs <;> cases hs
      · exact .of_pc (by rw [complete_pc, if_pos rfl]) (by simp)
      · exact .of_set rfl (by simp)
    · cases hs
  | release l =>
    simp only [threadStep] at hs
    split at hs <;> cases hs
    exact .of_pc (by rw [complete_pc, if_pos rfl]) (by simp)

theorem step_thread {mv : Move} (hex : s.exited = false) (ht : t < maxThreadSlots) :
    (system cfg).step s (.thread t mv) = threadStep cfg s t mv := by
  simp [system, step, hex, ht]

theorem step_worker {i : Nat} (hex : s.exited = false) :
    (system cfg).step s (.worker i) = workerStep cfg s i := by
  simp [system, step, hex]

theorem stalled {G : State → Act → Prop} (h : Runs.ReachableBy (system cfg) G s) (t : Nat) :
    Stalled s t :=
  h.invariant (P := fun s => Stalled s t) (fun _ _ hp => by simp [system, initial] at hp)
    fun s s' a hr S _ hs => by
      have hstep := (step_cases hs).2
      have hex := (step_cases hs).1
      cases hstep with
      | thread u mv hu h =>
        by_cases hut : t = u
        · subst hut
          exact stalled_own S ((step_thread hex hu).symm.trans hs)
        · intro c e hp
          rw [thr_other h hut] at hp
          rw [ring_other h hut]
          exact S c e hp
      | worker i h =>
        intro c e hp
        rw [h.life.1] at hp
        rw [producer_worker h]
        exact S c e hp
      | shutdown h => cases h <;> exact S

/-! ## The worker -/

/-- The steps at one ring. -/
def dequeuing : SpscRing.ConsumerPc Event → Nat
  | .idle => 3
  | .loadTail _ => 2
  | .copy _ => 1
  | .storeHead _ _ => 0

/-- The steps after a drain; a drain that found something is repeated. -/
def passesLeft : Bool → Bool → Nat
  | true, false => 131
  | false, false => 649
  | false, true => 1166
  | true, true => 1167

/-- The steps to `sem_wait` at `pc`, with the consumers at `p`, when the rings are found empty. -/
def stepsToSleep (p : Nat → SpscRing.ConsumerPc Event) : WorkerPc → Nat
  | .drain second t b => passesLeft second b.madeProgress + 2 +
      b.toLocks.length * (maxLockSlots + 2) + (4 * (maxThreadSlots - t) + dequeuing (p t))
  | .target second b rest =>
      passesLeft second b.madeProgress + 1 + rest.length * (maxLockSlots + 2)
  | .edges second b _ todo rest =>
      passesLeft second b.madeProgress + 2 + rest.length * (maxLockSlots + 2) + todo.length
  | .storeIdle => 649
  | .storeBusy => 1167
  | .loadStop => 131
  | .scan t => 1 + (maxThreadSlots - t)
  | .semWait | .exited => 0

def toSleep (s : State) (i : Nat) : Nat :=
  stepsToSleep (fun t => (s.ring t).consumer) (s.worker i)

theorem dequeuing_le (p : SpscRing.ConsumerPc Event) : dequeuing p ≤ 3 := by
  cases p <;> simp [dequeuing]

/-- A drain from the first ring on. -/
theorem stepsToSleep_drain (p : Nat → SpscRing.ConsumerPc Event) (second : Bool) :
    stepsToSleep p (.drain second 0 .empty) ≤ passesLeft second false + 517 := by
  have h := dequeuing_le (p 0)
  simp only [stepsToSleep, Batch.empty, maxThreadSlots, List.length_nil]
  omega

theorem edgeTodo_length (g : RbGraph) (n v : Nat) (bits : WordSet) :
    (g.edgeTodo n v bits).length ≤ maxLockSlots := by
  refine (List.length_filter_le _ _).trans ((List.length_filter_le _ _).trans ?_)
  rw [List.length_range]
  decide

/-- What a step of worker `i` does. -/
inductive WorkerEffect (s : State) (i : Nat) (s' : State) : Prop
  | pops (t : Nat) (ht : t < maxThreadSlots) (hlt : (waiting s' t).length < (waiting s t).length)
      (hother : ∀ u, u ≠ t → waiting s' u = waiting s u)
  | wakes (h : s.worker i = .semWait) (hsem : s.sem ≠ 0)
      (h' : s' = { s.setWorker i (.drain false 0 .empty) with sem := s.sem - 1 })
  | walks (hw : ∀ u, waiting s' u = waiting s u) (hs : s'.sem = s.sem)
      (hlt : toSleep s' i < toSleep s i)
      (hp : ∀ u, u < maxThreadSlots → waiting s u ≠ [] → passed (s'.worker i) u →
        passed (s.worker i) u)

/-- A step that changes the place of the worker only. -/
theorem WorkerEffect.setWorker {i : Nat} {pc : WorkerPc} (hthr : s'.worker i = pc)
    (hr : s'.ring = s.ring) (hs : s'.sem = s.sem)
    (hlt : stepsToSleep (fun t => (s.ring t).consumer) pc < toSleep s i)
    (hp : ∀ u, u < maxThreadSlots → passed pc u → passed (s.worker i) u) :
    WorkerEffect s i s' := by
  refine .walks (fun u => waiting_of_ring (congrFun hr u)) hs ?_ fun u hu _ hpass => ?_
  · rw [toSleep, hthr, hr]
    exact hlt
  · rw [hthr] at hpass
    exact hp u hu hpass

/-- A step at one ring that neither takes an event nor leaves the ring. -/
theorem WorkerEffect.read {i : Nat} {second : Bool} {b : Batch} {r : Ring}
    (h : s.worker i = .drain second t b) (hu : Unmoved (s.ring t) r)
    (hlt : dequeuing r.consumer < dequeuing (s.ring t).consumer) :
    WorkerEffect s i (s.setRing t r) := by
  refine .walks hu.waiting rfl ?_ fun u _ _ hp => hp
  simp only [toSleep, setRing_worker, h, stepsToSleep, setRing_ring, if_true]
  omega

theorem drain_effect {i : Nat} {second : Bool} {b : Batch}
    (R : SpscRing.RingInv (ringParams cfg) (s.ring t))
    (h : s.worker i = .drain second t b) (ht : t < maxThreadSlots)
    (hs : drainRun cfg s i second t b = some s') : WorkerEffect s i s' := by
  unfold drainRun at hs
  have hC := R.consumer
  cases hc : (s.ring t).consumer with
  | idle =>
    simp only [hc, SpscRing.step, Option.map_some, Option.some.injEq] at hs
    subst hs
    exact .read h ⟨rfl, rfl⟩ (by simp [dequeuing, hc])
  | loadTail head =>
    simp only [SpscRing.ConsumerOk, hc] at hC
    simp only [hc, SpscRing.step] at hs
    by_cases hempty : head = (s.ring t).tail
    · simp only [if_pos hempty, Option.map_some, Option.some.injEq] at hs
      subst hs
      have hnil : waiting s t = [] := (waiting_nil (ringParams_lawful cfg) R).mpr (hC ▸ hempty)
      have hu : Unmoved (s.ring t) { s.ring t with consumer := .idle } := ⟨rfl, rfl⟩
      refine .walks hu.waiting rfl ?_ fun u _ hne hp => ?_
      · have hd : dequeuing (s.ring t).consumer = 2 := by rw [hc]; rfl
        simp only [toSleep, setWorker_at, setWorker_ring, h, stepsToSleep]
        refine lt_of_le_of_lt (Nat.add_le_add_left (Nat.add_le_add_left (dequeuing_le _) _) _) ?_
        omega
      · rw [setWorker_at] at hp
        rw [h]
        cases second with
        | false => exact hp.elim
        | true =>
          refine ⟨hp.1, lt_of_le_of_ne (Nat.lt_succ_iff.mp hp.2) ?_⟩
          rintro rfl
          exact hne hnil
    · simp only [if_neg hempty, Option.map_some, Option.some.injEq] at hs
      subst hs
      exact .read h ⟨rfl, rfl⟩ (by simp [dequeuing, hc])
  | copy head =>
    simp only [hc, SpscRing.step, Option.map_some, Option.some.injEq] at hs
    subst hs
    exact .read h ⟨rfl, rfl⟩ (by simp [dequeuing, hc])
  | storeHead head e =>
    simp only [SpscRing.ConsumerOk, hc] at hC
    simp only [hc, SpscRing.step, Option.map_some, Option.some.injEq] at hs
    subst hs
    have hlt := (List.getElem?_eq_some_iff.mp hC.2).1
    refine .pops t ht ?_ fun u hu => ?_
    · simp only [waiting, SpscRing.contents, setWorker_ring, setRing_ring, if_true,
        List.length_drop, List.length_append, List.length_singleton]
      omega
    · simp only [waiting, setWorker_ring, setRing_ring, if_neg hu]

/-- **What a step of the worker does.** -/
theorem worker_effect {i : Nat} (R : ∀ t, SpscRing.RingInv (ringParams cfg) (s.ring t))
    (hs : workerStep cfg s i = some s') : WorkerEffect s i s' := by
  unfold workerStep at hs
  cases h : s.worker i with
  | drain second t b =>
    simp only [h] at hs
    by_cases ht : t < maxThreadSlots
    · rw [if_pos ht] at hs
      exact drain_effect (R t) h ht hs
    · rw [if_neg ht, Option.some.injEq] at hs
      subst hs
      refine .setWorker (setWorker_at _ _ _) rfl rfl ?_ fun u hu hp => ?_
      · simp only [toSleep, h, stepsToSleep]
        omega
      · rw [h]
        cases second with
        | false => exact hp.elim
        | true => exact ⟨hp, by omega⟩
  | target second b rest =>
    cases rest with
    | nil =>
      simp only [h, Option.some.injEq] at hs
      subst hs
      have hd := stepsToSleep_drain (fun t => (s.ring t).consumer) false
      refine .setWorker (setWorker_at _ _ _) rfl rfl ?_ fun u hu hp => ?_
      · cases second <;> cases hb : b.madeProgress <;>
          simp only [toSleep, h, hb, stepsToSleep, afterDrain, passesLeft] at hd ⊢ <;> omega
      · rw [h]
        cases second <;> cases hb : b.madeProgress <;> simp only [afterDrain, hb, passed] at hp ⊢
    | cons v rest =>
      simp only [h, Option.some.injEq] at hs
      subst hs
      refine .setWorker (setWorker_at _ _ _) rfl rfl ?_ fun u hu hp => ?_
      · have hle := edgeTodo_length s.graph s.lockSlotCount v (b.fromBits v)
        simp only [toSleep, h, stepsToSleep, List.length_cons, Nat.succ_mul]
        omega
      · rw [h]
        cases second with
        | false => exact hp.elim
        | true => exact hp
  | edges second b v todo rest =>
    have hpass : ∀ u, passed (.target second b rest) u →
        passed (.edges second b v todo rest) u := by
      cases second with
      | false => exact fun _ hp => hp.elim
      | true => exact fun _ hp => hp
    cases todo with
    | nil =>
      simp only [h, Option.some.injEq] at hs
      subst hs
      refine .setWorker (setWorker_at _ _ _) rfl rfl ?_ fun u _ hp => h ▸ hpass u hp
      simp only [toSleep, h, stepsToSleep]
      omega
    | cons u todo =>
      simp only [h, Option.some.injEq] at hs
      subst hs
      refine .setWorker (setWorker_at _ _ _) rfl rfl ?_ fun u _ hp => ?_
      · simp only [toSleep, h, stepsToSleep, List.length_cons]
        omega
      · rw [h]
        cases second with
        | false => exact hp.elim
        | true => exact hp
  | storeIdle =>
    simp only [h, Option.some.injEq] at hs
    subst hs
    have hd := stepsToSleep_drain (fun t => (s.ring t).consumer) true
    refine .setWorker (setWorker_at _ _ _) rfl rfl ?_ fun u _ hp => absurd hp.2 (Nat.not_lt_zero u)
    simp only [toSleep, h, stepsToSleep, passesLeft] at hd ⊢
    omega
  | storeBusy =>
    simp only [h, Option.some.injEq] at hs
    subst hs
    have hd := stepsToSleep_drain (fun t => (s.ring t).consumer) false
    refine .setWorker (setWorker_at _ _ _) rfl rfl ?_ fun u _ hp => hp.elim
    simp only [toSleep, h, stepsToSleep, passesLeft] at hd ⊢
    omega
  | loadStop =>
    simp only [h, Option.some.injEq] at hs
    subst hs
    refine .setWorker (setWorker_at _ _ _) rfl rfl ?_ fun u _ _ => h ▸ trivial
    simp only [toSleep, h]
    split <;> simp [stepsToSleep, maxThreadSlots]
  | scan t =>
    simp only [h] at hs
    split at hs <;> cases hs
    · refine .setWorker (setWorker_at _ _ _) rfl rfl ?_ fun u _ _ => h ▸ trivial
      simp only [toSleep, h]
      split <;> simp only [stepsToSleep] <;> omega
    · exact .setWorker (setWorker_at _ _ _) rfl rfl (by simp [toSleep, h, stepsToSleep])
        fun u _ hp => hp.elim
  | semWait =>
    simp only [h] at hs
    split at hs <;> cases hs
    rename_i hsem
    exact .wakes h hsem rfl
  | exited => simp [h] at hs

end ScaleLockDep.RbBackend
