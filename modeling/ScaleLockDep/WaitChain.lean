import ScaleLockDep.HookMemory
import ScaleLockDep.Orbits

/-!
# The wait-chain walk on a fixed state

`lockdep_collect_actual_deadlock_chain` while nothing else moves, with every array
index checked.

* `reaches_iff`: the threads met are the orbit of the first owner;
* `walk_decides`: the walk terminates, stays in range, and returns 1 exactly when the
  chain of owners and waits leads back to the thread itself;
* `Hooks.run_collect`: the hooks run this walk when no other thread moves.
-/

namespace ScaleLockDep

namespace WaitChain

open Hooks Orbits

/-- How the call ends; `running` is a loop cut off before its end. -/
inductive Outcome
  | returned (found : Bool) (w : Walk)
  | outOfRange
  | running
  deriving DecidableEq, Repr

inductive Iteration
  | stop (o : Outcome)
  | again (w : Walk)
  deriving DecidableEq, Repr

/-- One iteration of `lockdep_collect_actual_deadlock_chain` with its loop condition;
`edge_count` is the length of the lock chain, and `thread_chain` has
`LOCKDEP_MAX_THREAD_SLOTS + 1` entries. -/
def iteration (owner waiting : Nat → Option Nat) (selfSlot : Nat) (w : Walk) : Iteration :=
  if w.lockChain.length < maxThreadSlots then
    if maxLockSlots ≤ w.currentLockSlot then .stop .outOfRange
    else
      match owner w.currentLockSlot with
      | none => .stop (.returned false w)
      | some u =>
          if maxThreadSlots ≤ w.lockChain.length ∨ maxThreadSlots + 1 ≤ w.threadChain.length
          then .stop .outOfRange
          else
            let w' : Walk :=
              ⟨w.threadChain ++ [u], w.lockChain ++ [w.currentLockSlot], w.currentLockSlot⟩
            if u = selfSlot then .stop (.returned true w')
            else if maxThreadSlots ≤ u then .stop .outOfRange
            else
              match waiting u with
              | none => .stop (.returned false w')
              | some l => .again { w' with currentLockSlot := l }
  else .stop (.returned false w)

def collect (owner waiting : Nat → Option Nat) (selfSlot : Nat) : Nat → Walk → Outcome
  | 0, _ => .running
  | fuel + 1, w =>
      match iteration owner waiting selfSlot w with
      | .stop o => o
      | .again w' => collect owner waiting selfSlot fuel w'

/-- `lockdep_collect_actual_deadlock_chain`. -/
def collectActualDeadlockChain (owner waiting : Nat → Option Nat) (selfSlot target : Nat) :
    Outcome :=
  collect owner waiting selfSlot (maxThreadSlots + 1) (Walk.start selfSlot target)

/-- More fuel changes nothing once the loop has ended. -/
theorem collect_mono {owner waiting : Nat → Option Nat} {selfSlot fuel fuel' : Nat} {w w' : Walk}
    {found : Bool} (hle : fuel ≤ fuel')
    (h : collect owner waiting selfSlot fuel w = .returned found w') :
    collect owner waiting selfSlot fuel' w = .returned found w' := by
  induction fuel generalizing fuel' w with
  | zero => cases h
  | succ fuel ih =>
    obtain ⟨fuel', rfl⟩ : ∃ k, fuel' = k + 1 := ⟨fuel' - 1, by omega⟩
    rw [collect] at h ⊢
    split at h
    · exact h
    · exact ih (by omega) h

/-! ## A fixed state -/

/-- The owners and waits of the registered locks and threads. -/
structure SlotTables where
  lockSlotCount : Nat
  threadSlotCount : Nat
  owner : Nat → Option Nat
  waiting : Nat → Option Nat
  lockLimit : lockSlotCount ≤ maxLockSlots
  threadLimit : threadSlotCount ≤ maxThreadSlots
  ownerRegistered : ∀ l u, owner l = some u → u < threadSlotCount
  waitingRegistered : ∀ u l, waiting u = some l → l < lockSlotCount

/-- Following owners and waits from the lock `l` leads to the thread `selfSlot`. -/
inductive SlotTables.Reaches (T : SlotTables) (selfSlot : Nat) : Nat → Prop
  | owner {l : Nat} (h : T.owner l = some selfSlot) : T.Reaches selfSlot l
  | wait {l u k : Nat} (h : T.owner l = some u) (hw : T.waiting u = some k)
      (hk : T.Reaches selfSlot k) : T.Reaches selfSlot l

/-- What the walk leaves behind when it returns 1. -/
structure SlotTables.Chain (T : SlotTables) (selfSlot target : Nat) (w : Walk) : Prop where
  edges : 1 ≤ w.lockChain.length
  limit : w.lockChain.length ≤ T.threadSlotCount
  threads : w.threadChain.length = w.lockChain.length + 1
  starts : w.threadChain.head? = some selfSlot
  ends : w.threadChain.getLast? = some selfSlot
  distinct : w.threadChain.dropLast.Nodup
  target : w.lockChain.head? = some target
  owned : ∀ i l, w.lockChain[i]? = some l →
    ∃ u, w.threadChain[i + 1]? = some u ∧ T.owner l = some u
  awaited : ∀ i l, w.lockChain[i + 1]? = some l →
    ∃ u, w.threadChain[i + 1]? = some u ∧ T.waiting u = some l

namespace SlotTables

variable {T : SlotTables} {selfSlot target l u i j n : Nat} {w : Walk}

/-! ## The locks and threads met -/

def nextLock (T : SlotTables) (l : Nat) : Option Nat := (T.owner l).bind T.waiting

def nextThread (T : SlotTables) (u : Nat) : Option Nat := (T.waiting u).bind T.owner

/-- The lock looked at in iteration `i`. -/
def lockAt (T : SlotTables) (target i : Nat) : Option Nat := follow T.nextLock i target

/-- The owner found in iteration `i`. -/
def threadAt (T : SlotTables) (target i : Nat) : Option Nat := (T.lockAt target i).bind T.owner

theorem lockAt_succ (T : SlotTables) (target i : Nat) :
    T.lockAt target (i + 1) = (T.threadAt target i).bind T.waiting := by
  simp only [lockAt, threadAt, follow, Option.bind_assoc]
  rfl

/-- The threads met are the orbit of the first owner. -/
theorem threadAt_eq : T.threadAt target i = (T.owner target).bind (follow T.nextThread i) := by
  induction i with
  | zero => cases h : T.owner target <;> simp [threadAt, lockAt, follow, h]
  | succ i ih =>
    rw [threadAt, lockAt_succ, ih, Option.bind_assoc, Option.bind_assoc]
    rfl

theorem reaches_iff : T.Reaches selfSlot target ↔ ∃ i, T.threadAt target i = some selfSlot := by
  constructor
  · intro h
    induction h with
    | @owner l h => exact ⟨0, by simp [threadAt, lockAt, follow, h]⟩
    | @wait l u k h hw _ ih =>
      obtain ⟨i, hi⟩ := ih
      refine ⟨1 + i, ?_⟩
      have hk : follow T.nextLock 1 l = some k := by simp [follow, nextLock, h, hw]
      rw [threadAt, lockAt, follow_add, hk, Option.bind_some]
      exact hi
  · rintro ⟨i, hi⟩
    induction i generalizing target with
    | zero => exact .owner (by simpa [threadAt, lockAt, follow] using hi)
    | succ i ih =>
      rw [threadAt, lockAt, Nat.add_comm, follow_add] at hi
      cases hk : follow T.nextLock 1 target with
      | none => simp [hk] at hi
      | some k =>
        rw [hk, Option.bind_some] at hi
        obtain ⟨u, hu, hw⟩ := Option.bind_eq_some_iff.mp (by simpa [follow, nextLock] using hk)
        exact .wait hu hw (ih hi)

/-- `selfSlot` is met for the first time in iteration `n`. -/
structure Met (T : SlotTables) (selfSlot target n : Nat) : Prop where
  hit : T.threadAt target n = some selfSlot
  before : ∀ i, i < n → T.threadAt target i ≠ some selfSlot

theorem exists_met (h : T.threadAt target i = some selfSlot) :
    ∃ n, n ≤ i ∧ T.Met selfSlot target n := by
  rw [threadAt_eq] at h
  obtain ⟨u, hu, h⟩ := Option.bind_eq_some_iff.mp h
  obtain ⟨n, hn, F⟩ := exists_first h
  have heq : ∀ k, T.threadAt target k = follow T.nextThread k u := fun k => by
    rw [threadAt_eq, hu, Option.bind_some]
  exact ⟨n, hn, by rw [heq]; exact F.hit, fun k hk => by rw [heq]; exact F.before k hk⟩

theorem Met.first (h : T.Met selfSlot target n) : ∃ u, T.owner target = some u ∧
    First T.nextThread u selfSlot n ∧ ∀ k, T.threadAt target k = follow T.nextThread k u := by
  have hit := h.hit
  rw [threadAt_eq] at hit
  obtain ⟨u, hu, hit⟩ := Option.bind_eq_some_iff.mp hit
  have heq : ∀ k, T.threadAt target k = follow T.nextThread k u := fun k => by
    rw [threadAt_eq, hu, Option.bind_some]
  exact ⟨u, hu, ⟨hit, fun k hk => heq k ▸ h.before k hk⟩, heq⟩

theorem Met.ne (h : T.Met selfSlot target n) (hij : i < j) (hjn : j ≤ n) :
    T.threadAt target i ≠ T.threadAt target j := by
  obtain ⟨u, -, F, heq⟩ := h.first
  rw [heq, heq]
  exact follow_ne F hij hjn

/-- **The bound of the loop is large enough.** -/
theorem Met.lt (h : T.Met selfSlot target n) : n < T.threadSlotCount := by
  obtain ⟨u, hu, F, -⟩ := h.first
  have hlt := lt_length_of_first (List.range T.threadSlotCount) F fun i z hz => by
    rw [List.mem_range]
    cases i with
    | zero =>
      cases hz
      exact T.ownerRegistered _ _ hu
    | succ i =>
      obtain ⟨v, -, hv⟩ := Option.bind_eq_some_iff.mp hz
      obtain ⟨k, -, hk⟩ := Option.bind_eq_some_iff.mp hv
      exact T.ownerRegistered _ _ hk
  simpa using hlt

/-- A chain that ends before it meets `selfSlot` never meets it. -/
theorem not_reaches_of_end (hend : T.threadAt target n = none)
    (hopen : ∀ i, i < n → T.threadAt target i ≠ some selfSlot) : ¬ T.Reaches selfSlot target := by
  rw [reaches_iff]
  rintro ⟨i, hi⟩
  obtain ⟨m, -, M⟩ := exists_met hi
  rcases Nat.lt_or_ge m n with hm | hm
  · exact hopen m hm M.hit
  · obtain ⟨u, -, F, heq⟩ := M.first
    rw [heq] at hend
    have hnone := follow_none hend hm
    rw [F.hit] at hnone
    cases hnone

theorem lockAt_lt (htarget : target < T.lockSlotCount) (h : T.lockAt target i = some l) :
    l < T.lockSlotCount := by
  cases i with
  | zero =>
    cases h
    exact htarget
  | succ i =>
    rw [lockAt_succ] at h
    obtain ⟨u, -, hu⟩ := Option.bind_eq_some_iff.mp h
    exact T.waitingRegistered _ _ hu

/-! ## The loop -/

/-- The chains hold what the iterations so far have met. -/
structure Along (T : SlotTables) (selfSlot target : Nat) (w : Walk) : Prop where
  locks : ∀ i, i < w.lockChain.length → w.lockChain[i]? = T.lockAt target i
  threads : ∀ i, i < w.lockChain.length → w.threadChain[i + 1]? = T.threadAt target i
  length : w.threadChain.length = w.lockChain.length + 1
  head : w.threadChain[0]? = some selfSlot

theorem along_start : T.Along selfSlot target (Walk.start selfSlot target) where
  locks i hi := absurd hi (Nat.not_lt_zero i)
  threads i hi := absurd hi (Nat.not_lt_zero i)
  length := rfl
  head := rfl

/-- One more edge. -/
theorem Along.push (h : T.Along selfSlot target w) (cur : Nat)
    (hcur : T.lockAt target w.lockChain.length = some w.currentLockSlot)
    (hu : T.owner w.currentLockSlot = some u) :
    T.Along selfSlot target
      ⟨w.threadChain ++ [u], w.lockChain ++ [w.currentLockSlot], cur⟩ where
  locks i hi := by
    simp only [List.length_append, List.length_singleton] at hi
    rcases Nat.lt_succ_iff_lt_or_eq.mp hi with hi | rfl
    · simp only [List.getElem?_append_left hi, h.locks i hi]
    · simp [hcur]
  threads i hi := by
    simp only [List.length_append, List.length_singleton] at hi
    rcases Nat.lt_succ_iff_lt_or_eq.mp hi with hi | rfl
    · rw [List.getElem?_append_left (by rw [h.length]; omega), h.threads i hi]
    · rw [← h.length, List.getElem?_append_right (Nat.le_refl _), Nat.sub_self, threadAt, hcur,
        Option.bind_some, hu]
      rfl
  length := by simp [h.length]
  head := by rw [List.getElem?_append_left (by rw [h.length]; omega), h.head]

/-- **A closed chain**: it stops where `selfSlot` is met for the first time. -/
theorem Along.chain (h : T.Along selfSlot target w) (hlen : w.lockChain.length = n + 1)
    (hmet : T.Met selfSlot target n) : T.Chain selfSlot target w where
  edges := by omega
  limit := by
    have := hmet.lt
    omega
  threads := h.length
  starts := by rw [List.head?_eq_getElem?, h.head]
  ends := by
    rw [List.getLast?_eq_getElem?, h.length, Nat.add_sub_cancel, hlen, h.threads n (by omega),
      hmet.hit]
  distinct := by
    rw [List.nodup_iff_getElem?_ne_getElem?]
    intro i j hij hj
    rw [List.length_dropLast, h.length, Nat.add_sub_cancel] at hj
    rw [List.getElem?_dropLast, List.getElem?_dropLast, h.length, Nat.add_sub_cancel,
      if_pos (hij.trans hj), if_pos hj]
    obtain ⟨j, rfl⟩ : ∃ k, j = k + 1 := ⟨j - 1, by omega⟩
    rw [h.threads j (by omega)]
    cases i with
    | zero =>
      rw [h.head]
      exact (hmet.before j (by omega)).symm
    | succ i =>
      rw [h.threads i (by omega)]
      exact hmet.ne (by omega) (by omega)
  target := by
    rw [List.head?_eq_getElem?, h.locks 0 (by omega)]
    rfl
  owned i l hl := by
    have hi : i < w.lockChain.length := (List.getElem?_eq_some_iff.mp hl).1
    have hlock := (h.locks i hi).symm.trans hl
    obtain ⟨u, hu⟩ : ∃ u, w.threadChain[i + 1]? = some u :=
      ⟨_, List.getElem?_eq_getElem (by rw [h.length]; omega)⟩
    refine ⟨u, hu, ?_⟩
    rw [h.threads i hi, threadAt, hlock, Option.bind_some] at hu
    exact hu
  awaited i l hl := by
    have hi : i + 1 < w.lockChain.length := (List.getElem?_eq_some_iff.mp hl).1
    have hlock := (h.locks (i + 1) hi).symm.trans hl
    rw [lockAt_succ, ← h.threads i (by omega)] at hlock
    exact Option.bind_eq_some_iff.mp hlock

/-- **The loop**, from any iteration in which `selfSlot` has not been met yet. -/
theorem collect_spec (fuel : Nat) (htarget : target < T.lockSlotCount)
    (h : T.Along selfSlot target w)
    (hcur : T.lockAt target w.lockChain.length = some w.currentLockSlot)
    (hopen : ∀ i, i < w.lockChain.length → T.threadAt target i ≠ some selfSlot)
    (hlen : w.lockChain.length ≤ maxThreadSlots)
    (hfuel : maxThreadSlots < fuel + w.lockChain.length) :
    ∃ found w', collect T.owner T.waiting selfSlot fuel w = .returned found w' ∧
      (found = true → T.Chain selfSlot target w') ∧
      (found = true ↔ T.Reaches selfSlot target) := by
  induction fuel generalizing w with
  | zero => omega
  | succ fuel ih =>
    rw [collect, iteration]
    by_cases hlt : w.lockChain.length < maxThreadSlots
    · rw [if_pos hlt]
      have hcount := T.lockLimit
      have hlimit := T.threadLimit
      have hslot := lockAt_lt htarget hcur
      rw [if_neg (by omega)]
      cases hu : T.owner w.currentLockSlot with
      | none =>
        -- the chain ends at a lock that nobody owns
        have hend : T.threadAt target w.lockChain.length = none := by
          rw [threadAt, hcur, Option.bind_some, hu]
        exact ⟨false, w, rfl, (nomatch ·),
          iff_of_false (nomatch ·) (not_reaches_of_end hend hopen)⟩
      | some u =>
        have hthread : T.threadAt target w.lockChain.length = some u := by
          rw [threadAt, hcur, Option.bind_some, hu]
        have hpush := fun cur => h.push cur hcur hu
        simp only
        rw [if_neg (by rw [h.length]; omega)]
        by_cases hself : u = selfSlot
        · subst hself
          rw [if_pos rfl]
          refine ⟨true, _, rfl, fun _ => (hpush _).chain (by simp) ⟨hthread, hopen⟩, ?_⟩
          exact iff_of_true rfl (reaches_iff.mpr ⟨_, hthread⟩)
        · have hreg := T.ownerRegistered _ _ hu
          rw [if_neg hself, if_neg (by omega)]
          have hopen' : ∀ i, i < w.lockChain.length + 1 → T.threadAt target i ≠ some selfSlot := by
            intro i hi
            rcases Nat.lt_succ_iff_lt_or_eq.mp hi with hi | rfl
            · exact hopen i hi
            · rw [hthread]
              exact fun heq => hself (Option.some.inj heq)
          have hlock := T.lockAt_succ target w.lockChain.length
          rw [hthread, Option.bind_some] at hlock
          cases hk : T.waiting u with
          | none =>
            -- the chain ends at a thread that does not wait
            rw [hk] at hlock
            have hend : T.threadAt target (w.lockChain.length + 1) = none := by
              rw [threadAt, hlock, Option.bind_none]
            exact ⟨false, _, rfl, (nomatch ·),
              iff_of_false (nomatch ·) (not_reaches_of_end hend hopen')⟩
          | some k =>
            rw [hk] at hlock
            exact ih (hpush k) (by simpa using hlock) (by simpa using hopen')
              (by simp only [List.length_append, List.length_singleton]; omega)
              (by simp only [List.length_append, List.length_singleton]; omega)
    · -- the bound is reached
      rw [if_neg hlt]
      refine ⟨false, w, rfl, (nomatch ·), iff_of_false (nomatch ·) fun hr => ?_⟩
      obtain ⟨i, hi⟩ := reaches_iff.mp hr
      obtain ⟨n, -, M⟩ := exists_met hi
      have hn := M.lt
      have := T.threadLimit
      exact hopen n (by omega) M.hit

end SlotTables

/-- **The walk decides circular wait.**  It ends in at most `LOCKDEP_MAX_THREAD_SLOTS`
iterations, in range, and returns 1 exactly when the chain leads back to the thread. -/
theorem walk_decides (T : SlotTables) (selfSlot target : Nat)
    (htarget : target < T.lockSlotCount) :
    ∃ found w, collectActualDeadlockChain T.owner T.waiting selfSlot target =
        .returned found w ∧
      (∀ fuel, maxThreadSlots < fuel →
        collect T.owner T.waiting selfSlot fuel (Walk.start selfSlot target) =
          .returned found w) ∧
      (found = true ↔ T.Reaches selfSlot target) ∧
      (found = true → T.Chain selfSlot target w) := by
  obtain ⟨found, w, hw, hchain, hiff⟩ := SlotTables.collect_spec (w := Walk.start selfSlot target)
    (maxThreadSlots + 1) htarget SlotTables.along_start rfl
    (fun i hi => absurd hi (Nat.not_lt_zero i)) (Nat.zero_le _) (Nat.lt_succ_self _)
  exact ⟨found, w, hw, fun fuel hfuel => collect_mono (Nat.succ_le_of_lt hfuel) hw, hiff, hchain⟩

/-- Threads 0, 1 and 2 wait in a circle, threads 3 and 4 for each other; every lock is
owned by the thread of its number. -/
def twoCircles : SlotTables where
  lockSlotCount := 5
  threadSlotCount := 5
  owner l := if l < 5 then some l else none
  waiting t := [1, 2, 0, 4, 3][t]?
  lockLimit := by decide
  threadLimit := by decide
  ownerRegistered l u h := by
    split at h
    · cases h
      assumption
    · cases h
  waitingRegistered u l h := by
    have hmem : l ∈ [1, 2, 0, 4, 3] := List.mem_of_getElem? h
    have hall : ∀ k, k ∈ [1, 2, 0, 4, 3] → k < 5 := by decide
    exact hall l hmem

/-- The circle of the thread itself is found, the other one is walked to the bound. -/
theorem walk_decides_twoCircles :
    (∃ w, collectActualDeadlockChain twoCircles.owner twoCircles.waiting 0 1 = .returned true w ∧
      w.threadChain = [0, 1, 2, 0] ∧ twoCircles.Chain 0 1 w) ∧
    ¬ twoCircles.Reaches 0 3 := by
  obtain ⟨found, w, hw, -, -, hchain⟩ :=
    walk_decides twoCircles 0 1 (by decide)
  obtain ⟨found', w', hw', -, hiff', -⟩ :=
    walk_decides twoCircles 0 3 (by decide)
  have h : collectActualDeadlockChain twoCircles.owner twoCircles.waiting 0 1 =
      .returned true ⟨[0, 1, 2, 0], [1, 2, 0], 0⟩ := by decide +kernel
  have h' : (match collectActualDeadlockChain twoCircles.owner twoCircles.waiting 0 3 with
      | .returned found _ => found
      | _ => true) = false := by decide +kernel
  constructor
  · obtain ⟨rfl, rfl⟩ := Outcome.returned.inj (hw.symm.trans h)
    exact ⟨_, h, rfl, hchain rfl⟩
  · rw [hw'] at h'
    intro hr
    rw [hiff'.mpr hr] at h'
    cases h'

end WaitChain

/-! ## The walk of the hooks -/

namespace Hooks

open State WaitChain

theorem setPc_setPc (s : State) (t : Nat) (pc pc' : Pc) :
    (s.setPc t pc).setPc t pc' = s.setPc t pc' := by
  simp [setPc]

variable {c : Setup} {s : State} {t m : Nat} {w w' : Walk}

theorem step_loadOwner (hx : s.exited = none) (ht : t < maxThreadSlots) :
    (system c).step (s.setPc t (.loadOwner m w)) ⟨t, .run⟩ = some (s.setPc t
      (afterWalk m .loadWaiting (w.onOwner t (s.loadOwner t w.currentLockSlot)))) := by
  rw [step_run (s := s.setPc t (.loadOwner m w)) hx ht, runStep, setPc_pc, if_pos rfl]
  exact congrArg some (setPc_setPc _ _ _ _)

theorem step_loadWaiting (hx : s.exited = none) (ht : t < maxThreadSlots) :
    (system c).step (s.setPc t (.loadWaiting m w)) ⟨t, .run⟩ = some (s.setPc t
      (afterWalk m .loadOwner (w.onWaiting (s.loadWaiting t w.lastThread)))) := by
  rw [step_run (s := s.setPc t (.loadWaiting m w)) hx ht, runStep, setPc_pc, if_pos rfl]
  exact congrArg some (setPc_setPc _ _ _ _)

/-- **The hooks run this walk** when nothing else moves. -/
theorem run_collect {fuel : Nat} {found : Bool}
    (hx : s.exited = none) (ht : t < maxThreadSlots) (hlt : w.lockChain.length < maxThreadSlots)
    (h : collect (s.loadOwner t) (s.loadWaiting t) t fuel w = .returned found w') :
    ∃ k, Runs.exec (system c) (s.setPc t (.loadOwner m w)) (List.replicate k ⟨t, .run⟩) =
      some (s.setPc t (if found then .reported m w' else .callLock m false)) := by
  induction fuel generalizing w with
  | zero => cases h
  | succ fuel ih =>
    have howner := step_loadOwner (c := c) (m := m) (w := w) hx ht
    rw [collect, iteration, if_pos hlt] at h
    by_cases hslot : maxLockSlots ≤ w.currentLockSlot
    · rw [if_pos hslot] at h
      cases h
    rw [if_neg hslot] at h
    cases hu : s.loadOwner t w.currentLockSlot with
    | none =>
      rw [hu] at h howner
      cases h
      exact ⟨1, Runs.exec_cons [] howner⟩
    | some u =>
      rw [hu] at h howner
      simp only at h
      by_cases hbig : maxThreadSlots ≤ w.lockChain.length ∨
          maxThreadSlots + 1 ≤ w.threadChain.length
      · rw [if_pos hbig] at h
        cases h
      rw [if_neg hbig] at h
      by_cases hself : u = t
      · rw [if_pos hself] at h
        cases h
        refine ⟨1, ?_⟩
        rw [List.replicate_one, Runs.exec_cons [] howner, Walk.onOwner, if_pos hself]
        rfl
      rw [if_neg hself] at h
      by_cases hthread : maxThreadSlots ≤ u
      · rw [if_pos hthread] at h
        cases h
      rw [if_neg hthread] at h
      rw [Walk.onOwner, if_neg hself] at howner
      -- the second half of the iteration
      have hwait := step_loadWaiting (c := c) (m := m) (s := s) (t := t)
        (w := ⟨w.threadChain ++ [u], w.lockChain ++ [w.currentLockSlot], w.currentLockSlot⟩) hx ht
      have hlast : Walk.lastThread ⟨w.threadChain ++ [u], w.lockChain ++ [w.currentLockSlot],
          w.currentLockSlot⟩ = u := by simp [Walk.lastThread]
      rw [hlast] at hwait
      cases hk : s.loadWaiting t u with
      | none =>
        rw [hk] at h hwait
        cases h
        refine ⟨2, ?_⟩
        rw [List.replicate_succ, Runs.exec_cons _ howner]
        exact Runs.exec_cons [] hwait
      | some k =>
        rw [hk] at h hwait
        simp only at h
        by_cases hnext : (w.lockChain ++ [w.currentLockSlot]).length < maxThreadSlots
        · obtain ⟨n, hn⟩ := ih hnext h
          refine ⟨n + 2, ?_⟩
          rw [List.replicate_succ, Runs.exec_cons _ howner, List.replicate_succ]
          refine (Runs.exec_cons _ hwait).trans ?_
          rw [Walk.onWaiting, if_pos hnext]
          exact hn
        · -- the loop condition fails
          obtain rfl : found = false := by
            cases fuel with
            | zero => cases h
            | succ fuel =>
              rw [collect, iteration, if_neg hnext] at h
              cases h
              rfl
          refine ⟨2, ?_⟩
          rw [List.replicate_succ, Runs.exec_cons _ howner]
          refine (Runs.exec_cons [] hwait).trans ?_
          rw [Walk.onWaiting, if_neg hnext]
          rfl

end Hooks

end ScaleLockDep
