import ScaleLockDep.HookWaits
import Mathlib.Data.Finset.Card
import Mathlib.Data.List.Range
import Mathlib.Dynamics.PeriodicPts.Lemmas
import Mathlib.Data.Fintype.Pigeonhole
import Mathlib.Data.Set.Finite.Lattice

/-!
# Completeness of the wait-chain walk

A circular wait of threads whose waits are visible is always seen by the thread
whose wait became visible last: its walk stands on a prefix of the cycle, or has
reported exactly the cycle.  So the cycle never gets to be blocked as a whole.

* `follows`: the invariant, for cycles of any length;
* `no_deadlock`: no reachable state has a non-empty set of threads each blocked
  in the real lock on a mutex that a thread of the set holds;
* `last_waiter_reports`: the last waiter of a cycle reports it when it runs on.

Both are for runs in which no thread unlocks a mutex it holds twice and every
wait has left its store buffer before the walk starts.  Normal mutexes on a
sequentially consistent memory give both for free.
-/

namespace ScaleLockDep.Hooks

open ThreadState State

/-! ## Circular waits -/

/-- The mutex of a nested lock call that has stored its wait and not returned. -/
def pending : Pc → Option Nat
  | .loadOwner m _ | .loadWaiting m _ | .reported m _ | .callLock m false | .blocked m false =>
      some m
  | _ => none

/-- `t` waits for `m` and every thread can see it. -/
def State.Waits (s : State) (t m : Nat) : Prop :=
  pending (s.thr t).pc = some m ∧ s.mem.waiting t = some m

/-- Distinct threads `T 0`, .., `T (n - 1)`, each waiting for a mutex that the
next one really holds. -/
structure WaitCycle (s : State) (n : Nat) (T L : Nat → Nat) : Prop where
  pos : 0 < n
  inj : ∀ i j, i < n → j < n → T i = T j → i = j
  waits : ∀ i, i < n → s.Waits (T i) (L i)
  holds : ∀ i, i < n → s.lockCount (T ((i + 1) % n)) (L i) ≠ 0

/-- The wait of `T 0` became visible last. -/
def LastWaiter (s : State) (n : Nat) (T : Nat → Nat) : Prop :=
  ∀ i, i < n → s.mem.pubAt (T i) ≤ s.mem.pubAt (T 0)

/-- The walk of `T 0` stands on a prefix of the cycle, or has reported it. -/
def Follows (n : Nat) (T L : Nat → Nat) : Pc → Prop
  | .loadOwner m w => m = L 0 ∧ ∃ i, i < n ∧
      w = ⟨(List.range (i + 1)).map T, (List.range i).map L, L i⟩
  | .loadWaiting m w => m = L 0 ∧ ∃ i, i + 1 < n ∧
      w = ⟨(List.range (i + 2)).map T, (List.range (i + 1)).map L, L i⟩
  | .reported m w => m = L 0 ∧ w.threadChain = (List.range n).map T ++ [T 0] ∧
      w.lockChain = (List.range n).map L
  | _ => False

/-- The runs for which the walk is complete. -/
def Orderly (s : State) (a : Act) : Prop := SingleUnlock s a ∧ FlushedBeforeWalk s a

theorem Follows.start (n : Nat) (T L : Nat → Nat) (hn : 0 < n) :
    Follows n T L (.loadOwner (L 0) (Walk.start (T 0) (L 0))) :=
  ⟨rfl, 0, hn, rfl⟩

/-! ## What one step does to a cycle -/

theorem lockCount_step {c : Setup} {s s' : State} {t u l : Nat} {mv : Move} (I : HoldInv c s)
    (h : Step c s t mv s') (hl : s'.lockCount u l ≠ 0) :
    s.lockCount u l ≠ 0 ∨ (u = t ∧ pending (s'.thr t).pc = none) := by
  cases h with
  | granted m pc hg hpc =>
    have := lockCount_grant (s := s.drain t) hg u l
    simp only [setPc_lockCount] at hl
    rw [this] at hl
    split at hl
    · rename_i hu
      right
      refine ⟨hu.1, ?_⟩
      rcases hpc with ⟨-, rfl⟩ | ⟨-, rfl⟩ | ⟨-, rfl⟩ | ⟨-, -, rfl⟩ | ⟨-, -, rfl⟩ <;>
        simp [setPc_pc, pending]
    · exact Or.inl hl
  | ungrant m h =>
    have hm := I.pcHeld t
    rw [h] at hm
    have hk : (s.drain t).lockCount t m ≠ 0 := I.holds hm (by simp [h, releasing])
    have := lockCount_ungrant hk u l
    simp only [setPc_lockCount, drain_lockCount] at hl this
    left
    omega
  | ends h =>
    have hl : ((s.drain t).abandon t).lockCount u l ≠ 0 := hl
    rw [abandon_lockCount] at hl
    split at hl
    · exact absurd rfl hl
    · exact Or.inl hl
  | flush w ws h => exact Or.inl hl
  | exit code h => exact Or.inl hl
  | _ => left; simpa using hl

theorem afterWalk_pending (m : Nat) (x : WalkStep) :
    pending (afterWalk m .loadWaiting x) = some m ∧ pending (afterWalk m .loadOwner x) = some m := by
  cases x <;> exact ⟨rfl, rfl⟩

theorem pending_cases {pc : Pc} {m : Nat} (h : pending pc = some m) :
    Quiet pc ∨ ∃ w, pc = .loadOwner m w ∧ w.lockChain = [] := by
  cases pc with
  | loadOwner k w =>
    obtain rfl : k = m := by simpa [pending] using h
    by_cases hw : w.lockChain = []
    · exact Or.inr ⟨w, rfl, hw⟩
    · exact Or.inl hw
  | loadWaiting k w => exact Or.inl trivial
  | reported k w => exact Or.inl trivial
  | callLock k top =>
    cases top
    · exact Or.inl trivial
    · cases h
  | blocked k top => exact Or.inl trivial
  | _ => cases h

theorem BufInv.no_owner {s : State} (B : BufInv s) {t m : Nat}
    (h : pending (s.thr t).pc = some m) : ∀ l v, .owner l v ∉ s.buf t := by
  intro l v hv
  rcases pending_cases h with hq | ⟨w, hw, hnil⟩
  · simp [B.quiet t hq] at hv
  · rcases (B.start t m w hw hnil).2 with hb | hb <;> simp [hb] at hv

/-- A visible wait was visible before, or has just become visible and the walk
is about to start. -/
theorem waits_step {c : Setup} {s s' : State} {a : Act} {u m : Nat} (W : WaitInv s) (B : BufInv s)
    (h : Step c s a.tid a.move s') (hw : s'.Waits u m) :
    (s.Waits u m ∧ s'.mem.pubAt u = s.mem.pubAt u) ∨
    (u = a.tid ∧ (s'.thr u).pc = .loadOwner m (Walk.start u m) ∧
      s'.mem.pubAt u = s.mem.clock) := by
  by_cases hu : u = a.tid
  · subst hu
    obtain ⟨hp, hm⟩ := hw
    have hq := B.quiet a.tid
    cases h with
    | publish k h =>
      right
      have hb : s.buf a.tid = [] := hq (by simp [h, Quiet])
      have hself := W.self a.tid
      rw [loadWaiting_of_nil hb, h] at hself
      simp only [setPc_pc, if_true, pending, Option.some.injEq] at hp
      subst hp
      refine ⟨rfl, by simp [setPc_pc], ?_⟩
      rw [setPc_mem] at hm ⊢
      unfold store at hm ⊢
      cases hc : c.memory with
      | sc => simp [drain, hb, Memory.applyAll, Memory.apply]
      | buffered =>
        rw [hc] at hm
        exact absurd (hself.symm.trans hm) (by simp [awaiting])
    | flush w ws hb =>
      right
      have hp' : pending (s.thr a.tid).pc = some m := hp
      obtain ⟨v, hv, hnil⟩ := (pending_cases hp').resolve_left fun hquiet => by simp [hq hquiet] at hb
      obtain ⟨rfl, hbuf | hbuf⟩ := B.start a.tid m v hv hnil
      · simp [hbuf] at hb
      · rw [hbuf] at hb
        cases hb
        refine ⟨rfl, hv, ?_⟩
        simp [popStore, Memory.apply]
    | enter k top h =>
      left
      have hb : s.buf a.tid = [] ∧ k = m := by
        cases top
        · exact ⟨hq (by simp [h, Quiet]), by simpa [setPc_pc, pending] using hp⟩
        · simp [setPc_pc, pending] at hp
      have hd : (s.drain a.tid).mem = s.mem := by simp [drain, hb.1, Memory.applyAll]
      rw [setPc_mem, hd] at hm ⊢
      refine ⟨⟨?_, hm⟩, rfl⟩
      cases top
      · simp [h, pending, hb.2]
      · simp [setPc_pc, pending] at hp
    | loadOwner k w h =>
      left
      rw [setPc_pc, if_pos rfl, (afterWalk_pending k _).1] at hp
      exact ⟨⟨by simpa [h, pending] using hp, hm⟩, rfl⟩
    | loadWaiting k w h =>
      left
      rw [setPc_pc, if_pos rfl, (afterWalk_pending k _).2] at hp
      exact ⟨⟨by simpa [h, pending] using hp, hm⟩, rfl⟩
    | exit code h => exact Or.inl ⟨⟨hp, hm⟩, rfl⟩
    | push k clear ts h hts => cases clear <;> simp [setThread_pc, pending] at hp
    | call pc h hpc =>
      rcases hpc with ⟨m, -, rfl, -⟩ | ⟨m, -, rfl, -⟩ | ⟨m, -, rfl⟩ | ⟨m, -, rfl, -⟩ <;>
        simp [setPc_pc, pending] at hp
    | granted k pc hg hpc =>
      rcases hpc with ⟨-, rfl⟩ | ⟨-, rfl⟩ | ⟨-, rfl⟩ | ⟨-, -, rfl⟩ | ⟨-, -, rfl⟩ <;>
        simp [setPc_pc, pending] at hp
    | busy k hg pc hpc =>
      rcases hpc with ⟨-, rfl⟩ | ⟨-, rfl⟩ <;> simp [setPc_pc, pending] at hp
    | fail k pc hpc =>
      rcases hpc with ⟨-, rfl⟩ | ⟨-, rfl⟩ | ⟨-, rfl⟩ | ⟨-, rfl⟩ | ⟨-, rfl⟩ <;>
        simp [setPc_pc, pending] at hp
    | _ => simp [setPc_pc, setThread_pc, pending] at hp
  · obtain ⟨hwait, hpub⟩ := W.mem_other h hu
    left
    rw [State.Waits, step_thr_other h hu, hwait] at hw
    exact ⟨hw, hpub⟩

/-- **A cycle after a step** is the cycle before it, or the thread that stepped
has just closed it. -/
theorem waitCycle_step {c : Setup} {s s' : State} {a : Act} {n : Nat} {T L : Nat → Nat}
    (I : HoldInv c s) (W : WaitInv s) (B : BufInv s) (h : Step c s a.tid a.move s')
    (C : WaitCycle s' n T L) :
    (WaitCycle s n T L ∧ ∀ i, i < n → s'.mem.pubAt (T i) = s.mem.pubAt (T i)) ∨
    ∃ i, i < n ∧ T i = a.tid ∧ (s'.thr (T i)).pc = .loadOwner (L i) (Walk.start (T i) (L i)) ∧
      s'.mem.pubAt (T i) = s.mem.clock := by
  by_cases hnew : ∃ i, i < n ∧ T i = a.tid ∧
      (s'.thr (T i)).pc = .loadOwner (L i) (Walk.start (T i) (L i)) ∧
      s'.mem.pubAt (T i) = s.mem.clock
  · exact Or.inr hnew
  · left
    have hold : ∀ i, i < n → s.Waits (T i) (L i) ∧ s'.mem.pubAt (T i) = s.mem.pubAt (T i) := by
      intro i hi
      rcases waits_step W B h (C.waits i hi) with hw | ⟨hu, hp, hc⟩
      · exact hw
      · exact absurd ⟨i, hi, hu, hp, hc⟩ hnew
    refine ⟨⟨C.pos, C.inj, fun i hi => (hold i hi).1, fun i hi => ?_⟩, fun i hi => (hold i hi).2⟩
    rcases lockCount_step I h (C.holds i hi) with hl | ⟨hu, hp⟩
    · exact hl
    · -- the new holder of a mutex is past its own wait
      have := (C.waits ((i + 1) % n) (Nat.mod_lt _ C.pos)).1
      rw [hu, hp] at this
      cases this

/-! ## The walk along a cycle -/

/-- The walk of the last waiter reads the next thread of the cycle as owner. -/
theorem WaitCycle.owner {c : Setup} {s : State} {n : Nat} {T L : Nat → Nat} (I : HoldInv c s)
    (O : OwnerInv s) (B : BufInv s) (C : WaitCycle s n T L) {i : Nat} (hi : i < n) :
    s.mem.owner (L i) = some (T ((i + 1) % n)) := by
  have hw := (C.waits ((i + 1) % n) (Nat.mod_lt _ C.pos)).1
  have hh := C.holds i hi
  generalize T ((i + 1) % n) = u at hw hh
  have hg : granted (s.thr u).pc (L i) = 0 ∧ releasing (s.thr u).pc (L i) = 0 ∧
      ¬ unsettled (s.thr u).pc (L i) := by
    revert hw
    cases (s.thr u).pc <;> simp [pending, granted, releasing, unsettled]
  have hc := I.count u (L i)
  have hmem : L i ∈ s.held u := List.count_pos_iff.mp (by omega)
  have hset := O.settled u (L i) hmem hg.2.2
  rcases ownerIn_const (s.buf u) (L i) with ⟨hr, -⟩ | ⟨x, hx, -⟩
  · exact (hr _).symm.trans hset
  · exact absurd hx (B.no_owner hw _ _)

/-- The next thread of the cycle is the first one only at the end. -/
theorem WaitCycle.next {s : State} {n : Nat} {T L : Nat → Nat} (C : WaitCycle s n T L) {i : Nat}
    (hi : i < n) : T ((i + 1) % n) = T 0 ↔ i + 1 = n := by
  constructor
  · intro h
    have := C.inj _ _ (Nat.mod_lt _ C.pos) C.pos h
    by_contra hne
    rw [Nat.mod_eq_of_lt (by omega)] at this
    omega
  · rintro rfl
    rw [Nat.mod_self]

theorem WaitCycle.length_le {s : State} {n : Nat} {T L : Nat → Nat} (W : WaitInv s)
    (C : WaitCycle s n T L) : n ≤ maxThreadSlots := by
  have hmaps : Set.MapsTo T (Finset.range n) (Finset.range maxThreadSlots) := by
    intro i hi
    have hp := (C.waits i (by simpa using hi)).1
    have : T i < maxThreadSlots := W.bounded _ fun ho => by
      rw [ho] at hp
      cases hp
    simpa using this
  have := Finset.card_le_card_of_injOn T hmaps fun i hi j hj h =>
    C.inj i j (by simpa using hi) (by simpa using hj) h
  simpa using this

/-- A load of the last waiter keeps its walk on the cycle. -/
theorem follows_loadOwner {c : Setup} {s : State} {n m : Nat} {T L : Nat → Nat} {w : Walk}
    (I : HoldInv c s) (O : OwnerInv s) (B : BufInv s) (C : WaitCycle s n T L)
    (hb : s.buf (T 0) = []) (hF : Follows n T L (.loadOwner m w)) :
    Follows n T L
      (afterWalk m .loadWaiting (w.onOwner (T 0) (s.loadOwner (T 0) w.currentLockSlot))) := by
  obtain ⟨hm, i, hi, rfl⟩ := hF
  have ho := C.owner I O B hi
  simp only [loadOwner_of_nil hb, ho, Walk.onOwner]
  by_cases hend : i + 1 = n
  · rw [if_pos ((C.next hi).mpr hend)]
    subst hend
    simp [afterWalk, Follows, hm, List.range_succ]
  · rw [if_neg fun h => hend ((C.next hi).mp h), Nat.mod_eq_of_lt (by omega)]
    refine ⟨hm, i, by omega, ?_⟩
    simp [List.range_succ]

theorem follows_loadWaiting {s : State} {n m : Nat} {T L : Nat → Nat} {w : Walk}
    (W : WaitInv s) (C : WaitCycle s n T L) (hb : s.buf (T 0) = [])
    (hF : Follows n T L (.loadWaiting m w)) :
    Follows n T L (afterWalk m .loadOwner (w.onWaiting (s.loadWaiting (T 0) w.lastThread))) := by
  obtain ⟨hm, i, hi, rfl⟩ := hF
  have hw := (C.waits (i + 1) hi).2
  have hlen := C.length_le W
  have hlast : Walk.lastThread
      ⟨(List.range (i + 2)).map T, (List.range (i + 1)).map L, L i⟩ = T (i + 1) := by
    simp [Walk.lastThread, List.range_succ]
  rw [loadWaiting_of_nil hb, hlast, hw]
  simp only [Walk.onWaiting, List.length_map, List.length_range]
  rw [if_pos (by omega)]
  exact ⟨hm, i + 1, hi, rfl⟩

/-- A step of the last waiter itself. -/
theorem follows_self {c : Setup} {s s' : State} {a : Act} {n : Nat} {T L : Nat → Nat}
    (I : HoldInv c s) (O : OwnerInv s) (W : WaitInv s) (B : BufInv s) (C : WaitCycle s n T L)
    (hg : FlushedBeforeWalk s a) (h : Step c s a.tid a.move s') (ht : T 0 = a.tid)
    (hF : Follows n T L (s.thr (T 0)).pc) : Follows n T L (s'.thr (T 0)).pc := by
  rw [ht] at hF ⊢
  cases h with
  | loadOwner m w h hmv =>
    have hb : s.buf (T 0) = [] := by
      rw [ht]
      by_cases hw : w.lockChain = []
      · exact hg m w hmv h hw
      · exact B.quiet a.tid (by simpa [h, Quiet] using hw)
    rw [h] at hF
    rw [setPc_pc, if_pos rfl, ← ht]
    exact follows_loadOwner I O B C hb hF
  | loadWaiting m w h =>
    have hb : s.buf (T 0) = [] := by
      rw [ht]
      exact B.quiet a.tid (by simp [h, Quiet])
    rw [h] at hF
    rw [setPc_pc, if_pos rfl, ← ht]
    exact follows_loadWaiting W C hb hF
  | flush w ws h => exact hF
  | exit code h => exact hF
  | granted m pc hg hpc =>
    rcases hpc with ⟨h, -⟩ | ⟨h, -⟩ | ⟨h, -⟩ | ⟨h, -, -⟩ | ⟨h, -, -⟩ <;> rw [h] at hF <;> cases hF
  | busy m hg pc hpc => rcases hpc with ⟨h, -⟩ | ⟨h, -⟩ <;> rw [h] at hF <;> cases hF
  | fail m pc hpc =>
    rcases hpc with ⟨h, -⟩ | ⟨h, -⟩ | ⟨h, -⟩ | ⟨h, -⟩ | ⟨h, -⟩ <;> rw [h] at hF <;> cases hF
  | call pc h hpc => rw [h] at hF; cases hF
  | push m clear ts h hts => rw [h] at hF; cases hF
  | ends h => rw [h] at hF; cases hF
  | _ =>
    rename_i h
    rw [h] at hF
    cases hF

/-! ## The invariant -/

/-- **The last waiter of a circular wait is walking along it or has reported it.** -/
theorem follows {c : Setup} {s : State} (h : Runs.ReachableBy (system c) Orderly s) {n : Nat}
    {T L : Nat → Nat} (C : WaitCycle s n T L) (hlast : LastWaiter s n T) :
    Follows n T L (s.thr (T 0)).pc := by
  revert n T L
  refine h.invariant (P := fun s => ∀ {n : Nat} {T L : Nat → Nat}, WaitCycle s n T L →
    LastWaiter s n T → Follows n T L (s.thr (T 0)).pc) ?_ ?_
  · intro n T L C
    have := (C.waits 0 C.pos).1
    cases this
  · intro s s' a hr ih hg hs n T L C hlast
    have I : HoldInv c s := holdInv hr
    have O : OwnerInv s := ownerInv (hr.mono fun _ _ h => h.1)
    have W : WaitInv s := waitInv hr
    have B : BufInv s := bufInv (hr.mono fun _ _ h => h.2)
    have hstep := (step_cases hs).2.2
    rcases waitCycle_step I W B hstep C with ⟨C₀, hpub⟩ | ⟨i, hi, hti, hp, hpub⟩
    · have hF : Follows n T L (s.thr (T 0)).pc := by
        refine ih C₀ fun i hi => ?_
        rw [← hpub i hi, ← hpub 0 C.pos]
        exact hlast i hi
      by_cases ht : T 0 = a.tid
      · exact follows_self I O W B C₀ hg.2 hstep ht hF
      · rwa [step_thr_other hstep ht]
    · -- the newest wait is that of the thread that stepped
      have hzero : i = 0 := by
        by_contra hne
        have hnt : T 0 ≠ a.tid := fun h0 => hne (C.inj _ _ hi C.pos (hti.trans h0.symm))
        have h1 := hlast i hi
        rw [hpub, (W.mem_other hstep hnt).2] at h1
        exact absurd (W.pubAt (T 0)) (by omega)
      subst hzero
      rw [hp]
      exact Follows.start n T L C.pos

/-! ## No deadlock goes unreported -/

theorem WaitCycle.rotate {s : State} {n : Nat} {T L : Nat → Nat} (C : WaitCycle s n T L)
    (k : Nat) : WaitCycle s n (fun i => T ((i + k) % n)) (fun i => L ((i + k) % n)) where
  pos := C.pos
  inj i j hi hj h := by
    have := C.inj _ _ (Nat.mod_lt _ C.pos) (Nat.mod_lt _ C.pos) h
    have : i % n = j % n := Nat.ModEq.add_right_cancel' k this
    rwa [Nat.mod_eq_of_lt hi, Nat.mod_eq_of_lt hj] at this
  waits i _ := C.waits _ (Nat.mod_lt _ C.pos)
  holds i _ := by
    have := C.holds ((i + k) % n) (Nat.mod_lt _ C.pos)
    have he : ((i + 1) % n + k) % n = ((i + k) % n + 1) % n := by
      rw [Nat.mod_add_mod, Nat.mod_add_mod]
      congr 1
      omega
    simpa only [he] using this

/-- Some rotation of a cycle starts at its last waiter. -/
theorem WaitCycle.exists_last {s : State} {n : Nat} {T L : Nat → Nat} (C : WaitCycle s n T L) :
    ∃ k, LastWaiter s n (fun i => T ((i + k) % n)) := by
  obtain ⟨k, hk, hmax⟩ := Finset.exists_max_image (Finset.range n) (fun i => s.mem.pubAt (T i))
    ⟨0, by simpa using C.pos⟩
  refine ⟨k, fun i _ => ?_⟩
  have := hmax ((i + k) % n) (by simpa using Nat.mod_lt _ C.pos)
  simpa [Nat.mod_eq_of_lt (by simpa using hk : k < n)] using this

/-- Every thread of `S` is inside the real lock, on a mutex that a thread of `S`
really holds. -/
def Deadlocked (s : State) (S : Set Nat) : Prop :=
  S.Nonempty ∧ ∀ t, t ∈ S → ∃ m top, (s.thr t).pc = .blocked m top ∧
    ∃ u, u ∈ S ∧ s.lockCount u m ≠ 0

/-- A thread blocked at top level holds no lock. -/
theorem HoldInv.holder_nested {c : Setup} {s : State} (I : HoldInv c s) {t m l : Nat} {top : Bool}
    (hp : (s.thr t).pc = .blocked m top) (hl : s.lockCount t l ≠ 0) : top = false := by
  cases top with
  | false => rfl
  | true =>
    have hh : s.held t = [] := by
      have := I.pcHeld t
      rwa [hp] at this
    have hc := I.count t l
    rw [hp, hh] at hc
    simp only [List.count_nil, granted, releasing] at hc
    omega

/-- **A deadlocked set contains a cycle** of nested waits, all blocked. -/
theorem Deadlocked.cycle {c : Setup} {s : State} {S : Set Nat} (I : HoldInv c s) (W : WaitInv s)
    (B : BufInv s) (hD : Deadlocked s S) : ∃ n T L, WaitCycle s n T L ∧
      ∀ i, i < n → (s.thr (T i)).pc = .blocked (L i) false := by
  obtain ⟨⟨t₀, ht₀⟩, hD⟩ := hD
  choose! lock top hp next hnext hholds using hD
  let f : S → S := fun t => ⟨next t, hnext t t.2⟩
  -- the threads of the set are finitely many, so following the holders comes back
  have hfin : Finite S := by
    refine Set.Finite.to_subtype ((Set.finite_lt_nat maxThreadSlots).subset fun t ht => ?_)
    exact W.bounded t (by simp [hp t ht])
  obtain ⟨i, j, hne, hij⟩ := Finite.exists_ne_map_eq_of_infinite fun i : Nat => f^[i] ⟨t₀, ht₀⟩
  wlog hlt : i < j generalizing i j
  · exact this j i hne.symm hij.symm (by omega)
  let x : S := f^[i] ⟨t₀, ht₀⟩
  have hper : Function.IsPeriodicPt f (j - i) x := by
    change f^[j - i] (f^[i] _) = f^[i] _
    rw [← Function.iterate_add_apply, Nat.sub_add_cancel hlt.le]
    exact hij.symm
  have hpos : 0 < Function.minimalPeriod f x := hper.minimalPeriod_pos (by omega)
  have hstep : ∀ i, (f^[i + 1] x : Nat) = next (f^[i] x) := fun i => by
    rw [Function.iterate_succ_apply']
  have hcyc : ∀ i, (f^[(i + 1) % Function.minimalPeriod f x] x : Nat) = next (f^[i] x) := fun i => by
    rw [Function.iterate_mod_minimalPeriod_eq, hstep]
  have hnested : ∀ i, top (f^[i] x) = false := fun i => by
    -- every thread of the orbit holds what its predecessor waits for
    have hpred : ∃ k, f^[i] x = f (f^[k] x) := by
      refine ⟨i + Function.minimalPeriod f x - 1, ?_⟩
      have he : (i + Function.minimalPeriod f x - 1).succ = i + Function.minimalPeriod f x := by
        omega
      rw [← Function.iterate_succ_apply' f, he, Function.iterate_add_minimalPeriod_eq]
    obtain ⟨k, hk⟩ := hpred
    have hl := hholds _ (f^[k] x).2
    refine I.holder_nested (hp _ (f^[i] x).2) (l := lock (f^[k] x)) ?_
    rw [hk]
    exact hl
  refine ⟨Function.minimalPeriod f x, fun i => f^[i] x, fun i => lock (f^[i] x),
    ⟨hpos, ?_, ?_, ?_⟩, ?_⟩
  · intro i j hi hj h
    exact Function.iterate_injOn_Iio_minimalPeriod hi hj (Subtype.ext h)
  · intro i _
    have hpc := hp _ (f^[i] x).2
    rw [hnested i] at hpc
    refine ⟨by rw [hpc]; rfl, ?_⟩
    have := W.self (f^[i] x)
    rwa [loadWaiting_of_nil (B.quiet _ (by rw [hpc]; trivial)), hpc] at this
  · intro i _
    simp only [hcyc]
    exact hholds _ (f^[i] x).2
  · intro i _
    rw [hp _ (f^[i] x).2, hnested i]

/-- **No reachable state is deadlocked.** -/
theorem no_deadlock {c : Setup} {s : State} (h : Runs.ReachableBy (system c) Orderly s)
    (S : Set Nat) : ¬ Deadlocked s S := by
  intro hD
  obtain ⟨n, T, L, C, hb⟩ := hD.cycle (holdInv h) (waitInv h) (bufInv (h.mono fun _ _ h => h.2))
  obtain ⟨k, hk⟩ := C.exists_last
  have hF := follows h (C.rotate k) hk
  simp only [Nat.zero_add, hb _ (Nat.mod_lt _ C.pos)] at hF
  cases hF

/-! ## The last waiter reports -/

/-- A step of a walk that keeps its wait changes no cycle. -/
theorem WaitCycle.setPc {s : State} {n t : Nat} {T L : Nat → Nat} {pc : Pc}
    (C : WaitCycle s n T L) (hpc : pending pc = pending (s.thr t).pc) :
    WaitCycle (s.setPc t pc) n T L where
  pos := C.pos
  inj := C.inj
  waits i hi := by
    refine ⟨?_, (C.waits i hi).2⟩
    rw [setPc_pc]
    split
    · rename_i ht
      rw [hpc, ← ht]
      exact (C.waits i hi).1
    · exact (C.waits i hi).1
  holds := C.holds

/-- The loads that the walk of the last waiter still makes. -/
def remaining (n : Nat) : Pc → Nat
  | .loadOwner _ w => 2 * (n - w.lockChain.length)
  | .loadWaiting _ w => 2 * (n - w.lockChain.length) + 1
  | _ => 0

theorem remaining_onOwner {n : Nat} {w : Walk} (m self : Nat) (v : Option Nat)
    (hw : w.lockChain.length < n) :
    remaining n (afterWalk m .loadWaiting (w.onOwner self v)) < remaining n (.loadOwner m w) := by
  cases v with
  | none => simp only [Walk.onOwner, afterWalk, remaining]; omega
  | some u =>
    simp only [Walk.onOwner]
    split
    · simp only [afterWalk, remaining]; omega
    · simp only [afterWalk, remaining, List.length_append, List.length_singleton]; omega

theorem remaining_onWaiting {n : Nat} {w : Walk} (m m' : Nat) (v : Option Nat) :
    remaining n (afterWalk m .loadOwner (w.onWaiting v)) < remaining n (.loadWaiting m' w) := by
  cases v with
  | none => simp only [Walk.onWaiting, afterWalk, remaining]; omega
  | some u =>
    simp only [Walk.onWaiting]
    split <;> simp only [afterWalk, remaining] <;> omega

/-- **The last waiter reports**: with its store buffer empty, running on alone
it comes to report exactly the cycle. -/
theorem last_waiter_reports {c : Setup} {s : State}
    (h : Runs.ReachableBy (system c) Orderly s) {n : Nat} {T L : Nat → Nat}
    (C : WaitCycle s n T L) (hlast : LastWaiter s n T) (hx : s.exited = none)
    (hb : s.buf (T 0) = []) : ∃ k s' w,
      Runs.exec (system c) s (List.replicate k ⟨T 0, .run⟩) = some s' ∧
      (s'.thr (T 0)).pc = .reported (L 0) w ∧
      w.threadChain = (List.range n).map T ++ [T 0] ∧ w.lockChain = (List.range n).map L := by
  obtain ⟨d, hd⟩ : ∃ d, remaining n (s.thr (T 0)).pc = d := ⟨_, rfl⟩
  induction d using Nat.strong_induction_on generalizing s with
  | _ d ih =>
    have I : HoldInv c s := holdInv h
    have O : OwnerInv s := ownerInv (h.mono fun _ _ h => h.1)
    have W : WaitInv s := waitInv h
    have B : BufInv s := bufInv (h.mono fun _ _ h => h.2)
    have hF := follows h C hlast
    have ht : T 0 < maxThreadSlots := W.bounded _ fun ho => by
      rw [ho] at hF
      cases hF
    -- one load keeps the cycle and brings the report nearer
    have hnext : ∀ pc, runStep c s (T 0) = some (s.setPc (T 0) pc) →
        pending pc = pending (s.thr (T 0)).pc → remaining n pc < d →
        ∃ k s' w, Runs.exec (system c) s (List.replicate k ⟨T 0, .run⟩) = some s' ∧
          (s'.thr (T 0)).pc = .reported (L 0) w ∧
          w.threadChain = (List.range n).map T ++ [T 0] ∧
          w.lockChain = (List.range n).map L := by
      intro pc hs hp hrem
      have hgo : Orderly s ⟨T 0, .run⟩ := ⟨fun m hm => by simp at hm, fun _ _ _ _ _ => hb⟩
      have hs' := (step_run hx ht).trans hs
      obtain ⟨k, s', w, hk, hrep⟩ := ih _ hrem (.step h hgo hs') (C.setPc hp) hlast hx hb
        (by rw [setPc_pc, if_pos rfl])
      exact ⟨k + 1, s', w, by rw [List.replicate_succ, Runs.exec_cons _ hs']; exact hk, hrep⟩
    cases hpc : (s.thr (T 0)).pc with
    | reported m w =>
      rw [hpc] at hF
      obtain ⟨rfl, hw⟩ := hF
      exact ⟨0, s, w, rfl, hpc, hw⟩
    | loadOwner m w =>
      rw [hpc] at hF hd
      obtain ⟨-, i, hi, hw⟩ := hF
      refine hnext (afterWalk m .loadWaiting (w.onOwner (T 0) (s.loadOwner (T 0) w.currentLockSlot)))
        (by simp [runStep, hpc]) ?_ ?_
      · rw [(afterWalk_pending m _).1, hpc]
        rfl
      · rw [← hd]
        exact remaining_onOwner _ _ _ (by simpa [hw] using hi)
    | loadWaiting m w =>
      rw [hpc] at hd
      refine hnext (afterWalk m .loadOwner (w.onWaiting (s.loadWaiting (T 0) w.lastThread)))
        (by simp [runStep, hpc]) ?_ ?_
      · rw [(afterWalk_pending m _).2, hpc]
        rfl
      · rw [← hd]
        exact remaining_onWaiting _ _ _
    | _ => rw [hpc] at hF; exact hF.elim

end ScaleLockDep.Hooks
