import ScaleLockDep.RbRefinement
import ScaleLockDep.RbTables
import Mathlib.Data.Finset.Card

/-!
# Dropped batches

The ring-buffer backend with `g_rb_dropped_events`: the fetch-add that follows the
decision to drop is a step of its own.  Beside the state runs a history of the batches
dropped and of the last batch each thread offered.

* `CallStep`, `callStep`: what a thread does with the call it records;
* `OfferInv`, `offerInv`: what is not in the graph is offered, and what is offered is
  accepted or dropped;
* `accepted_of_work`: only accepted batches put edges into the graph;
* `drop_forgets_only`: the behaviour under `LOCKDEP_RB_FULL=drop`.
-/

namespace ScaleLockDep.RbBackend

open ThreadState State RbGraph Cycles

/-! ## The counter -/

/-- The batch that a step of a thread from `before` to `after` decides to drop. -/
def droppedBy : Pc → Pc → Option Event
  | .ring _ _, .exchange _ e .dropped => some e
  | _, _ => none

/-- The last batch a thread offered: none yet while it collects. -/
def offerOf (old : Option Event) : Pc → Option Event
  | .outside | .push _ => old
  | .collect _ _ _ => none
  | .ensure _ e _ | .enqueue _ e | .ring _ e | .exchange _ e _ | .post _ e _ => some e

/-- `counting` holds the threads between the decision to drop and the fetch-add.
`dropped` and `offer` are history. -/
structure DropState where
  base : State
  droppedEvents : UInt64
  counting : Finset Nat
  dropped : List (Nat × Event)
  offer : Nat → Option Event

inductive DropAct
  | base (a : Act)
  /-- the fetch-add of thread `t` -/
  | count (t : Nat)
  deriving DecidableEq, Repr

/-! ## What a thread does with its call -/

/-- The held lock `u` is among the collected bits, or its word is still to be loaded. -/
def Collecting : Pc → Nat → Prop
  | .collect _ bits w, u => bits.test u = true ∨ w ≤ u / 64
  | _, _ => False

/-- The batch of the call has gone through `lockdep_rb_enqueue_edge_batch`, or there was
none. -/
def Settled : Pc → Prop
  | .exchange _ _ .published | .exchange _ _ .dropped | .post _ _ .published
  | .post _ _ .dropped | .push _ => True
  | _ => False

/-- What a step of thread `t` does with its call `c`. -/
inductive CallStep (s : State) (t : Nat) (c : Call) (s' : State) : Prop
  | start (h' : (s'.thr t).pc = .collect c .empty 0)
  | load (bits : WordSet) (w : Nat) (h : (s.thr t).pc = .collect c bits w)
      (h' : (s'.thr t).pc = .collect c (Function.update bits w
        ((s.thr t).tls.heldLockBits w &&& ~~~ s.graph.predecessorSnapshot c.lockSlot w)) (w + 1))
  | unknown (bits : WordSet) (w : Nat) (h : (s.thr t).pc = .collect c bits w)
      (hw : graphWords ≤ w)
      (h' : (s'.thr t).pc = .ensure c (eventOf t c (bits.clear c.lockSlot)) .loadState)
  | known (bits : WordSet) (w : Nat) (h : (s.thr t).pc = .collect c bits w)
      (hw : graphWords ≤ w) (hb : (bits.clear c.lockSlot).hasAnyBits graphWords = false)
      (h' : (s'.thr t).pc = .push c)
  | same (h' : (s'.thr t).pc = (s.thr t).pc)
  | goesOn (hc : calling (s.thr t).pc = some c) (hcol : ∀ u, ¬ Collecting (s.thr t).pc u)
      (hoffer : ∀ old, offerOf old (s.thr t).pc = old → offerOf old (s'.thr t).pc = old)
      (hsettled : Settled (s'.thr t).pc → Settled (s.thr t).pc ∨
        ∀ e, offerOf (some e) (s.thr t).pc = some e →
          e ∈ (s'.ring t).accepted ∨ droppedBy (s.thr t).pc (s'.thr t).pc = some e)

section
variable {cfg : Config} {s s' : State} {t u v : Nat} {mv : Move} {c : Call}

theorem offerOf_idem (old : Option Event) (pc : Pc) :
    offerOf (offerOf old pc) pc = offerOf old pc := by
  cases pc <;> rfl

theorem calling_of_settled {pc : Pc} (h : Settled pc) : ∃ c, calling pc = some c := by
  cases pc with
  | outside | collect c bits w | ensure c e q | enqueue c e | ring c e => exact h.elim
  | exchange c e why | post c e why | push c => exact ⟨c, rfl⟩

/-- A step that keeps the batch `e` of the call. -/
theorem CallStep.carry {p q : Pc} {e : Event} (h : (s.thr t).pc = p) (h' : (s'.thr t).pc = q)
    (hc : calling p = some c) (hcol : ∀ u, ¬ Collecting p u)
    (hp : ∀ old, offerOf old p = some e) (hq : ∀ old, offerOf old q = old ∨ offerOf old q = some e)
    (hsettled : Settled q → Settled p ∨ e ∈ (s'.ring t).accepted ∨ droppedBy p q = some e) :
    CallStep s t c s' := by
  refine .goesOn (by rw [h, hc]) (by rw [h]; exact hcol) (fun old hold => ?_) fun hs => ?_
  · rw [h, hp] at hold
    rw [h', ← hold]
    exact (hq _).elim id id
  · rw [h'] at hs
    rw [h, h']
    refine (hsettled hs).imp_right fun hs e' he' => ?_
    rw [hp, Option.some.injEq] at he'
    exact he' ▸ hs

theorem callStep (T : ThreadOk cfg s t) (h : ThreadStep cfg s t mv s')
    (hc : calling (s'.thr t).pc = some c) : CallStep s t c s' ∧ s'.held t = s.held t := by
  cases h with
  | register h | overflow d h | ring d e r h hr hu hp => exact ⟨.same rfl, rfl⟩
  | top d h hl hnil hmv | release l h hl | push d h ts hts => simp [complete_pc] at hc
  | nested d h hl hnil hmv =>
    rw [setPc_at] at hc
    cases hc
    exact ⟨.start (setPc_at _ _ _), setPc_held _ _ _ _⟩
  | load d bits w h hw =>
    rw [setPc_at] at hc
    cases hc
    exact ⟨.load bits w h (setPc_at _ _ _), setPc_held _ _ _ _⟩
  | unknown d bits w h hw hb =>
    rw [setPc_at] at hc
    cases hc
    exact ⟨.unknown bits w h hw (setPc_at _ _ _), setPc_held _ _ _ _⟩
  | known d bits w h hw hb =>
    rw [setPc_at] at hc
    cases hc
    exact ⟨.known bits w h hw hb (setPc_at _ _ _), setPc_held _ _ _ _⟩
  | started d e p h hp hs | ensure d e p q h hp hq | claim d e h hs | semInit d e h
  | storeStop d e h | storePending d e h | create d e h | storeState d e h
  | enqueue d e r h hr hu hp =>
    cases (congrArg calling (setPc_at _ _ _)).symm.trans hc
    exact ⟨.carry h (setPc_at _ _ _) rfl (fun _ => id) (fun _ => rfl) (fun _ => Or.inr rfl) False.elim,
      setPc_held _ _ _ _⟩
  | full d e r h hr hu hp =>
    cases (congrArg calling (setPc_at _ _ _)).symm.trans hc
    refine ⟨.carry h (setPc_at _ _ _) rfl (fun _ => id) (fun _ => rfl) (fun _ => Or.inr rfl) ?_,
      setPc_held _ _ _ _⟩
    cases cfg.drops with
    | true => exact fun _ => Or.inr (Or.inr rfl)
    | false => exact False.elim
  | publish d e x r h hr hx hacc hdel hp =>
    cases (congrArg calling (setPc_at _ _ _)).symm.trans hc
    obtain rfl : e = x := by
      have hsync := T.sync
      rw [h, hx] at hsync
      exact (Option.some.inj hsync).symm
    refine ⟨.carry h (setPc_at _ _ _) rfl (fun _ => id) (fun _ => rfl) (fun _ => Or.inr rfl) fun _ => ?_,
      setPc_held _ _ _ _⟩
    right
    left
    rw [setPc_ring, setRing_ring, if_pos rfl, hacc]
    simp
  | signalled d e why h hw | post d e why h =>
    cases (calling_afterSignal d e why).symm.trans ((congrArg calling (setPc_at _ _ _)).symm.trans hc)
    refine ⟨.carry h (setPc_at _ _ _) rfl (fun _ => id) (fun _ => rfl) ?_ ?_, setPc_held _ _ _ _⟩
    · cases why <;> intro old
      · exact Or.inl rfl
      · exact Or.inr rfl
      · exact Or.inl rfl
    · cases why with
      | stalled => exact False.elim
      | published => exact fun _ => Or.inl trivial
      | dropped => exact fun _ => Or.inl trivial
  | exchange d e why h hw =>
    cases (congrArg calling (setPc_at _ _ _)).symm.trans hc
    refine ⟨.carry h (setPc_at _ _ _) rfl (fun _ => id) (fun _ => rfl) (fun _ => Or.inr rfl) ?_,
      setPc_held _ _ _ _⟩
    cases why <;> exact Or.inl

end

namespace DropState

def initial : DropState := ⟨RbBackend.initial, 0, ∅, [], fun _ => none⟩

/-- A step of thread `t` to `b`. -/
def thread (s : DropState) (t : Nat) (b : State) : DropState :=
  let drop := droppedBy (s.base.thr t).pc (b.thr t).pc
  { base := b
    droppedEvents := s.droppedEvents
    counting := if drop.isSome then insert t s.counting else s.counting
    dropped := s.dropped ++ (drop.map (t, ·)).toList
    offer := Function.update s.offer t (offerOf (s.offer t) (b.thr t).pc) }

def step (cfg : Config) (s : DropState) : DropAct → Option DropState
  | .base (.thread t mv) =>
      if t ∈ s.counting then none
      else (RbBackend.step cfg s.base (.thread t mv)).map (s.thread t)
  | .base (.worker i) =>
      (RbBackend.step cfg s.base (.worker i)).map fun b => { s with base := b }
  | .base .shutdown => (RbBackend.step cfg s.base .shutdown).map fun b => { s with base := b }
  | .count t =>
      if s.base.exited = false ∧ t ∈ s.counting then
        some { s with droppedEvents := s.droppedEvents + 1, counting := s.counting.erase t }
      else none

def system (cfg : Config) : Runs.System DropState DropAct := ⟨initial, step cfg⟩

/-- A guard on the steps of the backend; the fetch-add counts as a step of its thread. -/
def lift (G : State → Act → Prop) (s : DropState) : DropAct → Prop
  | .base a => G s.base a
  | .count t => G s.base (.thread t .run)

/-- What one step can do. -/
inductive Step (cfg : Config) (s : DropState) : DropAct → DropState → Prop
  | thread (t : Nat) (mv : Move) (b : State) (ht : t ∉ s.counting)
      (h : (RbBackend.system cfg).step s.base (.thread t mv) = some b) :
      Step cfg s (.base (.thread t mv)) (s.thread t b)
  | other (a : Act) (b : State) (ha : ∀ t mv, a ≠ .thread t mv)
      (h : (RbBackend.system cfg).step s.base a = some b) : Step cfg s (.base a) { s with base := b }
  | count (t : Nat) (ht : t ∈ s.counting) :
      Step cfg s (.count t)
        { s with droppedEvents := s.droppedEvents + 1, counting := s.counting.erase t }

theorem step_cases {cfg : Config} {s s' : DropState} {a : DropAct}
    (h : step cfg s a = some s') : Step cfg s a s' := by
  unfold step at h
  split at h
  case h_1 t mv =>
    split at h
    · cases h
    · rename_i ht
      obtain ⟨b, hb, rfl⟩ := Option.map_eq_some_iff.mp h
      exact .thread t mv b ht hb
  case h_2 i =>
    obtain ⟨b, hb, rfl⟩ := Option.map_eq_some_iff.mp h
    exact .other _ b nofun hb
  case h_3 =>
    obtain ⟨b, hb, rfl⟩ := Option.map_eq_some_iff.mp h
    exact .other _ b nofun hb
  case h_4 t =>
    split at h
    · rename_i ht
      cases h
      exact .count t ht.2
    · cases h

/-- **Without the counter a run is a run of the backend.** -/
theorem reachable {cfg : Config} {G : State → Act → Prop} {s : DropState}
    (h : Runs.ReachableBy (system cfg) (lift G) s) :
    Runs.ReachableBy (RbBackend.system cfg) G s.base :=
  h.project DropState.base rfl fun s s' a hg hs => by
    cases step_cases hs with
    | thread t mv b ht h => exact Or.inr ⟨_, hg, h⟩
    | other a b ha h => exact Or.inr ⟨_, hg, h⟩
    | count t ht => exact Or.inl rfl

/-! ## The count -/

/-- The counter has the batches that no thread is about to count. -/
def Counted (s : DropState) : Prop :=
  ∃ n, n + s.counting.card = s.dropped.length ∧ s.droppedEvents = UInt64.ofNat n

theorem counted {cfg : Config} {G : DropState → DropAct → Prop} {s : DropState}
    (h : Runs.ReachableBy (system cfg) G s) : s.Counted :=
  h.invariant (P := Counted) ⟨0, rfl, rfl⟩ fun s s' a _ ⟨n, hn, hc⟩ _ hs => by
    cases step_cases hs with
    | thread t mv b ht h =>
      refine ⟨n, ?_, hc⟩
      cases hd : droppedBy (s.base.thr t).pc (b.thr t).pc with
      | none => simpa [thread, hd] using hn
      | some e =>
        simp only [thread, hd, Option.isSome_some, if_true, Option.map_some, Option.toList_some,
          List.length_append, List.length_singleton, Finset.card_insert_of_notMem ht]
        omega
    | other a b ha h => exact ⟨n, hn, hc⟩
    | count t ht =>
      refine ⟨n + 1, ?_, ?_⟩
      · have hcard := Finset.card_erase_add_one ht
        simp only
        omega
      · simp only [hc, UInt64.ofNat_add]
        rfl

/-! ## What is offered -/

/-- What a thread holds is in the graph, still to be collected, or offered; and an offer is
accepted or dropped before the call ends. -/
structure OfferInv (s : DropState) : Prop where
  offer : ∀ t, offerOf (s.offer t) (s.base.thr t).pc = s.offer t
  progress : ∀ t c u, calling (s.base.thr t).pc = some c → u ∈ s.base.held t → u ≠ c.lockSlot →
    Collecting (s.base.thr t).pc u ∨ s.base.graph.E u c.lockSlot ∨
      ∃ e, s.offer t = some e ∧ Carries e u c.lockSlot
  settled : ∀ t e, Settled (s.base.thr t).pc → s.offer t = some e →
    e ∈ (s.base.ring t).accepted ∨ (t, e) ∈ s.dropped

theorem offerInv_initial : OfferInv initial where
  offer _ := rfl
  progress _ _ _ h := by cases h
  settled _ _ h := h.elim

theorem OfferInv.offer_collect {s : DropState} {t w : Nat} {c : Call} {bits : WordSet}
    (I : OfferInv s) (h : (s.base.thr t).pc = .collect c bits w) : s.offer t = none := by
  rw [← I.offer t, h]
  rfl

section
variable {cfg : Config} {s : DropState} {b : State} {t u : Nat} {c : Call} {e : Event} {mv : Move}

/-- What the thread holds, after its step. -/
theorem OfferInv.progress_own (T : ThreadOk cfg s.base t) (E : EdgeInv s.base) (I : OfferInv s)
    (h : ThreadStep cfg s.base t mv b) (h₁ : RbBackend.Step cfg s.base (.thread t mv) b)
    (hc : calling (b.thr t).pc = some c) (hu : u ∈ b.held t) (hne : u ≠ c.lockSlot) :
    Collecting (b.thr t).pc u ∨ b.graph.E u c.lockSlot ∨
      ∃ e, offerOf (s.offer t) (b.thr t).pc = some e ∧ Carries e u c.lockSlot := by
  have hE : s.base.graph.E u c.lockSlot → b.graph.E u c.lockSlot := edge_step E h₁
  obtain ⟨hstep, hheld⟩ := callStep T h hc
  rw [hheld] at hu
  have hold := I.progress t c u
  cases hstep with
  | start h' =>
    rw [h']
    exact Or.inl (Or.inr (Nat.zero_le _))
  | load bits x hpc h' =>
    rw [hpc] at hold
    rw [h']
    rcases hold rfl hu hne with hp | he | ⟨e, he, -⟩
    · exact (load_or_edge T E hu hp).imp_right fun he => Or.inl (hE he)
    · exact Or.inr (Or.inl (hE he))
    · rw [I.offer_collect hpc] at he
      cases he
  | unknown bits x hpc hw' h' =>
    rw [hpc] at hold
    rw [h']
    rcases hold rfl hu hne with hp | he | ⟨e, he, -⟩
    · obtain ⟨hlt, hbit⟩ := collected_test T E hw' hu hne hp
      refine Or.inr (Or.inr ⟨_, rfl, rfl, ?_⟩)
      rw [test_eventOf, hbit]
      simpa using hlt
    · exact Or.inr (Or.inl (hE he))
    · rw [I.offer_collect hpc] at he
      cases he
  | known bits x hpc hw' hb h' =>
    rw [hpc] at hold
    rcases hold rfl hu hne with hp | he | ⟨e, he, -⟩
    · obtain ⟨hlt, hbit⟩ := collected_test T E hw' hu hne hp
      have hm : maxLockSlots = 64 * graphWords := rfl
      rw [WordSet.hasAnyBits_iff.mpr ⟨u, by omega, hbit⟩] at hb
      cases hb
    · exact Or.inr (Or.inl (hE he))
    · rw [I.offer_collect hpc] at he
      cases he
  | same h' =>
    rw [h'] at hc ⊢
    rw [I.offer]
    exact (hold hc hu hne).imp_right (Or.imp_left hE)
  | goesOn hc' hcol hoffer hsettled =>
    rw [hoffer _ (I.offer t)]
    exact Or.inr (((hold hc' hu hne).resolve_left (hcol u)).imp_left hE)

/-- What the thread has offered, after its step. -/
theorem OfferInv.settled_own (T : ThreadOk cfg s.base t) (I : OfferInv s)
    (h : ThreadStep cfg s.base t mv b)
    (hacc : e ∈ (s.base.ring t).accepted → e ∈ (b.ring t).accepted)
    (hs : Settled (b.thr t).pc) (he : offerOf (s.offer t) (b.thr t).pc = some e) :
    e ∈ (b.ring t).accepted ∨ (t, e) ∈ (s.thread t b).dropped := by
  have hkeep : e ∈ (s.base.ring t).accepted ∨ (t, e) ∈ s.dropped →
      e ∈ (b.ring t).accepted ∨ (t, e) ∈ (s.thread t b).dropped :=
    Or.imp hacc (List.mem_append_left _)
  obtain ⟨c, hc⟩ := calling_of_settled hs
  cases (callStep T h hc).1 with
  | start h' | load bits x hpc h' | unknown bits x hpc hw' h' =>
    rw [h'] at hs
    exact hs.elim
  | known bits x hpc hw' hb h' =>
    rw [h', offerOf, I.offer_collect hpc] at he
    cases he
  | same h' =>
    rw [h'] at hs
    rw [h', I.offer] at he
    exact hkeep (I.settled t e hs he)
  | goesOn hc' hcol hoffer hsettled =>
    rw [hoffer _ (I.offer t)] at he
    rcases hsettled hs with hs | hs
    · exact hkeep (I.settled t e hs he)
    · have hoff := I.offer t
      rw [he] at hoff
      refine (hs e hoff).imp_right fun hd => ?_
      simp [thread, hd]

theorem offerInv_thread (T : ThreadOk cfg s.base t) (E : EdgeInv s.base) (I : OfferInv s)
    (h : ThreadStep cfg s.base t mv b) (h₁ : RbBackend.Step cfg s.base (.thread t mv) b) :
    OfferInv (s.thread t b) := by
  have hacc : ∀ w e, e ∈ (s.base.ring w).accepted → e ∈ (b.ring w).accepted := fun w e he =>
    (ring_grows h₁ w).1.subset he
  refine ⟨fun w => ?_, fun w c u hc hu hne => ?_, fun w e hs he => ?_⟩
  · by_cases hw : w = t
    · subst hw
      simp only [thread, Function.update_self]
      exact offerOf_idem _ _
    · simp only [thread, Function.update_of_ne hw, thr_other h hw]
      exact I.offer w
  · by_cases hw : w = t
    · subst hw
      simp only [thread, Function.update_self] at hc hu ⊢
      exact I.progress_own T E h h₁ hc hu hne
    · simp only [thread, Function.update_of_ne hw, State.held, thr_other h hw] at hc hu ⊢
      exact (I.progress w c u hc hu hne).imp_right (Or.imp_left (edge_step E h₁))
  · by_cases hw : w = t
    · subst hw
      simp only [thread, Function.update_self] at hs he
      exact I.settled_own T h (hacc w e) hs he
    · simp only [thread, Function.update_of_ne hw, thr_other h hw] at hs he ⊢
      exact (I.settled w e hs he).imp (hacc w e) (List.mem_append_left _)

end

theorem offerInv {cfg : Config} {G : State → Act → Prop} {s : DropState}
    (h : Runs.ReachableBy (system cfg) (lift G) s) : OfferInv s :=
  h.invariant offerInv_initial fun s s' a hr I _ hs => by
    have hb := reachable hr
    cases step_cases hs with
    | count t ht => exact ⟨I.offer, I.progress, I.settled⟩
    | thread t mv b ht h =>
      have h₁ := (RbBackend.step_cases h).2
      cases h₁ with
      | thread _ _ _ h₂ =>
        exact offerInv_thread (threadOk hb t) (edgeInv hb) I h₂ (RbBackend.step_cases h).2
    | other a b ha h =>
      have h₁ := (RbBackend.step_cases h).2
      have hthr : b.thr = s.base.thr := by
        cases h₁ with
        | thread t mv ht h => exact absurd rfl (ha t mv)
        | worker i h => exact h.life.1
        | shutdown h => cases h <;> rfl
      refine ⟨fun t => ?_, fun t c u hc hu hne => ?_, fun t e hs he => ?_⟩
      · simp only [hthr]
        exact I.offer t
      · simp only [hthr, State.held] at hc hu ⊢
        exact (I.progress t c u hc hu hne).imp_right (Or.imp_left (edge_step (edgeInv hb) h₁))
      · simp only [hthr] at hs
        exact (I.settled t e hs he).imp_left fun he => (ring_grows h₁ t).1.subset he

end DropState

/-! ## Edges and accepted batches -/

/-- An accepted batch carries the pair. -/
def AcceptedPair (s : State) (u v : Nat) : Prop :=
  ∃ t e, e ∈ (s.ring t).accepted ∧ Carries e u v

section
variable {cfg : Config} {s s' : State} {a : Act} {u v : Nat}

theorem AcceptedPair.step (hp : AcceptedPair s u v) (h : Step cfg s a s') : AcceptedPair s' u v := by
  obtain ⟨t, e, he, hc⟩ := hp
  exact ⟨t, e, (ring_grows h t).1.subset he, hc⟩

/-- A new edge comes from the batch of a worker. -/
theorem inWork_of_edge (E : EdgeInv s) (h : Step cfg s a s') (he : s'.graph.E u v) :
    InWork s u v := by
  cases h with
  | thread t mv ht h => cases h <;> exact Or.inl he
  | worker i h =>
    cases h with
    | insert second b tgt x todo rest h r hr =>
      subst hr
      rcases ((insert_graph E (E.next h)).2 u v).mp he with he | ⟨rfl, rfl⟩
      · exact Or.inl he
      · exact Or.inr ⟨i, by rw [h]; exact Or.inl ⟨rfl, List.mem_cons_self⟩⟩
    | _ => exact Or.inl he
  | shutdown h => cases h <;> exact Or.inl he

/-- **Only accepted batches put edges into the graph.** -/
theorem accepted_of_work {G : State → Act → Prop} (h : Runs.ReachableBy (system cfg) G s) :
    ∀ u v, InWork s u v → AcceptedPair s u v := by
  refine h.invariant (P := fun s => ∀ u v, InWork s u v → AcceptedPair s u v) ?_ ?_
  · rintro u v (he | ⟨i, hh⟩)
    · exact (initial_not_E u v he).elim
    · exact hh.elim
  · intro s s' a hr I hg hs u v hw
    have h₁ := (step_cases hs).2
    have hold : InWork s u v → AcceptedPair s' u v := fun hw => (I u v hw).step h₁
    rcases hw with he | ⟨i, hh⟩
    · exact hold (inWork_of_edge (edgeInv hr) h₁ he)
    · cases h₁ with
      | thread t mv ht h =>
        rcases worker_thread (lifeInv hr) h i with hw | ⟨-, hw⟩ <;> rw [hw] at hh
        · exact hold (Or.inr ⟨i, hh⟩)
        · exact absurd hh (not_holds_empty _ u v)
      | worker j h =>
        by_cases hij : i = j
        · subst hij
          rcases holds_worker (edgeInv hr) h hh with hh | ⟨t, e, he, hc⟩
          · exact hold (Or.inr ⟨i, hh⟩)
          · exact ⟨t, e, (ringInv (.step hr hg hs) t).order.subset he, hc⟩
        · rw [h.life.2.2.2.2.2 i hij] at hh
          exact hold (Or.inr ⟨i, hh⟩)
      | shutdown h => exact hold (Or.inr ⟨i, by cases h <;> exact hh⟩)

/-- **After a shutdown that found the program finished**, every accepted pair is an edge once
the worker has exited. -/
theorem edge_of_accepted (h : Runs.ReachableBy (system cfg) FinishedFirst s)
    (hstop : afterStop s.shutdown) (hexit : ∀ i, s.worker i = .exited)
    (hp : AcceptedPair s u v) : s.graph.E u v := by
  obtain ⟨t, e, he, hc⟩ := hp
  have hcreated := (earlyInv h).published t e he
  have I := finishedInv h
  have hmark : s.stopMark t = (s.ring t).accepted.length := by
    cases hsd : s.shutdown with
    | returned => exact (I.returned hsd).2 hcreated t
    | idle => exact (hsd ▸ hstop : afterStop .idle).elim
    | loadState => exact (hsd ▸ hstop : afterStop .loadState).elim
    | storeStop => exact (hsd ▸ hstop : afterStop .storeStop).elim
    | _ => exact I.mark (by rw [hsd]; trivial) t
  obtain ⟨hle, hE⟩ := (stopInv h).done (s.created - 1) (by omega) (hexit _) t
    ((earlyInv h).slots t e he)
  -- everything accepted is delivered, and below the mark
  have horder := (ringInv h t).order
  have hall : (s.ring t).delivered = (s.ring t).accepted :=
    horder.eq_of_length_le (hmark ▸ hle)
  refine hE e ?_ u v hc
  rwa [hmark, hall, List.take_length]

end

namespace DropState

/-! ## Every run of the backend -/

theorem not_exited_of_dropped {cfg : Config} {s b : State} {t : Nat} {mv : Move} {e : Event}
    (h : ThreadStep cfg s t mv b) (hex : s.exited = false)
    (hd : droppedBy (s.thr t).pc (b.thr t).pc = some e) : b.exited = false := by
  cases h with
  | overflow c h =>
    simp [h, droppedBy] at hd
  | _ => exact hex

/-- **Every run of the backend is one with the counter**: a thread that drops a batch counts
it at once. -/
theorem exists_counted {cfg : Config} {G : State → Act → Prop} {s : State}
    (hG : ∀ s s' t mv, G s (.thread t mv) → RbBackend.Step cfg s (.thread t mv) s' →
      G s' (.thread t .run))
    (h : Runs.ReachableBy (RbBackend.system cfg) G s) :
    ∃ d, Runs.ReachableBy (system cfg) (lift G) d ∧ d.base = s ∧ d.counting = ∅ := by
  induction h with
  | init => exact ⟨initial, .init, rfl, rfl⟩
  | @step s s' a hr hg hs ih =>
    obtain ⟨d, hd, rfl, hnone⟩ := ih
    obtain ⟨hex, h₁⟩ := RbBackend.step_cases hs
    cases a with
    | worker i =>
      refine ⟨{ d with base := s' }, .step (a := .base (.worker i)) hd hg ?_, rfl, hnone⟩
      exact Option.map_eq_some_iff.mpr ⟨s', hs, rfl⟩
    | shutdown =>
      refine ⟨{ d with base := s' }, .step (a := .base .shutdown) hd hg ?_, rfl, hnone⟩
      exact Option.map_eq_some_iff.mpr ⟨s', hs, rfl⟩
    | thread t mv =>
      have hd' : Runs.ReachableBy (system cfg) (lift G) (d.thread t s') := by
        refine .step (a := .base (.thread t mv)) hd hg ?_
        change (if t ∈ d.counting then none else _) = _
        rw [hnone, if_neg (Finset.notMem_empty t)]
        exact Option.map_eq_some_iff.mpr ⟨s', hs, rfl⟩
      cases hdrop : droppedBy (d.base.thr t).pc (s'.thr t).pc with
      | none => exact ⟨_, hd', rfl, by simp [thread, hdrop, hnone]⟩
      | some e =>
        have hex' : s'.exited = false := by
          cases h₁ with
          | thread _ _ ht h₂ => exact not_exited_of_dropped h₂ hex hdrop
        have hcount : (d.thread t s').counting = {t} := by simp [thread, hdrop, hnone]
        refine ⟨{ d.thread t s' with
          droppedEvents := d.droppedEvents + 1
          counting := (d.thread t s').counting.erase t },
          .step (a := .count t) hd' (hG _ _ t mv hg h₁) ?_, rfl, by simp [hcount]⟩
        change (if s'.exited = false ∧ t ∈ (d.thread t s').counting then some _ else none) = _
        rw [if_pos ⟨hex', by simp [hcount]⟩]
        rfl

theorem finishedFirst_thread {cfg : Config} (s s' : State) (t : Nat) (mv : Move)
    (hg : FinishedFirst s (.thread t mv)) (h : RbBackend.Step cfg s (.thread t mv) s') :
    FinishedFirst s' (.thread t .run) := by
  cases h with
  | thread _ _ _ h => exact (shutdown_thread h).trans hg

/-! ## The behaviour under `LOCKDEP_RB_FULL=drop` -/

/-- **Dropping only forgets.** -/
structure ForgetsOnly (s : DropState) : Prop where
  /-- an edge is an observed pair -/
  observed : ∀ u v, s.base.graph.E u v → u ≠ v ∧ (activity s.base).Claimed u v
  /-- a reported cycle is a cycle of observed pairs -/
  reported : ∀ r, r ∈ s.base.reports → r.Valid (activity s.base).Claimed
  /-- a known predecessor has its edge -/
  known : ∀ u v, (s.base.graph.predecessorSnapshot v).test u = true → s.base.graph.E u v
  /-- and has it between the stores of an insertion too -/
  storing : ∀ i second b v u todo rest info k,
    s.base.worker i = .edges second b v (u :: todo) rest →
    ∀ x y, ((s.base.graph.storeSome s.base.lockSlotCount u v info k).predecessorSnapshot y).test
        x = true → (s.base.graph.storeSome s.base.lockSlotCount u v info k).E x y
  /-- an edge comes from an accepted batch -/
  accepted : ∀ u v, s.base.graph.E u v → AcceptedPair s.base u v
  /-- an acquisition offers every held lock that has no edge yet -/
  offered : ∀ t c u, (s.base.thr t).pc = .push c → u ∈ s.base.held t → u ≠ c.lockSlot →
    ¬ s.base.graph.E u c.lockSlot → ∃ e, s.offer t = some e ∧ Carries e u c.lockSlot ∧
      (e ∈ (s.base.ring t).accepted ∨ (t, e) ∈ s.dropped)
  /-- the counter counts the dropped batches -/
  counted : s.droppedEvents.toNat = (s.dropped.length - s.counting.card) % 2 ^ 64

theorem forgetsOnly {cfg : Config} {s : DropState} (h : Runs.Reachable (system cfg) s) :
    s.ForgetsOnly := by
  have hd : Runs.ReachableBy (system cfg) (lift fun _ _ => True) s :=
    h.mono fun s a _ => by cases a <;> trivial
  have hb := reachable hd
  have E := edgeInv hb
  have O := offerInv hd
  have hclaimed : ∀ u v, s.base.graph.E u v → (activity s.base).Claimed u v := fun u v he =>
    (E.sound u v he).claimed
  refine ⟨fun u v he => ⟨(hclaimed u v he).ne, hclaimed u v he⟩, fun r hr => ?_, fun u v hs => ?_,
    fun i second b v u todo rest info k _ x y => edge_of_snapshot_storeSome E.wf k,
    fun u v he => accepted_of_work hb u v (Or.inl he), fun t c u hpc hu hne hno => ?_, ?_⟩
  · exact ((reportInv hb).valid r hr).mono hclaimed
  · rw [E.wf.snapshot] at hs
    exact hs
  · have hp := O.progress t c u (by rw [hpc]; rfl) hu hne
    rw [hpc] at hp
    obtain ⟨e, he, hc⟩ := (hp.resolve_left id).resolve_left hno
    exact ⟨e, he, hc, O.settled t e (by rw [hpc]; trivial) he⟩
  · obtain ⟨n, hn, hc⟩ := counted h
    rw [hc, UInt64.toNat_ofNat', ← hn, Nat.add_sub_cancel]

/-- **Dropping only forgets**, in every run and under either policy, and an accepted pair is
an edge once the worker has exited after a shutdown of the finished program. -/
theorem drop_forgets_only (cfg : Config) :
    (∀ s, Runs.Reachable (system cfg) s → s.ForgetsOnly) ∧
    ∀ s, Runs.ReachableBy (system cfg) (lift FinishedFirst) s → afterStop s.base.shutdown →
      (∀ i, s.base.worker i = .exited) → ∀ u v, AcceptedPair s.base u v → s.base.graph.E u v :=
  ⟨fun _ h => forgetsOnly h, fun _ h hstop hexit _ _ => edge_of_accepted (reachable h) hstop hexit⟩

theorem invertedDrop_runs :
    (execLegs ⟨true, true⟩ finishedFirst RbBackend.initial inverted).isSome = true := by
  decide +kernel

theorem drop_forgets_only_inverted : ∃ s,
    Runs.ReachableBy (system ⟨true, true⟩) (lift FinishedFirst) s ∧ s.base.shutdown = .returned ∧
      s.ForgetsOnly ∧ s.base.reports ≠ [] ∧ AcceptedPair s.base 0 1 ∧ s.base.graph.E 0 1 := by
  have hs := (Option.some_get invertedDrop_runs).symm
  obtain ⟨d, hd, hbase, -⟩ := exists_counted finishedFirst_thread (finishedFirst_reachable hs)
  have h := drop_forgets_only ⟨true, true⟩
  have hret : d.base.shutdown = .returned := by rw [hbase]; decide +kernel
  have hacc : AcceptedPair d.base 0 1 := by
    obtain ⟨e, he, hc⟩ : ∃ e, e ∈ (((execLegs ⟨true, true⟩ finishedFirst RbBackend.initial
        inverted).get invertedDrop_runs).ring 0).accepted ∧ e.toLockSlot = 1 ∧
        e.bits.test 0 = true := by decide +kernel
    exact ⟨0, e, hbase ▸ he, hc⟩
  refine ⟨d, hd, hret, h.1 d hd.reachable, by rw [hbase]; decide +kernel, hacc, ?_⟩
  refine h.2 d hd (by rw [hret]; trivial) (fun i => ?_) 0 1 hacc
  exact ((finishedInv (reachable hd)).returned hret).1 i

end DropState

end ScaleLockDep.RbBackend
