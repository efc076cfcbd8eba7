import ScaleLockDep.RbDelivery

/-!
# The passes of the worker

A pass is a call of `lockdep_rb_drain_once` after the store of 0 to `g_rb_work_pending`
that made progress.  The history beside a run keeps what each pass took out of the rings,
with the predecessors that the producer of an event had loaded from the snapshot.

* `Collects`: what a thread step means for the event the thread is collecting;
* `CheckInv`: no event holds a predecessor that its producer found in the snapshot;
* `passInv`: a pass adds an edge, or everything it took out got its edges between the
  check of the producer and the pass.
-/

namespace ScaleLockDep.RbBackend

open ThreadState State RbGraph

/-! ## The history of the passes -/

/-- The tables at the store of 0 and at the return of `lockdep_rb_drain_once`, and the
events dequeued in between, each with the words of the snapshot its producer had loaded. -/
structure Pass where
  before : RbGraph
  after : RbGraph
  drained : List (Event × WordSet)

/-- Every pass has an entry in `passes`; `before` and `drained` are those of the pass that
is going on. -/
structure PassHistory where
  /-- the words a thread has loaded from the snapshot -/
  seen : Nat → WordSet
  /-- the words loaded for the accepted events -/
  checks : Nat → List WordSet
  /-- the events accepted when the last edge was inserted -/
  mark : Nat → Nat
  before : RbGraph
  drained : List (Event × WordSet)
  passes : List Pass

namespace PassHistory

def initial : PassHistory :=
  ⟨fun _ => .empty, fun _ => [], fun _ => 0, RbGraph.initial, [], []⟩

/-- The words thread `t` has loaded after a step. -/
def seenAfter (h : PassHistory) (s : State) (t : Nat) (s' : State) : WordSet :=
  match (s.thr t).pc, (s'.thr t).pc with
  | .collect c _ w, .collect _ _ w' =>
      if w < w' then Function.update (h.seen t) w (s.graph.predecessorSnapshot c.lockSlot w)
      else h.seen t
  | _, _ => h.seen t

/-- The words loaded for the events of `t` that are accepted after a step. -/
def checksAfter (h : PassHistory) (s : State) (t : Nat) (s' : State) : List WordSet :=
  if (s.ring t).accepted.length < (s'.ring t).accepted.length then h.checks t ++ [h.seen t]
  else h.checks t

/-- What a step dequeues from the ring of `t`. -/
def taken (h : PassHistory) (s : State) (t : Nat) (s' : State) : List (Event × WordSet) :=
  ((s'.ring t).delivered.drop (s.ring t).delivered.length).zip
    ((h.checks t).drop (s.ring t).delivered.length)

def noteWorker (h : PassHistory) (s : State) (i : Nat) (s' : State) : PassHistory :=
  match s.worker i with
  | .storeIdle => { h with before := s.graph, drained := [] }
  | .drain true t _ => { h with drained := h.drained ++ h.taken s t s' }
  | .edges _ _ v (u :: _) _ =>
      if s'.graph.edge u v = s.graph.edge u v then h
      else { h with mark := fun t => (s.ring t).accepted.length }
  | .target true b [] =>
      if b.madeProgress then { h with passes := h.passes ++ [⟨h.before, s.graph, h.drained⟩] }
      else h
  | _ => h

def note (h : PassHistory) (s : State) : Act → State → PassHistory
  | .thread t _, s' =>
      { h with
        seen := Function.update h.seen t (h.seenAfter s t s')
        checks := Function.update h.checks t (h.checksAfter s t s') }
  | .worker i, s' => h.noteWorker s i s'
  | .shutdown, _ => h

end PassHistory

/-- The backend with the history of its passes. -/
def passCounting (cfg : Config) : Runs.System (State × PassHistory) Act :=
  Runs.withHistory (system cfg) .initial PassHistory.note

/-- The event holds no lock that `check` knows as a predecessor. -/
def Unseen (x : Event × WordSet) : Prop := ∀ u, x.1.bits.test u = true → x.2.test u = false

namespace Pass

def AddsEdge (P : Pass) : Prop := ∃ u v, ¬ P.before.E u v ∧ P.after.E u v

/-- The edges of the dequeued events were missing when their producers checked the snapshot,
and were in the tables when the pass began. -/
def Late (P : Pass) : Prop :=
  ∀ x ∈ P.drained, Unseen x ∧ ∀ u v, Carries x.1 u v → P.before.E u v

end Pass

variable {cfg : Config} {s s' : State} {t : Nat} {mv : Move} {H : PassHistory}

/-! ## Application threads -/

/-- What a thread step means for the event the thread is collecting. -/
inductive Collects (s : State) (t : Nat) (s' : State) : Prop
  | start (c : Call) (hpc : (s.thr t).pc = .outside) (hpc' : (s'.thr t).pc = .collect c .empty 0)
      (hacc : (s'.ring t).accepted = (s.ring t).accepted)
  | load (c : Call) (bits : WordSet) (w : Nat) (hpc : (s.thr t).pc = .collect c bits w)
      (hpc' : (s'.thr t).pc = .collect c (Function.update bits w
        ((s.thr t).tls.heldLockBits w &&& ~~~ s.graph.predecessorSnapshot c.lockSlot w)) (w + 1))
      (hacc : (s'.ring t).accepted = (s.ring t).accepted)
  | unknown (c : Call) (bits : WordSet) (w : Nat) (hpc : (s.thr t).pc = .collect c bits w)
      (hb : (bits.clear c.lockSlot).hasAnyBits graphWords = true)
      (hpc' : (s'.thr t).pc = .ensure c (eventOf t c (bits.clear c.lockSlot)) .loadState)
      (hacc : (s'.ring t).accepted = (s.ring t).accepted)
  | publish (e : Event) (hpc : carried (s.thr t).pc = some e)
      (hpc' : ∃ c x, (s'.thr t).pc = .exchange c x .published)
      (hacc : (s'.ring t).accepted = (s.ring t).accepted ++ [e])
  /-- the event is kept or dropped -/
  | on (hcollect : ∀ c bits w, (s'.thr t).pc = .collect c bits w → (s.thr t).pc = .collect c bits w)
      (hcarried : ∀ e, carried (s'.thr t).pc = some e → carried (s.thr t).pc = some e)
      (hacc : (s'.ring t).accepted = (s.ring t).accepted)

theorem carried_afterSignal {c : Call} {e x : Event} {why : Why}
    (hx : carried (afterSignal c e why) = some x) : carried (.exchange c e why) = some x ∧
      carried (.post c e why) = some x := by
  cases why <;> exact ⟨hx, hx⟩

theorem afterSignal_ne_collect {c d : Call} {e : Event} {why : Why} {bits : WordSet} {w : Nat} :
    afterSignal c e why ≠ .collect d bits w := by
  cases why <;> nofun

/-- A step on that goes past the collecting. -/
theorem Collects.go {pc : Pc} (hpc : (s'.thr t).pc = pc)
    (hno : ∀ c bits w, pc ≠ .collect c bits w)
    (hcarried : ∀ e, carried pc = some e → carried (s.thr t).pc = some e)
    (hacc : (s'.ring t).accepted = (s.ring t).accepted) : Collects s t s' :=
  .on (fun c bits w hc => absurd (hpc ▸ hc) (hno c bits w)) (hpc ▸ hcarried) hacc

theorem ThreadStep.collects (T : ThreadOk cfg s t) (h : ThreadStep cfg s t mv s') :
    Collects s t s' := by
  have hset : ∀ {r : Ring}, Unmoved (s.ring t) r →
      ((s.setRing t r).ring t).accepted = (s.ring t).accepted := fun hu =>
    setRing_keeps s t t _ SpscRing.State.accepted hu.accepted
  have hdone : ∀ {ts : ThreadState} {op : Op}, ((s.complete t ts op).thr t).pc = .outside := by
    intro ts op
    rw [complete_pc, if_pos rfl]
  cases h with
  | register h | overflow c h => exact .on (fun _ _ _ => id) (fun _ => id) rfl
  | ring c e r h hr hu hp => exact .on (fun _ _ _ => id) (fun _ => id) (hset hu)
  | top c h hl hnil hmv | release l h hl | push c h ts hts =>
    exact .go hdone nofun nofun rfl
  | nested c h hl hnil hmv => exact .start c h (setPc_at _ _ _) rfl
  | load c bits w h hw => exact .load c bits w h (setPc_at _ _ _) rfl
  | unknown c bits w h hw hb => exact .unknown c bits w h hb (setPc_at _ _ _) rfl
  | known c bits w h hw hb => exact .go (setPc_at _ _ _) nofun nofun rfl
  | started c e p h hp hs | ensure c e p q h hp hq | claim c e h hs | semInit c e h
  | storeStop c e h | storePending c e h | create c e h | storeState c e h =>
    exact .go (setPc_at _ _ _) nofun (by rw [h]; exact fun _ => id) rfl
  | enqueue c e r h hr hu hp =>
    exact .go (setPc_at _ _ _) nofun (by rw [h]; exact fun _ => id) (hset hu)
  | full c e r h hr hu hp =>
    refine .go (setPc_at _ _ _) nofun (fun x hx => ?_) (hset hu)
    rw [h]
    cases hd : cfg.drops <;> simp only [hd] at hx
    · exact hx
    · cases hx
  | publish c e x r h hr hx hacc hdel hp =>
    have hsync := T.sync
    rw [hx, h] at hsync
    obtain rfl : x = e := Option.some.inj hsync
    exact .publish x (by rw [h]; rfl) ⟨c, x, setPc_at _ _ _⟩ (by
      rw [setPc_ring, setRing_ring, if_pos rfl]
      exact hacc)
  | signalled c e why h hw | post c e why h =>
    refine .go (setPc_at _ _ _) (fun _ _ _ => afterSignal_ne_collect) (fun x hx => ?_) rfl
    rw [h]
    first | exact (carried_afterSignal hx).1 | exact (carried_afterSignal hx).2
  | exchange c e why h hw =>
    refine .go (setPc_at _ _ _) nofun (fun x hx => ?_) rfl
    rw [h]
    cases why <;> exact hx

/-! ## What the producers saw -/

/-- The next step of thread `t` loads a word. -/
theorem seenAfter_load {c : Call} {bits bits' : WordSet} {w : Nat}
    (hpc : (s.thr t).pc = .collect c bits w) (hpc' : (s'.thr t).pc = .collect c bits' (w + 1)) :
    H.seenAfter s t s' =
      Function.update (H.seen t) w (s.graph.predecessorSnapshot c.lockSlot w) := by
  simp [PassHistory.seenAfter, hpc, hpc']

theorem seenAfter_same (hcollect : ∀ c bits w, (s'.thr t).pc = .collect c bits w →
    (s.thr t).pc = .collect c bits w ∨ (s.thr t).pc = .outside) :
    H.seenAfter s t s' = H.seen t := by
  unfold PassHistory.seenAfter
  split
  · rename_i c b w d b' w' hpc hpc'
    rcases hcollect d b' w' hpc' with he | he <;> rw [hpc] at he <;> cases he
    rw [if_neg (Nat.lt_irrefl w)]
  · rfl

theorem checksAfter_same (hacc : (s'.ring t).accepted = (s.ring t).accepted) :
    H.checksAfter s t s' = H.checks t := by
  rw [PassHistory.checksAfter, hacc, if_neg (Nat.lt_irrefl _)]

theorem checksAfter_publish {e : Event} (hacc : (s'.ring t).accepted = (s.ring t).accepted ++ [e]) :
    H.checksAfter s t s' = H.checks t ++ [H.seen t] := by
  rw [PassHistory.checksAfter, hacc, if_pos (by simp)]

/-- What thread `t` knows of the snapshot: `seen` are the words it has loaded, `checks`
those loaded for its accepted events. -/
structure CheckOk (s : State) (t : Nat) (seen : WordSet) (checks : List WordSet) : Prop where
  length : checks.length = (s.ring t).accepted.length
  unseen : ∀ x ∈ (s.ring t).accepted.zip checks, Unseen x
  collecting : ∀ c bits w, (s.thr t).pc = .collect c bits w → ∀ u, bits.test u = true →
    seen.test u = false
  carried : ∀ e, carried (s.thr t).pc = some e → Unseen (e, seen)

/-- A word of the snapshot is loaded. -/
theorem CheckOk.load {seen : WordSet} {checks : List WordSet} {c : Call} {bits : WordSet} {w : Nat}
    (I : CheckOk s t seen checks) (hpc : (s.thr t).pc = .collect c bits w)
    (hpc' : (s'.thr t).pc = .collect c (Function.update bits w
      ((s.thr t).tls.heldLockBits w &&& ~~~ s.graph.predecessorSnapshot c.lockSlot w)) (w + 1))
    (hacc : (s'.ring t).accepted = (s.ring t).accepted) :
    CheckOk s' t (Function.update seen w (s.graph.predecessorSnapshot c.lockSlot w)) checks where
  length := by rw [hacc, I.length]
  unseen := by
    rw [hacc]
    exact I.unseen
  collecting d b x hd u hu := by
    rw [hpc'] at hd
    cases hd
    rw [test_update_word] at hu
    rw [WordSet.test_eq_getLsbD, Function.update_apply]
    split at hu
    · rename_i hw
      rw [Bool.and_eq_true, Bool.not_eq_true',
        WordSet.test_eq_getLsbD (s.graph.predecessorSnapshot _), hw] at hu
      rw [if_pos hw]
      exact hu.2
    · rename_i hw
      rw [if_neg hw, ← WordSet.test_eq_getLsbD]
      exact I.collecting c bits w hpc u hu
  carried e he := by
    rw [hpc'] at he
    cases he

theorem checkOk_own (I : CheckOk s t (H.seen t) (H.checks t)) (hc : Collects s t s') :
    CheckOk s' t (H.seenAfter s t s') (H.checksAfter s t s') := by
  cases hc with
  | start c hpc hpc' hacc =>
    rw [checksAfter_same hacc, seenAfter_same fun _ _ _ _ => Or.inr hpc]
    refine ⟨by rw [hacc, I.length], by rw [hacc]; exact I.unseen, fun d b w hd u hu => ?_,
      fun e he => ?_⟩
    · rw [hpc'] at hd
      cases hd
      simp at hu
    · rw [hpc'] at he
      cases he
  | load c bits w hpc hpc' hacc =>
    rw [checksAfter_same hacc, seenAfter_load hpc hpc']
    exact I.load hpc hpc' hacc
  | unknown c bits w hpc hb hpc' hacc =>
    rw [checksAfter_same hacc, seenAfter_same fun d b x hd => by rw [hpc'] at hd; cases hd]
    refine ⟨by rw [hacc, I.length], by rw [hacc]; exact I.unseen, fun d b x hd => ?_,
      fun e he u hu => ?_⟩
    · rw [hpc'] at hd
      cases hd
    · rw [hpc'] at he
      cases he
      rw [test_eventOf, WordSet.test_clear, Bool.and_eq_true, Bool.and_eq_true] at hu
      exact I.collecting c bits w hpc u hu.2.1
  | publish e hpc hpc' hacc =>
    obtain ⟨c, x, hpc'⟩ := hpc'
    rw [checksAfter_publish hacc, seenAfter_same fun d b w hd => by rw [hpc'] at hd; cases hd]
    refine ⟨by simp [hacc, I.length], fun y hy => ?_, fun d b w hd => ?_, fun y hy => ?_⟩
    · rw [hacc, List.zip_append I.length.symm, List.mem_append] at hy
      rcases hy with hy | hy
      · exact I.unseen y hy
      · obtain rfl := List.mem_singleton.mp hy
        exact I.carried e hpc
    · rw [hpc'] at hd
      cases hd
    · rw [hpc'] at hy
      cases hy
  | on hcollect hcarried hacc =>
    rw [checksAfter_same hacc, seenAfter_same fun d b w hd => Or.inl (hcollect d b w hd)]
    exact ⟨by rw [hacc, I.length], by rw [hacc]; exact I.unseen,
      fun d b w hd => I.collecting d b w (hcollect d b w hd),
      fun e he => I.carried e (hcarried e he)⟩

/-- A step of another party. -/
theorem CheckOk.congr {seen : WordSet} {checks : List WordSet} (I : CheckOk s t seen checks)
    (hthr : s'.thr t = s.thr t) (hacc : (s'.ring t).accepted = (s.ring t).accepted) :
    CheckOk s' t seen checks := by
  constructor
  · rw [hacc, I.length]
  · rw [hacc]
    exact I.unseen
  · rw [hthr]
    exact I.collecting
  · rw [hthr]
    exact I.carried

theorem checkOk_initial (t : Nat) : CheckOk initial t .empty [] where
  length := rfl
  unseen x hx := by cases hx
  collecting c bits w hc := by cases hc
  carried e he := by cases he

/-- A worker step notes nothing about the producers. -/
theorem noteWorker_keeps (H : PassHistory) (s : State) (i : Nat) (s' : State) :
    (H.noteWorker s i s').seen = H.seen ∧ (H.noteWorker s i s').checks = H.checks := by
  unfold PassHistory.noteWorker
  split <;> try split
  all_goals exact ⟨rfl, rfl⟩

/-- What the shutdown leaves alone. -/
structure ShutdownKeeps (s s' : State) : Prop where
  thr : s'.thr = s.thr
  ring : s'.ring = s.ring
  worker : s'.worker = s.worker
  created : s'.created = s.created
  graph : s'.graph = s.graph
  workPending : s'.workPending = s.workPending

theorem ShutdownStep.keeps (h : ShutdownStep s s') : ShutdownKeeps s s' := by
  cases h <;> exact ⟨rfl, rfl, rfl, rfl, rfl, rfl⟩

variable {p : State × PassHistory} {G : State × PassHistory → Act → Prop}

theorem reachable_fst (h : Runs.ReachableBy (passCounting cfg) G p) :
    Runs.Reachable (system cfg) p.1 :=
  h.fst fun _ _ _ => trivial

/-- An invariant of the backend and its passes, from one step of the backend. -/
theorem passes_invariant {P : State × PassHistory → Prop} (hinit : P (initial, .initial))
    (hstep : ∀ s s' H a, Runs.ReachableBy (passCounting cfg) G (s, H) →
      Runs.Reachable (system cfg) s → Runs.Reachable (system cfg) s' → P (s, H) →
      Step cfg s a s' → P (s', H.note s a s'))
    (h : Runs.ReachableBy (passCounting cfg) G p) : P p :=
  h.invariant hinit fun p p' a hr I _ hp => by
    obtain ⟨hs, hnote⟩ := Runs.withHistory_step hp
    have hr₁ := reachable_fst hr
    have := hstep p.1 p'.1 p.2 a hr hr₁ (.step hr₁ trivial hs) I (step_cases hs).2
    rwa [← hnote] at this

theorem checkOk (h : Runs.ReachableBy (passCounting cfg) G p) :
    ∀ t, CheckOk p.1 t (p.2.seen t) (p.2.checks t) := by
  refine passes_invariant (P := fun p => ∀ t, CheckOk p.1 t (p.2.seen t) (p.2.checks t))
    checkOk_initial (fun s s' H a _ hr _ I hs t => ?_) h
  cases hs with
  | thread w mv hw h =>
    by_cases htw : t = w
    · subst htw
      simp only [PassHistory.note, Function.update_self]
      exact checkOk_own (I t) (h.collects (threadOk hr t))
    · simp only [PassHistory.note, Function.update_of_ne htw]
      exact (I t).congr (thr_other h htw) (by rw [ring_other h htw])
  | worker i h =>
    obtain ⟨hseen, hchecks⟩ := noteWorker_keeps H s i s'
    simp only [PassHistory.note, hseen, hchecks]
    exact (I t).congr (by rw [h.life.1]) (accepted_worker h)
  | shutdown h => exact (I t).congr (by rw [h.keeps.thr]) (by rw [h.keeps.ring])

/-! ## What a pass takes out -/

/-- The batch of a worker in the drain after the store of 0. -/
def secondBatch : WorkerPc → Option Batch
  | .drain true _ b | .target true b _ | .edges true b _ _ _ => some b
  | _ => none

theorem taken_same (hdel : (s'.ring t).delivered = (s.ring t).delivered) :
    H.taken s t s' = [] := by
  simp [PassHistory.taken, hdel]

/-- An event is dequeued together with the words loaded for it. -/
theorem taken_pop {e : Event} (I : CheckOk s t (H.seen t) (H.checks t))
    (hdel : (s'.ring t).delivered = (s.ring t).delivered ++ [e])
    (hpre : (s'.ring t).delivered <+: (s.ring t).accepted) :
    ∃ check, H.taken s t s' = [(e, check)] ∧ Unseen (e, check) := by
  obtain ⟨rest, hrest⟩ := hpre
  have hacc : (s.ring t).accepted.drop (s.ring t).delivered.length = e :: rest := by
    rw [← hrest, hdel]
    simp
  have hlen : ((H.checks t).drop (s.ring t).delivered.length).length = rest.length + 1 := by
    rw [List.length_drop, I.length, ← List.length_drop, hacc, List.length_cons]
  obtain ⟨check, checks, hchecks⟩ := List.exists_cons_of_length_eq_add_one hlen
  refine ⟨check, by simp [PassHistory.taken, hdel, hchecks], I.unseen _ ?_⟩
  apply List.mem_of_mem_drop (i := (s.ring t).delivered.length)
  rw [List.zip_eq_zipWith, List.drop_zipWith, hacc, hchecks]
  exact List.mem_cons_self

/-- What a step of worker `i` means for the pass that is going on. -/
inductive WorkerNotes (s : State) (H : PassHistory) (i : Nat) (s' : State) (H' : PassHistory) : Prop
  | on (hbefore : H'.before = H.before) (hdrained : H'.drained = H.drained)
      (hpasses : H'.passes = H.passes)
      (hbatch : ∀ b, secondBatch (s'.worker i) = some b → secondBatch (s.worker i) = some b)
  | begin (hbefore : H'.before = s.graph) (hdrained : H'.drained = [])
      (hpasses : H'.passes = H.passes) (hw : s'.worker i = .drain true 0 .empty)
  | take (x : Event × WordSet) (t : Nat) (hbefore : H'.before = H.before)
      (hdrained : H'.drained = H.drained ++ [x]) (hpasses : H'.passes = H.passes)
      (hx : Unseen x) (hdel : x.1 ∈ (s'.ring t).delivered)
  | finish (b : Batch) (hw : s.worker i = .target true b []) (hb : b.madeProgress = true)
      (hw' : s'.worker i = .storeBusy) (hbefore : H'.before = H.before)
      (hdrained : H'.drained = H.drained)
      (hpasses : H'.passes = H.passes ++ [⟨H.before, s.graph, H.drained⟩])

theorem secondBatch_afterDrain (second progress : Bool) :
    secondBatch (afterDrain second progress) = none := by
  cases second <;> cases progress <;> rfl

theorem noteWorker_drain {i : Nat} {second : Bool} {b : Batch}
    (hw : s.worker i = .drain second t b) : H.noteWorker s i s' =
      if second then { H with drained := H.drained ++ H.taken s t s' } else H := by
  cases second <;> simp [PassHistory.noteWorker, hw]

/-- A step at a ring that dequeues nothing. -/
theorem WorkerNotes.idle {i : Nat} {second : Bool} {b : Batch}
    (hw : s.worker i = .drain second t b) (hdel : (s'.ring t).delivered = (s.ring t).delivered)
    (hbatch : secondBatch (s'.worker i) = secondBatch (s.worker i)) :
    WorkerNotes s H i s' (H.noteWorker s i s') := by
  rw [noteWorker_drain hw, taken_same hdel]
  cases second
  · exact .on rfl rfl rfl fun _ hb => hbatch ▸ hb
  · exact .on rfl (List.append_nil _) rfl fun _ hb => hbatch ▸ hb

theorem WorkerStep.notes {i : Nat} (R' : ∀ t, SpscRing.RingInv (ringParams cfg) (s'.ring t))
    (C : ∀ t, CheckOk s t (H.seen t) (H.checks t)) (h : WorkerStep cfg s i s') :
    WorkerNotes s H i s' (H.noteWorker s i s') := by
  have hdel : ∀ {t : Nat} {r : Ring}, Unmoved (s.ring t) r →
      ((s.setRing t r).ring t).delivered = (s.ring t).delivered := fun hu =>
    setRing_keeps s _ _ _ SpscRing.State.delivered hu.delivered
  cases h with
  | read second t b r a h ht hr hu hp => exact .idle h (hdel hu) rfl
  | next second t b r head h ht hr hu hp hc hempty =>
    refine .idle h (hdel hu) ?_
    rw [setWorker_at, h]
    cases second <;> rfl
  | drained second t b h ht =>
    refine .idle h rfl ?_
    rw [setWorker_at, h]
    cases second <;> rfl
  | pop second t b r e h ht hr hacc hdel hp =>
    have hring : ({ (s.setRing t r).setWorker i (.drain second t (b.add e)) with
        pendingEdgeInfo := notePending s.pendingEdgeInfo b e }).ring t = r := by
      rw [setWorker_ring, setRing_ring, if_pos rfl]
    have hR := (R' t).order
    rw [hring, hacc] at hR
    rw [noteWorker_drain h]
    cases second with
    | false =>
      refine .on rfl rfl rfl fun b' hb' => ?_
      rw [setWorker_at] at hb'
      cases hb'
    | true =>
      obtain ⟨check, htaken, hx⟩ := taken_pop (C t) (by rw [hring]; exact hdel)
        (by rw [hring]; exact hR)
      rw [if_pos rfl, htaken]
      refine .take (e, check) t rfl rfl rfl hx ?_
      rw [hring, hdel]
      simp
  | processed second b h =>
    have hnone : H.noteWorker s i (s.setWorker i (afterDrain second b.madeProgress)) = H →
        WorkerNotes s H i (s.setWorker i (afterDrain second b.madeProgress))
          (H.noteWorker s i (s.setWorker i (afterDrain second b.madeProgress))) := fun he => by
      rw [he]
      refine .on rfl rfl rfl fun b' hb' => ?_
      rw [setWorker_at, secondBatch_afterDrain] at hb'
      cases hb'
    cases second with
    | false => exact hnone (by simp [PassHistory.noteWorker, h])
    | true =>
      cases hb : b.madeProgress with
      | false => exact hb ▸ hnone (by simp [PassHistory.noteWorker, h, hb])
      | true =>
        simp only [PassHistory.noteWorker, h, hb, if_true]
        exact .finish b h hb (setWorker_at _ _ _) rfl rfl rfl
  | pick second b v rest h | picked second b v rest h =>
    simp only [PassHistory.noteWorker, h]
    refine .on rfl rfl rfl fun b' hb' => ?_
    rw [setWorker_at] at hb'
    rw [h]
    cases second <;> exact hb'
  | insert second b v u todo rest h r hr =>
    simp only [PassHistory.noteWorker, h]
    have hbatch : ∀ b', secondBatch (WorkerPc.edges second b v todo rest) = some b' →
        secondBatch (s.worker i) = some b' := fun b' hb' => by
      rw [h]
      cases second <;> exact hb'
    split
    · exact .on rfl rfl rfl fun b' hb' => hbatch b' (by rwa [setWorker_at] at hb')
    · exact .on rfl rfl rfl fun b' hb' => hbatch b' (by rwa [setWorker_at] at hb')
  | storeIdle h =>
    simp only [PassHistory.noteWorker, h]
    exact .begin rfl rfl rfl (setWorker_at _ _ _)
  | storeBusy h | stop h hs | noStop h hs | scanNext t h ht hempty | scanFound t h ht hne
  | scanDone t h ht | wait h hsem =>
    simp only [PassHistory.noteWorker, h]
    refine .on rfl rfl rfl fun b' hb' => ?_
    rw [setWorker_at] at hb'
    cases hb'

/-! ## Every pass adds an edge or comes late -/

structure PassInv (p : State × PassHistory) : Prop where
  before : ∀ u v, p.2.before.E u v → p.1.graph.E u v
  drained : ∀ x ∈ p.2.drained, Unseen x ∧ ∃ t, x.1 ∈ (p.1.ring t).delivered
  progress : ∀ i b, secondBatch (p.1.worker i) = some b → b.madeProgress = true → p.2.drained ≠ []
  passes : ∀ P ∈ p.2.passes, P.drained ≠ [] ∧ (P.AddsEdge ∨ P.Late)

theorem passInv_initial : PassInv (initial, .initial) where
  before _ _ := id
  drained x hx := by cases hx
  progress _ _ h := by cases h
  passes P hP := by cases hP

/-- **What a pass took out is in the tables when it ends.** -/
theorem PassInv.finish {i : Nat} {b : Batch} {H : PassHistory} (I : PassInv (s, H))
    (D : DeliveryInv s) (L : LifeInv s) (hw : s.worker i = .target true b [])
    (hb : b.madeProgress = true) :
    H.drained ≠ [] ∧ (Pass.AddsEdge ⟨H.before, s.graph, H.drained⟩ ∨
      Pass.Late ⟨H.before, s.graph, H.drained⟩) := by
  refine ⟨I.progress i b (by rw [hw]; rfl) hb, or_iff_not_imp_left.mpr fun hadds x hx => ?_⟩
  obtain ⟨hunseen, t, ht⟩ := I.drained x hx
  refine ⟨hunseen, fun u v hc => ?_⟩
  have hE : s.graph.E u v := by
    rcases D t x.1 u v ht hc with he | ⟨j, hj⟩
    · exact he
    · -- the batch is empty, and no other worker is alive
      obtain rfl := L.one (holds_alive hj) (show s.worker i ≠ .exited by rw [hw]; simp)
      rw [hw] at hj
      cases hj.1
  by_contra hbefore
  exact hadds ⟨u, v, hbefore, hE⟩

theorem passInv_worker {i : Nat} {H' : PassHistory} (D : DeliveryInv s) (L : LifeInv s)
    (hgraph : ∀ u v, s.graph.E u v → s'.graph.E u v)
    (hgrow : ∀ t, (s.ring t).delivered <+: (s'.ring t).delivered)
    (hlife : ∀ j, s'.worker j ≠ .exited → j = i)
    (I : PassInv (s, H)) (h : WorkerNotes s H i s' H') : PassInv (s', H') := by
  have hold : ∀ x ∈ H.drained, Unseen x ∧ ∃ t, x.1 ∈ (s'.ring t).delivered := fun x hx => by
    obtain ⟨hu, t, ht⟩ := I.drained x hx
    exact ⟨hu, t, (hgrow t).subset ht⟩
  have hcur : ∀ {j b}, secondBatch (s'.worker j) = some b → j = i := fun {j b} hj =>
    hlife j fun he => by rw [he] at hj; cases hj
  cases h with
  | on hbefore hdrained hpasses hbatch =>
    refine ⟨fun u v he => hgraph u v (I.before u v (hbefore ▸ he)), by rw [hdrained]; exact hold,
      fun j b hj hb => ?_, by rw [hpasses]; exact I.passes⟩
    obtain rfl := hcur hj
    rw [hdrained]
    exact I.progress j b (hbatch b hj) hb
  | begin hbefore hdrained hpasses hw =>
    refine ⟨fun u v he => hgraph u v (hbefore ▸ he), by simp [hdrained], fun j b hj hb => ?_,
      by rw [hpasses]; exact I.passes⟩
    obtain rfl := hcur hj
    rw [hw] at hj
    cases hj
    cases hb
  | take x t hbefore hdrained hpasses hx hdel =>
    refine ⟨fun u v he => hgraph u v (I.before u v (hbefore ▸ he)), ?_, fun j b hj hb => ?_,
      by rw [hpasses]; exact I.passes⟩
    · rw [hdrained]
      intro y hy
      rcases List.mem_append.mp hy with hy | hy
      · exact hold y hy
      · obtain rfl := List.mem_singleton.mp hy
        exact ⟨hx, t, hdel⟩
    · rw [hdrained]
      simp
  | finish b hw hb hw' hbefore hdrained hpasses =>
    refine ⟨fun u v he => hgraph u v (I.before u v (hbefore ▸ he)), by rw [hdrained]; exact hold,
      fun j b hj hb => ?_, fun P hP => ?_⟩
    · obtain rfl := hcur hj
      rw [hw'] at hj
      cases hj
    · rw [hpasses] at hP
      rcases List.mem_append.mp hP with hP | hP
      · exact I.passes P hP
      · obtain rfl := List.mem_singleton.mp hP
        exact I.finish D L hw hb

theorem passInv (h : Runs.ReachableBy (passCounting cfg) G p) : PassInv p := by
  refine passes_invariant passInv_initial (fun s s' H a hr hr₁ hr₁' I hs => ?_) h
  have hgraph : ∀ u v, s.graph.E u v → s'.graph.E u v := fun u v => edge_step (edgeInv hr₁) hs
  have hgrow := fun t => (ring_grows hs t).2
  have hsame : (∀ i b, secondBatch (s'.worker i) = some b → secondBatch (s.worker i) = some b) →
      ∀ {seen checks}, PassInv (s', { H with seen := seen, checks := checks }) :=
    fun hbatch {_ _} => ⟨fun u v he => hgraph u v (I.before u v he),
      fun x hx => ⟨(I.drained x hx).1, (I.drained x hx).2.imp fun t ht => (hgrow t).subset ht⟩,
      fun i b hb => I.progress i b (hbatch i b hb), I.passes⟩
  cases hs with
  | thread t mv ht h =>
    refine hsame fun i b hb => ?_
    rcases worker_thread (lifeInv hr₁) h i with hw | ⟨-, hw⟩ <;> rw [hw] at hb
    · exact hb
    · cases hb
  | worker i h =>
    exact passInv_worker (deliveryInv hr₁) (lifeInv hr₁) hgraph hgrow
      (worker_only (lifeInv hr₁) h) I (h.notes (ringInv hr₁') (checkOk hr))
  | shutdown h => exact hsame fun i b hb => by rwa [h.keeps.worker] at hb

end ScaleLockDep.RbBackend
