import ScaleLockDep.Programs
import Mathlib.Data.List.Forall2

/-!
# Programs that differ in accesses nobody asks about

Two programs over two kinds of state, related access by access.  Either may make accesses of
its own that the other lacks, as long as the states stay related.

* `Like`: the relation, with `bind`, `modify`, `get`, `query` and the other rules;
* `Simulation`: two machines whose codes are alike;
* `Simulation.sound`: every run of one machine is matched by a run of the other with the same
  calls, answers and results in the same order.
-/

namespace ScaleLockDep.Programs

variable {ι : Type} {A B : ι → Type} {σ τ α β γ δ : Type}

/-! ## Programs -/

/-- `I` may be assumed of the states at every access, `R` is kept; `An` relates the answers to
a question of one program to those of the other. -/
inductive Like (I R : σ → τ → Prop) (An : (q : ι) → A q → (q' : ι) → B q' → Prop)
    (Q : α → β → Prop) : Prog A σ α → Prog B τ β → Prop
  | ret {a : α} {b : β} (h : Q a b) : Like I R An Q (.ret a) (.ret b)
  | act {f : σ → σ} {next : σ → Prog A σ α} {g : τ → τ} {next' : τ → Prog B τ β}
      (hR : ∀ v w, I v w → R (f v) (g w))
      (hnext : ∀ v w, I v w → Like I R An Q (next v) (next' w)) :
      Like I R An Q (.act f next) (.act g next')
  | ask {q q' : ι} {next : A q → Prog A σ α} {next' : B q' → Prog B τ β}
      (hq : ∀ a, ∃ b, An q a q' b)
      (hnext : ∀ a b, An q a q' b → Like I R An Q (next a) (next' b)) :
      Like I R An Q (.ask q next) (.ask q' next')
  | exit {code : Nat} : Like I R An Q (.exit code) (.exit code)
  /-- an access of the first program alone -/
  | left {f : σ → σ} {next : σ → Prog A σ α} {p' : Prog B τ β} (hR : ∀ v w, I v w → R (f v) w)
      (hnext : ∀ v w, I v w → Like I R An Q (next v) p') : Like I R An Q (.act f next) p'
  /-- an access of the second program alone -/
  | right {p : Prog A σ α} {g : τ → τ} {next' : τ → Prog B τ β}
      (hR : ∀ v w, I v w → R v (g w))
      (hnext : ∀ v w, I v w → Like I R An Q p (next' w)) : Like I R An Q p (.act g next')

namespace Like

variable {I R : σ → τ → Prop} {An : (q : ι) → A q → (q' : ι) → B q' → Prop}
  {Q : α → β → Prop} {Q' : γ → δ → Prop} {p : Prog A σ α} {p' : Prog B τ β}

/-- **Sequencing.** -/
theorem bind {k : α → Prog A σ γ} {k' : β → Prog B τ δ} (h : Like I R An Q p p')
    (hk : ∀ a b, Q a b → Like I R An Q' (k a) (k' b)) :
    Like I R An Q' (p >>= k) (p' >>= k') := by
  induction h with
  | ret h => exact hk _ _ h
  | act hR _ ih => exact .act hR ih
  | ask hq _ ih => exact .ask hq ih
  | exit => exact .exit
  | left hR _ ih => exact .left hR ih
  | right hR _ ih => exact .right hR ih

theorem pure {a : α} {b : β} (h : Q a b) : Like I R An Q (Pure.pure a) (Pure.pure b) := .ret h

theorem exchange {f : σ → σ} {f' : τ → τ} {g : σ → α} {g' : τ → β}
    (h : ∀ v w, I v w → R (f v) (f' w) ∧ Q (g v) (g' w)) :
    Like I R An Q (Prog.exchange f g) (Prog.exchange f' g') :=
  .act (fun v w hI => (h v w hI).1) fun v w hI => .ret (h v w hI).2

theorem modify {f : σ → σ} {f' : τ → τ} {Q : Unit → Unit → Prop}
    (h : ∀ v w, I v w → R (f v) (f' w)) (hQ : Q () ()) :
    Like I R An Q (Prog.modify f) (Prog.modify f') :=
  .exchange fun v w hI => ⟨h v w hI, hQ⟩

theorem get {g : σ → α} {g' : τ → β} (hI : ∀ v w, I v w → R v w)
    (h : ∀ v w, I v w → Q (g v) (g' w)) : Like I R An Q (Prog.get g) (Prog.get g') :=
  .exchange fun v w hv => ⟨hI v w hv, h v w hv⟩

theorem query {q q' : ι} {Q : A q → B q' → Prop} (hq : ∀ a, ∃ b, An q a q' b)
    (h : ∀ a b, An q a q' b → Q a b) : Like I R An Q (Prog.query q) (Prog.query q') :=
  .ask hq fun a b hab => .ret (h a b hab)

/-- A write that one of two settings makes. -/
theorem modify_ite {c c' : Prop} [Decidable c] [Decidable c'] {f : σ → σ} {f' : τ → τ}
    {Q : Unit → Unit → Prop} (hboth : ∀ v w, I v w → R (f v) (f' w))
    (hleft : ∀ v w, I v w → R (f v) w) (hright : ∀ v w, I v w → R v (f' w)) (hQ : Q () ()) :
    Like I R An Q (if c then Prog.modify f else Pure.pure ())
      (if c' then Prog.modify f' else Pure.pure ()) := by
  by_cases h : c
  · rw [if_pos h]
    by_cases h' : c'
    · rw [if_pos h']
      exact .modify hboth hQ
    · rw [if_neg h']
      exact .left hleft fun _ _ _ => .ret hQ
  · rw [if_neg h]
    by_cases h' : c'
    · rw [if_pos h']
      exact .right hright fun _ _ _ => .ret hQ
    · rw [if_neg h']
      exact .ret hQ

theorem ite {c : Prop} [Decidable c] {r : Prog A σ α} {r' : Prog B τ β}
    (h : c → Like I R An Q p p') (h' : ¬ c → Like I R An Q r r') :
    Like I R An Q (if c then p else r) (if c then p' else r') := by
  split
  · rename_i hc
    exact h hc
  · rename_i hc
    exact h' hc

/-- What is left once the second program has caught up. -/
inductive Head (I R : σ → τ → Prop) (An : (q : ι) → A q → (q' : ι) → B q' → Prop)
    (Q : α → β → Prop) : Prog A σ α → Prog B τ β → Prop
  | ret {a : α} {b : β} (h : Q a b) : Head I R An Q (.ret a) (.ret b)
  | act {f : σ → σ} {next : σ → Prog A σ α} {g : τ → τ} {next' : τ → Prog B τ β}
      (hR : ∀ v w, I v w → R (f v) (g w))
      (hnext : ∀ v w, I v w → Like I R An Q (next v) (next' w)) :
      Head I R An Q (.act f next) (.act g next')
  | ask {q q' : ι} {next : A q → Prog A σ α} {next' : B q' → Prog B τ β}
      (hq : ∀ a, ∃ b, An q a q' b)
      (hnext : ∀ a b, An q a q' b → Like I R An Q (next a) (next' b)) :
      Head I R An Q (.ask q next) (.ask q' next')
  | exit {code : Nat} : Head I R An Q (.exit code) (.exit code)
  | left {f : σ → σ} {next : σ → Prog A σ α} {p' : Prog B τ β} (hR : ∀ v w, I v w → R (f v) w)
      (hnext : ∀ v w, I v w → Like I R An Q (next v) p') : Head I R An Q (.act f next) p'

end Like

/-! ## What is seen of a run -/

variable {κ L S L' S' ε δ' : Type}

/-- What a thread does at its boundary. -/
inductive Seen (A : ι → Type) (κ α : Type)
  | call (k : κ)
  | answer (q : ι) (a : A q)
  | returned (a : α)

namespace Machine

variable (M : Machine A κ L S α ε δ)

/-- What an action adds to what is seen. -/
def seen (c : Config A κ L S α) (a : Act A κ ε δ) : List (Nat × Seen A κ α) :=
  match a.move with
  | .call k => [(a.tid, .call k)]
  | .answer q x => [(a.tid, .answer q x)]
  | .run =>
      match (c.thr a.tid).frame.bind Frame.result? with
      | some r => [(a.tid, .returned r)]
      | none => []
  | .between _ | .outside _ => []

/-- The machine with what has been seen so far. -/
def logged [DecidableEq ι] :
    Runs.System (Config A κ L S α × List (Nat × Seen A κ α)) (Act A κ ε δ) :=
  Runs.withHistory M.system [] fun log c a _ => log ++ seen c a

variable {M} [DecidableEq ι] {c c' : Config A κ L S α} {t : Nat}
  {log : List (Nat × Seen A κ α)}

theorem logged_fst {p : Config A κ L S α × List (Nat × Seen A κ α)}
    (h : Runs.Reachable M.logged p) : Runs.Reachable M.system p.1 :=
  h.fst fun _ _ _ => trivial

/-- One step, with what is seen of it. -/
theorem logged_step {a : Act A κ ε δ} {es : List (Nat × Seen A κ α)}
    (h : Runs.Reachable M.logged (c, log)) (hs : M.step c a = some c') (he : seen c a = es) :
    Runs.Reachable M.logged (c', log ++ es) := by
  subst he
  exact .step h trivial (Runs.withHistory_of_step hs)

theorem step_call {k : κ} (hx : c.exited = none) (hk : M.valid k = true)
    (hf : (c.thr t).frame = none) : M.step c ⟨t, .call k⟩ =
      some (c.setThread t ⟨(c.thr t).own, some ⟨k, c.view t, [], M.code t k⟩⟩) := by
  simp [step, hx, hf, hk]

theorem step_access {f : Frame A κ (L × S) α} {g : L × S → L × S}
    {next : L × S → Prog A (L × S) α} (hx : c.exited = none) (hf : (c.thr t).frame = some f)
    (hrest : f.rest = .act g next) : M.step c ⟨t, .run⟩ =
      some { c.setThread t ⟨(g (c.view t)).1, some ⟨f.call, f.entry,
        f.events ++ [.access (c.view t) (g (c.view t))], next (c.view t)⟩⟩ with
          shared := (g (c.view t)).2 } := by
  simp [step, hx, hf, Frame.run, hrest, after]

theorem step_answer {f : Frame A κ (L × S) α} {q : ι} {next : A q → Prog A (L × S) α}
    (a : A q) (hx : c.exited = none) (hf : (c.thr t).frame = some f)
    (hrest : f.rest = .ask q next) : M.step c ⟨t, .answer q a⟩ =
      some (c.setThread t ⟨(c.thr t).own, some ⟨f.call, f.entry,
        f.events ++ [.answer q a], next a⟩⟩) := by
  simp [step, hx, hf, Frame.answer, hrest, after, Config.view, Config.setThread]

theorem step_returned {f : Frame A κ (L × S) α} {a : α} (hx : c.exited = none)
    (hf : (c.thr t).frame = some f) (hrest : f.rest = .ret a) :
    M.step c ⟨t, .run⟩ = some (c.setThread t ⟨(c.thr t).own, none⟩) := by
  simp [step, hx, hf, Frame.run, hrest, after]

theorem step_exited {f : Frame A κ (L × S) α} {code : Nat} (hx : c.exited = none)
    (hf : (c.thr t).frame = some f) (hrest : f.rest = .exit code) :
    M.step c ⟨t, .run⟩ = some { c with exited := some code } := by
  simp [step, hx, hf, Frame.run, hrest, after]

omit [DecidableEq ι] in
theorem seen_run {f : Frame A κ (L × S) α} (hf : (c.thr t).frame = some f)
    (hrest : f.result? = none) : seen c (⟨t, .run⟩ : Act A κ ε δ) = [] := by
  simp [seen, hf, hrest]

variable (M) in
/-- What one step of thread `t` can do, and what is seen of it. -/
inductive SeenStep (c : Config A κ L S α) (t : Nat) :
    List (Nat × Seen A κ α) → Config A κ L S α → Prop
  | call (k : κ) (hk : M.valid k = true) (hf : (c.thr t).frame = none) :
      SeenStep c t [(t, .call k)]
        (c.setThread t ⟨(c.thr t).own, some ⟨k, c.view t, [], M.code t k⟩⟩)
  | access (f : Frame A κ (L × S) α) (g : L × S → L × S) (next : L × S → Prog A (L × S) α)
      (hf : (c.thr t).frame = some f) (hrest : f.rest = .act g next) :
      SeenStep c t [] { c.setThread t ⟨(g (c.view t)).1, some ⟨f.call, f.entry,
        f.events ++ [.access (c.view t) (g (c.view t))], next (c.view t)⟩⟩ with
          shared := (g (c.view t)).2 }
  | answer (f : Frame A κ (L × S) α) (q : ι) (next : A q → Prog A (L × S) α) (a : A q)
      (hf : (c.thr t).frame = some f) (hrest : f.rest = .ask q next) :
      SeenStep c t [(t, .answer q a)] (c.setThread t ⟨(c.thr t).own, some ⟨f.call, f.entry,
        f.events ++ [.answer q a], next a⟩⟩)
  | returned (f : Frame A κ (L × S) α) (a : α) (hf : (c.thr t).frame = some f)
      (hrest : f.rest = .ret a) :
      SeenStep c t [(t, .returned a)] (c.setThread t ⟨(c.thr t).own, none⟩)
  | exited (f : Frame A κ (L × S) α) (code : Nat) (hf : (c.thr t).frame = some f)
      (hrest : f.rest = .exit code) : SeenStep c t [] { c with exited := some code }
  | between (e : ε) (l : L) (hf : (c.thr t).frame = none)
      (hl : M.between e (c.thr t).own = some l) : SeenStep c t [] (c.setThread t ⟨l, none⟩)
  | outside (d : δ) : SeenStep c t [] { c with shared := M.outside d c.shared }

/-- **Step inversion** with what is seen. -/
theorem seen_cases {a : Act A κ ε δ} (hs : M.step c a = some c') :
    c.exited = none ∧ M.SeenStep c a.tid (seen c a) c' := by
  have hx : c.exited = none := (Machine.step_cases hs).1
  refine ⟨hx, ?_⟩
  obtain ⟨t, mv⟩ := a
  cases mv with
  | call k =>
    cases hf : (c.thr t).frame with
    | some f => simp [step, hx, hf] at hs
    | none =>
      by_cases hk : M.valid k = true
      · rw [step_call hx hk hf] at hs
        cases hs
        exact .call k hk hf
      · simp [step, hx, hf, hk] at hs
  | run =>
    cases hf : (c.thr t).frame with
    | none => simp [step, hx, hf] at hs
    | some f =>
      cases hrest : f.rest with
      | ret r =>
        rw [step_returned hx hf hrest] at hs
        cases hs
        have hres : f.result? = some r := Frame.result?_eq_some.2 hrest
        have hseen : seen c (⟨t, .run⟩ : Act A κ ε δ) = [(t, .returned r)] := by
          simp [seen, hf, hres]
        rw [hseen]
        exact .returned f r hf hrest
      | act g next =>
        rw [step_access hx hf hrest] at hs
        cases hs
        rw [seen_run hf (by rw [Frame.result?, hrest])]
        exact .access f g next hf hrest
      | ask q next => simp [step, hx, hf, Frame.run, hrest, after] at hs
      | exit code =>
        rw [step_exited hx hf hrest] at hs
        cases hs
        rw [seen_run hf (by rw [Frame.result?, hrest])]
        exact .exited f code hf hrest
  | answer q x =>
    cases hf : (c.thr t).frame with
    | none => simp [step, hx, hf] at hs
    | some f =>
      cases hrest : f.rest with
      | ask q₀ next =>
        by_cases hq : q₀ = q
        · subst hq
          rw [step_answer x hx hf hrest] at hs
          cases hs
          exact .answer f q₀ next x hf hrest
        · have hne : q ≠ q₀ := fun he => hq he.symm
          simp [step, hx, hf, Frame.answer, hrest, after, hne] at hs
      | ret r => simp [step, hx, hf, Frame.answer, hrest, after] at hs
      | act g next => simp [step, hx, hf, Frame.answer, hrest, after] at hs
      | exit code => simp [step, hx, hf, Frame.answer, hrest, after] at hs
  | between e =>
    cases hf : (c.thr t).frame with
    | some f => simp [step, hx, hf] at hs
    | none =>
      simp only [step, hx, hf] at hs
      obtain ⟨l, hl, rfl⟩ := Option.map_eq_some_iff.1 (by simpa using hs)
      exact .between e l hf hl
  | outside d =>
    have hd : c' = { c with shared := M.outside d c.shared } := by
      cases hf : (c.thr t).frame <;> simpa [step, hx, hf, eq_comm] using hs
    exact hd ▸ .outside d

end Machine

/-! ## Simulation -/

/-- Two machines whose codes are alike; `inv` and `inv'` are what holds in every run. -/
structure Simulation [DecidableEq ι] (M : Machine A κ L S α ε δ)
    (M' : Machine B κ L' S' α ε δ') where
  own : L → L' → Prop
  shared : S → S' → Prop
  answer : (q : ι) → A q → (q' : ι) → B q' → Prop
  inv : Nat → L × S → Prop
  inv' : Nat → L' × S' → Prop
  reachable : ∀ {c}, Runs.Reachable M.system c → ∀ t, inv t (c.view t)
  reachable' : ∀ {c}, Runs.Reachable M'.system c → ∀ t, inv' t (c.view t)
  init : own M.own M'.own ∧ shared M.shared M'.shared
  valid : ∀ k, M.valid k = M'.valid k
  code : ∀ t k, M.valid k = true → Like
    (fun v w => inv t v ∧ inv' t w ∧ own v.1 w.1 ∧ shared v.2 w.2)
    (fun v w => own v.1 w.1 ∧ shared v.2 w.2) answer Eq (M.code t k) (M'.code t k)
  between : ∀ {e l l' m}, own l l' → M.between e l = some m →
    ∃ m', M'.between e l' = some m' ∧ own m m'
  outside : ∀ {d s s'}, shared s s' → shared (M.outside d s) s'

namespace Simulation

variable [DecidableEq ι] {M : Machine A κ L S α ε δ} {M' : Machine B κ L' S' α ε δ'}
  (X : Simulation M M')

/-- Related views. -/
def Kept (v : L × S) (w : L' × S') : Prop := X.own v.1 w.1 ∧ X.shared v.2 w.2

/-- What may be assumed at an access of thread `t`. -/
def Assumed (t : Nat) (v : L × S) (w : L' × S') : Prop :=
  X.inv t v ∧ X.inv' t w ∧ X.own v.1 w.1 ∧ X.shared v.2 w.2

/-- Two calls in progress. -/
structure FrameLike (t : Nat) (f : Frame A κ (L × S) α) (f' : Frame B κ (L' × S') α) : Prop where
  call : f.call = f'.call
  rest : Like (X.Assumed t) X.Kept X.answer Eq f.rest f'.rest

structure ThreadLike (t : Nat) (x : Thread A κ L S α) (x' : Thread B κ L' S' α) : Prop where
  own : X.own x.own x'.own
  frame : Option.Rel (X.FrameLike t) x.frame x'.frame

structure Related (c : Config A κ L S α) (c' : Config B κ L' S' α) : Prop where
  shared : X.shared c.shared c'.shared
  exited : c.exited = c'.exited
  thread : ∀ t, X.ThreadLike t (c.thr t) (c'.thr t)

inductive SeenLike : Seen A κ α → Seen B κ α → Prop
  | call (k : κ) : SeenLike (.call k) (.call k)
  | answer {q q' : ι} {a : A q} {b : B q'} (h : X.answer q a q' b) :
      SeenLike (.answer q a) (.answer q' b)
  | returned (r : α) : SeenLike (.returned r) (.returned r)

/-- The same threads have done the same. -/
def LogLike : List (Nat × Seen A κ α) → List (Nat × Seen B κ α) → Prop :=
  List.Forall₂ fun x y => x.1 = y.1 ∧ X.SeenLike x.2 y.2

variable {X} {c d : Config A κ L S α} {c' d' : Config B κ L' S' α} {t : Nat}
  {log : List (Nat × Seen A κ α)} {log' : List (Nat × Seen B κ α)}

theorem Related.kept (h : X.Related c c') (t : Nat) : X.Kept (c.view t) (c'.view t) :=
  ⟨(h.thread t).own, h.shared⟩

theorem Related.assumed (h : X.Related c c') (hr : Runs.Reachable M.system c)
    (hr' : Runs.Reachable M'.system c') (t : Nat) : X.Assumed t (c.view t) (c'.view t) :=
  ⟨X.reachable hr t, X.reachable' hr' t, h.kept t⟩

theorem Related.frame (h : X.Related c c') {f : Frame A κ (L × S) α}
    (hf : (c.thr t).frame = some f) : ∃ f', (c'.thr t).frame = some f' ∧ X.FrameLike t f f' := by
  have hrel := (h.thread t).frame
  rw [hf] at hrel
  generalize hf' : (c'.thr t).frame = o at hrel
  cases hrel with
  | some hlike => exact ⟨_, rfl, hlike⟩

theorem Related.frame_none (h : X.Related c c') (hf : (c.thr t).frame = none) :
    (c'.thr t).frame = none := by
  have hrel := (h.thread t).frame
  rw [hf] at hrel
  generalize (c'.thr t).frame = o at hrel
  cases hrel
  rfl

/-- Only thread `t` moves, in one machine or in both. -/
theorem Related.move (h : X.Related c c') (hs : X.shared d.shared d'.shared)
    (hx : d.exited = d'.exited) (ht : X.ThreadLike t (d.thr t) (d'.thr t))
    (hu : ∀ u, u ≠ t → d.thr u = c.thr u) (hu' : ∀ u, u ≠ t → d'.thr u = c'.thr u) :
    X.Related d d' where
  shared := hs
  exited := hx
  thread u := by
    by_cases hut : u = t
    · subst hut
      exact ht
    · rw [hu u hut, hu' u hut]
      exact h.thread u

theorem Related.setThread (h : X.Related c c') {x : Thread A κ L S α} {x' : Thread B κ L' S' α}
    (hx : X.ThreadLike t x x') : X.Related (c.setThread t x) (c'.setThread t x') := by
  refine h.move (t := t) h.shared h.exited ?_ (fun u hu => Config.setThread_thr_other _ hu _)
    fun u hu => Config.setThread_thr_other _ hu _
  simpa using hx

/-- **The second machine catches up** with the accesses the first one does not make. -/
theorem catch_up (hr : Runs.Reachable M.system c) (hx : c.exited = none)
    {f : Frame A κ (L × S) α} (hf : (c.thr t).frame = some f) {p' : Prog B (L' × S') α}
    (hlike : Like (X.Assumed t) X.Kept X.answer Eq f.rest p')
    (hr' : Runs.Reachable M'.logged (c', log')) (h : X.Related c c')
    {f' : Frame B κ (L' × S') α} (hf' : (c'.thr t).frame = some f') (hcall : f.call = f'.call)
    (hrest : f'.rest = p') :
    ∃ d' g', Runs.Reachable M'.logged (d', log') ∧ X.Related c d' ∧
      (d'.thr t).frame = some g' ∧ f.call = g'.call ∧
      Like.Head (X.Assumed t) X.Kept X.answer Eq f.rest g'.rest := by
  generalize hp : f.rest = p at hlike ⊢
  induction hlike generalizing c' f' with
  | ret hQ => exact ⟨c', f', hr', h, hf', hcall, hrest ▸ .ret hQ⟩
  | act hR hnext _ => exact ⟨c', f', hr', h, hf', hcall, hrest ▸ .act hR hnext⟩
  | ask hq hnext _ => exact ⟨c', f', hr', h, hf', hcall, hrest ▸ .ask hq hnext⟩
  | exit => exact ⟨c', f', hr', h, hf', hcall, hrest ▸ .exit⟩
  | left hR hnext _ => exact ⟨c', f', hr', h, hf', hcall, hrest ▸ .left hR hnext⟩
  | @right p g next' hR hnext ih =>
    have hI := h.assumed hr (Machine.logged_fst hr') t
    have hstep := Machine.step_access (M := M') (h.exited.symm.trans hx) hf' hrest
    have hnone : f'.result? = none := by rw [Frame.result?, hrest]
    have hr'' := Machine.logged_step hr' hstep (Machine.seen_run hf' hnone)
    rw [List.append_nil] at hr''
    have hkept := hR _ _ hI
    refine ih _ _ hI hr'' ?_ (congrArg Thread.frame (Config.setThread_thr_self _ _ _)) hcall
      rfl hp
    refine h.move (t := t) hkept.2 h.exited ?_ (fun _ _ => rfl) fun u hu =>
      Config.setThread_thr_other _ hu _
    have hthread : X.ThreadLike t (c.thr t) ⟨(g (c'.view t)).1, some ⟨f'.call, f'.entry,
        f'.events ++ [.access (c'.view t) (g (c'.view t))], next' (c'.view t)⟩⟩ := by
      refine ⟨hkept.1, ?_⟩
      rw [hf]
      exact .some ⟨hcall, hp ▸ hnext _ _ hI⟩
    simpa [Config.setThread] using hthread

variable (X) in
/-- The second machine has a run to a related configuration in which the same was done. -/
def Matched (d : Config A κ L S α) (log : List (Nat × Seen A κ α)) : Prop :=
  ∃ d' log', Runs.Reachable M'.logged (d', log') ∧ X.Related d d' ∧ X.LogLike log log'

/-! ### One step of the first machine -/

section
variable (hr : Runs.Reachable M.system c) (hx : c.exited = none)
  (hr' : Runs.Reachable M'.logged (c', log')) (h : X.Related c c') (hlog : X.LogLike log log')
include hr hx hr' h hlog

omit hr in
theorem matched_call {k : κ} (hk : M.valid k = true) (hf : (c.thr t).frame = none) :
    X.Matched (c.setThread t ⟨(c.thr t).own, some ⟨k, c.view t, [], M.code t k⟩⟩)
      (log ++ [(t, .call k)]) := by
  have hstep := Machine.step_call (M := M') (h.exited.symm.trans hx)
    ((X.valid k).symm.trans hk) (h.frame_none hf)
  have hthread : X.ThreadLike t ⟨(c.thr t).own, some ⟨k, c.view t, [], M.code t k⟩⟩
      ⟨(c'.thr t).own, some ⟨k, c'.view t, [], M'.code t k⟩⟩ :=
    ⟨(h.thread t).own, .some ⟨rfl, X.code t k hk⟩⟩
  refine ⟨_, _, Machine.logged_step hr' hstep rfl, h.setThread hthread, ?_⟩
  exact List.rel_append hlog (.cons ⟨rfl, .call k⟩ .nil)

theorem matched_returned {f : Frame A κ (L × S) α} {r : α} (hf : (c.thr t).frame = some f)
    (hrest : f.rest = .ret r) :
    X.Matched (c.setThread t ⟨(c.thr t).own, none⟩) (log ++ [(t, .returned r)]) := by
  obtain ⟨f₀, hf₀, hlike⟩ := h.frame hf
  obtain ⟨c₁, f', hr₁, h₁, hf', hcall, hhead⟩ :=
    catch_up hr hx hf hlike.rest hr' h hf₀ hlike.call rfl
  have hx₁ := h₁.exited.symm.trans hx
  rw [hrest] at hhead
  generalize hrest' : f'.rest = p' at hhead
  cases hhead with
  | ret hQ =>
    subst hQ
    have hres' : f'.result? = some r := Frame.result?_eq_some.2 hrest'
    have hseen : Machine.seen c₁ (⟨t, .run⟩ : Act B κ ε δ') = [(t, .returned r)] := by
      simp [Machine.seen, hf', hres']
    have hr₂ := Machine.logged_step hr₁ (Machine.step_returned hx₁ hf' hrest') hseen
    refine ⟨_, _, hr₂, h₁.setThread ⟨(h₁.thread t).own, .none⟩, ?_⟩
    exact List.rel_append hlog (.cons ⟨rfl, .returned r⟩ .nil)

theorem matched_access {f : Frame A κ (L × S) α} {g : L × S → L × S}
    {next : L × S → Prog A (L × S) α} (hf : (c.thr t).frame = some f)
    (hrest : f.rest = .act g next) :
    X.Matched { c.setThread t ⟨(g (c.view t)).1, some ⟨f.call, f.entry,
      f.events ++ [.access (c.view t) (g (c.view t))], next (c.view t)⟩⟩ with
        shared := (g (c.view t)).2 } log := by
  obtain ⟨f₀, hf₀, hlike⟩ := h.frame hf
  obtain ⟨c₁, f', hr₁, h₁, hf', hcall, hhead⟩ :=
    catch_up hr hx hf hlike.rest hr' h hf₀ hlike.call rfl
  have hx₁ := h₁.exited.symm.trans hx
  have hI := h₁.assumed hr (Machine.logged_fst hr₁) t
  rw [hrest] at hhead
  generalize hrest' : f'.rest = p' at hhead
  cases hhead with
  | act hR hnext =>
    have hnone' : f'.result? = none := by rw [Frame.result?, hrest']
    have hr₂ := Machine.logged_step hr₁ (Machine.step_access hx₁ hf' hrest')
      (Machine.seen_run hf' hnone')
    rw [List.append_nil] at hr₂
    have hkept := hR _ _ hI
    refine ⟨_, _, hr₂, h₁.move (t := t) hkept.2 h₁.exited ?_ ?_ ?_, hlog⟩
    · simp only [Config.setThread, Function.update_self]
      exact ⟨hkept.1, .some ⟨hcall, hnext _ _ hI⟩⟩
    · exact fun u hu => Config.setThread_thr_other _ hu _
    · exact fun u hu => Config.setThread_thr_other _ hu _
  | left hR hnext =>
    -- the second machine does not make this access
    have hkept := hR _ _ hI
    have hthread : X.ThreadLike t ⟨(g (c.view t)).1, some ⟨f.call, f.entry,
        f.events ++ [.access (c.view t) (g (c.view t))], next (c.view t)⟩⟩ (c₁.thr t) := by
      refine ⟨hkept.1, ?_⟩
      rw [hf']
      exact .some ⟨hcall, hrest' ▸ hnext _ _ hI⟩
    refine ⟨_, _, hr₁, h₁.move (t := t) hkept.2 h₁.exited ?_ ?_ (fun _ _ => rfl), hlog⟩
    · simpa [Config.setThread] using hthread
    · exact fun u hu => Config.setThread_thr_other _ hu _

theorem matched_exited {f : Frame A κ (L × S) α} {code : Nat} (hf : (c.thr t).frame = some f)
    (hrest : f.rest = .exit code) : X.Matched { c with exited := some code } log := by
  obtain ⟨f₀, hf₀, hlike⟩ := h.frame hf
  obtain ⟨c₁, f', hr₁, h₁, hf', hcall, hhead⟩ :=
    catch_up hr hx hf hlike.rest hr' h hf₀ hlike.call rfl
  have hx₁ := h₁.exited.symm.trans hx
  rw [hrest] at hhead
  generalize hrest' : f'.rest = p' at hhead
  cases hhead with
  | exit =>
    have hnone' : f'.result? = none := by rw [Frame.result?, hrest']
    have hr₂ := Machine.logged_step hr₁ (Machine.step_exited hx₁ hf' hrest')
      (Machine.seen_run hf' hnone')
    rw [List.append_nil] at hr₂
    exact ⟨_, _, hr₂, ⟨h₁.shared, rfl, h₁.thread⟩, hlog⟩

theorem matched_answer {f : Frame A κ (L × S) α} {q : ι} {next : A q → Prog A (L × S) α}
    (x : A q) (hf : (c.thr t).frame = some f) (hrest : f.rest = .ask q next) :
    X.Matched (c.setThread t ⟨(c.thr t).own, some ⟨f.call, f.entry, f.events ++ [.answer q x],
      next x⟩⟩) (log ++ [(t, .answer q x)]) := by
  obtain ⟨f₀, hf₀, hlike⟩ := h.frame hf
  obtain ⟨c₁, f', hr₁, h₁, hf', hcall, hhead⟩ :=
    catch_up hr hx hf hlike.rest hr' h hf₀ hlike.call rfl
  rw [hrest] at hhead
  generalize hrest' : f'.rest = p' at hhead
  cases hhead with
  | ask hq hnext =>
    obtain ⟨b, hb⟩ := hq x
    have hr₂ := Machine.logged_step hr₁
      (Machine.step_answer b (h₁.exited.symm.trans hx) hf' hrest') rfl
    refine ⟨_, _, hr₂, h₁.setThread ⟨(h₁.thread t).own, .some ⟨hcall, hnext _ _ hb⟩⟩, ?_⟩
    exact List.rel_append hlog (.cons ⟨rfl, .answer hb⟩ .nil)

omit hr in
theorem matched_between {e : ε} {l : L} (hf : (c.thr t).frame = none)
    (hl : M.between e (c.thr t).own = some l) : X.Matched (c.setThread t ⟨l, none⟩) log := by
  obtain ⟨l', hl', hown⟩ := X.between (h.thread t).own hl
  have hstep : M'.step c' ⟨t, .between e⟩ = some (c'.setThread t ⟨l', none⟩) := by
    simp [Machine.step, h.exited.symm.trans hx, h.frame_none hf, hl']
  have hr'' := Machine.logged_step hr' hstep rfl
  refine ⟨_, _, hr'', h.setThread ⟨hown, .none⟩, ?_⟩
  simpa [Machine.seen] using hlog

end

/-- One step of the first machine. -/
theorem step (hr : Runs.Reachable M.system c) {a : Act A κ ε δ} (hs : M.step c a = some d)
    (hr' : Runs.Reachable M'.logged (c', log')) (h : X.Related c c')
    (hlog : X.LogLike log log') : X.Matched d (log ++ Machine.seen c a) := by
  obtain ⟨hx, hcases⟩ := Machine.seen_cases hs
  generalize Machine.seen c a = es at hcases
  cases hcases with
  | call k hk hf => exact matched_call hx hr' h hlog hk hf
  | access f g next hf hrest =>
    rw [List.append_nil]
    exact matched_access hr hx hr' h hlog hf hrest
  | answer f q next x hf hrest => exact matched_answer hr hx hr' h hlog x hf hrest
  | returned f r hf hrest => exact matched_returned hr hx hr' h hlog hf hrest
  | exited f code hf hrest =>
    rw [List.append_nil]
    exact matched_exited hr hx hr' h hlog hf hrest
  | between e l hf hl =>
    rw [List.append_nil]
    exact matched_between hx hr' h hlog hf hl
  | outside e =>
    rw [List.append_nil]
    exact ⟨c', log', hr', ⟨X.outside h.shared, h.exited, h.thread⟩, hlog⟩

/-- **Every run of the first machine is matched by one of the second.** -/
theorem sound (X : Simulation M M') (h : Runs.Reachable M.logged (c, log)) :
    ∃ c' log', Runs.Reachable M'.logged (c', log') ∧ X.Related c c' ∧ X.LogLike log log' := by
  generalize hp : (c, log) = p at h
  induction h generalizing c log with
  | init =>
    cases hp
    refine ⟨_, _, .init, ⟨X.init.2, rfl, fun t => ⟨X.init.1, .none⟩⟩, .nil⟩
  | @step p p' a hr _ hs ih =>
    obtain ⟨hstep, hnote⟩ := Runs.withHistory_step hs
    subst hp
    obtain ⟨c', log', hr', hrel, hlog⟩ := ih rfl
    cases hnote
    exact step (Machine.logged_fst hr) hstep hr' hrel hlog

end Simulation

end ScaleLockDep.Programs
