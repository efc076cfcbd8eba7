import ScaleLockDep.Runs

/-!
# Programs of atomic accesses

A program is a sequence of atomic accesses to a state, with questions to the outside in
between.  It runs alone, or as the code of many threads whose accesses interleave.

* `alone_bind`: a program run alone, piece by piece;
* `Triple`: what a program does among other threads, from a bound on what they do; `bind`,
  `modify`, `get`, `query` and the other rules;
* `Contract.sound`: threads that keep to their bounds, in every interleaving.
-/

namespace ScaleLockDep.Programs

variable {ι : Type} {A : ι → Type} {σ α β κ L S ε δ : Type}

/-! ## Programs -/

/-- `act` changes the state and goes on with what the state was; `ask` goes on with an answer
from outside; `exit` ends the process. -/
inductive Prog (A : ι → Type) (σ α : Type)
  | ret (a : α)
  | act (f : σ → σ) (next : σ → Prog A σ α)
  | ask (q : ι) (next : A q → Prog A σ α)
  | exit (code : Nat)

namespace Prog

protected def bind : Prog A σ α → (α → Prog A σ β) → Prog A σ β
  | .ret a, k => k a
  | .act f next, k => .act f fun s => (next s).bind k
  | .ask q next, k => .ask q fun a => (next a).bind k
  | .exit code, _ => .exit code

instance : Monad (Prog A σ) where
  pure := .ret
  bind := Prog.bind

/-- A read. -/
def get (g : σ → α) : Prog A σ α := .act id fun s => .ret (g s)

/-- A write. -/
def modify (f : σ → σ) : Prog A σ Unit := .act f fun _ => .ret ()

/-- A write that returns what was read with it. -/
def exchange (f : σ → σ) (g : σ → α) : Prog A σ α := .act f fun s => .ret (g s)

def query (q : ι) : Prog A σ (A q) := .ask q .ret

end Prog

/-! ## Running alone -/

/-- `asks` is a program stopped at a question. -/
inductive Outcome (ι σ α : Type)
  | returned (a : α) (s : σ)
  | asks (q : ι) (s : σ)
  | exited (code : Nat) (s : σ)

namespace Outcome

def bind : Outcome ι σ α → (α → σ → Outcome ι σ β) → Outcome ι σ β
  | .returned a s, k => k a s
  | .asks q s, _ => .asks q s
  | .exited code s, _ => .exited code s

@[simp] theorem returned_bind (a : α) (s : σ) (k : α → σ → Outcome ι σ β) :
    (Outcome.returned a s).bind k = k a s := rfl

@[simp] theorem exited_bind (code : Nat) (s : σ) (k : α → σ → Outcome ι σ β) :
    (Outcome.exited code s : Outcome ι σ α).bind k = .exited code s := rfl

theorem bind_congr {o : Outcome ι σ α} {k k' : α → σ → Outcome ι σ β}
    (h : ∀ a s, o = .returned a s → k a s = k' a s) : o.bind k = o.bind k' := by
  cases o with
  | returned a s => exact h a s rfl
  | asks q s => rfl
  | exited code s => rfl

end Outcome

/-- Nothing else moves. -/
def alone : Prog A σ α → σ → Outcome ι σ α
  | .ret a, s => .returned a s
  | .act f next, s => alone (next s) (f s)
  | .ask q _, s => .asks q s
  | .exit code, s => .exited code s

@[simp] theorem alone_pure (a : α) (s : σ) : alone (pure a : Prog A σ α) s = .returned a s := rfl

@[simp] theorem alone_get (g : σ → α) (s : σ) :
    alone (Prog.get g : Prog A σ α) s = .returned (g s) s := rfl

@[simp] theorem alone_modify (f : σ → σ) (s : σ) :
    alone (Prog.modify f : Prog A σ Unit) s = .returned () (f s) := rfl

@[simp] theorem alone_exchange (f : σ → σ) (g : σ → α) (s : σ) :
    alone (Prog.exchange f g : Prog A σ α) s = .returned (g s) (f s) := rfl

/-- **A program run alone, piece by piece.** -/
@[simp] theorem alone_bind (p : Prog A σ α) (k : α → Prog A σ β) (s : σ) :
    alone (p >>= k) s = (alone p s).bind fun a s' => alone (k a) s' := by
  induction p generalizing s with
  | ret a => rfl
  | act f next ih => exact ih s (f s)
  | ask q next ih => rfl
  | exit code => rfl

/-! ## Among other threads -/

/-- What a thread did: an access, with the states before and after it, or an answer it got. -/
inductive Event (A : ι → Type) (σ : Type)
  | access (before after : σ)
  | answer (q : ι) (a : A q)

/-- What the other threads may do between two accesses, and what an own access may do. -/
structure Protocol (σ : Type) where
  rely : σ → σ → Prop
  guar : σ → σ → Prop
  rely_refl : ∀ s, rely s s
  rely_trans : ∀ s s' s'', rely s s' → rely s' s'' → rely s s''
  guar_refl : ∀ s, guar s s

/-- `J` holds at every point of `p`, every access meets the guarantee, and `Q` holds of
every result. -/
def Safe (P : Protocol σ) (J : List (Event A σ) → σ → Prop)
    (Q : α → List (Event A σ) → σ → Prop) : Prog A σ α → List (Event A σ) → σ → Prop
  | .ret a, tr, s => ∀ s', P.rely s s' → J tr s' ∧ Q a tr s'
  | .act f next, tr, s => ∀ s', P.rely s s' → J tr s' ∧ P.guar s' (f s') ∧
      Safe P J Q (next s') (tr ++ [.access s' (f s')]) (f s')
  | .ask q next, tr, s => ∀ s', P.rely s s' → J tr s' ∧
      ∀ a, Safe P J Q (next a) (tr ++ [.answer q a]) s'
  | .exit _, tr, s => ∀ s', P.rely s s' → J tr s'

section Safe
variable {P : Protocol σ} {J : List (Event A σ) → σ → Prop}
  {Q Q' : α → List (Event A σ) → σ → Prop} {p : Prog A σ α} {tr : List (Event A σ)} {s s' : σ}

theorem Safe.always (h : Safe P J Q p tr s) : J tr s := by
  cases p with
  | ret a => exact (h s (P.rely_refl s)).1
  | act f next => exact (h s (P.rely_refl s)).1
  | ask q next => exact (h s (P.rely_refl s)).1
  | exit code => exact h s (P.rely_refl s)

theorem Safe.result {a : α} (h : Safe P J Q (.ret a) tr s) : Q a tr s :=
  (h s (P.rely_refl s)).2

/-- The other threads do no harm. -/
theorem Safe.stable (hs : P.rely s s') (h : Safe P J Q p tr s) : Safe P J Q p tr s' := by
  cases p with
  | ret a => exact fun u hu => h u (P.rely_trans _ _ _ hs hu)
  | act f next => exact fun u hu => h u (P.rely_trans _ _ _ hs hu)
  | ask q next => exact fun u hu => h u (P.rely_trans _ _ _ hs hu)
  | exit code => exact fun u hu => h u (P.rely_trans _ _ _ hs hu)

theorem Safe.mono (hQ : ∀ a tr s, Q a tr s → Q' a tr s) (h : Safe P J Q p tr s) :
    Safe P J Q' p tr s := by
  induction p generalizing tr s with
  | ret a => exact fun s' hs' => ⟨(h s' hs').1, hQ _ _ _ (h s' hs').2⟩
  | act f next ih =>
    intro s' hs'
    obtain ⟨hJ, hG, hnext⟩ := h s' hs'
    exact ⟨hJ, hG, ih s' hnext⟩
  | ask q next ih =>
    intro s' hs'
    obtain ⟨hJ, hnext⟩ := h s' hs'
    exact ⟨hJ, fun a => ih a (hnext a)⟩
  | exit code => exact h

theorem Safe.bind {k : α → Prog A σ β} {R : β → List (Event A σ) → σ → Prop}
    (h : Safe P J (fun a tr s => Safe P J R (k a) tr s) p tr s) :
    Safe P J R (p >>= k) tr s := by
  induction p generalizing tr s with
  | ret a => exact h.result
  | act f next ih =>
    intro s' hs'
    obtain ⟨hJ, hG, hnext⟩ := h s' hs'
    exact ⟨hJ, hG, ih s' hnext⟩
  | ask q next ih =>
    intro s' hs'
    obtain ⟨hJ, hnext⟩ := h s' hs'
    exact ⟨hJ, fun a => ih a (hnext a)⟩
  | exit code => exact h

end Safe

/-- What holds at a point of a program, whatever the other threads do meanwhile. -/
structure Assertion (P : Protocol σ) (J : List (Event A σ) → σ → Prop) where
  holds : List (Event A σ) → σ → Prop
  stable : ∀ tr s s', P.rely s s' → holds tr s → holds tr s'
  always : ∀ tr s, holds tr s → J tr s

section Triple
variable {P : Protocol σ} {J : List (Event A σ) → σ → Prop} {I I' : Assertion P J}
  {Q Q' : α → Assertion P J} {R : β → Assertion P J} {p : Prog A σ α}

/-- From `I` the program gets to `Q`. -/
def Triple (I : Assertion P J) (p : Prog A σ α) (Q : α → Assertion P J) : Prop :=
  ∀ tr s, I.holds tr s → Safe P J (fun a => (Q a).holds) p tr s

theorem Triple.weaken (h : Triple I p Q) (hI : ∀ tr s, I'.holds tr s → I.holds tr s)
    (hQ : ∀ a tr s, (Q a).holds tr s → (Q' a).holds tr s) : Triple I' p Q' :=
  fun tr s hs => (h tr s (hI tr s hs)).mono hQ

theorem Triple.ret {a : α} (h : ∀ tr s, I.holds tr s → (Q a).holds tr s) :
    Triple I (pure a) Q := by
  intro tr s hs s' hs'
  have hs'' := I.stable _ _ _ hs' hs
  exact ⟨I.always _ _ hs'', h _ _ hs''⟩

theorem Triple.exit {code : Nat} : Triple I (.exit code : Prog A σ α) Q :=
  fun _ _ hs _ hs' => I.always _ _ (I.stable _ _ _ hs' hs)

/-- **Sequencing.** -/
theorem Triple.bind {k : α → Prog A σ β} (hp : Triple I p Q) (hk : ∀ a, Triple (Q a) (k a) R) :
    Triple I (p >>= k) R :=
  fun tr s hs => ((hp tr s hs).mono fun a tr s ha => hk a tr s ha).bind

/-- **One access.** -/
theorem Triple.act {f : σ → σ} {next : σ → Prog A σ α}
    (h : ∀ tr s, I.holds tr s → P.guar s (f s) ∧
      Safe P J (fun a => (Q a).holds) (next s) (tr ++ [.access s (f s)]) (f s)) :
    Triple I (.act f next) Q := by
  intro tr s hs s' hs'
  have hs'' := I.stable _ _ _ hs' hs
  exact ⟨I.always _ _ hs'', h _ _ hs''⟩

theorem Triple.exchange {f : σ → σ} {g : σ → α} (h : ∀ tr s, I.holds tr s → P.guar s (f s) ∧
    (Q (g s)).holds (tr ++ [.access s (f s)]) (f s)) : Triple I (Prog.exchange f g) Q := by
  refine Triple.act fun tr s hs => ⟨(h tr s hs).1, fun s' hs' => ?_⟩
  have hs'' := (Q (g s)).stable _ _ _ hs' (h tr s hs).2
  exact ⟨(Q (g s)).always _ _ hs'', hs''⟩

theorem Triple.modify {f : σ → σ} {Q : Unit → Assertion P J}
    (h : ∀ tr s, I.holds tr s → P.guar s (f s) ∧
      (Q ()).holds (tr ++ [.access s (f s)]) (f s)) : Triple I (Prog.modify f) Q :=
  Triple.exchange h

theorem Triple.get {g : σ → α}
    (h : ∀ tr s, I.holds tr s → (Q (g s)).holds (tr ++ [.access s s]) s) :
    Triple I (Prog.get g) Q :=
  Triple.exchange fun tr s hs => ⟨P.guar_refl s, h tr s hs⟩

theorem Triple.query {q : ι} {Q : A q → Assertion P J}
    (h : ∀ a tr s, I.holds tr s → (Q a).holds (tr ++ [.answer q a]) s) :
    Triple I (Prog.query q) Q := by
  intro tr s hs s' hs'
  have hs'' := I.stable _ _ _ hs' hs
  refine ⟨I.always _ _ hs'', fun a u hu => ?_⟩
  have ha := (Q a).stable _ _ _ hu (h a tr s' hs'')
  exact ⟨(Q a).always _ _ ha, ha⟩

theorem Triple.ite {c : Prop} [Decidable c] {p' : Prog A σ α} (hp : c → Triple I p Q)
    (hp' : ¬ c → Triple I p' Q) : Triple I (if c then p else p') Q := by
  split
  · rename_i hc
    exact hp hc
  · rename_i hc
    exact hp' hc

end Triple

/-! ## Threads -/

/-- A call in progress: the state it was made in, what the thread did since, and what is
left of the program. -/
structure Frame (A : ι → Type) (κ σ α : Type) where
  call : κ
  entry : σ
  events : List (Event A σ)
  rest : Prog A σ α

/-- What the call returns, at its end. -/
def Frame.result? (f : Frame A κ σ α) : Option α :=
  match f.rest with
  | .ret a => some a
  | _ => none

theorem Frame.result?_eq_some {f : Frame A κ σ α} {a : α} :
    f.result? = some a ↔ f.rest = .ret a := by
  unfold result?
  cases f.rest with
  | ret a' => simp
  | act g next => simp
  | ask q next => simp
  | exit code => simp

structure Thread (A : ι → Type) (κ L S α : Type) where
  own : L
  frame : Option (Frame A κ (L × S) α)

structure Config (A : ι → Type) (κ L S α : Type) where
  shared : S
  thr : Nat → Thread A κ L S α
  exited : Option Nat

/-- The code of the threads.  `between` changes the own state of a thread outside its calls,
`outside` is what is not a thread. -/
structure Machine (A : ι → Type) (κ L S α ε δ : Type) where
  own : L
  shared : S
  code : Nat → κ → Prog A (L × S) α
  valid : κ → Bool
  between : ε → L → Option L
  outside : δ → S → S

inductive Move (A : ι → Type) (κ ε δ : Type)
  | call (k : κ)
  | run
  | answer (q : ι) (a : A q)
  | between (e : ε)
  | outside (d : δ)

structure Act (A : ι → Type) (κ ε δ : Type) where
  tid : Nat
  move : Move A κ ε δ

namespace Config

def view (c : Config A κ L S α) (t : Nat) : L × S := ((c.thr t).own, c.shared)

def setThread (c : Config A κ L S α) (t : Nat) (th : Thread A κ L S α) : Config A κ L S α :=
  { c with thr := Function.update c.thr t th }

@[simp] theorem setThread_thr_self (c : Config A κ L S α) (t : Nat) (th : Thread A κ L S α) :
    (c.setThread t th).thr t = th := Function.update_self _ _ _

theorem setThread_thr_other (c : Config A κ L S α) {t u : Nat} (h : u ≠ t)
    (th : Thread A κ L S α) : (c.setThread t th).thr u = c.thr u := Function.update_of_ne h _ _

@[simp] theorem setThread_shared (c : Config A κ L S α) (t : Nat) (th : Thread A κ L S α) :
    (c.setThread t th).shared = c.shared := rfl

end Config

/-- One step of the call `f` of a thread with the view `v`: the view after it, and what is
left, or nothing once it has returned. -/
inductive FrameStep (A : ι → Type) (κ σ α : Type)
  | go (v : σ) (f : Frame A κ σ α)
  | returned
  | exited (code : Nat)
  | stuck

def Frame.run (f : Frame A κ σ α) (v : σ) : FrameStep A κ σ α :=
  match f.rest with
  | .ret _ => .returned
  | .act g next => .go (g v) ⟨f.call, f.entry, f.events ++ [.access v (g v)], next v⟩
  | .ask _ _ => .stuck
  | .exit code => .exited code

def Frame.answer [DecidableEq ι] (f : Frame A κ σ α) (v : σ) (q : ι) (a : A q) : FrameStep A κ σ α :=
  match f.rest with
  | .ask q' next =>
      if h : q = q' then
        .go v ⟨f.call, f.entry, f.events ++ [.answer q a], next (h ▸ a)⟩
      else .stuck
  | _ => .stuck

namespace Machine

variable (M : Machine A κ L S α ε δ)

/-- The configuration after a step of the call of thread `t`. -/
def after (c : Config A κ L S α) (t : Nat) : FrameStep A κ (L × S) α → Option (Config A κ L S α)
  | .go v f => some { c.setThread t ⟨v.1, some f⟩ with shared := v.2 }
  | .returned => some (c.setThread t ⟨(c.thr t).own, none⟩)
  | .exited code => some { c with exited := some code }
  | .stuck => none

def step [DecidableEq ι] (c : Config A κ L S α) (a : Act A κ ε δ) : Option (Config A κ L S α) :=
  if c.exited ≠ none then none
  else
    match a.move, (c.thr a.tid).frame with
    | .call k, none =>
        if M.valid k = true then
          some (c.setThread a.tid
            ⟨(c.thr a.tid).own, some ⟨k, c.view a.tid, [], M.code a.tid k⟩⟩)
        else none
    | .run, some f => after c a.tid (f.run (c.view a.tid))
    | .answer q x, some f => after c a.tid (f.answer (c.view a.tid) q x)
    | .between e, none =>
        (M.between e (c.thr a.tid).own).map fun l => c.setThread a.tid ⟨l, none⟩
    | .outside d, _ => some { c with shared := M.outside d c.shared }
    | _, _ => none

def system [DecidableEq ι] : Runs.System (Config A κ L S α) (Act A κ ε δ) :=
  ⟨⟨M.shared, fun _ => ⟨M.own, none⟩, none⟩, M.step⟩

/-- What one step of thread `t` can do. -/
inductive Step (c : Config A κ L S α) (t : Nat) : Config A κ L S α → Prop
  | call (k : κ) (hk : M.valid k = true) (hf : (c.thr t).frame = none) :
      Step c t (c.setThread t ⟨(c.thr t).own, some ⟨k, c.view t, [], M.code t k⟩⟩)
  | access (f : Frame A κ (L × S) α) (g : L × S → L × S) (next : L × S → Prog A (L × S) α)
      (hf : (c.thr t).frame = some f) (hrest : f.rest = .act g next) :
      Step c t { c.setThread t ⟨(g (c.view t)).1, some ⟨f.call, f.entry,
        f.events ++ [.access (c.view t) (g (c.view t))], next (c.view t)⟩⟩ with
          shared := (g (c.view t)).2 }
  | answer (f : Frame A κ (L × S) α) (q : ι) (next : A q → Prog A (L × S) α) (a : A q)
      (hf : (c.thr t).frame = some f) (hrest : f.rest = .ask q next) :
      Step c t { c.setThread t ⟨(c.thr t).own, some ⟨f.call, f.entry,
        f.events ++ [.answer q a], next a⟩⟩ with shared := c.shared }
  | returned (f : Frame A κ (L × S) α) (a : α) (hf : (c.thr t).frame = some f)
      (hrest : f.rest = .ret a) : Step c t (c.setThread t ⟨(c.thr t).own, none⟩)
  | exited (f : Frame A κ (L × S) α) (code : Nat) (hf : (c.thr t).frame = some f)
      (hrest : f.rest = .exit code) : Step c t { c with exited := some code }
  | between (e : ε) (l : L) (hf : (c.thr t).frame = none)
      (hl : M.between e (c.thr t).own = some l) : Step c t (c.setThread t ⟨l, none⟩)
  | outside (d : δ) : Step c t { c with shared := M.outside d c.shared }

variable {M} {c c' : Config A κ L S α} {t u : Nat}

/-- **Step inversion.** -/
theorem step_cases [DecidableEq ι] {a : Act A κ ε δ} (h : M.system.step c a = some c') :
    c.exited = none ∧ M.Step c a.tid c' := by
  change M.step c a = some c' at h
  unfold step at h
  split at h
  · cases h
  · rename_i hx
    refine ⟨by simpa using hx, ?_⟩
    split at h
    case h_1 k hm hf =>
      split at h
      · rename_i hk
        cases h
        exact .call k hk hf
      · cases h
    case h_2 f hm hf =>
      cases hrest : f.rest with
      | ret a =>
        simp only [Frame.run, hrest, after, Option.some.injEq] at h
        exact h ▸ .returned f a hf hrest
      | act g next =>
        simp only [Frame.run, hrest, after, Option.some.injEq] at h
        exact h ▸ .access f g next hf hrest
      | ask q next =>
        simp only [Frame.run, hrest, after] at h
        cases h
      | exit code =>
        simp only [Frame.run, hrest, after, Option.some.injEq] at h
        exact h ▸ .exited f code hf hrest
    case h_3 q x f hm hf =>
      cases hrest : f.rest with
      | ask q' next =>
        simp only [Frame.answer, hrest] at h
        split at h
        · rename_i hq
          subst hq
          simp only [after, Option.some.injEq] at h
          exact h ▸ .answer f q next x hf hrest
        · cases h
      | ret a =>
        simp only [Frame.answer, hrest, after] at h
        cases h
      | act g next =>
        simp only [Frame.answer, hrest, after] at h
        cases h
      | exit code =>
        simp only [Frame.answer, hrest, after] at h
        cases h
    case h_4 e hm hf =>
      obtain ⟨l, hl, rfl⟩ := Option.map_eq_some_iff.1 h
      exact .between e l hf hl
    case h_5 d hm =>
      cases h
      exact .outside d
    case h_6 => cases h

end Machine

/-! ## Contracts -/

/-- What each thread keeps to: between its calls (`idle`), at every point of a call
(`always`), and when a call returns (`post`; the state of the call and what the thread did
since are known). -/
structure Contract (M : Machine A κ L S α ε δ) where
  proto : Nat → Protocol (L × S)
  idle : Nat → L × S → Prop
  always : Nat → κ → L × S → List (Event A (L × S)) → L × S → Prop
  post : Nat → κ → L × S → α → List (Event A (L × S)) → L × S → Prop
  idle_stable : ∀ t v w, (proto t).rely v w → idle t v → idle t w
  init : ∀ t, idle t (M.own, M.shared)
  code : ∀ t k v, M.valid k = true → idle t v →
    Safe (proto t) (always t k v) (post t k v) (M.code t k) [] v
  returned : ∀ t k v a tr w, post t k v a tr w → idle t w
  /-- an access of one thread, seen by another -/
  other : ∀ t u l l' x s s', u ≠ t → (proto t).guar (l, s) (l', s') →
    (proto u).rely (x, s) (x, s')
  between : ∀ t e l l' s, idle t (l, s) → M.between e l = some l' → idle t (l', s)
  outside : ∀ t x d s, (proto t).rely (x, s) (x, M.outside d s)

namespace Contract

variable {M : Machine A κ L S α ε δ} (C : Contract M) {c c' : Config A κ L S α} {t u : Nat}

/-- Thread `t` is where its contract wants it. -/
def Holds (c : Config A κ L S α) (t : Nat) : Prop :=
  match (c.thr t).frame with
  | none => C.idle t (c.view t)
  | some f => Safe (C.proto t) (C.always t f.call f.entry) (C.post t f.call f.entry) f.rest
      f.events (c.view t)

theorem holds_none (h : C.Holds c t) (hf : (c.thr t).frame = none) : C.idle t (c.view t) := by
  rw [Holds, hf] at h
  exact h

theorem holds_some (h : C.Holds c t) {f : Frame A κ (L × S) α}
    (hf : (c.thr t).frame = some f) : Safe (C.proto t) (C.always t f.call f.entry)
      (C.post t f.call f.entry) f.rest f.events (c.view t) := by
  rw [Holds, hf] at h
  exact h

/-- A thread that does not move. -/
theorem holds_other (h : C.Holds c u) (hthr : c'.thr u = c.thr u)
    (hs : (C.proto u).rely ((c.thr u).own, c.shared) ((c.thr u).own, c'.shared)) :
    C.Holds c' u := by
  have hview : (C.proto u).rely (c.view u) (c'.view u) := by
    rw [Config.view, Config.view, hthr]
    exact hs
  cases hf : (c.thr u).frame with
  | none =>
    rw [Holds, hthr, hf]
    exact C.idle_stable u _ _ hview (C.holds_none h hf)
  | some f =>
    rw [Holds, hthr, hf]
    exact (C.holds_some h hf).stable hview

theorem holds_step (h : ∀ u, C.Holds c u) (hs : M.Step c t c') (u : Nat) : C.Holds c' u := by
  by_cases hu : u = t
  · subst hu
    cases hs with
    | call k hk hf =>
      simp only [Holds, Config.setThread_thr_self]
      have hview : (c.setThread u ⟨(c.thr u).own, some ⟨k, c.view u, [], M.code u k⟩⟩).view u =
          c.view u := by
        simp [Config.view]
      rw [hview]
      exact C.code u k _ hk (C.holds_none (h u) hf)
    | access f g next hf hrest =>
      have hsafe := C.holds_some (h u) hf
      rw [hrest] at hsafe
      simp only [Holds, Config.setThread_thr_self, Config.view]
      exact (hsafe _ ((C.proto u).rely_refl _)).2.2
    | answer f q next a hf hrest =>
      have hsafe := C.holds_some (h u) hf
      rw [hrest] at hsafe
      simp only [Holds, Config.setThread_thr_self, Config.view]
      exact (hsafe _ ((C.proto u).rely_refl _)).2 a
    | returned f a hf hrest =>
      have hsafe := C.holds_some (h u) hf
      rw [hrest] at hsafe
      simp only [Holds, Config.setThread_thr_self, Config.view]
      exact C.returned u _ _ a _ _ hsafe.result
    | exited f code hf hrest => exact h u
    | between e l hf hl =>
      have hidle := C.holds_none (h u) hf
      simp only [Holds, Config.setThread_thr_self, Config.view]
      exact C.between u e _ l _ hidle hl
    | outside d => exact C.holds_other (h u) rfl (C.outside u _ d _)
  · have hrefl := (C.proto u).rely_refl ((c.thr u).own, c.shared)
    cases hs with
    | access f g next hf hrest =>
      have hsafe := C.holds_some (h t) hf
      rw [hrest] at hsafe
      have hguar := (hsafe _ ((C.proto t).rely_refl _)).2.1
      exact C.holds_other (h u) (Config.setThread_thr_other _ hu _)
        (C.other t u _ _ _ _ _ hu hguar)
    | exited f code hf hrest => exact h u
    | outside d => exact C.holds_other (h u) rfl (C.outside u _ d _)
    | _ => exact C.holds_other (h u) (Config.setThread_thr_other _ hu _) hrefl

/-- **Every thread is where its contract wants it, in every interleaving.** -/
theorem sound [DecidableEq ι] (h : Runs.Reachable M.system c) (t : Nat) : C.Holds c t := by
  have hinit : ∀ t, C.Holds M.system.init t := fun t => C.init t
  exact h.invariant (P := fun c => ∀ t, C.Holds c t) hinit
    (fun _ _ _ _ I _ hs => C.holds_step I (Machine.step_cases hs).2) t

end Contract

end ScaleLockDep.Programs
