import ScaleLockDep.Programs

/-!
# Bounds on programs among other threads

What the accesses and the exits of a program keep to, and how many accesses and questions it
makes, whatever the other threads do to the shared state in between.  A thread's own state is its
alone, so it is followed exactly; of the shared state an invariant is known at every access.

* `Within`: with the rules for each construct, `Within.bind` adding the bounds up;
* `Bounds.sound`: from bounds on the code of the calls, what holds in every interleaving;
* `Bounds.invariant`: what every access preserves.
-/

namespace ScaleLockDep.Programs

variable {ι : Type} {A : ι → Type} {α β κ L S ε δ : Type}

/-- `inv` may be relied on at every access, `guar` holds of every access, and `exits` of every
exit and the events before it. -/
structure Limits (A : ι → Type) (L S : Type) where
  inv : L × S → Prop
  guar : L × S → L × S → Prop
  exits : Nat → List (Event A (L × S)) → Prop

/-- From the own state `l` and the events `tr`, at most `n` more accesses and questions. -/
def Within (X : Limits A L S) (Q : α → L → List (Event A (L × S)) → Prop) :
    Prog A (L × S) α → Nat → L → List (Event A (L × S)) → Prop
  | .ret a, _, l, tr => Q a l tr
  | .act f next, n, l, tr => ∃ m, n = m + 1 ∧ ∀ s, X.inv (l, s) → X.guar (l, s) (f (l, s)) ∧
      Within X Q (next (l, s)) m (f (l, s)).1 (tr ++ [.access (l, s) (f (l, s))])
  | .ask q next, n, l, tr => ∃ m, n = m + 1 ∧ ∀ a, Within X Q (next a) m l (tr ++ [.answer q a])
  | .exit code, _, _, tr => X.exits code tr

section Within
variable {X : Limits A L S} {Q Q' : α → L → List (Event A (L × S)) → Prop}
  {R : β → L → List (Event A (L × S)) → Prop} {p : Prog A (L × S) α} {n m N : Nat} {l : L}
  {tr : List (Event A (L × S))}

theorem Within.mono (h : Within X Q p n l tr) (hle : n ≤ m)
    (hQ : ∀ a l tr, Q a l tr → Q' a l tr) : Within X Q' p m l tr := by
  induction p generalizing n m l tr with
  | ret a => exact hQ a l tr h
  | act f next ih =>
    obtain ⟨k, rfl, hnext⟩ := h
    refine ⟨m - 1, by omega, fun s hs => ?_⟩
    exact ⟨(hnext s hs).1, ih _ (hnext s hs).2 (by omega)⟩
  | ask q next ih =>
    obtain ⟨k, rfl, hnext⟩ := h
    exact ⟨m - 1, by omega, fun a => ih a (hnext a) (by omega)⟩
  | exit code => exact h

/-- **Sequencing**: the bounds add up. -/
theorem Within.bind {k : α → Prog A (L × S) β} (h : Within X Q p n l tr)
    (hk : ∀ a l tr, Q a l tr → Within X R (k a) m l tr) (hN : n + m ≤ N) :
    Within X R (p >>= k) N l tr := by
  induction p generalizing n N l tr with
  | ret a => exact (hk a l tr h).mono (by omega) fun _ _ _ hR => hR
  | act f next ih =>
    obtain ⟨j, rfl, hnext⟩ := h
    refine ⟨N - 1, by omega, fun s hs => ?_⟩
    exact ⟨(hnext s hs).1, ih _ (hnext s hs).2 (by omega)⟩
  | ask q next ih =>
    obtain ⟨j, rfl, hnext⟩ := h
    exact ⟨N - 1, by omega, fun a => ih a (hnext a) (by omega)⟩
  | exit code => exact h

/-- The events before stay. -/
theorem Within.extends (h : Within X Q p n l tr) :
    Within X (fun a l' tr' => Q a l' tr' ∧ tr <+: tr') p n l tr := by
  induction p generalizing n l tr with
  | ret a => exact ⟨h, List.prefix_rfl⟩
  | act f next ih =>
    obtain ⟨m, rfl, hnext⟩ := h
    refine ⟨m, rfl, fun s hs => ⟨(hnext s hs).1, ?_⟩⟩
    exact (ih _ (hnext s hs).2).mono (Nat.le_refl m) fun _ _ _ hQ =>
      ⟨hQ.1, (List.prefix_append _ _).trans hQ.2⟩
  | ask q next ih =>
    obtain ⟨m, rfl, hnext⟩ := h
    refine ⟨m, rfl, fun a => ?_⟩
    exact (ih a (hnext a)).mono (Nat.le_refl m) fun _ _ _ hQ =>
      ⟨hQ.1, (List.prefix_append _ _).trans hQ.2⟩
  | exit code => exact h

theorem Within.ret {a : α} (h : Q a l tr) : Within X Q (pure a) n l tr := h

theorem Within.exit {code : Nat} (h : X.exits code tr) :
    Within X Q (.exit code : Prog A (L × S) α) n l tr := h

/-- **One access.** -/
theorem Within.exchange {f : L × S → L × S} {g : L × S → α}
    (h : ∀ s, X.inv (l, s) → X.guar (l, s) (f (l, s)) ∧
      Q (g (l, s)) (f (l, s)).1 (tr ++ [.access (l, s) (f (l, s))])) :
    Within X Q (Prog.exchange f g) 1 l tr := ⟨0, rfl, h⟩

theorem Within.modify {f : L × S → L × S} {Q : Unit → L → List (Event A (L × S)) → Prop}
    (h : ∀ s, X.inv (l, s) → X.guar (l, s) (f (l, s)) ∧
      Q () (f (l, s)).1 (tr ++ [.access (l, s) (f (l, s))])) :
    Within X Q (Prog.modify f) 1 l tr := ⟨0, rfl, h⟩

theorem Within.get {g : L × S → α}
    (h : ∀ s, X.inv (l, s) → X.guar (l, s) (l, s) ∧
      Q (g (l, s)) l (tr ++ [.access (l, s) (l, s)])) :
    Within X Q (Prog.get g) 1 l tr := ⟨0, rfl, h⟩

theorem Within.query {q : ι} {Q : A q → L → List (Event A (L × S)) → Prop}
    (h : ∀ a, Q a l (tr ++ [.answer q a])) : Within X Q (Prog.query q) 1 l tr := ⟨0, rfl, h⟩

theorem Within.ite {c : Prop} [Decidable c] {p' : Prog A (L × S) α}
    (hp : c → Within X Q p n l tr) (hp' : ¬ c → Within X Q p' n l tr) :
    Within X Q (if c then p else p') n l tr := by
  split
  · rename_i hc
    exact hp hc
  · rename_i hc
    exact hp' hc

end Within

/-! ## Threads -/

/-- Bounds on the calls of a machine. -/
structure Bounds [DecidableEq ι] (M : Machine A κ L S α ε δ) where
  inv : Nat → L × S → Prop
  guar : Nat → L × S → L × S → Prop
  exits : Nat → κ → Nat → List (Event A (L × S)) → Prop
  steps : κ → Nat
  reachable : ∀ {c}, Runs.Reachable M.system c → ∀ t, inv t (c.view t)
  code : ∀ t k l, M.valid k = true → Within ⟨inv t, guar t, exits t k⟩ (fun _ _ _ => True)
    (M.code t k) (steps k) l []

namespace Bounds

variable [DecidableEq ι] {M : Machine A κ L S α ε δ} (X : Bounds M)

def limits (t : Nat) (k : κ) : Limits A L S := ⟨X.inv t, X.guar t, X.exits t k⟩

/-- A call in progress, at the own state `l`. -/
def Kept (t : Nat) (l : L) (f : Frame A κ (L × S) α) : Prop :=
  ∃ n, f.events.length + n ≤ X.steps f.call ∧
    Within (X.limits t f.call) (fun _ _ _ => True) f.rest n l f.events

/-- An exit is one of a call. -/
def Justified (c : Config A κ L S α) (code : Nat) : Prop :=
  ∃ t f, (c.thr t).frame = some f ∧ f.rest = .exit code ∧ X.exits t f.call code f.events

variable {X} {c c' : Config A κ L S α} {t u : Nat}

/-- The access a thread makes. -/
theorem Kept.access (hr : Runs.Reachable M.system c) {f : Frame A κ (L × S) α}
    (hK : X.Kept t (c.thr t).own f) {g : L × S → L × S} {next : L × S → Prog A (L × S) α}
    (hrest : f.rest = .act g next) : X.guar t (c.view t) (g (c.view t)) ∧
      X.Kept t (g (c.view t)).1 ⟨f.call, f.entry, f.events ++ [.access (c.view t) (g (c.view t))],
        next (c.view t)⟩ := by
  obtain ⟨n, hn, hW⟩ := hK
  rw [hrest] at hW
  obtain ⟨m, rfl, hnext⟩ := hW
  obtain ⟨hG, hW'⟩ := hnext c.shared (X.reachable hr t)
  refine ⟨hG, m, ?_, hW'⟩
  show (f.events ++ [_]).length + m ≤ X.steps f.call
  rw [List.length_append, List.length_singleton]
  omega

/-- Every call in progress keeps to its bounds, and every exit is justified. -/
structure Held (X : Bounds M) (c : Config A κ L S α) : Prop where
  kept : ∀ t f, (c.thr t).frame = some f → X.Kept t (c.thr t).own f
  exited : ∀ code, c.exited = some code → X.Justified c code

/-- Only thread `t` has moved. -/
theorem Held.move (H : X.Held c) {x : Thread A κ L S α} {s : S}
    (hx : c.exited = none) (ht : ∀ f, x.frame = some f → X.Kept t x.own f) :
    X.Held { c.setThread t x with shared := s } where
  kept u f hf := by
    by_cases hu : u = t
    · subst hu
      simp only [Config.setThread_thr_self] at hf ⊢
      exact ht f hf
    · simp only [Config.setThread_thr_other _ hu] at hf ⊢
      exact H.kept u f hf
  exited code hcode := by
    change c.exited = some code at hcode
    rw [hx] at hcode
    cases hcode

/-- One step of a thread. -/
theorem held_step (hr : Runs.Reachable M.system c) (H : X.Held c) (hx : c.exited = none)
    (hs : M.Step c t c') : X.Held c' := by
  cases hs with
  | call k hk hf =>
    refine H.move (s := c.shared) hx fun f hf' => ?_
    cases hf'
    exact ⟨X.steps k, by simp, X.code t k _ hk⟩
  | access f g next hf hrest =>
    refine H.move hx fun f' hf' => ?_
    cases hf'
    exact (Kept.access hr (H.kept t f hf) hrest).2
  | answer f q next a hf hrest =>
    refine H.move hx fun f' hf' => ?_
    cases hf'
    obtain ⟨n, hn, hW⟩ := H.kept t f hf
    rw [hrest] at hW
    obtain ⟨m, rfl, hnext⟩ := hW
    refine ⟨m, ?_, hnext a⟩
    show (f.events ++ [_]).length + m ≤ X.steps f.call
    rw [List.length_append, List.length_singleton]
    omega
  | returned f a hf hrest =>
    refine H.move (s := c.shared) hx fun f' hf' => ?_
    cases hf'
  | exited f code hf hrest =>
    refine ⟨H.kept, fun code' hcode => ?_⟩
    cases hcode
    obtain ⟨n, hn, hW⟩ := H.kept t f hf
    rw [hrest] at hW
    exact ⟨t, f, hf, hrest, hW⟩
  | between e l hf hl =>
    refine H.move (s := c.shared) hx fun f' hf' => ?_
    cases hf'
  | outside d =>
    refine ⟨H.kept, fun code hcode => ?_⟩
    change c.exited = some code at hcode
    rw [hx] at hcode
    cases hcode

/-- **Every interleaving keeps to the bounds.** -/
theorem sound (h : Runs.Reachable M.system c) : X.Held c :=
  h.invariant (P := X.Held)
    ⟨fun t f hf => (by cases hf), fun code hcode => (by cases hcode)⟩
    fun _ _ _ hr H _ hs => held_step hr H (Machine.step_cases hs).1 (Machine.step_cases hs).2

/-- **What every access preserves** holds of the shared state of every run. -/
theorem invariant {P : S → Prop} (hinit : P M.shared)
    (hguar : ∀ t v w, X.inv t v → X.guar t v w → P v.2 → P w.2)
    (houtside : ∀ d s, P s → P (M.outside d s)) (h : Runs.Reachable M.system c) : P c.shared :=
  h.invariant (P := fun c => P c.shared) hinit fun c c' a hr hP _ hs => by
    have hstep := (Machine.step_cases hs).2
    cases hstep with
    | access f g next hf hrest =>
      have hG := (Kept.access hr ((sound (X := X) hr).kept _ f hf) hrest).1
      exact hguar _ _ _ (X.reachable hr _) hG hP
    | outside d => exact houtside d _ hP
    | call k hk hf => exact hP
    | answer f q next a hf hrest => exact hP
    | returned f a hf hrest => exact hP
    | exited f code hf hrest => exact hP
    | between e l hf hl => exact hP

end Bounds

end ScaleLockDep.Programs
