import ScaleLockDep.LockHistory

/-!
# What the application threads do

An abstract view of the threads, shared by both backends: the completed calls of
each thread and the acquisition whose hook it is in.

* `Pair`: a lock-order pair that some acquisition stands for, complete or being
  recorded;
* `Pair.step`, `pair_of_step`: a pair is never lost, and where it comes from;
* `Ordered.step`, `Blocked.step`: what conditions on the acquisitions mean for the
  pairs.
-/

namespace ScaleLockDep

/-- `call t` is the acquisition thread `t` is recording. -/
structure Activity where
  hist : Nat → List Op
  call : Nat → Option Call

namespace Activity

def held (A : Activity) (t : Nat) : List Nat := heldAfter (A.hist t)

/-- What thread `t` itself can do. -/
inductive Own (A A' : Activity) (t : Nat) (mv : Move) : Prop
  | stay (hh : A'.hist t = A.hist t) (hc : A'.call t = A.call t)
  | start (c : Call) (hmv : mv = .acquire c) (hn : A.call t = none) (hh : A'.hist t = A.hist t)
      (hc : A'.call t = some c)
  | finish (c : Call) (hn : A.call t = some c)
      (hh : A'.hist t = A.hist t ++ [.acquire c.api c.lockSlot]) (hc : A'.call t = none)
  /-- the first lock of a thread -/
  | top (c : Call) (hnil : A.held t = []) (hn : A.call t = none)
      (hh : A'.hist t = A.hist t ++ [.acquire c.api c.lockSlot]) (hc : A'.call t = none)
  | release (l : Nat) (hn : A.call t = none) (hh : A'.hist t = A.hist t ++ [.release l])
      (hc : A'.call t = none)

structure Step (A : Activity) (t : Nat) (mv : Move) (A' : Activity) : Prop where
  own : Own A A' t mv
  others : ∀ u, u ≠ t → A'.hist u = A.hist u ∧ A'.call u = A.call u

theorem Step.refl (A : Activity) (t : Nat) (mv : Move) : Step A t mv A :=
  ⟨.stay rfl rfl, fun _ _ => ⟨rfl, rfl⟩⟩

/-- Some thread acquired `v` through a call that meets `P` while holding `u ≠ v`; the
acquisition is complete or being recorded. -/
def Pair (P : Api → Prop) (A : Activity) (u v : Nat) : Prop :=
  (∃ t api, P api ∧ Acquired (A.hist t) api u v) ∨
    ∃ t c, A.call t = some c ∧ P c.api ∧ c.lockSlot = v ∧ u ≠ v ∧ u ∈ A.held t

/-- The pairs of all acquisitions. -/
abbrev Claimed : Activity → Nat → Nat → Prop := Pair fun _ => True

/-- The pairs of the acquisitions that could have blocked. -/
abbrev BlockingPair : Activity → Nat → Nat → Prop := Pair fun api => api = .lock

variable {A A' : Activity} {t : Nat} {mv : Move} {P : Api → Prop} {u v : Nat}

theorem Own.hist_cases (h : Own A A' t mv) :
    A'.hist t = A.hist t ∨ ∃ op, A'.hist t = A.hist t ++ [op] := by
  cases h with
  | stay hh hc => exact Or.inl hh
  | start c hmv hn hh hc => exact Or.inl hh
  | finish c hn hh hc => exact Or.inr ⟨_, hh⟩
  | top c hnil hn hh hc => exact Or.inr ⟨_, hh⟩
  | release l hn hh hc => exact Or.inr ⟨_, hh⟩

/-- What has been acquired stays so. -/
theorem Step.acquired (h : Step A t mv A') {w : Nat} {api : Api} (ha : Acquired (A.hist w) api u v) :
    Acquired (A'.hist w) api u v := by
  by_cases hw : w = t
  · subst hw
    rcases h.own.hist_cases with he | ⟨op, he⟩
    · rwa [he]
    · rw [he]
      exact acquired_concat.mpr (Or.inl ha)
  · rwa [(h.others w hw).1]

/-- An acquisition that is being recorded goes on, or is complete. -/
theorem Step.call_goes_on (h : Step A t mv A') {w : Nat} {c : Call} (hc : A.call w = some c) :
    (A'.call w = some c ∧ A'.held w = A.held w) ∨
      A'.hist w = A.hist w ++ [.acquire c.api c.lockSlot] := by
  by_cases hw : w = t
  · subst hw
    cases h.own with
    | stay hh hc' => exact Or.inl ⟨hc'.trans hc, by rw [held, hh, held]⟩
    | finish d hn hh hc' =>
      obtain rfl : d = c := Option.some.inj (hn.symm.trans hc)
      exact Or.inr hh
    | start d hmv hn hh hc' => exact absurd (hn.symm.trans hc) nofun
    | top d hnil hn hh hc' => exact absurd (hn.symm.trans hc) nofun
    | release l hn hh hc' => exact absurd (hn.symm.trans hc) nofun
  · obtain ⟨hh, hc'⟩ := h.others w hw
    exact Or.inl ⟨hc'.trans hc, by rw [held, hh, held]⟩

/-- **A pair is never lost**: what is being recorded comes to be complete. -/
theorem Pair.step (hA : Pair P A u v) (h : Step A t mv A') : Pair P A' u v := by
  rcases hA with ⟨w, api, hP, ha⟩ | ⟨w, c, hc, hP, rfl, hne, hu⟩
  · exact Or.inl ⟨w, api, hP, h.acquired ha⟩
  · rcases h.call_goes_on hc with ⟨hc', hheld⟩ | he
    · exact Or.inr ⟨w, c, hc', hP, rfl, hne, hheld ▸ hu⟩
    · refine Or.inl ⟨w, c.api, hP, ?_⟩
      rw [he]
      exact acquired_concat.mpr (Or.inr ⟨rfl, hne, hu⟩)

theorem Pair.ne (hA : Pair P A u v) : u ≠ v := by
  rcases hA with ⟨w, api, -, ha⟩ | ⟨w, c, -, -, -, hne, -⟩
  · exact ha.1
  · exact hne

theorem Pair.claimed (hA : Pair P A u v) : Claimed A u v := by
  rcases hA with ⟨w, api, -, ha⟩ | ⟨w, c, hc, -, hr⟩
  · exact Or.inl ⟨w, api, trivial, ha⟩
  · exact Or.inr ⟨w, c, hc, trivial, hr⟩

/-- **Where a pair comes from**: it is an old one, or this step starts to acquire `v`
while `u` is held. -/
theorem pair_of_step (h : Step A t mv A') (hA' : Pair P A' u v) : Pair P A u v ∨
    ∃ c, mv = .acquire c ∧ P c.api ∧ c.lockSlot = v ∧ A'.call t = some c ∧
      A'.held t = A.held t ∧ u ∈ A.held t := by
  have hold : ∀ w, (A'.hist w = A.hist w ∧ A'.call w = A.call w) →
      ((∃ api, P api ∧ Acquired (A'.hist w) api u v) ∨
        ∃ c, A'.call w = some c ∧ P c.api ∧ c.lockSlot = v ∧ u ≠ v ∧ u ∈ A'.held w) →
      Pair P A u v := by
    rintro w ⟨hh, hc⟩ (⟨api, hP, ha⟩ | ⟨c, hc', hP, hv, hne, hu⟩)
    · exact Or.inl ⟨w, api, hP, hh ▸ ha⟩
    · exact Or.inr ⟨w, c, hc ▸ hc', hP, hv, hne, by rwa [held, hh] at hu⟩
  have hw : ∃ w, (∃ api, P api ∧ Acquired (A'.hist w) api u v) ∨
      ∃ c, A'.call w = some c ∧ P c.api ∧ c.lockSlot = v ∧ u ≠ v ∧ u ∈ A'.held w := by
    rcases hA' with ⟨w, ha⟩ | ⟨w, hc⟩
    · exact ⟨w, Or.inl ha⟩
    · exact ⟨w, Or.inr hc⟩
  obtain ⟨w, hw⟩ := hw
  by_cases hwt : w = t
  · subst hwt
    cases h.own with
    | stay hh hc => exact Or.inl (hold w ⟨hh, hc⟩ hw)
    | start c hmv hn hh hc =>
      rcases hw with ⟨api, hP, ha⟩ | ⟨d, hd, hP, hv, -, hu⟩
      · exact Or.inl (Or.inl ⟨w, api, hP, hh ▸ ha⟩)
      · obtain rfl : c = d := Option.some.inj (hc.symm.trans hd)
        have hheld : A'.held w = A.held w := by rw [held, hh, held]
        exact Or.inr ⟨c, hmv, hP, hv, hc, hheld, hheld ▸ hu⟩
    | finish c hn hh hc =>
      left
      rcases hw with ⟨api, hP, ha⟩ | ⟨d, hd, -⟩
      · rw [hh, acquired_concat] at ha
        rcases ha with ha | ⟨ho, hne, hu⟩
        · exact Or.inl ⟨w, api, hP, ha⟩
        · cases ho
          exact Or.inr ⟨w, c, hn, hP, rfl, hne, hu⟩
      · exact absurd (hc.symm.trans hd) nofun
    | top c hnil hn hh hc =>
      left
      rcases hw with ⟨api, hP, ha⟩ | ⟨d, hd, -⟩
      · rw [hh, acquired_concat] at ha
        rcases ha with ha | ⟨-, -, hu⟩
        · exact Or.inl ⟨w, api, hP, ha⟩
        · rw [held] at hnil
          rw [hnil] at hu
          cases hu
      · exact absurd (hc.symm.trans hd) nofun
    | release l hn hh hc =>
      left
      rcases hw with ⟨api, hP, ha⟩ | ⟨d, hd, -⟩
      · rw [hh, acquired_concat] at ha
        rcases ha with ha | ⟨ho, -⟩
        · exact Or.inl ⟨w, api, hP, ha⟩
        · cases ho
      · exact absurd (hc.symm.trans hd) nofun
  · exact Or.inl (hold w (h.others w hwt) hw)

/-! ## Conditions on the acquisitions -/

variable {β : Type} [Preorder β]

/-- The pairs go up in the order given by `rank`. -/
def Ordered (P : Api → Prop) (rank : Nat → β) (A : Activity) : Prop :=
  ∀ u v, Pair P A u v → rank u < rank v

/-- What the move acquires, if through a call that meets `P`, is above every other
lock the thread holds. -/
def AcquiresUp (P : Api → Prop) (rank : Nat → β) (A : Activity) (t : Nat) (mv : Move) : Prop :=
  ∀ c, mv = .acquire c → P c.api → ∀ u, u ∈ A.held t → u ≠ c.lockSlot →
    rank u < rank c.lockSlot

theorem Ordered.step {rank : Nat → β} (hA : Ordered P rank A) (h : Step A t mv A')
    (hg : AcquiresUp P rank A t mv) : Ordered P rank A' := by
  intro u v hp
  rcases pair_of_step h hp with hp' | ⟨c, hmv, hP, rfl, -, -, hu⟩
  · exact hA u v hp'
  · exact hg c hmv hP u hu hp.ne

/-- A lock the thread does not hold is above all it holds. -/
def NewUp (rank : Nat → β) (A : Activity) (t : Nat) (mv : Move) : Prop :=
  ∀ c, mv = .acquire c → c.lockSlot ∉ A.held t → ∀ u, u ∈ A.held t → rank u < rank c.lockSlot

/-- A lock the thread holds already has edges from all others it holds. -/
def ReacquiresKnown (edge : Nat → Nat → Prop) (A : Activity) (t : Nat) (mv : Move) : Prop :=
  ∀ c, mv = .acquire c → c.lockSlot ∈ A.held t → ∀ u, u ∈ A.held t → u ≠ c.lockSlot →
    edge u c.lockSlot

/-- The locks `t` holds, `v` apart, meet `p`. -/
def othersAll (A : Activity) (t v : Nat) (p : Nat → Bool) : Bool :=
  (A.held t).all fun u => u == v || p u

theorem othersAll_iff {p : Nat → Bool} :
    A.othersAll t v p = true ↔ ∀ u, u ∈ A.held t → u ≠ v → p u = true := by
  simp [othersAll, or_iff_not_imp_left]

/-- Every pair is one of an acquisition that could have blocked. -/
def Blocked (A : Activity) : Prop := ∀ u v, Claimed A u v → BlockingPair A u v

/-- A `pthread_mutex_trylock` gives no new pair. -/
def TriesBlocked (A : Activity) (t : Nat) (mv : Move) : Prop :=
  ∀ c, mv = .acquire c → c.api = .trylock → ∀ u, u ∈ A.held t → u ≠ c.lockSlot →
    BlockingPair A u c.lockSlot

theorem Blocked.step (hA : Blocked A) (h : Step A t mv A') (hg : TriesBlocked A t mv) :
    Blocked A' := by
  intro u v hp
  rcases pair_of_step h hp with hp' | ⟨c, hmv, -, rfl, hc, hheld, hu⟩
  · exact (hA u v hp').step h
  · cases hapi : c.api with
    | lock => exact Or.inr ⟨t, c, hc, hapi, rfl, hp.ne, hheld ▸ hu⟩
    | trylock => exact (hg c hmv hapi u hu hp.ne).step h

end Activity

end ScaleLockDep
