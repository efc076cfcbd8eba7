import ScaleLockDep.HookSpecs

/-!
# Calls that track nothing

* `nothing_to_track`: a call that fails, or that releases a mutex its thread does not hold,
  leaves the tracking state as it was, among any other calls;
* `traces_remain`: two traces that an unlock may still leave.
-/

namespace ScaleLockDep

namespace HookPrograms

open Programs

variable {β : Type} {c : Setup} {b : β}

/-- **What a call that tracks nothing has done by its return, and who waits meanwhile.**  Every
access of the thread during the call is known to change no tracking state. -/
theorem nothing_to_track (c : Setup) (b : β) {s : Config β}
    (h : Runs.Reachable (machine c b).system s) (t : Nat) :
    (∀ f rc, (s.thr t).frame = some f → f.result? = some rc →
      NothingToTrack c f.entry rc f.call →
        (s.view t).1.tls = f.entry.1.tls ∧ NotWaiting t f.entry ∧ NotWaiting t (s.view t) ∧
          Quiet t f.call.mutex (MayRegister f.call f.entry) f.events) ∧
    ((∀ f, (s.thr t).frame = some f → ¬ Busy f.call f.events) → NotWaiting t (s.view t)) := by
  have hholds := (contract c b).sound h t
  constructor
  · intro f rc hf hrc hn
    have hsafe := (contract c b).holds_some hholds hf
    rw [Frame.result?_eq_some.1 hrc] at hsafe
    have hret : Returned c t f.call f.entry rc f.events (s.view t) := hsafe.result
    exact ⟨(hret.unchanged hn).1, hret.notWaiting, hret.idle.2, (hret.unchanged hn).2⟩
  · intro hbusy
    cases hf : (s.thr t).frame with
    | none =>
      have hidle : Idle c t (s.view t) := (contract c b).holds_none hholds hf
      exact hidle.2
    | some f =>
      have halways : Always c t f.call f.events (s.view t) :=
        ((contract c b).holds_some hholds hf).always
      exact halways.2.resolve_right (hbusy f hf)

/-! ## What remains -/

/-- Some access of the thread takes a state to another as `p` says. -/
def accesses (p : View β → View β → Bool) (tr : Trace β) : Bool :=
  tr.any fun e =>
    match e with
    | .access v w => p v w
    | .answer _ _ => false

theorem exists_access (p : View β → View β → Bool) (tr : Trace β) (h : accesses p tr = true) :
    ∃ v w, Event.access v w ∈ tr ∧ p v w = true := by
  obtain ⟨e, he, hp⟩ := List.any_eq_true.1 h
  cases e with
  | access v w => exact ⟨v, w, he, hp⟩
  | answer q a => cases hp

abbrev Run := List (Act (Query.Answer Unit) Call Unit Unit)

/-- The first call of thread 7 is the unlock of a mutex that was never locked. -/
def firstUnlock : Run :=
  ⟨7, .call (.unlock 5)⟩ :: ⟨7, .answer (.realUnlock 5) (0 : Int)⟩ :: List.replicate 8 ⟨7, .run⟩

/-- Thread 7 takes a mutex and ends; a new thread 7 unlocks it. -/
def inheritedUnlock : Run :=
  ⟨7, .call (.lock 5 0)⟩ :: ⟨7, .run⟩ :: ⟨7, .answer (.realLock 5) (0 : Int)⟩ ::
    (List.replicate 10 ⟨7, .run⟩ ++ [⟨7, .between ()⟩, ⟨7, .call (.unlock 5)⟩,
      ⟨7, .answer (.realUnlock 5) (0 : Int)⟩] ++ List.replicate 11 ⟨7, .run⟩)

/-- The call of thread 7 at the end of a run. -/
def lastCall (c : Setup) (as : Run) : Option (Frame (Query.Answer Unit) Call (View Unit) Int) :=
  (Runs.exec (machine c ()).system (machine c ()).system.init as).bind fun s => (s.thr 7).frame

theorem lastCall_eq_some {c : Setup} {as : Run} {f : Frame (Query.Answer Unit) Call (View Unit) Int}
    (h : lastCall c as = some f) :
    ∃ s, Runs.Reachable (machine c ()).system s ∧ (s.thr 7).frame = some f := by
  obtain ⟨s, hs, hf⟩ := Option.bind_eq_some_iff.1 h
  exact ⟨s, Runs.ReachableBy.exec .init hs, hf⟩

theorem firstUnlock_runs : (lastCall ⟨.global, false, false⟩ firstUnlock).isSome = true := by
  decide +kernel

theorem inheritedUnlock_runs : (lastCall ⟨.global, false, true⟩ inheritedUnlock).isSome = true := by
  decide +kernel

/-- **The unlock of a mutex that the caller does not hold may leave a thread slot, and it takes
the owner entry of a thread that had the caller's name.** -/
theorem traces_remain :
    (∃ s f v w, Runs.Reachable (machine ⟨.global, false, false⟩ ()).system s ∧
      (s.thr 7).frame = some f ∧ f.call = .unlock 5 ∧ f.result? = some 0 ∧ Unheld 5 f.entry ∧
      Event.access v w ∈ f.events ∧ v.2.threads.keys = [] ∧ w.2.threads.keys = [7]) ∧
    (∃ s f v w, Runs.Reachable (machine ⟨.global, false, true⟩ ()).system s ∧
      (s.thr 7).frame = some f ∧ f.call = .unlock 5 ∧ f.result? = some 0 ∧ Unheld 5 f.entry ∧
      Event.access v w ∈ f.events ∧ v.2.owner 0 = some 0 ∧ w.2.owner 0 = none) := by
  constructor
  · obtain ⟨s, hs, hf⟩ := lastCall_eq_some (Option.some_get firstUnlock_runs).symm
    obtain ⟨v, w, he, hvw⟩ := exists_access
      (fun v w => decide (v.2.threads.keys = [] ∧ w.2.threads.keys = [7]))
      ((lastCall ⟨.global, false, false⟩ firstUnlock).get firstUnlock_runs).events
      (by decide +kernel)
    exact ⟨s, _, v, w, hs, hf, by decide +kernel, by decide +kernel, by decide +kernel, he,
      of_decide_eq_true hvw⟩
  · obtain ⟨s, hs, hf⟩ := lastCall_eq_some (Option.some_get inheritedUnlock_runs).symm
    obtain ⟨v, w, he, hvw⟩ := exists_access
      (fun v w => decide (v.2.owner 0 = some 0 ∧ w.2.owner 0 = none))
      ((lastCall ⟨.global, false, true⟩ inheritedUnlock).get inheritedUnlock_runs).events
      (by decide +kernel)
    exact ⟨s, _, v, w, hs, hf, by decide +kernel, by decide +kernel, by decide +kernel, he,
      of_decide_eq_true hvw⟩

theorem nothing_to_track_firstUnlock : ∃ (s : Config Unit) (f : Frame _ _ _ _),
    (s.thr 7).frame = some f ∧ f.call = .unlock 5 ∧ (s.view 7).1.tls = f.entry.1.tls ∧
      NotWaiting 7 (s.view 7) ∧ Quiet 7 f.call.mutex (MayRegister f.call f.entry) f.events := by
  obtain ⟨s, hs, hf⟩ := lastCall_eq_some (Option.some_get firstUnlock_runs).symm
  have h := nothing_to_track ⟨.global, false, false⟩ () hs 7
  have hcall : ((lastCall ⟨.global, false, false⟩ firstUnlock).get firstUnlock_runs).call =
      .unlock 5 := by decide +kernel
  obtain ⟨htls, -, -, hquiet⟩ := h.1 _ 0 hf (by decide +kernel) (by decide +kernel)
  refine ⟨s, _, hf, hcall, htls, h.2 fun f hf' => ?_, hquiet⟩
  cases hf.symm.trans hf'
  rintro ⟨m, callsite, hlock, -⟩
  cases hcall.symm.trans hlock

end HookPrograms

end ScaleLockDep
