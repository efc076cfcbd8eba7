import ScaleLockDep.Registry

/-!
# Coherence of the slot registries

* `Inv`, `inv`: what the program points of the threads say about the tables, and what the
  caches and the results of earlier calls say;
* `registries_coherent`: slots, results and caches agree in every reachable state, later
  steps keep them, and only a registration in a full table panics.
-/

namespace ScaleLockDep.Registry

open AppendTable State

/-- The program point is under `g_meta_lock`. -/
def critical : Pc → Bool
  | .loadCount _ | .scan _ _ _ | .storeEntry _ _ | .storeCount _ _ | .storeSlot _ | .unlock _ _
  | .unlockFull _ => true
  | .outside | .fast _ _ | .cache _ _ | .metaLock _ | .storeCache _ _ | .panic _ => false

/-- The mutex of a lock-slot goal is not NULL. -/
def Goal.Valid : Goal → Prop
  | .lockSlot _ _ mutex => mutex ≠ 0
  | .threadSlot => True

/-- What the tables hold where thread `t` is. -/
def PcOk (tid : Nat → Nat) (s : State) (t : Nat) : Pc → Prop
  | .outside => True
  | .fast _ mutex | .cache _ mutex => mutex ≠ 0
  | .metaLock g | .loadCount g => g.Valid
  | .scan g i n => g.Valid ∧ n = (s.table g).count ∧ i ≤ n ∧ (s.table g).Fresh i (g.key (tid t))
  | .storeEntry g n => g.Valid ∧ n = (s.table g).count ∧ n < g.limit ∧
      (s.table g).Fresh n (g.key (tid t))
  | .storeCount g n => g.Valid ∧ n = (s.table g).count ∧ n < g.limit ∧
      (s.table g).Fresh n (g.key (tid t)) ∧ (s.table g).entry n = g.key (tid t)
  | .storeSlot l => l < s.threads.count ∧ s.threads.entry l = tid t
  | .unlock g slot => g.Valid ∧ slot = (s.table g).find (g.key (tid t)) ∧
      (g.creates = true → slot ≠ none)
  | .unlockFull g | .panic g => g.Valid ∧ g.creates = true ∧ (s.table g).count = g.limit ∧
      (s.table g).Fresh (s.table g).count (g.key (tid t))
  | .storeCache mutex l => mutex ≠ 0 ∧ l < s.locks.count ∧ s.locks.entry l = mutex

/-- Slot `i` is stored and not counted yet. -/
def Storing (s : State) (i : Nat) : Prop :=
  ∃ t create cached mutex, (s.thr t).pc = .storeCount (.lockSlot create cached mutex) i

structure Inv (tid : Nat → Nat) (s : State) : Prop where
  limit : ∀ g, (s.table g).count ≤ g.limit
  distinct : ∀ g, (s.table g).Distinct
  nonNull : ∀ i, i < s.locks.count → s.locks.entry i ≠ 0
  unused : ∀ i, s.locks.count ≤ i → s.locks.entry i ≠ 0 → Storing s i
  locked : ∀ t, critical (s.thr t).pc = true → s.metaLock = true
  unique : ∀ t u, critical (s.thr t).pc = true → critical (s.thr u).pc = true → t = u
  pc : ∀ t, PcOk tid s t (s.thr t).pc
  cache : ∀ t i, ((s.thr t).cache i).mutex ≠ 0 → ((s.thr t).cache i).lockSlot < s.locks.count ∧
    s.locks.entry ((s.thr t).cache i).lockSlot = ((s.thr t).cache i).mutex
  slots : ∀ t k, (s.thr t).threadSlot = some k → k < s.threads.count ∧ s.threads.entry k = tid t
  results : ∀ r, r ∈ s.results → r.count ≤ s.locks.count ∧
    r.slot = s.locks.findBelow r.count r.mutex ∧ (r.create = true → r.slot ≠ none)

theorem inv_initial (tid : Nat → Nat) : Inv tid initial where
  limit g := by cases g <;> exact Nat.zero_le _
  distinct g := by cases g <;> exact fun i _ hi => absurd hi (Nat.not_lt_zero i)
  nonNull i hi := absurd hi (Nat.not_lt_zero i)
  unused i _ h := absurd rfl h
  locked _ h := by cases h
  unique _ _ h := by cases h
  pc _ := trivial
  cache _ _ h := absurd rfl h
  slots _ _ h := by cases h
  results _ h := by cases h

variable {tid : Nat → Nat} {s s' : State} {a : Act} {t u : Nat} {g : Goal}

/-! ## The parts of a step -/

@[simp] theorem setThread_thr (th : Thread) :
    (s.setThread t th).thr u = if u = t then th else s.thr u := by
  by_cases h : u = t <;> simp [setThread, h]

@[simp] theorem setPc_thr (pc : Pc) :
    (s.setPc t pc).thr u = if u = t then { s.thr t with pc := pc } else s.thr u := by
  simp [setPc]

@[simp] theorem setTable_thr (T : AppendTable Nat) : (s.setTable T g).thr = s.thr := by
  cases g <;> rfl

@[simp] theorem setTable_metaLock (T : AppendTable Nat) :
    (s.setTable T g).metaLock = s.metaLock := by
  cases g <;> rfl

@[simp] theorem setTable_results (T : AppendTable Nat) :
    (s.setTable T g).results = s.results := by
  cases g <;> rfl

@[simp] theorem setTable_panicked (T : AppendTable Nat) :
    (s.setTable T g).panicked = s.panicked := by
  cases g <;> rfl

@[simp] theorem setTable_self (T : AppendTable Nat) : (s.setTable T g).table g = T := by
  cases g <;> rfl

@[simp] theorem setPc_table (pc : Pc) : (s.setPc t pc).table g = s.table g := by cases g <;> rfl

/-- The other threads stay where they are. -/
theorem thr_step (h : Step tid s t s') (hu : u ≠ t) : s'.thr u = s.thr u := by
  cases h <;> simp [hu]

/-- What a step does to the tables. -/
structure TablesStep (tid : Nat → Nat) (s : State) (t : Nat) (s' : State) : Prop where
  grows : ∀ g, (s.table g).Grows (s'.table g)
  frame : critical (s.thr t).pc = false → s'.locks = s.locks ∧ s'.threads = s.threads
  limit : ∀ g, (s'.table g).count ≤ g.limit
  distinct : ∀ g, (s'.table g).Distinct
  full : ∀ g, (s.table g).count = g.limit → s'.table g = s.table g

theorem tablesStep_of_eq (I : Inv tid s) (hl : s'.locks = s.locks) (ht : s'.threads = s.threads) :
    TablesStep tid s t s' := by
  have htab : ∀ g, s'.table g = s.table g := fun g => by
    cases g
    · exact hl
    · exact ht
  refine ⟨fun g => ?_, fun _ => ⟨hl, ht⟩, fun g => ?_, fun g => ?_, fun g _ => htab g⟩
  · rw [htab]
    exact Grows.refl _
  · rw [htab]
    exact I.limit g
  · rw [htab]
    exact I.distinct g

/-- The table of a goal is replaced or kept. -/
theorem setTable_table (T : AppendTable Nat) (k : Goal) :
    ((s.setTable T g).table k = T ∧ s.table k = s.table g ∧ k.limit = g.limit) ∨
      (s.setTable T g).table k = s.table k := by
  cases g <;> cases k
  · exact Or.inl ⟨rfl, rfl, rfl⟩
  · exact Or.inr rfl
  · exact Or.inr rfl
  · exact Or.inl ⟨rfl, rfl, rfl⟩

/-- A step that puts `T` in the place of one table. -/
theorem tablesStep_setTable (I : Inv tid s) {T : AppendTable Nat}
    (hc : critical (s.thr t).pc = true) (hl : s'.locks = (s.setTable T g).locks)
    (ht : s'.threads = (s.setTable T g).threads) (hgrows : (s.table g).Grows T)
    (hlimit : T.count ≤ g.limit) (hdistinct : T.Distinct)
    (hroom : (s.table g).count < g.limit) : TablesStep tid s t s' := by
  have htab : ∀ k, s'.table k = (s.setTable T g).table k := fun k => by
    cases k
    · exact hl
    · exact ht
  constructor
  · intro k
    rw [htab]
    rcases setTable_table (s := s) (g := g) T k with ⟨h, hk, -⟩ | h <;> rw [h]
    · rw [hk]
      exact hgrows
    · exact Grows.refl _
  · intro h
    rw [hc] at h
    cases h
  · intro k
    rw [htab]
    rcases setTable_table (s := s) (g := g) T k with ⟨h, -, hk⟩ | h <;> rw [h]
    · rw [hk]
      exact hlimit
    · exact I.limit k
  · intro k
    rw [htab]
    rcases setTable_table (s := s) (g := g) T k with ⟨h, -, -⟩ | h <;> rw [h]
    · exact hdistinct
    · exact I.distinct k
  · intro k hfull
    rw [htab]
    rcases setTable_table (s := s) (g := g) T k with ⟨-, hk, hlim⟩ | h
    · rw [hk, hlim] at hfull
      omega
    · exact h

theorem tables_step (I : Inv tid s) (h : Step tid s t s') : TablesStep tid s t s' := by
  have hpc := I.pc t
  cases h with
  | storeEntry g n h =>
    rw [h] at hpc
    obtain ⟨-, rfl, hlt, hf⟩ := hpc
    exact tablesStep_setTable I (by rw [h]; rfl) rfl rfl (grows_store (x := g.key (tid t)))
      (I.limit g) (I.distinct g).store hlt
  | storeCount g n h =>
    rw [h] at hpc
    obtain ⟨-, rfl, hlt, hf, he⟩ := hpc
    exact tablesStep_setTable I (by rw [h]; rfl) rfl rfl grows_publish hlt
      ((I.distinct g).publish hf he) hlt
  | _ => exact tablesStep_of_eq I rfl rfl

/-- What a program point says depends on the tables only. -/
theorem pcOk_congr {pc : Pc} (hl : s'.locks = s.locks) (ht : s'.threads = s.threads) :
    PcOk tid s' t pc ↔ PcOk tid s t pc := by
  have htab : ∀ g, s'.table g = s.table g := fun g => by
    cases g
    · exact hl
    · exact ht
  cases pc <;> simp only [PcOk, htab, hl, ht]

/-- What a program point says stays true while other threads move. -/
theorem pcOk_other (I : Inv tid s) (h : Step tid s t s') (hu : u ≠ t) :
    PcOk tid s' u (s'.thr u).pc := by
  have T := tables_step I h
  have hpc := I.pc u
  rw [thr_step h hu]
  by_cases hc : critical (s.thr t).pc = true
  · -- the step is made under the lock, so `u` is outside of it
    have hcu : critical (s.thr u).pc = false :=
      Bool.eq_false_iff.mpr fun hcu => hu (I.unique u t hcu hc)
    generalize (s.thr u).pc = pc at hpc hcu
    cases pc with
    | storeCache mutex l =>
      have hg := T.grows (.lockSlot false false 0)
      exact ⟨hpc.1, Nat.lt_of_lt_of_le hpc.2.1 hg.count, (hg.entry l hpc.2.1).trans hpc.2.2⟩
    | panic g =>
      refine ⟨hpc.1, hpc.2.1, ?_⟩
      rw [T.full g hpc.2.2.1]
      exact hpc.2.2
    | outside | fast _ _ | cache _ _ | metaLock _ => exact hpc
    | _ => cases hcu
  · obtain ⟨hl, ht⟩ := T.frame (by simpa using hc)
    exact (pcOk_congr hl ht).mpr hpc

theorem pcOk_found {l : Nat} (hv : g.Valid) (hd : (s.table g).Distinct)
    (hl : l < (s.table g).count) (he : (s.table g).entry l = g.key (tid t)) :
    PcOk tid s t (g.found l) := by
  cases g with
  | lockSlot create cached mutex =>
    exact ⟨hv, ((findBelow_eq_some hd (Nat.le_refl _)).mpr ⟨hl, he⟩).symm, fun _ => by simp⟩
  | threadSlot => exact ⟨hl, he⟩

theorem pcOk_start (c : Call) (hc : c.valid = true) : PcOk tid s t (startPc (s.thr t) c) := by
  cases c with
  | lockSlot create api mutex =>
    have hm : mutex ≠ 0 := by simpa [Call.valid] using hc
    cases api <;> exact hm
  | threadSlot =>
    simp only [startPc]
    split <;> trivial

/-- What the next program point of the thread itself says. -/
theorem pcOk_own (I : Inv tid s) (h : Step tid s t s') : PcOk tid s' t (s'.thr t).pc := by
  have hpc := I.pc t
  have h' := h
  have hset : ∀ pc, PcOk tid s t pc → PcOk tid (s.setPc t pc) t ((s.setPc t pc).thr t).pc :=
    fun pc hok => by
      rw [setPc_thr, if_pos rfl]
      exact (pcOk_congr rfl rfl).mpr hok
  cases h with
  | call c h hc => exact hset _ (pcOk_start c hc)
  | hit create mutex h hm => exact hset .outside trivial
  | miss create mutex pc h =>
    refine hset _ ?_
    rcases h with ⟨h, rfl⟩ | ⟨h, rfl⟩ <;> rw [h] at hpc <;> exact hpc
  | spin g h => exact hpc
  | lock g h hl =>
    rw [h] at hpc
    exact hset (.loadCount g) hpc
  | loadCount g h =>
    rw [h] at hpc
    exact hset _ ⟨hpc, rfl, Nat.zero_le _, fun i hi => absurd hi (Nat.not_lt_zero i)⟩
  | found g i n h hi he =>
    rw [h] at hpc
    obtain ⟨hv, rfl, -, -⟩ := hpc
    exact hset _ (pcOk_found hv (I.distinct g) hi he)
  | next g i n h hi he =>
    rw [h] at hpc
    exact hset _ ⟨hpc.1, hpc.2.1, hi, hpc.2.2.2.succ he⟩
  | full g i n h hi hc hn =>
    rw [h] at hpc
    obtain ⟨hv, rfl, hle, hf⟩ := hpc
    obtain rfl := Nat.le_antisymm hle hi
    exact hset _ ⟨hv, hc, Nat.le_antisymm (I.limit g) hn, hf⟩
  | new g i n h hi hc hn =>
    rw [h] at hpc
    obtain ⟨hv, rfl, hle, hf⟩ := hpc
    obtain rfl := Nat.le_antisymm hle hi
    exact hset _ ⟨hv, rfl, hn, hf⟩
  | unknown g i n h hi hc =>
    rw [h] at hpc
    obtain ⟨hv, rfl, hle, hf⟩ := hpc
    obtain rfl := Nat.le_antisymm hle hi
    exact hset _ ⟨hv, (findBelow_eq_none.mpr hf).symm, fun hc' => by rw [hc] at hc'; cases hc'⟩
  | storeEntry g n h =>
    rw [h] at hpc
    obtain ⟨hv, rfl, hlt, hf⟩ := hpc
    rw [setPc_thr, if_pos rfl]
    simp only [PcOk, setPc_table, setTable_self]
    exact ⟨hv, trivial, hlt, (grows_store (x := g.key (tid t))).fresh (Nat.le_refl _) hf,
      store_entry_count⟩
  | storeCount g n h =>
    rw [h] at hpc
    obtain ⟨hv, rfl, -, -, he⟩ := hpc
    rw [setPc_thr, if_pos rfl]
    refine pcOk_found hv ((tables_step I h').distinct g) ?_ ?_
    · simp only [setPc_table, setTable_self]
      exact Nat.lt_succ_self _
    · simpa only [setPc_table, setTable_self] using he
  | storeSlot l h =>
    rw [h] at hpc
    rw [setThread_thr, if_pos rfl]
    refine ⟨trivial, ?_, fun _ => by simp⟩
    exact ((findBelow_eq_some (I.distinct .threadSlot) (Nat.le_refl _)).mpr hpc).symm
  | unlock g slot h =>
    rw [h] at hpc
    obtain ⟨hv, hslot, -⟩ := hpc
    refine hset (g.afterUnlock slot) ?_
    cases g with
    | lockSlot create cached mutex =>
      cases cached with
      | false => trivial
      | true =>
        cases slot with
        | none => trivial
        | some l =>
          exact ⟨hv, (findBelow_eq_some (I.distinct (.lockSlot create true mutex))
            (Nat.le_refl _)).mp hslot.symm⟩
    | threadSlot => trivial
  | unlockFull g h =>
    rw [h] at hpc
    exact hset (.panic g) hpc
  | storeCache mutex l h =>
    rw [setThread_thr, if_pos rfl]
    trivial
  | panic g h => exact hpc

/-! ## Mutual exclusion -/

/-- The lock flag and the program point of `t` move together. -/
theorem locked_step (h : Step tid s t s') :
    (s'.metaLock = s.metaLock ∧
      (critical (s'.thr t).pc = true → critical (s.thr t).pc = true)) ∨
    (s.metaLock = false ∧ s'.metaLock = true) ∨
    (critical (s.thr t).pc = true ∧ critical (s'.thr t).pc = false) := by
  cases h with
  | call c h hc =>
    refine Or.inl ⟨rfl, fun hc' => ?_⟩
    rw [setPc_thr, if_pos rfl] at hc'
    cases c with
    | lockSlot create api mutex => cases api <;> cases hc'
    | threadSlot =>
      simp only [startPc] at hc'
      split at hc' <;> cases hc'
  | lock g h hl => exact Or.inr (Or.inl ⟨hl, rfl⟩)
  | unlock g slot h =>
    refine Or.inr (Or.inr ⟨by rw [h]; rfl, ?_⟩)
    simp only [setPc_thr, if_true]
    cases g with
    | lockSlot create cached mutex => cases cached <;> cases slot <;> rfl
    | threadSlot => rfl
  | unlockFull g h => exact Or.inr (Or.inr ⟨by rw [h]; rfl, by simp [critical]⟩)
  | spin g h => exact Or.inl ⟨rfl, id⟩
  | panic g h => exact Or.inl ⟨rfl, id⟩
  | hit create mutex h hm =>
    refine Or.inl ⟨rfl, fun hc => ?_⟩
    simp [critical] at hc
  | miss create mutex pc h =>
    refine Or.inl ⟨rfl, fun hc => ?_⟩
    rcases h with ⟨-, rfl⟩ | ⟨-, rfl⟩ <;> simp [critical] at hc
  | storeCache mutex l h =>
    refine Or.inl ⟨rfl, fun hc => ?_⟩
    simp [critical] at hc
  | storeEntry g n h => exact Or.inl ⟨setTable_metaLock _, fun _ => by rw [h]; rfl⟩
  | storeCount g n h => exact Or.inl ⟨setTable_metaLock _, fun _ => by rw [h]; rfl⟩
  | loadCount g h | found g i n h hi he | next g i n h hi he | full g i n h hi hc hn
  | new g i n h hi hc hn | unknown g i n h hi hc | storeSlot l h =>
    exact Or.inl ⟨rfl, fun _ => by rw [h]; rfl⟩

/-- **Mutual exclusion is kept.** -/
theorem exclusive_step (I : Inv tid s) (h : Step tid s t s') :
    (∀ u, critical (s'.thr u).pc = true → s'.metaLock = true) ∧
    ∀ u v, critical (s'.thr u).pc = true → critical (s'.thr v).pc = true → u = v := by
  have hother : ∀ {u}, u ≠ t → critical (s'.thr u).pc = true → critical (s.thr u).pc = true :=
    fun hu hc => by rwa [thr_step h hu] at hc
  rcases locked_step h with ⟨hl, hc⟩ | ⟨hfree, hl⟩ | ⟨hc, hc'⟩
  · have hback : ∀ {u}, critical (s'.thr u).pc = true → critical (s.thr u).pc = true := by
      intro u hu
      by_cases hut : u = t
      · subst hut
        exact hc hu
      · exact hother hut hu
    exact ⟨fun u hu => hl ▸ I.locked u (hback hu),
      fun u v hu hv => I.unique u v (hback hu) (hback hv)⟩
  · -- nobody was under the lock
    have hnone : ∀ {u}, critical (s'.thr u).pc = true → u = t := fun {u} hu => by
      by_contra hut
      have := I.locked u (hother hut hu)
      rw [hfree] at this
      cases this
    exact ⟨fun _ _ => hl, fun u v hu hv => (hnone hu).trans (hnone hv).symm⟩
  · -- `t` was, and it has left
    have hnone : ∀ {u}, critical (s'.thr u).pc ≠ true := fun {u} hu => by
      by_cases hut : u = t
      · subst hut
        rw [hc'] at hu
        cases hu
      · exact hut (I.unique u t (hother hut hu) hc)
    exact ⟨fun u hu => absurd hu hnone, fun u v hu => absurd hu hnone⟩

/-! ## Entries in use, caches and results -/

/-- An entry in use, not NULL, with this key. -/
theorem entry_step (I : Inv tid s) (h : Step tid s t s') :
    (∀ i, i < s'.locks.count → s'.locks.entry i ≠ 0) ∧
    ∀ i, s'.locks.count ≤ i → s'.locks.entry i ≠ 0 → Storing s' i := by
  have hpc := I.pc t
  have hkeep : s'.locks = s.locks → (∀ i, Storing s i → Storing s' i) →
      (∀ i, i < s'.locks.count → s'.locks.entry i ≠ 0) ∧
      ∀ i, s'.locks.count ≤ i → s'.locks.entry i ≠ 0 → Storing s' i := fun hl hst => by
    rw [hl]
    exact ⟨I.nonNull, fun i hi he => hst i (I.unused i hi he)⟩
  -- a thread that stores an entry does not move while another one does
  have hst : (∀ create cached mutex i,
      (s.thr t).pc ≠ .storeCount (.lockSlot create cached mutex) i) →
      ∀ i, Storing s i → Storing s' i := by
    rintro hne i ⟨u, create, cached, mutex, hu⟩
    have hut : u ≠ t := fun e => hne create cached mutex i (e ▸ hu)
    exact ⟨u, create, cached, mutex, by rw [thr_step h hut]; exact hu⟩
  cases h with
  | storeEntry g n h =>
    rw [h] at hpc
    cases g with
    | threadSlot => exact hkeep rfl (hst (by rw [h]; simp))
    | lockSlot create cached mutex =>
      obtain ⟨hv, rfl, -, -⟩ := hpc
      refine ⟨fun i hi => ?_, fun i hi he => ?_⟩
      · have hsame := store_entry_of_ne (T := s.locks) (x := mutex) (Nat.ne_of_lt hi)
        exact fun he => I.nonNull i hi (hsame.symm.trans he)
      · by_cases hic : i = s.locks.count
        · subst hic
          exact ⟨t, create, cached, mutex, by simp [State.table]⟩
        · have hsame := store_entry_of_ne (T := s.locks) (x := mutex) hic
          exact hst (by rw [h]; simp) i (I.unused i hi fun h0 => he (hsame.trans h0))
  | storeCount g n h =>
    rw [h] at hpc
    cases g with
    | threadSlot => exact hkeep rfl (hst (by rw [h]; simp))
    | lockSlot create cached mutex =>
      obtain ⟨hv, rfl, -, -, hentry⟩ := hpc
      refine ⟨fun i hi => ?_, fun i hi he => ?_⟩
      · rcases Nat.lt_succ_iff_lt_or_eq.mp hi with hi | rfl
        · exact I.nonNull i hi
        · exact fun h0 => hv (hentry.symm.trans h0)
      · -- only the entry just counted was stored
        obtain ⟨u, c, k, m, hu⟩ := I.unused i (Nat.le_of_succ_le hi) he
        have hpu := I.pc u
        rw [hu] at hpu
        have hic : i = s.locks.count := hpu.2.1
        exact absurd hi (by rw [hic]; exact Nat.not_succ_le_self _)
  | hit create mutex h hm =>
    exact hkeep rfl (hst fun _ _ _ _ hc => by rcases h with h | h <;> rw [h] at hc <;> cases hc)
  | miss create mutex pc h =>
    exact hkeep rfl (hst fun _ _ _ _ hc => by
      rcases h with ⟨h, -⟩ | ⟨h, -⟩ <;> rw [h] at hc <;> cases hc)
  | call c h hc => exact hkeep rfl (hst (by rw [h]; simp))
  | spin g h | lock g h hl | loadCount g h | found g i n h hi he | next g i n h hi he
  | full g i n h hi hc hn | new g i n h hi hc hn | unknown g i n h hi hc | storeSlot l h
  | unlock g slot h | unlockFull g h | storeCache mutex l h | panic g h =>
    exact hkeep rfl (hst (by rw [h]; simp))

/-- What a step does to the thread-local data of its thread. -/
theorem local_step (h : Step tid s t s') :
    ((s'.thr t).threadSlot = (s.thr t).threadSlot ∨
      ∃ l, (s.thr t).pc = .storeSlot l ∧ (s'.thr t).threadSlot = some l) ∧
    ∀ i, (s'.thr t).cache i = (s.thr t).cache i ∨
      ∃ mutex l, (s.thr t).pc = .storeCache mutex l ∧ (s'.thr t).cache i = ⟨mutex, l⟩ := by
  cases h with
  | storeSlot l h => simp [h]
  | storeCache mutex l h =>
    refine ⟨Or.inl (by simp), fun i => ?_⟩
    by_cases hi : i = cacheIndex mutex
    · exact Or.inr ⟨mutex, l, h, by simp [hi]⟩
    · exact Or.inl (by simp [hi])
  | _ => simp

theorem cache_step (I : Inv tid s) (h : Step tid s t s') (u i : Nat)
    (hne : ((s'.thr u).cache i).mutex ≠ 0) : ((s'.thr u).cache i).lockSlot < s'.locks.count ∧
      s'.locks.entry ((s'.thr u).cache i).lockSlot = ((s'.thr u).cache i).mutex := by
  have hg := (tables_step I h).grows (.lockSlot false false 0)
  have hkeep : ∀ {m l}, l < s.locks.count → s.locks.entry l = m →
      l < s'.locks.count ∧ s'.locks.entry l = m := fun hl he =>
    ⟨Nat.lt_of_lt_of_le hl hg.count, (hg.entry _ hl).trans he⟩
  have hold : (s'.thr u).cache i = (s.thr u).cache i →
      ((s'.thr u).cache i).lockSlot < s'.locks.count ∧
      s'.locks.entry ((s'.thr u).cache i).lockSlot = ((s'.thr u).cache i).mutex := fun he => by
    rw [he] at hne ⊢
    obtain ⟨hl, hm⟩ := I.cache u i hne
    exact hkeep hl hm
  by_cases hu : u = t
  · subst hu
    rcases (local_step h).2 i with he | ⟨mutex, l, hp, he⟩
    · exact hold he
    · have hpc := I.pc u
      rw [hp] at hpc
      rw [he]
      exact hkeep hpc.2.1 hpc.2.2
  · exact hold (by rw [thr_step h hu])

theorem slots_step (I : Inv tid s) (h : Step tid s t s') (u k : Nat)
    (hk : (s'.thr u).threadSlot = some k) :
    k < s'.threads.count ∧ s'.threads.entry k = tid u := by
  have hg := (tables_step I h).grows .threadSlot
  have hkeep : k < s.threads.count → s.threads.entry k = tid u →
      k < s'.threads.count ∧ s'.threads.entry k = tid u := fun hl he =>
    ⟨Nat.lt_of_lt_of_le hl hg.count, (hg.entry _ hl).trans he⟩
  have hold : (s.thr u).threadSlot = some k →
      k < s'.threads.count ∧ s'.threads.entry k = tid u := fun he =>
    hkeep (I.slots u k he).1 (I.slots u k he).2
  by_cases hu : u = t
  · subst hu
    rcases (local_step h).1 with he | ⟨l, hp, he⟩
    · exact hold (he ▸ hk)
    · have hpc := I.pc u
      rw [hp] at hpc
      obtain rfl : l = k := Option.some.inj (he.symm.trans hk)
      exact hkeep hpc.1 hpc.2
  · exact hold (by rwa [thr_step h hu] at hk)

/-- The results of calls, old and new. -/
theorem results_step (I : Inv tid s) (h : Step tid s t s') :
    s.results <+: s'.results ∧ ∀ r, r ∈ s'.results → r.count ≤ s'.locks.count ∧
      r.slot = s'.locks.findBelow r.count r.mutex ∧ (r.create = true → r.slot ≠ none) := by
  have hg := (tables_step I h).grows (.lockSlot false false 0)
  have hpc := I.pc t
  have hold : ∀ r, r ∈ s.results → r.count ≤ s'.locks.count ∧
      r.slot = s'.locks.findBelow r.count r.mutex ∧ (r.create = true → r.slot ≠ none) :=
    fun r hr => by
      obtain ⟨hc, hf, hn⟩ := I.results r hr
      exact ⟨Nat.le_trans hc hg.count, hf.trans (hg.findBelow hc).symm, hn⟩
  cases h with
  | hit create mutex h hm =>
    refine ⟨List.prefix_append _ _, fun r hr => ?_⟩
    rcases List.mem_append.mp hr with hr | hr
    · exact hold r hr
    · rw [List.mem_singleton.mp hr]
      have hne : (s.cached t mutex).mutex ≠ 0 := by
        rw [hm]
        rcases h with h | h <;> rw [h] at hpc <;> exact hpc
      obtain ⟨hl, he⟩ := I.cache t (cacheIndex mutex) hne
      refine ⟨Nat.le_refl _, ?_, fun _ => by simp⟩
      exact ((findBelow_eq_some (I.distinct (.lockSlot create true mutex)) (Nat.le_refl _)).mpr
        ⟨hl, he.trans hm⟩).symm
  | unlock g slot h =>
    refine ⟨List.prefix_append _ _, fun r hr => ?_⟩
    rcases List.mem_append.mp hr with hr | hr
    · exact hold r hr
    · rw [h] at hpc
      cases g with
      | threadSlot => cases hr
      | lockSlot create cached mutex =>
        rw [List.mem_singleton.mp hr]
        exact ⟨Nat.le_refl _, hpc.2.1, hpc.2.2⟩
  | storeEntry g n h =>
    have hsame := setTable_results (s := s) (g := g)
      { s.table g with entry := Function.update (s.table g).entry n (g.key (tid t)) }
    exact ⟨by rw [← hsame]; exact List.prefix_rfl, fun r hr => hold r (by rw [← hsame]; exact hr)⟩
  | storeCount g n h =>
    have hsame := setTable_results (s := s) (g := g) { s.table g with count := n + 1 }
    exact ⟨by rw [← hsame]; exact List.prefix_rfl, fun r hr => hold r (by rw [← hsame]; exact hr)⟩
  | _ => exact ⟨List.prefix_rfl, hold⟩

/-! ## All runs -/

theorem inv_step (I : Inv tid s) (h : Step tid s t s') : Inv tid s' where
  limit := (tables_step I h).limit
  distinct := (tables_step I h).distinct
  nonNull := (entry_step I h).1
  unused := (entry_step I h).2
  locked := (exclusive_step I h).1
  unique := (exclusive_step I h).2
  pc u := by
    by_cases hu : u = t
    · subst hu
      exact pcOk_own I h
    · exact pcOk_other I h hu
  cache := cache_step I h
  slots := slots_step I h
  results := (results_step I h).2

theorem inv (h : Runs.Reachable (system tid) s) : Inv tid s :=
  h.invariant (inv_initial tid) fun _ _ _ _ I _ hs => inv_step I (step_cases hs).2

theorem exec_grows {as : List Act} (h : Runs.Reachable (system tid) s)
    (hs : Runs.exec (system tid) s as = some s') :
    (∀ g, (s.table g).Grows (s'.table g)) ∧ s.results <+: s'.results ∧
      ∀ g, (s.table g).count = g.limit → s'.table g = s.table g := by
  induction as generalizing s with
  | nil =>
    cases hs
    exact ⟨fun g => Grows.refl _, List.prefix_rfl, fun _ _ => rfl⟩
  | cons a as ih =>
    obtain ⟨m, hm, hs⟩ := Option.bind_eq_some_iff.mp hs
    have hstep := (step_cases hm).2
    have T := tables_step (inv h) hstep
    obtain ⟨hgrows, hres, hfull⟩ := ih (.step h trivial hm) hs
    refine ⟨fun g => (T.grows g).trans (hgrows g),
      (results_step (inv h) hstep).1.trans hres, fun g hg => ?_⟩
    have hsame := T.full g hg
    rw [hfull g (by rw [hsame, hg]), hsame]

/-! ## A registration in a full table -/

theorem setPc_setPc (pc pc' : Pc) : (s.setPc t pc).setPc t pc' = s.setPc t pc' := by
  simp [setPc, setThread]

theorem step_run (hp : s.panicked = false) : (system tid).step s ⟨t, .run⟩ = run tid s t := by
  simp [system, step, hp]

/-- The scan of a table without the key. -/
theorem exec_scan (tid : Nat → Nat) {i n : Nat} (hp : s.panicked = false)
    (hf : (s.table g).Fresh n (g.key (tid t))) (hi : i ≤ n) :
    Runs.exec (system tid) (s.setPc t (.scan g i n)) (List.replicate (n - i) ⟨t, .run⟩) =
      some (s.setPc t (.scan g n n)) := by
  obtain ⟨d, rfl⟩ := Nat.exists_eq_add_of_le hi
  rw [Nat.add_sub_cancel_left]
  induction d generalizing i with
  | zero => rfl
  | succ d ih =>
    have hstep : (system tid).step (s.setPc t (.scan g i (i + (d + 1)))) ⟨t, .run⟩ =
        some (s.setPc t (.scan g (i + 1) (i + (d + 1)))) := by
      rw [step_run (s := s.setPc t (.scan g i (i + (d + 1)))) hp]
      simp only [run, setPc_thr, if_true, setPc_table]
      rw [if_pos (by omega), if_neg (hf i (by omega)), setPc_setPc]
    rw [List.replicate_succ, Runs.exec_cons _ hstep]
    have harith : i + (d + 1) = i + 1 + d := by omega
    rw [harith] at hf ⊢
    exact ih hf (by omega)

/-- **A registration beyond the limit panics.** -/
theorem full_panics (hp : s.panicked = false) (hl : s.metaLock = false)
    (hpc : (s.thr t).pc = .metaLock g) (hc : g.creates = true)
    (hfull : (s.table g).count = g.limit) (hnew : (s.table g).find (g.key (tid t)) = none) :
    ∃ k s', Runs.exec (system tid) s (List.replicate k ⟨t, .run⟩) = some s' ∧
      s'.panicked = true ∧ s'.locks = s.locks ∧ s'.threads = s.threads := by
  have hf := findBelow_eq_none.mp hnew
  -- the state under the lock
  let m : State := { s with metaLock := true }
  have htab : m.table g = s.table g := by cases g <;> rfl
  have hlock : (system tid).step s ⟨t, .run⟩ = some (m.setPc t (.loadCount g)) := by
    rw [step_run hp, run, hpc]
    simp only [hl, Bool.false_eq_true, if_false]
    rfl
  have hload : (system tid).step (m.setPc t (.loadCount g)) ⟨t, .run⟩ =
      some (m.setPc t (.scan g 0 (s.table g).count)) := by
    rw [step_run (s := m.setPc t (.loadCount g)) hp]
    simp only [run, setPc_thr, if_true, setPc_table, setPc_setPc, htab]
  have hscan := exec_scan tid (t := t) (i := 0) (n := (s.table g).count) (s := m) hp
    (by rw [htab]; exact hf) (Nat.zero_le _)
  have hend : (system tid).step (m.setPc t (.scan g (s.table g).count (s.table g).count))
      ⟨t, .run⟩ = some (m.setPc t (.unlockFull g)) := by
    rw [step_run (s := m.setPc t (.scan g (s.table g).count (s.table g).count)) hp]
    simp only [run, setPc_thr, if_true, setPc_setPc]
    rw [if_neg (Nat.lt_irrefl _), if_pos hc, if_pos hfull.ge]
  have hunlock : (system tid).step (m.setPc t (.unlockFull g)) ⟨t, .run⟩ =
      some { m.setPc t (.panic g) with metaLock := false } := by
    rw [step_run (s := m.setPc t (.unlockFull g)) hp]
    simp only [run, setPc_thr, if_true, setPc_setPc]
  have hpanic : (system tid).step { m.setPc t (.panic g) with metaLock := false } ⟨t, .run⟩ =
      some { { m.setPc t (.panic g) with metaLock := false } with panicked := true } := by
    rw [step_run (s := { m.setPc t (.panic g) with metaLock := false }) hp]
    simp only [run, setPc_thr, if_true]
  refine ⟨(s.table g).count + 5,
    { { m.setPc t (.panic g) with metaLock := false } with panicked := true }, ?_, rfl, rfl, rfl⟩
  rw [List.replicate_succ, Runs.exec_cons _ hlock, List.replicate_succ, Runs.exec_cons _ hload,
    List.replicate_add, Runs.exec_append]
  rw [Nat.sub_zero] at hscan
  rw [hscan, Option.bind_some]
  exact (Runs.exec_cons _ hend).trans ((Runs.exec_cons _ hunlock).trans (Runs.exec_cons _ hpanic))

/-! ## Coherence -/

/-- Slots, results of calls and caches agree. -/
structure Coherent (tid : Nat → Nat) (s : State) : Prop where
  /-- the slots assigned are `0 .. count - 1` -/
  assigned : ∀ i, i < s.locks.count ↔ s.locks.entry i ≠ 0 ∧ ¬ Storing s i
  limit : s.locks.count ≤ maxLockSlots ∧ s.threads.count ≤ maxThreadSlots
  distinct : s.locks.Distinct ∧ s.threads.Distinct
  /-- two calls give one slot exactly when they are about one mutex -/
  sameSlot : ∀ r r' l l', r ∈ s.results → r' ∈ s.results → r.slot = some l → r'.slot = some l' →
    (l = l' ↔ r.mutex = r'.mutex)
  /-- a call returns what the full scan returned then, and would return now -/
  scanned : ∀ r, r ∈ s.results → r.count ≤ s.locks.count ∧
    r.slot = s.locks.findBelow r.count r.mutex ∧
    ∀ l, r.slot = some l → s.locks.find r.mutex = some l
  created : ∀ r, r ∈ s.results → r.create = true → r.slot ≠ none
  /-- a valid cache entry is what the full scan would return -/
  cache : ∀ t i, ((s.thr t).cache i).mutex ≠ 0 →
    s.locks.find ((s.thr t).cache i).mutex = some ((s.thr t).cache i).lockSlot
  threadSlot : ∀ t k, (s.thr t).threadSlot = some k → k < s.threads.count ∧
    s.threads.entry k = tid t
  sameThread : ∀ t u k l, (s.thr t).threadSlot = some k → (s.thr u).threadSlot = some l →
    (k = l ↔ tid t = tid u)

theorem coherent (I : Inv tid s) : Coherent tid s := by
  have hd : s.locks.Distinct := I.distinct (.lockSlot false false 0)
  have hslot : ∀ {r l}, r ∈ s.results → r.slot = some l →
      l < s.locks.count ∧ s.locks.entry l = r.mutex := fun {r l} hr hl => by
    obtain ⟨hc, hf, -⟩ := I.results r hr
    obtain ⟨hlt, he⟩ := (findBelow_eq_some hd hc).mp (hf.symm.trans hl)
    exact ⟨Nat.lt_of_lt_of_le hlt hc, he⟩
  constructor
  · intro i
    constructor
    · refine fun hi => ⟨I.nonNull i hi, ?_⟩
      rintro ⟨t, c, k, m, hp⟩
      have hpc := I.pc t
      rw [hp] at hpc
      have hic : i = s.locks.count := hpc.2.1
      omega
    · rintro ⟨he, hno⟩
      by_contra hi
      exact hno (I.unused i (Nat.not_lt.mp hi) he)
  · exact ⟨I.limit (.lockSlot false false 0), I.limit .threadSlot⟩
  · exact ⟨hd, I.distinct .threadSlot⟩
  · intro r r' l l' hr hr' hl hl'
    obtain ⟨hlt, he⟩ := hslot hr hl
    obtain ⟨hlt', he'⟩ := hslot hr' hl'
    exact ⟨fun h => he.symm.trans (h ▸ he'), fun h => hd l l' hlt hlt' (by rw [he, he', h])⟩
  · intro r hr
    obtain ⟨hc, hf, -⟩ := I.results r hr
    exact ⟨hc, hf, fun l hl => (findBelow_eq_some hd (Nat.le_refl _)).mpr (hslot hr hl)⟩
  · exact fun r hr => (I.results r hr).2.2
  · exact fun t i hne => (findBelow_eq_some hd (Nat.le_refl _)).mpr (I.cache t i hne)
  · exact I.slots
  · intro t u k l hk hl
    obtain ⟨hklt, hke⟩ := I.slots t k hk
    obtain ⟨hllt, hle⟩ := I.slots u l hl
    exact ⟨fun h => hke.symm.trans (h ▸ hle),
      fun h => I.distinct .threadSlot k l hklt hllt (hke.trans (h.trans hle.symm))⟩

/-- **The slot registries and their caches are coherent**, and only grow.  A registration
in a full table leaves both tables as they are and panics, and nothing else does. -/
theorem registries_coherent (h : Runs.Reachable (system tid) s) :
    Coherent tid s ∧
    (∀ as s', Runs.exec (system tid) s as = some s' →
      s.locks.Grows s'.locks ∧ s.threads.Grows s'.threads ∧ s.results <+: s'.results ∧
      ∀ g, (s.table g).count = g.limit → s'.table g = s.table g) ∧
    (∀ t g, s.panicked = false → s.metaLock = false → (s.thr t).pc = .metaLock g →
      g.creates = true → (s.table g).count = g.limit →
      (s.table g).find (g.key (tid t)) = none →
      ∃ k s', Runs.exec (system tid) s (List.replicate k ⟨t, .run⟩) = some s' ∧
        s'.panicked = true ∧ s'.locks = s.locks ∧ s'.threads = s.threads) ∧
    ∀ a s', (system tid).step s a = some s' → s'.panicked = true →
      ∃ g, (s.thr a.thread).pc = .panic g ∧ g.creates = true ∧
        (s.table g).count = g.limit ∧ (s.table g).find (g.key (tid a.thread)) = none ∧
        s'.locks = s.locks ∧ s'.threads = s.threads := by
  have I := inv h
  refine ⟨coherent I, fun as s' hs => ?_, fun t g => full_panics, fun a s' hs hp' => ?_⟩
  · obtain ⟨hgrows, hres, hfull⟩ := exec_grows h hs
    exact ⟨hgrows (.lockSlot false false 0), hgrows .threadSlot, hres, hfull⟩
  · obtain ⟨hp, hstep⟩ := step_cases hs
    have hpc := I.pc a.thread
    cases hstep with
    | panic g h =>
      rw [h] at hpc
      exact ⟨g, h, hpc.2.1, hpc.2.2.1, findBelow_eq_none.mpr hpc.2.2.2, rfl, rfl⟩
    | storeEntry g n h | storeCount g n h =>
      exact absurd ((setTable_panicked _).symm.trans hp') (by simp [hp])
    | _ => exact absurd (hp.symm.trans hp') (by decide)

/-- Two threads register two mutexes that share a cache entry, and look them up again. -/
def collide : List Act :=
  [⟨0, .call (.lockSlot true .fast 512)⟩, ⟨1, .call .threadSlot⟩] ++
    List.replicate 9 ⟨0, .run⟩ ++ List.replicate 7 ⟨1, .run⟩ ++
    [⟨1, .call (.lockSlot true .cached 1024)⟩] ++ List.replicate 9 ⟨1, .run⟩ ++
    [⟨0, .call (.lockSlot false .cached 1024)⟩] ++ List.replicate 7 ⟨0, .run⟩ ++
    [⟨0, .call (.lockSlot false .fast 512)⟩] ++ List.replicate 7 ⟨0, .run⟩

theorem collide_runs : (Runs.exec (system id) initial collide).isSome = true := by
  decide +kernel

theorem registries_coherent_collide : ∃ s, Runs.exec (system id) initial collide = some s ∧
    s.results.map Result.slot = [some 0, some 1, some 1, some 0] ∧ s.threads.count = 1 ∧
    Coherent id s := by
  have hs := (Option.some_get collide_runs).symm
  exact ⟨_, hs, by decide +kernel, by decide +kernel,
    (registries_coherent (Runs.ReachableBy.exec .init hs)).1⟩

end ScaleLockDep.Registry
