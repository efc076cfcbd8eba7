import ScaleLockDep.BitScan
import ScaleLockDep.EdgeTables
import ScaleLockDep.RbBackend

/-!
# The loops of the worker

`lockdep_rb_process_edge_bits` and the loops of `lockdep_rb_drain_once` as they are written,
over the words of the bit rows.

* `processEdgeBits_eq`: the missing edges are inserted once each, lowest source first;
* `takeEvent_eq`: the loop over an event adds it to the batch and notes the infos of the pairs
  that are new to it.
-/

namespace ScaleLockDep

open BitScan

namespace RbGraph

/-- The info `lockdep_rb_process_edge_bits` passes on; `edgeInfos` is a null pointer without
report sites. -/
def passedInfo (edgeInfos : Option (Nat → EdgeInfo)) (u : Nat) : EdgeInfo :=
  match edgeInfos with
  | none => ⟨none, 0⟩
  | some infos => infos u

/-- One bit of `lockdep_rb_process_edge_bits`, with the reports made so far. -/
def processEdgeBit (lockSlotCount v : Nat) (edgeInfos : Option (Nat → EdgeInfo))
    (r : RbGraph × List Report) (u : Nat) : RbGraph × List Report :=
  if u < lockSlotCount then
    let r' := r.1.addEdgeIfNew lockSlotCount u v (passedInfo edgeInfos u)
    (r'.1, r.2 ++ r'.2.toList)
  else r

/-- `lockdep_rb_process_edge_bits`. -/
def processEdgeBits (lockSlotCount v : Nat) (fromBits : WordSet)
    (edgeInfos : Option (Nat → EdgeInfo)) (r : RbGraph × List Report) : RbGraph × List Report :=
  scanWords (fun word r => fromBits word &&& ~~~ r.1.predecessorBits v word)
    (processEdgeBit lockSlotCount v edgeInfos) graphWords r

variable {g : RbGraph} {n u v : Nat}

theorem foldl_processEdgeBit (edgeInfos : Option (Nat → EdgeInfo)) (us : List Nat)
    (reports : List Report) : us.foldl (processEdgeBit n v edgeInfos) (g, reports) =
      ((g.insertAll n v (passedInfo edgeInfos) (us.filter (· < n))).1,
        reports ++ (g.insertAll n v (passedInfo edgeInfos) (us.filter (· < n))).2) := by
  induction us generalizing g reports with
  | nil => simp [insertAll]
  | cons u us ih =>
    rw [List.foldl_cons, processEdgeBit]
    by_cases hu : u < n
    · rw [if_pos hu, ih, List.filter_cons_of_pos (by simpa using hu)]
      simp [insertAll]
    · rw [if_neg hu, ih, List.filter_cons_of_neg (by simpa using hu)]

/-- An insertion from a source in one word leaves the other words alone. -/
theorem predecessorBits_addEdgeIfNew {info : EdgeInfo} {w : Nat} (hw : w ≠ u / 64) :
    (g.addEdgeIfNew n u v info).1.predecessorBits v w = g.predecessorBits v w := by
  unfold addEdgeIfNew
  split
  · rfl
  · change Function.update g.predecessorBits v ((g.predecessorBits v).set u) v w = _
    rw [Function.update_self]
    exact Function.update_of_ne hw _ _

theorem predecessorBits_scan {edgeInfos : Option (Nat → EdgeInfo)} {i w : Nat} (hw : w ≠ i)
    {ks : List Nat} (hks : ∀ k, k ∈ ks → k < 64) (r : RbGraph × List Report) :
    (ks.foldl (fun r k => processEdgeBit n v edgeInfos r (i * 64 + k)) r).1.predecessorBits v w =
      r.1.predecessorBits v w := by
  induction ks generalizing r with
  | nil => rfl
  | cons k ks ih =>
    have hk := hks k List.mem_cons_self
    rw [List.foldl_cons, ih fun k hk => hks k (List.mem_cons_of_mem _ hk), processEdgeBit]
    split
    · exact predecessorBits_addEdgeIfNew (by omega)
    · rfl

/-- **The missing edges are inserted**, lowest source first. -/
theorem processEdgeBits_eq (fromBits : WordSet) (edgeInfos : Option (Nat → EdgeInfo))
    (reports : List Report) :
    processEdgeBits n v fromBits edgeInfos (g, reports) =
      ((g.insertAll n v (passedInfo edgeInfos) (g.edgeTodo n v fromBits)).1,
        reports ++ (g.insertAll n v (passedInfo edgeInfos) (g.edgeTodo n v fromBits)).2) := by
  have hscan : processEdgeBits n v fromBits edgeInfos (g, reports) =
      ((fromBits.diff (g.predecessorBits v)).toList graphWords).foldl
        (processEdgeBit n v edgeInfos) (g, reports) := by
    -- the words still to come are not touched
    refine scanWords_eq (fun i r => ∀ w, i ≤ w → r.1.predecessorBits v w = g.predecessorBits v w)
      (fromBits.diff (g.predecessorBits v)) (fun _ _ => rfl) (fun i r hI => ?_)
      (fun i r hI w hw => ?_) graphWords
    · simp only [hI i le_rfl]
      rfl
    · have hbits : ∀ k, k ∈ bitsOf (fromBits.diff (g.predecessorBits v) i) → k < 64 := fun k hk =>
        List.mem_range.mp (List.mem_filter.mp hk).1
      rw [predecessorBits_scan (by omega) hbits]
      exact hI w (by omega)
  rw [hscan, foldl_processEdgeBit]
  rfl

end RbGraph

namespace RbBackend

/-! ## One event -/

/-- One word of an event in `lockdep_rb_drain_once`: the rows of its target in
`g_rb_pending_edge_info` and `pending_from_bits`. -/
def takeWord (e : Event) (p : (Nat → EdgeInfo) × WordSet) (word : Nat) :
    (Nat → EdgeInfo) × WordSet :=
  let newPendingBits := if e.acquirePc ≠ 0 then e.bits word &&& ~~~ p.2 word else 0#64
  (scanBits (fun info bit =>
      Function.update info (word * 64 + bit) ⟨some e.threadSlot, e.acquirePc⟩)
    newPendingBits p.1,
    Function.update p.2 word (p.2 word ||| e.bits word))

def takeWords (e : Event) (n : Nat) (info : Nat → EdgeInfo) (pending : WordSet) :
    (Nat → EdgeInfo) × WordSet :=
  (List.range n).foldl (takeWord e) (info, pending)

/-- One event that `lockdep_rb_drain_once` has dequeued. -/
def takeEvent (p : (Nat → Nat → EdgeInfo) × Batch) (e : Event) :
    (Nat → Nat → EdgeInfo) × Batch :=
  if maxLockSlots ≤ e.toLockSlot then (p.1, { p.2 with madeProgress := true })
  else
    let r := takeWords e graphWords (p.1 e.toLockSlot) (p.2.fromBits e.toLockSlot)
    (Function.update p.1 e.toLockSlot r.1,
      { madeProgress := true
        fromBits := Function.update p.2.fromBits e.toLockSlot r.2
        toLocks := if e.toLockSlot ∈ p.2.toLocks then p.2.toLocks
          else p.2.toLocks ++ [e.toLockSlot] })

variable {e : Event} {info : Nat → EdgeInfo} {pending : WordSet} {n u : Nat}

theorem takeWords_succ : takeWords e (n + 1) info pending =
    ((bitsOf (if e.acquirePc ≠ 0 then e.bits n &&& ~~~ (takeWords e n info pending).2 n
        else 0#64)).foldl (fun info bit =>
          Function.update info (n * 64 + bit) ⟨some e.threadSlot, e.acquirePc⟩)
      (takeWords e n info pending).1,
      Function.update (takeWords e n info pending).2 n
        ((takeWords e n info pending).2 n ||| e.bits n)) := by
  rw [← scanBits_eq, takeWords, List.range_succ, List.foldl_append]
  rfl

theorem takeWords_pending (w : Nat) : (takeWords e n info pending).2 w =
    if w < n then pending w ||| e.bits w else pending w := by
  induction n with
  | zero => rfl
  | succ n ih =>
    rw [takeWords_succ]
    simp only [Function.update_apply]
    by_cases hw : w = n
    · subst hw
      rw [if_pos rfl, ih, if_neg (Nat.lt_irrefl w), if_pos (Nat.lt_succ_self w)]
    · have hiff : w < n + 1 ↔ w < n := by omega
      rw [if_neg hw, ih]
      simp only [hiff]

theorem foldl_note (x : EdgeInfo) (ks : List Nat) (w : Nat) (f : Nat → EdgeInfo)
    (hks : ∀ k, k ∈ ks → k < 64) :
    ks.foldl (fun f k => Function.update f (w * 64 + k) x) f u =
      if u / 64 = w ∧ u % 64 ∈ ks then x else f u := by
  induction ks generalizing f with
  | nil => simp
  | cons k ks ih =>
    have hk := hks k List.mem_cons_self
    rw [List.foldl_cons, ih _ fun k hk => hks k (List.mem_cons_of_mem _ hk),
      Function.update_apply]
    have hiff : u = w * 64 + k ↔ u / 64 = w ∧ u % 64 = k := by omega
    simp only [List.mem_cons, hiff]
    by_cases hw : u / 64 = w
    · by_cases hm : u % 64 = k <;> simp [hw, hm]
    · simp [hw]

theorem mem_bitsOf {x : BitVec 64} {k : Nat} : k ∈ bitsOf x ↔ k < 64 ∧ x.getLsbD k = true := by
  rw [bitsOf, List.mem_filter, List.mem_range]

/-- **The pairs that are new to the batch** get the info of the event. -/
theorem takeWords_info : (takeWords e n info pending).1 u =
    if u / 64 < n ∧ e.acquirePc ≠ 0 ∧ e.bits.test u = true ∧ pending.test u = false then
      ⟨some e.threadSlot, e.acquirePc⟩
    else info u := by
  induction n with
  | zero => rfl
  | succ n ih =>
    have hpending : (takeWords e n info pending).2 n = pending n := by
      rw [takeWords_pending, if_neg (Nat.lt_irrefl n)]
    rw [takeWords_succ, hpending]
    simp only []
    rw [foldl_note _ _ _ _ fun k hk => (mem_bitsOf.mp hk).1, ih]
    have hm : u % 64 < 64 := Nat.mod_lt _ (by decide)
    by_cases hpc : e.acquirePc = 0
    · simp [hpc, bitsOf_zero]
    · rw [if_pos hpc]
      simp only [mem_bitsOf]
      by_cases hw : u / 64 = n
      · have htest : (e.bits n &&& ~~~ pending n).getLsbD (u % 64) =
            (e.bits.test u && !pending.test u) := by
          rw [WordSet.test_eq_getLsbD, WordSet.test_eq_getLsbD, hw]
          simp [hm]
        rw [htest]
        simp only [hw, hm, hpc, true_and, false_and, ne_eq, not_false_eq_true,
          Bool.and_eq_true, Bool.not_eq_true', if_false, Nat.lt_irrefl, Nat.lt_succ_self]
      · have hiff : u / 64 < n + 1 ↔ u / 64 < n := by omega
        simp only [hw, false_and, if_false, hiff]

/-- **The loop over an event** adds it to the batch and notes its infos. -/
theorem takeEvent_eq (info : Nat → Nat → EdgeInfo) (b : Batch) :
    takeEvent (info, b) e = (notePending info b e, b.add e) := by
  have hzero : ∀ w, graphWords ≤ w → e.bits w = 0#64 := fun w hw =>
    dif_neg (Nat.not_lt.mpr hw)
  have hbits : (takeWords e graphWords (info e.toLockSlot) (b.fromBits e.toLockSlot)).2 =
      (b.fromBits e.toLockSlot).union e.bits := by
    funext w
    rw [takeWords_pending, WordSet.union]
    split
    · rfl
    · rename_i hw
      rw [hzero w (Nat.le_of_not_lt hw), BitVec.or_zero]
  have hinfo : (takeWords e graphWords (info e.toLockSlot) (b.fromBits e.toLockSlot)).1 =
      fun u => if e.acquirePc ≠ 0 ∧ e.bits.test u = true ∧
        (b.fromBits e.toLockSlot).test u = false then ⟨some e.threadSlot, e.acquirePc⟩
      else info e.toLockSlot u := by
    funext u
    rw [takeWords_info]
    by_cases hu : u / 64 < graphWords
    · simp only [hu, true_and]
    · have hoff : e.bits.test u = false := by
        rw [WordSet.test_eq_getLsbD, hzero _ (Nat.le_of_not_lt hu)]
        exact BitVec.getLsbD_zero
      simp [hu, hoff]
  unfold takeEvent notePending Batch.add
  by_cases hto : maxLockSlots ≤ e.toLockSlot
  · rw [if_pos hto, if_pos hto, if_neg fun h => absurd h.1 (Nat.not_lt.mpr hto)]
  · rw [if_neg hto, if_neg hto]
    have hpair : takeWords e graphWords (info e.toLockSlot) (b.fromBits e.toLockSlot) =
        (fun u => if e.acquirePc ≠ 0 ∧ e.bits.test u = true ∧
            (b.fromBits e.toLockSlot).test u = false then ⟨some e.threadSlot, e.acquirePc⟩
          else info e.toLockSlot u, (b.fromBits e.toLockSlot).union e.bits) :=
      Prod.ext hinfo hbits
    simp only [hpair]
    congr 1
    by_cases hpc : e.acquirePc = 0
    · rw [if_neg fun h => h.2 hpc]
      simp [hpc]
    · rw [if_pos ⟨Nat.lt_of_not_le hto, hpc⟩]
      congr 1
      funext u
      simp [hpc]

end RbBackend

end ScaleLockDep
