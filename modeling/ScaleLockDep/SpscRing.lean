import ScaleLockDep.Runs
import Mathlib.Data.Nat.ModEq
import Mathlib.Logic.Function.Basic
import Mathlib.Data.List.Basic

/-!
# A ring with one producer and one consumer

A ring of events indexed by two free-running 32-bit counters, step by step: the
producer loads `tail` and `head`, stores the fields of the event one by one and
then `tail`; the consumer loads `head` and `tail`, copies the event and stores
`head`.  The capacity divides `2 ^ 32`, so the counters may wrap.

* `ringInv`: in every reachable state the cells between the counters hold exactly
  the accepted events not yet delivered, and a cell being written is none of them;
* `ring_refines`: each step is a step of a bounded queue;
* `ring_fifo`: the ring is a FIFO queue.
-/

namespace ScaleLockDep.SpscRing

variable {β : Type}

/-- `stores e` are the stores of the fields of `e` into a cell.  On a full ring
the producer gives the event up when `drops` is set and tries again otherwise. -/
structure Params (β : Type) where
  capacity : Nat
  stores : β → List (β → β)
  drops : Bool

/-- Stores into one cell, in order. -/
def storeAll (fs : List (β → β)) (b : β) : β := fs.foldl (fun b f => f b) b

/-- The capacity divides the range of the counters, and the stores of an event
write all of it. -/
structure Params.Lawful (p : Params β) : Prop where
  pos : 0 < p.capacity
  dvd : p.capacity ∣ 2 ^ 32
  small : p.capacity < 2 ^ 32
  writes : ∀ e b, storeAll (p.stores e) b = e

inductive ProducerPc (β : Type)
  | idle
  | loadTail (e : β)
  | loadHead (e : β) (tail : UInt32)
  | write (e : β) (tail : UInt32) (todo : List (β → β))

inductive ConsumerPc (β : Type)
  | idle
  | loadTail (head : UInt32)
  | copy (head : UInt32)
  | storeHead (head : UInt32) (e : β)

instance (pc : ConsumerPc β) : Decidable (pc = .idle) :=
  match pc with
  | .idle => isTrue rfl
  | .loadTail _ | .copy _ | .storeHead .. => isFalse nofun

/-- `accepted` and `delivered` are history. -/
structure State (β : Type) where
  head : UInt32
  tail : UInt32
  cells : Nat → β
  producer : ProducerPc β
  consumer : ConsumerPc β
  accepted : List β
  delivered : List β

def initial (zero : β) : State β where
  head := 0
  tail := 0
  cells := fun _ => zero
  producer := .idle
  consumer := .idle
  accepted := []
  delivered := []

inductive Act (β : Type)
  | enqueue (e : β)
  | produce
  | dequeue
  | consume

/-- The cell of a counter value. -/
def Params.slot (p : Params β) (i : UInt32) : Nat := i.toNat % p.capacity

def step (p : Params β) (s : State β) : Act β → Option (State β)
  | .enqueue e =>
      match s.producer with
      | .idle => some { s with producer := .loadTail e }
      | _ => none
  | .produce =>
      match s.producer with
      | .idle => none
      | .loadTail e => some { s with producer := .loadHead e s.tail }
      | .loadHead e tail =>
          if (tail - s.head).toNat < p.capacity then
            some { s with producer := .write e tail (p.stores e) }
          else if p.drops then some { s with producer := .idle }
          else some { s with producer := .loadTail e }
      | .write e tail (f :: todo) =>
          some { s with
            cells := Function.update s.cells (p.slot tail) (f (s.cells (p.slot tail)))
            producer := .write e tail todo }
      | .write e tail [] =>
          some { s with tail := tail + 1, producer := .idle, accepted := s.accepted ++ [e] }
  | .dequeue =>
      match s.consumer with
      | .idle => some { s with consumer := .loadTail s.head }
      | _ => none
  | .consume =>
      match s.consumer with
      | .idle => none
      | .loadTail head =>
          if head = s.tail then some { s with consumer := .idle }
          else some { s with consumer := .copy head }
      | .copy head => some { s with consumer := .storeHead head (s.cells (p.slot head)) }
      | .storeHead head e =>
          some { s with head := head + 1, consumer := .idle, delivered := s.delivered ++ [e] }

def system (p : Params β) (zero : β) : Runs.System (State β) (Act β) := ⟨initial zero, step p⟩

/-! ## Counters that wrap -/

theorem counter_sub {h t : Nat} (hle : h ≤ t) (hlt : t - h < 2 ^ 32) :
    (UInt32.ofNat t - UInt32.ofNat h).toNat = t - h := by
  rw [UInt32.toNat_sub]
  simp only [UInt32.toNat_ofNat']
  omega

theorem counter_succ (n : Nat) : UInt32.ofNat n + 1 = UInt32.ofNat (n + 1) := by
  apply UInt32.toNat_inj.mp
  simp only [UInt32.toNat_add, UInt32.toNat_ofNat', UInt32.toNat_one]
  omega

theorem slot_counter {p : Params β} (hp : p.Lawful) (n : Nat) :
    p.slot (UInt32.ofNat n) = n % p.capacity := by
  rw [Params.slot, UInt32.toNat_ofNat']
  exact Nat.mod_mod_of_dvd n hp.dvd

/-- Positions less than a capacity apart have different cells. -/
theorem cell_ne {c i t : Nat} (hlt : i < t) (hc : t - i < c) : i % c ≠ t % c := by
  intro h
  have hd : c ∣ t - i := (Nat.modEq_iff_dvd' hlt.le).mp h
  have := Nat.le_of_dvd (by omega) hd
  omega

/-! ## The invariant -/

/-- What the producer knows. -/
def ProducerOk (p : Params β) (s : State β) : Prop :=
  match s.producer with
  | .idle | .loadTail _ => True
  | .loadHead _ tail => tail = s.tail
  | .write e tail todo => tail = s.tail ∧ s.accepted.length < s.delivered.length + p.capacity ∧
      storeAll todo (s.cells (p.slot s.tail)) = e

/-- What the consumer knows. -/
def ConsumerOk (s : State β) : Prop :=
  match s.consumer with
  | .idle => True
  | .loadTail head => head = s.head
  | .copy head => head = s.head ∧ s.delivered.length < s.accepted.length
  | .storeHead head e => head = s.head ∧ s.accepted[s.delivered.length]? = some e

structure RingInv (p : Params β) (s : State β) : Prop where
  head : s.head = UInt32.ofNat s.delivered.length
  tail : s.tail = UInt32.ofNat s.accepted.length
  le : s.delivered.length ≤ s.accepted.length
  room : s.accepted.length ≤ s.delivered.length + p.capacity
  order : s.delivered <+: s.accepted
  live : ∀ i e, s.delivered.length ≤ i → s.accepted[i]? = some e → s.cells (i % p.capacity) = e
  producer : ProducerOk p s
  consumer : ConsumerOk s

theorem ringInv_initial (p : Params β) (zero : β) : RingInv p (initial zero) where
  head := rfl
  tail := rfl
  le := Nat.le_refl _
  room := Nat.zero_le _
  order := List.prefix_refl _
  live _ _ _ h := by cases h
  producer := trivial
  consumer := trivial

/-- The number of events in the ring, from its counters. -/
theorem RingInv.count {p : Params β} (hp : p.Lawful) {s : State β} (I : RingInv p s) :
    (s.tail - s.head).toNat = s.accepted.length - s.delivered.length := by
  rw [I.head, I.tail]
  have := I.room
  have := hp.small
  exact counter_sub I.le (by omega)

/-- A store of the producer hits none of the events in the ring. -/
theorem RingInv.disjoint {p : Params β} (hp : p.Lawful) {s : State β} (I : RingInv p s) {e : β}
    {tail : UInt32} {todo : List (β → β)} (h : s.producer = .write e tail todo) {i : Nat}
    (hi : s.delivered.length ≤ i) (hlt : i < s.accepted.length) :
    i % p.capacity ≠ p.slot tail := by
  have hk := I.producer
  simp only [ProducerOk, h] at hk
  rw [hk.1, I.tail, slot_counter hp]
  exact cell_ne hlt (by omega)

theorem lt_of_getElem?_eq {l : List β} {i : Nat} {e : β} (h : l[i]? = some e) : i < l.length :=
  (List.getElem?_eq_some_iff.mp h).1

theorem prefix_concat {l l' : List β} {e : β} (h : l <+: l') (he : l'[l.length]? = some e) :
    l ++ [e] <+: l' := by
  obtain ⟨r, rfl⟩ := h
  rw [List.getElem?_append_right (Nat.le_refl _), Nat.sub_self] at he
  cases r with
  | nil => cases he
  | cons x r =>
    obtain rfl := Option.some.inj he
    exact ⟨r, by simp⟩

/-- The consumer's knowledge survives the acceptance of an event. -/
theorem ConsumerOk.accept {s : State β} (h : ConsumerOk s) {e : β} {tail : UInt32}
    {pc : ProducerPc β} : ConsumerOk { s with
      tail := tail, producer := pc, accepted := s.accepted ++ [e] } := by
  cases hpc : s.consumer with
  | idle => simp only [ConsumerOk]
  | loadTail head => simpa only [ConsumerOk, hpc] using h
  | copy head =>
    simp only [ConsumerOk, hpc, List.length_append, List.length_singleton] at h ⊢
    exact ⟨h.1, by omega⟩
  | storeHead head x =>
    simp only [ConsumerOk, hpc] at h ⊢
    exact ⟨h.1, by rw [List.getElem?_append_left (lt_of_getElem?_eq h.2), h.2]⟩

/-- The producer's knowledge survives a delivery: a stale `head` only makes the
ring look fuller. -/
theorem ProducerOk.deliver {p : Params β} {s : State β} (h : ProducerOk p s) {e : β}
    {head : UInt32} {pc : ConsumerPc β} : ProducerOk p { s with
      head := head, consumer := pc, delivered := s.delivered ++ [e] } := by
  cases hpc : s.producer with
  | idle => simp only [ProducerOk]
  | loadTail e => simp only [ProducerOk]
  | loadHead e tail => simpa only [ProducerOk, hpc] using h
  | write e tail todo =>
    simp only [ProducerOk, hpc, List.length_append, List.length_singleton] at h ⊢
    exact ⟨h.1, by omega, h.2.2⟩

section
variable {p : Params β} {s : State β} (hp : p.Lawful) (I : RingInv p s)
include hp I

/-- A store of one field into the cell being written. -/
theorem ringInv_store {e : β} {tail : UInt32} {f : β → β} {todo : List (β → β)}
    (h : s.producer = .write e tail (f :: todo)) : RingInv p { s with
      cells := Function.update s.cells (p.slot tail) (f (s.cells (p.slot tail)))
      producer := .write e tail todo } := by
  have hP := I.producer
  simp only [ProducerOk, h] at hP
  obtain ⟨htail, hroom, hst⟩ := hP
  refine ⟨I.head, I.tail, I.le, I.room, I.order, fun i x hi hx => ?_, ⟨htail, hroom, ?_⟩,
    I.consumer⟩
  · have := I.disjoint hp h hi (lt_of_getElem?_eq hx)
    change Function.update s.cells (p.slot tail) _ (i % p.capacity) = x
    rw [Function.update_of_ne this]
    exact I.live i x hi hx
  · subst htail
    simpa [storeAll] using hst

/-- The store of `tail`. -/
theorem ringInv_publish {e : β} {tail : UInt32} (h : s.producer = .write e tail []) :
    RingInv p { s with
      tail := tail + 1, producer := .idle, accepted := s.accepted ++ [e] } := by
  have hP := I.producer
  simp only [ProducerOk, h] at hP
  obtain ⟨rfl, hroom, hst⟩ := hP
  refine ⟨I.head, ?_, ?_, ?_, I.order.trans (List.prefix_append _ _), fun i x hi hx => ?_,
    trivial, ?_⟩
  · rw [List.length_append, List.length_singleton, ← counter_succ, ← I.tail]
  · have := I.le
    simp only [List.length_append, List.length_singleton]
    omega
  · simp only [List.length_append, List.length_singleton]
    omega
  · simp only [List.getElem?_append, List.getElem?_singleton] at hx
    split at hx
    · exact I.live i x hi hx
    · rename_i hge
      split at hx
      · rename_i h0
        obtain rfl := Option.some.inj hx
        have : i = s.accepted.length := by omega
        subst this
        rw [I.tail, slot_counter hp] at hst
        exact hst
      · cases hx
  · exact I.consumer.accept

/-- The copy of the event at `head`. -/
theorem ringInv_copy {head : UInt32} (h : s.consumer = .copy head) :
    RingInv p { s with consumer := .storeHead head (s.cells (p.slot head)) } := by
  have hC := I.consumer
  simp only [ConsumerOk, h] at hC
  obtain ⟨rfl, hlt⟩ := hC
  refine ⟨I.head, I.tail, I.le, I.room, I.order, I.live, I.producer, rfl, ?_⟩
  have := I.live s.delivered.length _ (Nat.le_refl _) (List.getElem?_eq_getElem hlt)
  change s.accepted[s.delivered.length]? = some (s.cells (p.slot s.head))
  rw [I.head, slot_counter hp, this]
  exact List.getElem?_eq_getElem hlt

omit hp

/-- The consumer found `tail` ahead of `head`. -/
theorem ringInv_found {head : UInt32} (h : s.consumer = .loadTail head) (hne : head ≠ s.tail) :
    RingInv p { s with consumer := .copy head } := by
  have hC := I.consumer
  simp only [ConsumerOk, h] at hC
  subst hC
  refine ⟨I.head, I.tail, I.le, I.room, I.order, I.live, I.producer, rfl, ?_⟩
  have := I.le
  by_contra hno
  have heq : s.accepted.length = s.delivered.length := by
    change ¬ s.delivered.length < s.accepted.length at hno
    omega
  exact hne (by rw [I.head, I.tail, heq])

/-- The store of `head`. -/
theorem ringInv_deliver {head : UInt32} {e : β} (h : s.consumer = .storeHead head e) :
    RingInv p { s with
      head := head + 1, consumer := .idle, delivered := s.delivered ++ [e] } := by
  have hC := I.consumer
  simp only [ConsumerOk, h] at hC
  obtain ⟨rfl, he⟩ := hC
  have hlt := lt_of_getElem?_eq he
  refine ⟨?_, I.tail, ?_, ?_, ?_, fun i x hi hx => I.live i x ?_ hx, ?_, trivial⟩
  · rw [List.length_append, List.length_singleton, ← counter_succ, ← I.head]
  · simp only [List.length_append, List.length_singleton]
    omega
  · have := I.room
    simp only [List.length_append, List.length_singleton]
    omega
  · exact prefix_concat I.order he
  · simp only [List.length_append, List.length_singleton] at hi
    omega
  · exact I.producer.deliver

end

theorem ringInv_step {p : Params β} (hp : p.Lawful) {s s' : State β} {a : Act β}
    (I : RingInv p s) (h : step p s a = some s') : RingInv p s' := by
  have hP := I.producer
  have hC := I.consumer
  unfold step at h
  split at h
  case h_1 e =>
    split at h
    · cases h
      exact ⟨I.head, I.tail, I.le, I.room, I.order, I.live, trivial, hC⟩
    · cases h
  case h_2 =>
    split at h
    · cases h
    · cases h
      exact ⟨I.head, I.tail, I.le, I.room, I.order, I.live, rfl, hC⟩
    · rename_i e tail hpc
      simp only [ProducerOk, hpc] at hP
      subst hP
      split at h
      · rename_i hroom
        cases h
        refine ⟨I.head, I.tail, I.le, I.room, I.order, I.live, ⟨rfl, ?_, hp.writes e _⟩, hC⟩
        have := I.le
        have := I.count hp
        change s.accepted.length < s.delivered.length + p.capacity
        omega
      · split at h <;> cases h
        · exact ⟨I.head, I.tail, I.le, I.room, I.order, I.live, trivial, hC⟩
        · exact ⟨I.head, I.tail, I.le, I.room, I.order, I.live, trivial, hC⟩
    · rename_i e tail f todo hpc
      cases h
      exact ringInv_store hp I hpc
    · rename_i e tail hpc
      cases h
      exact ringInv_publish hp I hpc
  case h_3 =>
    split at h
    · cases h
      exact ⟨I.head, I.tail, I.le, I.room, I.order, I.live, hP, rfl⟩
    · cases h
  case h_4 =>
    split at h
    · cases h
    · rename_i head hpc
      split at h
      · cases h
        exact ⟨I.head, I.tail, I.le, I.room, I.order, I.live, hP, trivial⟩
      · rename_i hne
        cases h
        exact ringInv_found I hpc hne
    · rename_i head hpc
      cases h
      exact ringInv_copy hp I hpc
    · rename_i head e hpc
      cases h
      exact ringInv_deliver I hpc

theorem ringInv {p : Params β} (hp : p.Lawful) {zero : β}
    {G : State β → Act β → Prop} {s : State β} (h : Runs.ReachableBy (system p zero) G s) :
    RingInv p s :=
  h.invariant (P := RingInv p) (ringInv_initial p zero)
    fun _ _ _ _ I _ hs => ringInv_step hp I hs

/-! ## The queue the ring stands for -/

/-- The accepted events not yet delivered, oldest first. -/
def contents (s : State β) : List β := s.accepted.drop s.delivered.length

theorem RingInv.split {p : Params β} {s : State β} (I : RingInv p s) :
    s.accepted = s.delivered ++ contents s := by
  obtain ⟨r, hr⟩ := I.order
  rw [contents, ← hr, List.drop_left]

/-- What a bounded queue may do with its `waiting` events and those it has handed
out. -/
inductive QueueStep (capacity : Nat) : List β × List β → List β × List β → Prop
  | stay (q : List β × List β) : QueueStep capacity q q
  | push (waiting out : List β) (e : β) (h : waiting.length < capacity) :
      QueueStep capacity (waiting, out) (waiting ++ [e], out)
  | pop (waiting out : List β) (e : β) : QueueStep capacity (e :: waiting, out) (waiting, out ++ [e])

/-- The queue a ring stands for. -/
def queue (s : State β) : List β × List β := (contents s, s.delivered)

/-- A step that neither publishes nor delivers an event leaves the queue alone. -/
theorem contents_same {s s' : State β} (ha : s'.accepted = s.accepted)
    (hd : s'.delivered = s.delivered) : contents s' = contents s := by
  rw [contents, contents, ha, hd]

theorem RingInv.contents_publish {p : Params β} {s s' : State β} {e : β} (I : RingInv p s)
    (ha : s'.accepted = s.accepted ++ [e]) (hd : s'.delivered = s.delivered) :
    contents s' = contents s ++ [e] := by
  rw [contents, contents, ha, hd, List.drop_append_of_le_length I.le]

theorem RingInv.contents_deliver {p : Params β} {s s' : State β} {e : β} (I : RingInv p s)
    (I' : RingInv p s') (ha : s'.accepted = s.accepted) (hd : s'.delivered = s.delivered ++ [e]) :
    contents s = e :: contents s' := by
  have h := I'.split
  rw [ha, hd, I.split, List.append_assoc] at h
  exact List.append_cancel_left h

/-- **Each step of the ring is a step of a bounded queue.** -/
theorem ring_refines {p : Params β} {s s' : State β} {a : Act β} (I : RingInv p s)
    (I' : RingInv p s') (h : step p s a = some s') :
    QueueStep p.capacity (queue s) (queue s') := by
  have hstay : s'.accepted = s.accepted → s'.delivered = s.delivered →
      QueueStep p.capacity (queue s) (queue s') := fun ha hd => by
    rw [queue, queue, contents_same ha hd, hd]
    exact .stay _
  unfold step at h
  split at h
  case h_2 =>
    split at h
    · cases h
    · cases h
      exact hstay rfl rfl
    · split at h
      · cases h
        exact hstay rfl rfl
      · split at h <;> cases h <;> exact hstay rfl rfl
    · cases h
      exact hstay rfl rfl
    · rename_i e tail hpc
      have hP := I.producer
      simp only [ProducerOk, hpc] at hP
      have hlen : (contents s).length = s.accepted.length - s.delivered.length :=
        List.length_drop
      have := I.le
      obtain rfl := Option.some.inj h
      have hc : contents { s with
          tail := tail + 1, producer := .idle, accepted := s.accepted ++ [e] } =
            contents s ++ [e] := I.contents_publish rfl rfl
      rw [queue, queue, hc]
      exact .push _ _ _ (by omega)
  case h_4 =>
    split at h
    · cases h
    · split at h <;> cases h <;> exact hstay rfl rfl
    · cases h
      exact hstay rfl rfl
    · obtain rfl := Option.some.inj h
      rw [queue, I.contents_deliver I' rfl rfl]
      exact .pop _ _ _
  all_goals
    split at h <;> cases h
    exact hstay rfl rfl

/-- The ring is a FIFO queue of at most `capacity` events. -/
structure Fifo (p : Params β) (s : State β) : Prop where
  /-- the counters tell how many events are in the ring -/
  count : (s.tail - s.head).toNat = (contents s).length
  bounded : (s.tail - s.head).toNat ≤ p.capacity
  /-- every accepted event is delivered once, in order, or still in the ring -/
  order : s.accepted = s.delivered ++ contents s
  cells : ∀ i e, (contents s)[i]? = some e → s.cells (p.slot (s.head + UInt32.ofNat i)) = e
  /-- a store of the producer hits no cell of an event in the ring -/
  untouched : ∀ e tail todo i, s.producer = .write e tail todo → i < (contents s).length →
    p.slot (s.head + UInt32.ofNat i) ≠ p.slot tail
  /-- what the consumer has copied is the oldest event in the ring -/
  copied : ∀ head e, s.consumer = .storeHead head e → (contents s).head? = some e

/-- **The ring is a FIFO queue**, for any number of operations and any interleaving
of their steps. -/
theorem ring_fifo {p : Params β} (hp : p.Lawful) {zero : β} {s : State β}
    (h : Runs.Reachable (system p zero) s) : Fifo p s := by
  have I := ringInv hp h
  have hcount := I.count hp
  have hlen : (contents s).length = s.accepted.length - s.delivered.length := List.length_drop
  have hslot : ∀ i, p.slot (s.head + UInt32.ofNat i) = (s.delivered.length + i) % p.capacity :=
    fun i => by rw [I.head, ← UInt32.ofNat_add, slot_counter hp]
  refine ⟨hcount.trans hlen.symm, ?_, I.split, fun i e hi => ?_, fun e tail todo i hpc hi => ?_,
    fun head e hpc => ?_⟩
  · have := I.room
    omega
  · rw [contents, List.getElem?_drop] at hi
    rw [hslot]
    exact I.live _ e (Nat.le_add_right _ _) hi
  · rw [hslot]
    exact I.disjoint hp hpc (Nat.le_add_right _ _) (by omega)
  · have hC := I.consumer
    simp only [ConsumerOk, hpc] at hC
    rw [contents, List.head?_drop]
    exact hC.2

end ScaleLockDep.SpscRing
