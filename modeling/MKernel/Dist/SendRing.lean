import MKernel.Core.Ring
import MKernel.Core.System

/-!
# The Send Ring of a Channel

`enqueue_send` and `try_dequeue_send` over the ring of a channel, one memory access
at a time.

The producer loads its own `head`, and spins until `head - tail` is below the capacity.
Then it stores the fields of the job, and releases the new `head`. The consumer loads its
own `tail` and then `head`, copies the job out field by field if the two differ, and
releases the new `tail`. Between the access that lets a side go on and its release the
fields come in any order.

`head` and `tail` are 32-bit counters that wrap, and the slot is what the mask leaves of
them. The jobs are counted without wrapping by two lists the code does not have, of what
has been released on either side. There are never more jobs in the ring than slots, and
these are fewer than 2^32, so the difference of the counters is their number
(`sub_ofNat`), and the mask tells the slots of the ring apart (`slotIndex_ofNat`).

## Main definitions

* `Capacity`: A ring size that `attach_channels_proxy` accepts.
* `ProducerPc`, `ConsumerPc`: Where a side is.
* `State`, `step`: The ring and both sides, and one memory access.
* `Inv`: What every access keeps.

## Theorems

* `inv_step`: What every access keeps.
* `send_ring`: The jobs come out as they were put in.
-/

namespace MKernel

namespace Dist

namespace SendRing

open MKernel.Core

/-- A ring size `attach_channels_proxy` accepts, and at least one. It is an `int`. -/
structure Capacity where
  val : Nat
  pos : val ≠ 0
  lt : val < 2 ^ 31
  mask : val &&& (val - 1) = 0

/-- `SendJob`, less its padding. -/
structure SendJob where
  tileId : BitVec 32
  bytes : BitVec 32
  off : BitVec 64
  imm : BitVec 32
  dstNode : BitVec 16
deriving DecidableEq

/-- The fields of a job. -/
inductive Field where
  | tileId
  | bytes
  | off
  | imm
  | dstNode
deriving DecidableEq

def Field.all : List Field := [.tileId, .bytes, .off, .imm, .dstNode]

theorem Field.mem_all (f : Field) : f ∈ Field.all := by
  cases f <;> decide

namespace SendJob

/-- One field copied over from another job. -/
def copyField (dst src : SendJob) : Field → SendJob
  | .tileId => { dst with tileId := src.tileId }
  | .bytes => { dst with bytes := src.bytes }
  | .off => { dst with off := src.off }
  | .imm => { dst with imm := src.imm }
  | .dstNode => { dst with dstNode := src.dstNode }

/-- Two jobs are the same in a field. -/
def Agree (a b : SendJob) : Field → Prop
  | .tileId => a.tileId = b.tileId
  | .bytes => a.bytes = b.bytes
  | .off => a.off = b.off
  | .imm => a.imm = b.imm
  | .dstNode => a.dstNode = b.dstNode

variable {a b c : SendJob}

theorem eq_of_agree (h : ∀ f ∈ Field.all, Agree a b f) : a = b := by
  have h1 := h .tileId (Field.mem_all _)
  have h2 := h .bytes (Field.mem_all _)
  have h3 := h .off (Field.mem_all _)
  have h4 := h .imm (Field.mem_all _)
  have h5 := h .dstNode (Field.mem_all _)
  cases a
  cases b
  simp only [Agree] at h1 h2 h3 h4 h5
  rw [h1, h2, h3, h4, h5]

/-- A field that is copied agrees, and so does each that agreed before. -/
theorem agree_copyField {f g : Field} (h : g = f ∨ Agree a b g) :
    Agree (a.copyField b f) b g := by
  rcases h with rfl | h
  · cases g <;> rfl
  · cases f <;> cases g <;> first | rfl | exact h

end SendJob

/-! ## The counters -/

/-- `h & mask`, with `mask = ring_capacity - 1`. -/
def slotIndex (capacity : Capacity) (h : BitVec 32) : Nat :=
  (h &&& (BitVec.ofNat 32 capacity.val - 1#32)).toNat

/-- The mask leaves the residue, also where the counter has wrapped. -/
theorem slotIndex_ofNat (capacity : Capacity) (n : Nat) :
    slotIndex capacity (BitVec.ofNat 32 n) = n % capacity.val := by
  have hpos := capacity.pos
  have hlt := capacity.lt
  obtain ⟨k, hk⟩ := (Nat.and_sub_one_eq_zero_iff_isPowerOfTwo capacity.pos).mp capacity.mask
  have hmask : (BitVec.ofNat 32 capacity.val - 1#32).toNat = 2 ^ k - 1 := by
    rw [← hk]
    simp only [BitVec.toNat_sub, BitVec.toNat_ofNat]
    omega
  have hk32 : 2 ^ k ∣ 2 ^ 32 := by
    refine Nat.pow_dvd_pow 2 ?_
    by_contra hge
    have hle : 2 ^ 32 ≤ 2 ^ k := Nat.pow_le_pow_right (by decide) (by omega)
    omega
  rw [slotIndex, BitVec.toNat_and, hmask, BitVec.toNat_ofNat, Nat.and_two_pow_sub_one_eq_mod, hk,
    Nat.mod_mod_of_dvd _ hk32]

/-- The difference of the counters is that of what they count. -/
theorem sub_ofNat {n m : Nat} (hle : m ≤ n) (hlt : n - m < 2 ^ 32) :
    (BitVec.ofNat 32 n - BitVec.ofNat 32 m).toNat = n - m := by
  simp only [BitVec.toNat_sub, BitVec.toNat_ofNat]
  omega

/-! ## The two sides -/

/-- Where the producer is inside `enqueue_send`. -/
inductive ProducerPc where
  | idle
  /-- About to load `tail`. -/
  | spin (h : BitVec 32) (job : SendJob)
  /-- Some of the fields are stored. -/
  | store (h : BitVec 32) (job : SendJob) (stored : List Field)
deriving DecidableEq

/-- Where the consumer is inside `try_dequeue_send`. -/
inductive ConsumerPc where
  | idle
  /-- About to load `head`. -/
  | check (t : BitVec 32) (out : SendJob)
  /-- Some of the fields are copied out. -/
  | copy (t : BitVec 32) (out : SendJob) (copied : List Field)
deriving DecidableEq

/-- The ring, both sides, and the history. -/
structure State where
  ring : Nat → SendJob
  head : BitVec 32
  tail : BitVec 32
  producer : ProducerPc
  consumer : ConsumerPc
  /-- The jobs whose `enqueue_send` has returned. -/
  enqueued : List SendJob
  /-- The jobs `try_dequeue_send` has returned. -/
  dequeued : List SendJob

/-- What `attach_channels_proxy` leaves: all zero. -/
def init : State where
  ring := fun _ => ⟨0, 0, 0, 0, 0⟩
  head := 0#32
  tail := 0#32
  producer := .idle
  consumer := .idle
  enqueued := []
  dequeued := []

inductive Action where
  /-- `enqueue_send` is called, and loads `head`. -/
  | enqueue (job : SendJob)
  /-- The producer loads `tail`. -/
  | loadTail
  | storeField (f : Field)
  /-- The producer releases the new `head`. -/
  | releaseHead
  /-- `try_dequeue_send` is called, with something in `*out`, and loads `tail`. -/
  | dequeue (out : SendJob)
  /-- The consumer loads `head`. -/
  | loadHead
  | copyField (f : Field)
  /-- The consumer releases the new `tail`. -/
  | releaseTail

/-- One memory access. -/
def step (capacity : Capacity) (s : State) : Action → Option State
  | .enqueue job =>
      match s.producer with
      | .idle => some { s with producer := .spin s.head job }
      | _ => none
  | .loadTail =>
      match s.producer with
      | .spin h job =>
          if h - s.tail < BitVec.ofNat 32 capacity.val then
            some { s with producer := .store h job [] }
          else some s
      | _ => none
  | .storeField f =>
      match s.producer with
      | .store h job stored =>
          if f ∈ stored then none
          else some { s with
            ring := Function.update s.ring (slotIndex capacity h)
              ((s.ring (slotIndex capacity h)).copyField job f)
            producer := .store h job (f :: stored) }
      | _ => none
  | .releaseHead =>
      match s.producer with
      | .store h job stored =>
          if ∀ f ∈ Field.all, f ∈ stored then
            some { s with
              head := h + 1#32
              producer := .idle
              enqueued := s.enqueued ++ [job] }
          else none
      | _ => none
  | .dequeue out =>
      match s.consumer with
      | .idle => some { s with consumer := .check s.tail out }
      | _ => none
  | .loadHead =>
      match s.consumer with
      | .check t out =>
          if t = s.head then some { s with consumer := .idle }
          else some { s with consumer := .copy t out [] }
      | _ => none
  | .copyField f =>
      match s.consumer with
      | .copy t out copied =>
          if f ∈ copied then none
          else some { s with
            consumer := .copy t (out.copyField (s.ring (slotIndex capacity t)) f) (f :: copied) }
      | _ => none
  | .releaseTail =>
      match s.consumer with
      | .copy t out copied =>
          if ∀ f ∈ Field.all, f ∈ copied then
            some { s with
              tail := t + 1#32
              consumer := .idle
              dequeued := s.dequeued ++ [out] }
          else none
      | _ => none

/-! ## What every access keeps -/

/-- What the producer knows: its own counter, and when it stores that the slot is free, and
    what it has stored. -/
def ProducerInv (capacity : Capacity) (s : State) : Prop :=
  match s.producer with
  | .idle => True
  | .spin h _ => h = BitVec.ofNat 32 s.enqueued.length
  | .store h job stored => h = BitVec.ofNat 32 s.enqueued.length ∧
      s.enqueued.length < s.dequeued.length + capacity.val ∧
      ∀ f ∈ stored, (cell s.ring capacity.val s.enqueued.length).Agree job f

/-- What the consumer knows: its own counter, and when it copies that there is a job, and
    what it has copied. -/
def ConsumerInv (capacity : Capacity) (s : State) : Prop :=
  match s.consumer with
  | .idle => True
  | .check t _ => t = BitVec.ofNat 32 s.dequeued.length
  | .copy t out copied => t = BitVec.ofNat 32 s.dequeued.length ∧
      s.dequeued.length < s.enqueued.length ∧
      ∀ f ∈ copied, out.Agree (cell s.ring capacity.val s.dequeued.length) f

/-- What every access keeps. -/
structure Inv (capacity : Capacity) (s : State) : Prop where
  head_eq : s.head = BitVec.ofNat 32 s.enqueued.length
  tail_eq : s.tail = BitVec.ofNat 32 s.dequeued.length
  fits : s.enqueued.length ≤ s.dequeued.length + capacity.val
  order : s.dequeued <+: s.enqueued
  cells : ∀ i, s.dequeued.length ≤ i → i < s.enqueued.length →
    s.enqueued[i]? = some (cell s.ring capacity.val i)
  producer : ProducerInv capacity s
  consumer : ConsumerInv capacity s

variable {capacity : Capacity} {s t : State}

theorem inv_init (capacity : Capacity) : Inv capacity init where
  head_eq := rfl
  tail_eq := rfl
  fits := Nat.zero_le _
  order := List.prefix_rfl
  cells _ _ h := absurd h (Nat.not_lt_zero _)
  producer := trivial
  consumer := trivial

theorem Inv.length_le (h : Inv capacity s) : s.dequeued.length ≤ s.enqueued.length :=
  h.order.length_le

/-- What the producer knows stays true when the consumer gets ahead. -/
theorem producerInv_of_kept (hp : ProducerInv capacity s) (hpc : t.producer = s.producer)
    (hring : t.ring = s.ring) (henq : t.enqueued = s.enqueued)
    (hlen : s.dequeued.length ≤ t.dequeued.length) : ProducerInv capacity t := by
  unfold ProducerInv at hp ⊢
  rw [hpc, hring, henq]
  cases hcase : s.producer with
  | idle => trivial
  | spin head job =>
    rw [hcase] at hp
    exact hp
  | store head job stored =>
    rw [hcase] at hp
    exact ⟨hp.1, hp.2.1.trans_le (Nat.add_le_add_right hlen _), hp.2.2⟩

/-- What the consumer knows stays true when the producer gets ahead. -/
theorem consumerInv_of_kept (hc : ConsumerInv capacity s) (hpc : t.consumer = s.consumer)
    (hdeq : t.dequeued = s.dequeued) (hlen : s.enqueued.length ≤ t.enqueued.length)
    (hcell : s.dequeued.length < s.enqueued.length →
      cell t.ring capacity.val s.dequeued.length = cell s.ring capacity.val s.dequeued.length) :
    ConsumerInv capacity t := by
  unfold ConsumerInv at hc ⊢
  rw [hpc, hdeq]
  cases hcase : s.consumer with
  | idle => trivial
  | check tail out =>
    rw [hcase] at hc
    exact hc
  | copy tail out copied =>
    rw [hcase] at hc
    refine ⟨hc.1, hc.2.1.trans_le hlen, ?_⟩
    rw [hcell hc.2.1]
    exact hc.2.2

/-- What the producer finds: whether there is a free slot. -/
theorem Inv.hasRoom_iff (h : Inv capacity s) :
    BitVec.ofNat 32 s.enqueued.length - s.tail < BitVec.ofNat 32 capacity.val ↔
      s.enqueued.length < s.dequeued.length + capacity.val := by
  have hle := h.length_le
  have hfits := h.fits
  have hlt := capacity.lt
  rw [BitVec.lt_def, h.tail_eq, sub_ofNat hle (by omega), BitVec.toNat_ofNat]
  omega

/-- What the consumer finds: whether there is a job. -/
theorem Inv.isEmpty_iff (h : Inv capacity s) :
    BitVec.ofNat 32 s.dequeued.length = s.head ↔ s.dequeued.length = s.enqueued.length := by
  have hle := h.length_le
  have hfits := h.fits
  have hlt := capacity.lt
  rw [h.head_eq]
  constructor
  · intro heq
    have hsub := sub_ofNat hle (by omega)
    rw [heq, BitVec.sub_self, BitVec.toNat_ofNat, Nat.zero_mod] at hsub
    omega
  · intro heq
    rw [heq]

theorem inv_enqueue {job : SendJob} (h : Inv capacity s)
    (hstep : step capacity s (.enqueue job) = some t) : Inv capacity t := by
  simp only [step] at hstep
  split at hstep
  · rw [← Option.some.inj hstep]
    exact ⟨h.head_eq, h.tail_eq, h.fits, h.order, h.cells, h.head_eq, h.consumer⟩
  · exact absurd hstep (by simp only [reduceCtorEq, not_false_eq_true])

theorem inv_loadTail (h : Inv capacity s) (hstep : step capacity s .loadTail = some t) :
    Inv capacity t := by
  simp only [step] at hstep
  split at hstep
  · rename_i head job hpc
    have hp := h.producer
    rw [ProducerInv, hpc] at hp
    split at hstep
    · rename_i hroom
      rw [← Option.some.inj hstep]
      rw [hp] at hroom
      exact ⟨h.head_eq, h.tail_eq, h.fits, h.order, h.cells,
        ⟨hp, h.hasRoom_iff.mp hroom, fun f hf => absurd hf List.not_mem_nil⟩, h.consumer⟩
    · rw [← Option.some.inj hstep]
      exact h
  · exact absurd hstep (by simp only [reduceCtorEq, not_false_eq_true])

/-- A field is stored into a slot that holds no job. -/
theorem inv_storeField {f : Field} (h : Inv capacity s)
    (hstep : step capacity s (.storeField f) = some t) : Inv capacity t := by
  have hle := h.length_le
  simp only [step] at hstep
  split at hstep
  · rename_i head job stored hpc
    have hp := h.producer
    rw [ProducerInv, hpc] at hp
    obtain ⟨rfl, hroom, hstored⟩ := hp
    split at hstep
    · exact absurd hstep (by simp only [reduceCtorEq, not_false_eq_true])
    rw [← Option.some.inj hstep]
    have hring : Function.update s.ring (slotIndex capacity (BitVec.ofNat 32 s.enqueued.length))
        ((s.ring (slotIndex capacity (BitVec.ofNat 32 s.enqueued.length))).copyField job f) =
          setCell s.ring capacity.val s.enqueued.length
            ((cell s.ring capacity.val s.enqueued.length).copyField job f) := by
      rw [slotIndex_ofNat]
      rfl
    -- The jobs in the ring are in other slots.
    have hother (job' : SendJob) (i : Nat) (hi : s.dequeued.length ≤ i)
        (hlt : i < s.enqueued.length) :
        cell (setCell s.ring capacity.val s.enqueued.length job') capacity.val i =
          cell s.ring capacity.val i :=
      cell_setCell_window hle hroom hi (hlt.trans hroom) hlt.ne
    refine ⟨h.head_eq, h.tail_eq, h.fits, h.order, fun i hi hlt => ?_, ?_, ?_⟩
    · simp only [hring]
      rw [hother _ i hi hlt]
      exact h.cells i hi hlt
    · refine ⟨rfl, hroom, fun g hg => ?_⟩
      simp only [hring]
      rw [cell_setCell_self]
      refine SendJob.agree_copyField ?_
      rcases List.mem_cons.mp hg with rfl | hg
      · exact Or.inl rfl
      · exact Or.inr (hstored g hg)
    · refine consumerInv_of_kept h.consumer rfl rfl le_rfl fun hlt => ?_
      simp only [hring]
      exact hother _ _ le_rfl hlt
  · exact absurd hstep (by simp only [reduceCtorEq, not_false_eq_true])

/-- The counters go on by one. -/
theorem ofNat_succ (n : Nat) : BitVec.ofNat 32 n + 1#32 = BitVec.ofNat 32 (n + 1) :=
  (BitVec.ofNat_add n 1).symm

/-- The job is complete in its slot when `head` is released. -/
theorem inv_releaseHead (h : Inv capacity s) (hstep : step capacity s .releaseHead = some t) :
    Inv capacity t := by
  have hle := h.length_le
  simp only [step] at hstep
  split at hstep
  · rename_i head job stored hpc
    have hp := h.producer
    rw [ProducerInv, hpc] at hp
    obtain ⟨rfl, hroom, hstored⟩ := hp
    split at hstep
    · rename_i hall
      rw [← Option.some.inj hstep]
      -- All fields are stored, so the slot holds the job.
      have hcell : cell s.ring capacity.val s.enqueued.length = job :=
        SendJob.eq_of_agree fun f hf => hstored f (hall f hf)
      have hlength : (s.enqueued ++ [job]).length = s.enqueued.length + 1 := List.length_append
      refine ⟨?_, h.tail_eq, ?_, ?_, fun i hi hlt => ?_, trivial, ?_⟩
      · rw [ofNat_succ, hlength]
      · rw [hlength]
        exact hroom
      · exact h.order.trans (List.prefix_append _ _)
      · simp only [hlength] at hlt
        -- The new job is in the slot behind the others, which stay.
        by_cases heq : i = s.enqueued.length
        · rw [heq, List.getElem?_concat_length, hcell]
        · rw [List.getElem?_append_left (by omega)]
          exact h.cells i hi (by omega)
      · exact consumerInv_of_kept h.consumer rfl rfl (by rw [hlength]; omega) fun _ => rfl
    · exact absurd hstep (by simp only [reduceCtorEq, not_false_eq_true])
  · exact absurd hstep (by simp only [reduceCtorEq, not_false_eq_true])

theorem inv_dequeue {out : SendJob} (h : Inv capacity s)
    (hstep : step capacity s (.dequeue out) = some t) : Inv capacity t := by
  simp only [step] at hstep
  split at hstep
  · rw [← Option.some.inj hstep]
    exact ⟨h.head_eq, h.tail_eq, h.fits, h.order, h.cells, h.producer, h.tail_eq⟩
  · exact absurd hstep (by simp only [reduceCtorEq, not_false_eq_true])

theorem inv_loadHead (h : Inv capacity s) (hstep : step capacity s .loadHead = some t) :
    Inv capacity t := by
  have hle := h.length_le
  simp only [step] at hstep
  split at hstep
  · rename_i tail out hpc
    have hc := h.consumer
    rw [ConsumerInv, hpc] at hc
    split at hstep
    · rw [← Option.some.inj hstep]
      exact ⟨h.head_eq, h.tail_eq, h.fits, h.order, h.cells, h.producer, trivial⟩
    · rename_i hne
      rw [← Option.some.inj hstep]
      rw [hc, h.isEmpty_iff] at hne
      exact ⟨h.head_eq, h.tail_eq, h.fits, h.order, h.cells, h.producer,
        ⟨hc, lt_of_le_of_ne hle hne, fun f hf => absurd hf List.not_mem_nil⟩⟩
  · exact absurd hstep (by simp only [reduceCtorEq, not_false_eq_true])

theorem inv_copyField {f : Field} (h : Inv capacity s)
    (hstep : step capacity s (.copyField f) = some t) : Inv capacity t := by
  simp only [step] at hstep
  split at hstep
  · rename_i tail out copied hpc
    have hc := h.consumer
    rw [ConsumerInv, hpc] at hc
    obtain ⟨rfl, hlt, hcopied⟩ := hc
    split at hstep
    · exact absurd hstep (by simp only [reduceCtorEq, not_false_eq_true])
    rw [← Option.some.inj hstep]
    refine ⟨h.head_eq, h.tail_eq, h.fits, h.order, h.cells, h.producer, rfl, hlt, fun g hg => ?_⟩
    rw [slotIndex_ofNat]
    refine SendJob.agree_copyField ?_
    rcases List.mem_cons.mp hg with rfl | hg
    · exact Or.inl rfl
    · exact Or.inr (hcopied g hg)
  · exact absurd hstep (by simp only [reduceCtorEq, not_false_eq_true])

/-- The job is copied out when `tail` is released, and its slot is free from then on. -/
theorem inv_releaseTail (h : Inv capacity s) (hstep : step capacity s .releaseTail = some t) :
    Inv capacity t := by
  have hfits := h.fits
  simp only [step] at hstep
  split at hstep
  · rename_i tail out copied hpc
    have hc := h.consumer
    rw [ConsumerInv, hpc] at hc
    obtain ⟨rfl, hlt, hcopied⟩ := hc
    split at hstep
    · rename_i hall
      rw [← Option.some.inj hstep]
      -- All fields are copied, so `out` is the job of the slot.
      have hout : out = cell s.ring capacity.val s.dequeued.length :=
        SendJob.eq_of_agree fun f hf => hcopied f (hall f hf)
      have hlength : (s.dequeued ++ [out]).length = s.dequeued.length + 1 := List.length_append
      refine ⟨h.head_eq, ?_, ?_, ?_, fun i hi hlt' => ?_, ?_, trivial⟩
      · rw [ofNat_succ, hlength]
      · rw [hlength]
        exact le_trans hfits (by omega)
      · -- The job is the next one of those put in.
        obtain ⟨rest, hrest⟩ := h.order
        have hnext := h.cells _ le_rfl hlt
        rw [← hrest, List.getElem?_append_right le_rfl, Nat.sub_self] at hnext
        cases rest with
        | nil => exact absurd hnext (by simp only [List.getElem?_nil, reduceCtorEq,
            not_false_eq_true])
        | cons job rest =>
          rw [List.getElem?_cons_zero, Option.some.injEq, ← hout] at hnext
          refine ⟨rest, ?_⟩
          rw [← hrest, ← hnext, List.append_assoc, List.singleton_append]
      · simp only [hlength] at hi
        exact h.cells i (by omega) hlt'
      · exact producerInv_of_kept h.producer rfl rfl rfl (by rw [hlength]; omega)
    · exact absurd hstep (by simp only [reduceCtorEq, not_false_eq_true])
  · exact absurd hstep (by simp only [reduceCtorEq, not_false_eq_true])

theorem inv_step {a : Action} (h : Inv capacity s) (hstep : step capacity s a = some t) :
    Inv capacity t := by
  cases a with
  | enqueue job => exact inv_enqueue h hstep
  | loadTail => exact inv_loadTail h hstep
  | storeField f => exact inv_storeField h hstep
  | releaseHead => exact inv_releaseHead h hstep
  | dequeue out => exact inv_dequeue h hstep
  | loadHead => exact inv_loadHead h hstep
  | copyField f => exact inv_copyField h hstep
  | releaseTail => exact inv_releaseTail h hstep

/-! ## The ring -/

/-- In every run, what has been dequeued is what was enqueued first, in order and each job
    complete and once. A slot the producer stores to has no job that is not dequeued. And a
    side is held up only by a full or an empty ring: `enqueue_send` finds room if and only if
    there are fewer jobs than slots, and `try_dequeue_send` returns false if and only if all
    jobs are dequeued. -/
theorem send_ring {s : State} (h : Reaches (step capacity) always init s) :
    s.dequeued <+: s.enqueued ∧
      (∀ head job stored, s.producer = .store head job stored → ∀ i < s.enqueued.length,
        slotIndex capacity (BitVec.ofNat 32 i) = slotIndex capacity head → i < s.dequeued.length) ∧
      (∀ head job, s.producer = .spin head job →
        (head - s.tail < BitVec.ofNat 32 capacity.val ↔
          s.enqueued.length < s.dequeued.length + capacity.val)) ∧
      ∀ tail out, s.consumer = .check tail out → (tail = s.head ↔ s.dequeued = s.enqueued) := by
  have hi : Inv capacity s := invariant_of_reaches (Inv capacity)
    (fun _ _ _ hi _ hstep => inv_step hi hstep) h (inv_init capacity)
  have hp := hi.producer
  have hc := hi.consumer
  refine ⟨hi.order, fun head job stored hpc i hlt hslot => ?_, fun head job hpc => ?_,
    fun tail out hpc => ?_⟩
  · rw [ProducerInv, hpc] at hp
    obtain ⟨rfl, hroom, -⟩ := hp
    rw [slotIndex_ofNat, slotIndex_ofNat] at hslot
    by_contra hge
    -- Two positions of the window of one capacity would share a slot.
    have heq := window_inj (not_lt.mp hge) (hlt.trans hroom) hi.length_le hroom hslot
    omega
  · rw [ProducerInv, hpc] at hp
    rw [hp]
    exact hi.hasRoom_iff
  · rw [ConsumerInv, hpc] at hc
    rw [hc, hi.isEmpty_iff]
    exact ⟨hi.order.eq_of_length, fun heq => by rw [heq]⟩

/-- A ring with one slot. -/
def single : Capacity := ⟨1, by decide, by decide, by decide⟩

/-- Two jobs through one slot: the second waits until the first is copied out. -/
def passed : State :=
  (run (step single) always
    ([Action.enqueue ⟨7, 8, 9, 10, 11⟩, .loadTail] ++ Field.all.map Action.storeField ++
      [Action.releaseHead, .enqueue ⟨1, 2, 3, 4, 5⟩, .loadTail, .dequeue ⟨0, 0, 0, 0, 0⟩,
        .loadHead] ++
      Field.all.map Action.copyField ++ [Action.releaseTail, .loadTail, .storeField .off]) init).get
    (by decide +kernel)

theorem send_ring_passed : passed.dequeued = [⟨7, 8, 9, 10, 11⟩] ∧
    passed.dequeued <+: passed.enqueued := by
  have hreach : Reaches (step single) always init passed :=
    reaches_of_run _ _ _ (Option.some_get _).symm
  exact ⟨by decide +kernel, (send_ring hreach).1⟩

end SendRing

end Dist

end MKernel
