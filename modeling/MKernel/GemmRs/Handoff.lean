import MKernel.Core.Strided
import MKernel.Core.System
import MKernel.GemmRs.Tasks

/-!
# Handing Chunks to the Senders

How the compute CTAs of `gemm_rs` tell the sending CTAs which chunks are ready.

Thread 0 of a compute CTA counts the tile it has computed. Whoever counts the last
tile of a chunk adds one to the count of the chunk on its owner, and whoever makes
that the number of GPUs sets the chunk's bit in the queue of the CTA that sends it.
The sending CTA looks through the words of its queue and takes the lowest bit of a
word that has one by a compare-and-swap, which fails if a bit was set since the
word was loaded. Then it posts the chunk, and it leaves when it has posted as many
as it owns.

The compute CTA goes from the row block of a chunk to the sending CTA and the bit,
the sending CTA from its number and the bit to the row block. One is the inverse
of the other (`sendPlace_queueIdx`, `queueIdx_sendPlace`).

Each atomic operation, load and post is a step of its own. A post stores to
`sender_done` and pushes the commands of the chunk, which are those of
`Launch.sendChunk`.

## Main definitions

* `Setup`: The shape and how the CTAs are divided.
* `World`, `step`: The GPUs of a node.
* `Setup.myChunksTotal`, `Setup.sendPlace`: The chunks of a sending CTA.

## Theorems

* `sendPlace_queueIdx`, `queueIdx_sendPlace`: The two maps are inverse.
* `queueWord_inj`: No two queues have a word in common.
-/

namespace MKernel

namespace GemmRs

namespace Handoff

open MKernel.Core MKernel.GemmAr

/-- The shape, and the CTAs that compute and that send. `NUM_DEVICES` fits in an
    `int`, and the entry point makes `num_comp` at least one. -/
structure Setup where
  shape : Shape
  numCompSms : Nat
  numSendSms : Nat
  numDevices_lt : shape.numDevices < 2 ^ 31
  numCompSms_pos : 0 < numCompSms

/-- A compute CTA of a GPU. -/
abbrev CtaId (setup : Setup) := Fin setup.shape.numDevices × Fin setup.numCompSms

/-- A sending CTA of a GPU. -/
abbrev SendId (setup : Setup) := Fin setup.shape.numDevices × Fin setup.numSendSms

namespace Setup

variable (setup : Setup)

/-- `queue_words`. -/
def queueWords : Nat :=
  sendReadyBitmapWordsPerQueue setup.shape.rowBlocksPerSlice setup.numSendSms
    setup.shape.chunksPerRow

/-- `my_chunks_total`. -/
def myChunksTotal (sendId : Nat) : Nat :=
  let myRbs := if sendId < setup.shape.rowBlocksPerSlice then
      (setup.shape.rowBlocksPerSlice - sendId + setup.numSendSms - 1) / setup.numSendSms
    else 0
  myRbs * setup.shape.chunksPerRow

/-- `rb` and `ci`: the row block in the slice and the column of chunks that a bit of
    its queue stands for, to a sending CTA. -/
def sendPlace (sendId idx : Nat) : Nat × Nat :=
  let rbK := idx / setup.shape.chunksPerRow
  (sendId + rbK * setup.numSendSms, idx - rbK * setup.shape.chunksPerRow)

end Setup

/-- Where thread 0 of a compute CTA stands. -/
inductive Phase where
  | tile
  /-- It has counted the last tile of a chunk. -/
  | signalling (row chunkCol : Nat)
  /-- It is the last to add to the count of a chunk. -/
  | setting (row chunkCol : Nat)
deriving DecidableEq

/-- Where thread 0 of a sending CTA stands. -/
inductive SendPc where
  /-- Before the load of a word. -/
  | scanning (w : Nat)
  /-- Before the compare-and-swap of a word, with the value it expects. -/
  | claiming (w : Nat) (old : BitVec 32)
  /-- It has taken a bit. -/
  | posting (idx : Nat)
  | ended
deriving DecidableEq

structure Sender where
  pc : SendPc
  posted : Nat
deriving DecidableEq

/-- The GPUs. Which GPU has counted all tiles of which chunk, which has added to the
    count of which chunk and which has set the bit of which, is kept besides, and so
    is what was posted by whom. -/
structure World (setup : Setup) where
  walk : Fin setup.shape.numDevices → Strided setup.numCompSms
  phase : CtaId setup → Phase
  compGemmDone : Fin setup.shape.numDevices → Nat → Nat
  readyChunk : Fin setup.shape.numDevices → Nat → BitVec 32
  sender : SendId setup → Sender
  senderDone : Fin setup.shape.numDevices → Nat → Nat
  counted : List (Fin setup.shape.numDevices × (Nat × Nat))
  signalled : List (Fin setup.shape.numDevices × (Nat × Nat))
  sets : List (Fin setup.shape.numDevices × (Nat × Nat))
  posts : List (SendId setup × (Nat × Nat))

/-- The loop of a sending CTA: it looks for the next chunk, or leaves. -/
def Setup.loop (setup : Setup) (k : SendId setup) (posted : Nat) : Sender where
  pc := if posted < setup.myChunksTotal k.2 then .scanning 0 else .ended
  posted := posted

/-- The GPUs at launch, with all counts and words zero. -/
def init (setup : Setup) : World setup where
  walk := fun _ => Strided.start
  phase := fun _ => .tile
  compGemmDone := fun _ _ => 0
  readyChunk := fun _ _ => 0
  sender := fun k => setup.loop k 0
  senderDone := fun _ _ => 0
  counted := []
  signalled := []
  sets := []
  posts := []

/-- What can happen next. -/
inductive Action (setup : Setup) where
  /-- A compute CTA has computed its next tile and counts it. -/
  | count (k : CtaId setup)
  /-- It counts its GPU for a chunk, on the owner. -/
  | signal (k : CtaId setup)
  /-- It sets the bit of a chunk. -/
  | setBit (k : CtaId setup)
  /-- A sending CTA goes on. -/
  | send (k : SendId setup)
deriving DecidableEq

variable {setup : Setup}

namespace World

variable (w : World setup)

def setWord (d : Fin setup.shape.numDevices) (i : Nat) (x : BitVec 32) : World setup :=
  { w with readyChunk := Function.update w.readyChunk d (Function.update (w.readyChunk d) i x) }

def setPhase (k : CtaId setup) (p : Phase) : World setup :=
  { w with phase := Function.update w.phase k p }

def setSender (k : SendId setup) (t : Sender) : World setup :=
  { w with sender := Function.update w.sender k t }

/-- A word of the queue of a sending CTA. -/
def word (k : SendId setup) (i : Nat) : BitVec 32 :=
  w.readyChunk k.1 (queueWord setup.shape setup.numSendSms k.2 i)

end World

/-- `__ffs`. -/
def ffs (x : BitVec 32) : Nat := if x = 0 then 0 else x.ctz.toNat + 1

/-- The bit a sending CTA goes for. -/
def lowest (old : BitVec 32) : Nat := ffs old - 1

/-- `old & ~bit`. -/
def desired (old : BitVec 32) : BitVec 32 := old &&& ~~~(1#32 <<< lowest old)

/-- A sending CTA tries the word it has loaded, or goes on to the next one. -/
def SendPc.look (w : Nat) (old : BitVec 32) : SendPc :=
  if old = 0 then .scanning (w + 1) else .claiming w old

/-- Thread 0 of a sending CTA goes on. -/
def sendStep (w : World setup) (k : SendId setup) : Option (World setup) :=
  let t := w.sender k
  match t.pc with
  | .scanning i =>
      if i < setup.queueWords then
        some (w.setSender k { t with pc := SendPc.look i (w.word k i) })
      else
        -- After `__nanosleep` it starts again.
        some (w.setSender k { t with pc := .scanning 0 })
  | .claiming i old =>
      let prev := w.word k i
      if prev = old then
        let idx := i * 32 + lowest old
        some ((w.setWord k.1
            (queueWord setup.shape setup.numSendSms k.2 i) (desired old)).setSender k
          { t with
            pc := if idx < setup.myChunksTotal k.2 then .posting idx
              else SendPc.look i (desired old) })
      else some (w.setSender k { t with pc := SendPc.look i prev })
  | .posting idx =>
      let x := setup.sendPlace k.2 idx
      let globalChunkId := x.1 * setup.shape.chunksPerRow + x.2
      some { w.setSender k (setup.loop k (t.posted + 1)) with
        senderDone := Function.update w.senderDone k.1
          (Function.update (w.senderDone k.1) globalChunkId 1)
        posts := w.posts ++ [(k, x)] }
  | .ended => none

/-- One step. -/
def step (w : World setup) : Action setup → Option (World setup)
  | .count k =>
      let t := (w.walk k.1).next k.2
      if w.phase k = .tile ∧ t < setup.shape.numBlocks then
        let w' := { w with walk := Function.update w.walk k.1 ((w.walk k.1).advance k.2) }
        if 0 < setup.numSendSms then
          let x := chunkOfTask setup.shape k.1 t
          let flatChunk := setup.shape.flatChunk x.1 x.2
          let prev := w.compGemmDone k.1 flatChunk
          let done := Function.update w.compGemmDone k.1
            (Function.update (w.compGemmDone k.1) flatChunk (prev + 1))
          if prev + 1 = setup.shape.tilesThisChunk x.2 then
            some { w'.setPhase k (.signalling x.1 x.2) with
              compGemmDone := done
              counted := w.counted ++ [(k.1, x)] }
          else some { w' with compGemmDone := done }
        else some w'
      else none
  | .signal k =>
      match w.phase k with
      | .signalling row chunkCol =>
          if h : row / setup.shape.rowBlocksPerSlice < setup.shape.numDevices then
            let owner : Fin setup.shape.numDevices := ⟨_, h⟩
            let flatChunk := setup.shape.flatChunk row chunkCol
            let readyPrev := w.readyChunk owner flatChunk
            some { (w.setPhase k
                (if readyPrev = BitVec.ofNat 32 (setup.shape.numDevices - 1) then
                  .setting row chunkCol
                else .tile)).setWord owner flatChunk (readyPrev + 1) with
              signalled := w.signalled ++ [(k.1, (row, chunkCol))] }
          else none
      | _ => none
  | .setBit k =>
      match w.phase k with
      | .setting row chunkCol =>
          if h : row / setup.shape.rowBlocksPerSlice < setup.shape.numDevices then
            let owner : Fin setup.shape.numDevices := ⟨_, h⟩
            let rbInSlice := row - owner * setup.shape.rowBlocksPerSlice
            let word := bitmapWord setup.shape setup.numSendSms rbInSlice chunkCol
            let bit := 1#32 <<< bitmapBit setup.shape setup.numSendSms rbInSlice chunkCol
            some { (w.setPhase k .tile).setWord owner word (w.readyChunk owner word ||| bit) with
              sets := w.sets ++ [(k.1, (row, chunkCol))] }
          else none
      | _ => none
  | .send k => sendStep w k

/-! ## The two maps -/

/-- How many row blocks a sending CTA has. -/
theorem lt_myRbs_iff {n S sendId r : Nat} (hsend : sendId < S) :
    r < (if sendId < n then (n - sendId + S - 1) / S else 0) ↔ sendId + r * S < n := by
  by_cases hlt : sendId < n
  · rw [if_pos hlt, Nat.lt_div_iff_mul_lt (Nat.lt_of_le_of_lt (Nat.zero_le _) hsend)]
    omega
  · rw [if_neg hlt]
    omega

/-- The queue of a sending CTA has a bit for each chunk of each of its row blocks. -/
theorem lt_myChunksTotal_iff {sendId r col : Nat} (hsend : sendId < setup.numSendSms)
    (hcol : col < setup.shape.chunksPerRow) :
    r * setup.shape.chunksPerRow + col < setup.myChunksTotal sendId ↔
      sendId + r * setup.numSendSms < setup.shape.rowBlocksPerSlice := by
  rw [← lt_myRbs_iff hsend, Setup.myChunksTotal]
  constructor
  · intro h
    refine Nat.lt_of_mul_lt_mul_right (a := setup.shape.chunksPerRow) ?_
    exact Nat.lt_of_le_of_lt (Nat.le_add_right _ _) h
  · exact fun h => place_lt h hcol

/-- What the sending CTA makes of the bit of a chunk. -/
theorem sendPlace_queueIdx {rb col : Nat} (hcol : col < setup.shape.chunksPerRow) :
    setup.sendPlace (rb % setup.numSendSms) (queueIdx setup.shape setup.numSendSms rb col) =
      (rb, col) := by
  simp only [Setup.sendPlace, queueIdx, place_div hcol, Nat.add_sub_cancel_left]
  rw [Nat.mod_add_div']

/-- The bit of a chunk is one its sending CTA counts. -/
theorem queueIdx_lt_myChunksTotal (hsend : 0 < setup.numSendSms) {rb col : Nat}
    (hrb : rb < setup.shape.rowBlocksPerSlice) (hcol : col < setup.shape.chunksPerRow) :
    queueIdx setup.shape setup.numSendSms rb col < setup.myChunksTotal (rb % setup.numSendSms) := by
  rw [queueIdx, lt_myChunksTotal_iff (Nat.mod_lt _ hsend) hcol, Nat.mod_add_div']
  exact hrb

/-- A bit a sending CTA counts is the bit of a chunk of one of its row blocks. -/
theorem queueIdx_sendPlace {sendId idx : Nat} (hsend : sendId < setup.numSendSms)
    (hidx : idx < setup.myChunksTotal sendId) :
    (setup.sendPlace sendId idx).1 < setup.shape.rowBlocksPerSlice ∧
      (setup.sendPlace sendId idx).2 < setup.shape.chunksPerRow ∧
      (setup.sendPlace sendId idx).1 % setup.numSendSms = sendId ∧
      queueIdx setup.shape setup.numSendSms (setup.sendPlace sendId idx).1
        (setup.sendPlace sendId idx).2 = idx := by
  have hpos : 0 < setup.shape.chunksPerRow := by
    by_contra hz
    rw [Setup.myChunksTotal, Nat.eq_zero_of_not_pos hz, Nat.mul_zero] at hidx
    exact absurd hidx (Nat.not_lt_zero _)
  have hsplit := Nat.div_add_mod' idx setup.shape.chunksPerRow
  have hcol : idx - idx / setup.shape.chunksPerRow * setup.shape.chunksPerRow =
      idx % setup.shape.chunksPerRow := by omega
  have hmod := Nat.mod_lt idx hpos
  simp only [Setup.sendPlace, hcol]
  refine ⟨?_, hmod, ?_, ?_⟩
  · rw [← lt_myChunksTotal_iff hsend hmod, hsplit]
    exact hidx
  · rw [Nat.add_mul_mod_self_right, Nat.mod_eq_of_lt hsend]
  · rw [queueIdx, Nat.add_mul_div_right _ _ (Nat.lt_of_le_of_lt (Nat.zero_le _) hsend),
      Nat.div_eq_of_lt hsend, Nat.zero_add, hsplit]

/-- The bits a sending CTA counts are in its queue. -/
theorem myChunksTotal_le {sendId idx : Nat} (hsend : sendId < setup.numSendSms)
    (hidx : idx < setup.myChunksTotal sendId) : idx / 32 < setup.queueWords := by
  rcases queueIdx_sendPlace hsend hidx with ⟨hrb, hcol, _, heq⟩
  have hin := queueIdx_lt (Nat.lt_of_le_of_lt (Nat.zero_le _) hsend) hrb hcol
  rw [heq] at hin
  rw [Setup.queueWords]
  omega

/-- No two queues have a word in common. -/
theorem queueWord_inj {sendId sendId' i i' : Nat} (hi : i < setup.queueWords)
    (hi' : i' < setup.queueWords)
    (h : queueWord setup.shape setup.numSendSms sendId i =
      queueWord setup.shape setup.numSendSms sendId' i') : sendId = sendId' ∧ i = i' := by
  simp only [queueWord, Nat.add_assoc, Nat.add_left_cancel_iff] at h
  exact place_inj hi hi' h

end Handoff

end GemmRs

end MKernel
