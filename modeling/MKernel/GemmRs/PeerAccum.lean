import Mathlib.Algebra.Group.Nat.Defs
import MKernel.Core.System
import MKernel.Core.Tickets
import MKernel.Internode.Arrivals

/-!
# Adding the Parts of the Peers One by One

How the reducing CTAs of `gemm_rs` add up the chunks of their GPU with
`use_incremental_peer_reduce`.

A drainer that records a peer's part of a chunk draws a ticket from the tail of
`peer_accum_queue` and stores the part there. A CTA that draws it from the head
waits for `sender_done`, takes the chunk's lock, and adds the part to the staging
buffer. It lets go of the lock and counts the part; the one that counts the last
peer's sets `chunk_reduce_done` and puts the chunk into `ready_reduce_queue`. From
there any CTA draws the chunk and writes it to the output.

All CTAs run side by side, instruction by instruction on the queues, locks and
counters. A CTA is one process, as its threads meet at a block barrier around
each of these. The two accesses to the staging buffer, the load and the store of
the sum, are steps of their own, so that two additions to one chunk could lose
one of the parts. The drainers are those of `Arrivals`; where a drainer there puts
a part into the queue, it has drawn its ticket here, and stores the entry later.

The GPUs of the node add what they have computed of a chunk to the staging buffer
themselves, each of their tiles by a store of its own that adds, and `sender_done`
is set when a sending CTA finds the chunk ready. Nothing in these steps holds the
one back for the other, so a tile may land late.

What is added is not looked into: parts, tiles and sums are of any type, and the
two additions are any operations.

## Main definitions

* `encodePeerAccumWork`, `decodePeerAccumWork`: A part as an entry of the queue.
* `Setup`: The shape, the CTAs and the ownership of chunks.
* `Memory`: The queues, locks, counters and sums.
* `Landing`: What the GPUs of the node have still to add themselves.
* `Pc`, `ctaStep`: A reducing CTA.
* `World`, `step`: All CTAs of a GPU.
* `Effect`: What a step of a CTA can do.

## Theorems

* `decode_encode`: An entry is read as the part it was stored for.
* `ctaStep_effect`: Every step of a CTA has one of the effects.
-/

namespace MKernel

namespace GemmRs

namespace PeerAccum

open MKernel.Core MKernel.Internode

/-! ## Entries -/

/-- `gemm_rs_encode_peer_accum_work`. -/
def encodePeerAccumWork (peerSlot chunkId : Nat) : BitVec 32 :=
  ((BitVec.ofNat 32 peerSlot &&& 0x7f#32) <<< 24) ||| BitVec.ofNat 32 (chunkId + 1)

/-- `gemm_rs_decode_peer_accum_work`. -/
def decodePeerAccumWork (encoded : BitVec 32) : Nat × Int :=
  (((encoded >>> 24) &&& 0x7f#32).toNat, ((encoded &&& 0x00ffffff#32).toNat : Int) - 1)

theorem encode_toNat {p c : Nat} (hp : p < 128) (hc : c + 1 < 2 ^ 24) :
    (encodePeerAccumWork p c).toNat = p * 2 ^ 24 + (c + 1) := by
  have hlow : (BitVec.ofNat 32 p &&& 0x7f#32).toNat = p := by
    rw [BitVec.toNat_and, BitVec.toNat_ofNat, Nat.mod_eq_of_lt (by omega)]
    exact (Nat.and_two_pow_sub_one_eq_mod p 7).trans (Nat.mod_eq_of_lt hp)
  have hshift : ((BitVec.ofNat 32 p &&& 0x7f#32) <<< 24).toNat = p <<< 24 := by
    rw [BitVec.toNat_shiftLeft, hlow, Nat.shiftLeft_eq, Nat.mod_eq_of_lt (by omega)]
  rw [encodePeerAccumWork, BitVec.toNat_or, hshift, BitVec.toNat_ofNat,
    Nat.mod_eq_of_lt (by omega), ← Nat.shiftLeft_add_eq_or_of_lt hc, Nat.shiftLeft_eq]

/-- An entry is read as the part it was stored for. -/
theorem decode_encode {p c : Nat} (hp : p < 128) (hc : c + 1 < 2 ^ 24) :
    decodePeerAccumWork (encodePeerAccumWork p c) = (p, (c : Int)) := by
  have hnat := encode_toNat hp hc
  have hpeer : ((encodePeerAccumWork p c >>> 24) &&& 0x7f#32).toNat = p := by
    rw [BitVec.toNat_and, BitVec.toNat_ushiftRight, hnat, Nat.shiftRight_eq_div_pow]
    refine (Nat.and_two_pow_sub_one_eq_mod _ 7).trans ?_
    omega
  have hchunk : (encodePeerAccumWork p c &&& 0x00ffffff#32).toNat = c + 1 := by
    rw [BitVec.toNat_and, hnat]
    refine (Nat.and_two_pow_sub_one_eq_mod _ 24).trans ?_
    omega
  rw [decodePeerAccumWork, hpeer, hchunk]
  refine Prod.ext rfl ?_
  show ((c + 1 : Nat) : Int) - 1 = c
  omega

/-! ## The launch -/

/-- The shape, the CTAs and who owns which chunks. -/
structure Setup where
  numPeers : Nat
  nodeIdx : Nat
  rowBlocksPerSlice : Nat
  colBlocks : Nat
  chunkTiles : Nat
  chunksPerRow : Nat
  useReceiverOwnerRs : Bool
  numReduce : Nat
  numRecvProgress : Nat
  numPeers_pos : 0 < numPeers
  numPeers_le : numPeers ≤ 31
  nodeIdx_le : nodeIdx ≤ numPeers
  rows_pos : 0 < rowBlocksPerSlice
  cols_pos : 0 < colBlocks
  chunkTiles_pos : 0 < chunkTiles
  cols_le : colBlocks ≤ chunksPerRow * chunkTiles
  chunks_lt : rowBlocksPerSlice * chunksPerRow < 2 ^ 24

namespace Setup

variable (setup : Setup)

def totalChunks : Nat := setup.rowBlocksPerSlice * setup.chunksPerRow

/-- What the drainers read of the launch. -/
def drainage : Arrivals.Drainage :=
  Arrivals.gemmRsDrainage setup.numPeers setup.rowBlocksPerSlice setup.colBlocks
    setup.chunkTiles setup.chunksPerRow setup.nodeIdx setup.useReceiverOwnerRs true
    setup.numPeers_le

/-- `gemm_rs_receiver_owns_chunk`. -/
def receiverOwnsChunk (chunkId : Nat) : Bool :=
  !setup.useReceiverOwnerRs || chunkId % (setup.numPeers + 1) == setup.nodeIdx

/-- `owner_chunks_total`. -/
def ownerChunksTotal : Nat :=
  if setup.useReceiverOwnerRs then
    if setup.nodeIdx < setup.totalChunks then
      1 + (setup.totalChunks - 1 - setup.nodeIdx) / max 1 (setup.numPeers + 1)
    else 0
  else setup.totalChunks

/-- `done_target`. -/
def doneTarget : Nat :=
  if setup.useReceiverOwnerRs then setup.ownerChunksTotal else setup.totalChunks

/-- The entries of `peer_accum_queue`. -/
def peerAccumCap : Nat := setup.totalChunks * max 1 setup.numPeers

end Setup

/-! ## The reducing CTAs -/

/-- The queues, locks, counters and sums. The parts for which a lock was taken,
    those that were added and counted, and the chunks that were marked, made ready,
    written and counted again are kept besides, in order. -/
structure Memory (V : Type*) where
  senderDone : Nat → Bool
  peerAccumHead : Nat
  peerAccumQueue : Nat → BitVec 32
  chunkAccumLock : Nat → Nat
  peerAccumDoneCount : Nat → Nat
  chunkReduceDone : Nat → Nat
  readyReduceHead : Nat
  readyReduceTail : Nat
  readyReduceQueue : Nat → Nat
  chunksProcessed : Nat
  stagingBuf : Nat → V
  outputLocal : Nat → Option V
  locked : List (Nat × Nat)
  added : List (Nat × Nat)
  counted : List (Nat × Nat)
  marked : List Nat
  readied : List Nat
  written : List Nat
  processed : List Nat

/-- The scratch as it is launched with, over what `staging` holds. -/
def Memory.init {V : Type*} (staging : Nat → V) : Memory V where
  senderDone := fun _ => false
  peerAccumHead := 0
  peerAccumQueue := fun _ => 0
  chunkAccumLock := fun _ => 0
  peerAccumDoneCount := fun _ => 0
  chunkReduceDone := fun _ => 0
  readyReduceHead := 0
  readyReduceTail := 0
  readyReduceQueue := fun _ => 0
  chunksProcessed := 0
  stagingBuf := staging
  outputLocal := fun _ => none
  locked := []
  added := []
  counted := []
  marked := []
  readied := []
  written := []
  processed := []

/-- Where a reducing CTA stands. -/
inductive Pc (V : Type*) where
  /-- Where it may drain, before the load of `ready_reduce_head`. -/
  | top
  /-- It has loaded the head. -/
  | readyHead (head : Nat)
  /-- It has loaded the tail, which is beyond. -/
  | readyTail (head : Nat)
  /-- It has moved the head, and waits for the entry. -/
  | readyPopped (head : Nat)
  /-- It found nothing, and is before the load of `chunks_processed`. -/
  | testing
  /-- Before the load of `peer_accum_head`. -/
  | accumulating
  | peerHead (head : Nat)
  | peerTail (head : Nat)
  | peerPopped (head : Nat)
  /-- It waits for `sender_done`. -/
  | awaiting (peerSlot chunkId : Nat)
  /-- It waits for the lock. -/
  | locking (peerSlot chunkId : Nat)
  /-- Before the load of the sum. -/
  | loading (peerSlot chunkId : Nat)
  /-- Before the store of the new sum. -/
  | storing (peerSlot chunkId : Nat) (accum : V)
  | unlocking (peerSlot chunkId : Nat)
  /-- Before `atomicAdd(peer_accum_done_count)`. -/
  | counting (peerSlot chunkId : Nat)
  /-- It counted the last part, and is before the store to `chunk_reduce_done`. -/
  | marking (chunkId : Nat)
  /-- Before `atomicAdd(ready_reduce_tail)`. -/
  | reserving (chunkId : Nat)
  /-- Before the store of the entry. -/
  | entering (chunkId slot : Nat)
  /-- It waits for `chunk_reduce_done`, where it may drain. -/
  | awaitingReduced (chunkId : Nat)
  | writing (chunkId : Nat)
  /-- Before `atomicAdd(chunks_processed)`. -/
  | processing (chunkId : Nat)
  | returned
  deriving DecidableEq

variable {V : Type*}

/-- The places where a reducing CTA drains the arrival queues. -/
def Pc.drains : Pc V → Bool
  | .top | .awaitingReduced _ => true
  | _ => false

/-- One step of a reducing CTA, in `reduce_tiles_ws` and what it calls. -/
def ctaStep (setup : Setup) (recvBuf : Nat → Nat → V) (hadd2 : V → V → V) (peerAccumTail : Nat)
    (m : Memory V) : Pc V → Option (Memory V × Pc V)
  -- `gemm_rs_ready_reduce_queue_pop`
  | .top => some (m, .readyHead m.readyReduceHead)
  | .readyHead head =>
      if m.readyReduceTail ≤ head then some (m, .testing) else some (m, .readyTail head)
  | .readyTail head =>
      if m.readyReduceHead = head then
        some ({ m with readyReduceHead := head + 1 }, .readyPopped head)
      else some (m, .top)
  | .readyPopped head =>
      let encoded := m.readyReduceQueue head
      if encoded = 0 then some (m, .readyPopped head)
      else
        let chunkId := encoded - 1
        if setup.totalChunks ≤ chunkId then some (m, .returned)
        else if setup.receiverOwnsChunk chunkId = false then some (m, .top)
        else some (m, .awaitingReduced chunkId)
  | .testing =>
      if setup.doneTarget ≤ m.chunksProcessed then some (m, .returned) else some (m, .accumulating)
  -- `gemm_rs_process_peer_accum_work`
  | .accumulating => some (m, .peerHead m.peerAccumHead)
  | .peerHead head => if head < peerAccumTail then some (m, .peerTail head) else some (m, .top)
  | .peerTail head =>
      if m.peerAccumHead = head then
        some ({ m with peerAccumHead := head + 1 }, .peerPopped head)
      else some (m, .top)
  | .peerPopped head =>
      let encoded := m.peerAccumQueue head
      if encoded = 0 then some (m, .peerPopped head)
      else
        let work := decodePeerAccumWork encoded
        let peerSlot := work.1
        let chunkId := work.2
        if chunkId < 0 ∨ setup.totalChunks ≤ chunkId ∨ setup.numPeers ≤ peerSlot then some (m, .top)
        else if setup.receiverOwnsChunk chunkId.toNat = false then some (m, .top)
        else some (m, .awaiting peerSlot chunkId.toNat)
  | .awaiting p c => if m.senderDone c then some (m, .locking p c) else some (m, .awaiting p c)
  | .locking p c =>
      if m.chunkAccumLock c = 0 then
        some ({ m with
          chunkAccumLock := Function.update m.chunkAccumLock c 1
          locked := m.locked ++ [(p, c)] }, .loading p c)
      else some (m, .locking p c)
  | .loading p c => some (m, .storing p c (m.stagingBuf c))
  | .storing p c accum =>
      some ({ m with
        stagingBuf := Function.update m.stagingBuf c (hadd2 accum (recvBuf p c))
        added := m.added ++ [(p, c)] }, .unlocking p c)
  | .unlocking p c =>
      some ({ m with chunkAccumLock := Function.update m.chunkAccumLock c 0 }, .counting p c)
  | .counting p c =>
      let done := m.peerAccumDoneCount c + 1
      some ({ m with
        peerAccumDoneCount := Function.update m.peerAccumDoneCount c done
        counted := m.counted ++ [(p, c)] }, if done = setup.numPeers then .marking c else .top)
  | .marking c =>
      some ({ m with
        chunkReduceDone := Function.update m.chunkReduceDone c 1
        marked := m.marked ++ [c] }, .reserving c)
  | .reserving c =>
      some ({ m with
        readyReduceTail := m.readyReduceTail + 1
        readied := m.readied ++ [c] }, .entering c m.readyReduceTail)
  | .entering c slot =>
      if slot < setup.totalChunks then
        some ({ m with readyReduceQueue := Function.update m.readyReduceQueue slot (c + 1) }, .top)
      else some (m, .top)
  -- The rest of the loop of `reduce_tiles_ws`.
  | .awaitingReduced c =>
      if m.chunkReduceDone c = 0 then some (m, .awaitingReduced c) else some (m, .writing c)
  | .writing c =>
      some ({ m with
        outputLocal := Function.update m.outputLocal c (some (m.stagingBuf c))
        written := m.written ++ [c] }, .processing c)
  | .processing c =>
      some ({ m with
        chunksProcessed := m.chunksProcessed + 1
        processed := m.processed ++ [c] }, .top)
  | .returned => none

/-! ## All CTAs -/

/-- The CTAs that drain arrival queues. -/
abbrev Drainer (setup : Setup) := Fin setup.numReduce ⊕ Fin setup.numRecvProgress

/-- What the GPUs of the node have computed of each chunk and have still to add to the
    staging buffer, what they have added, in order, and the chunks whose `sender_done`
    was set while something of them had still to land. -/
structure Landing (W : Type*) where
  toLand : Nat → List W
  landed : Nat → List W
  sentEarly : List Nat

namespace Landing

variable {W : Type*} (l : Landing W)

/-- The launch, with all of `tiles` to come. -/
def init (tiles : Nat → List W) : Landing W where
  toLand := tiles
  landed := fun _ => []
  sentEarly := []

/-- One of the tiles of a chunk lands. -/
def land (chunkId i : Nat) (tile : W) : Landing W :=
  { l with
    toLand := Function.update l.toLand chunkId ((l.toLand chunkId).eraseIdx i)
    landed := Function.update l.landed chunkId (l.landed chunkId ++ [tile]) }

theorem land_landed_self {c i : Nat} {tile : W} :
    (l.land c i tile).landed c = l.landed c ++ [tile] :=
  Function.update_self _ _ _

theorem land_landed_of_ne {c i x : Nat} {tile : W} (hx : x ≠ c) :
    (l.land c i tile).landed x = l.landed x :=
  Function.update_of_ne hx _ _

theorem land_toLand_self {c i : Nat} {tile : W} :
    (l.land c i tile).toLand c = (l.toLand c).eraseIdx i :=
  Function.update_self _ _ _

theorem land_toLand_of_ne {c i x : Nat} {tile : W} (hx : x ≠ c) :
    (l.land c i tile).toLand x = l.toLand x :=
  Function.update_of_ne hx _ _

/-- The `sender_done` of a chunk is set. -/
def send (chunkId : Nat) : Landing W :=
  { l with
    sentEarly := if (l.toLand chunkId).isEmpty then l.sentEarly else l.sentEarly ++ [chunkId] }

end Landing

/-- One GPU. The tail of `peer_accum_queue` is the number of parts the drainers have
    drawn tickets for, and `toStore` the entry a drainer has still to store. -/
structure World (V W : Type*) (setup : Setup) where
  arr : Arrivals.State (Drainer setup)
  toStore : Drainer setup → Option (Nat × Nat × Nat)
  landing : Landing W
  mem : Memory V
  cta : Fin setup.numReduce → Pc V

namespace World

variable {W : Type*} {setup : Setup} (w : World V W setup)

/-- The parts the drainers have drawn tickets for, in order. -/
def queue : List (Nat × Nat) := w.arr.mem.peerAccumQueue

def peerAccumTail : Nat := w.queue.length

/-- The GPU at launch. -/
def init (setup : Setup) (staging : Nat → V) (tiles : Nat → List W) : World V W setup where
  arr := Arrivals.State.init
  toStore := fun _ => none
  landing := Landing.init tiles
  mem := Memory.init staging
  cta := fun _ => .top

/-- A CTA is where it drains. -/
def draining : Drainer setup → Bool
  | .inl r => (w.cta r).drains
  | .inr _ => true

/-- The ticket a drainer draws with its next step: its place and the part. -/
def ticket (d : Drainer setup) : Option (Nat × Nat × Nat) :=
  match w.arr.pc d with
  | .enqueueing chunkId c => some (w.peerAccumTail, c.peerSlot, chunkId)
  | _ => none

end World

/-- What can happen next. -/
inductive Action (setup : Setup) where
  /-- A drainer takes a word off an arrival queue. -/
  | take (d : Drainer setup) (word : BitVec 32)
  /-- It goes on with the word it has. -/
  | drain (d : Drainer setup)
  /-- It stores the entry of the ticket it has drawn. -/
  | enter (d : Drainer setup)
  /-- A tile of one of the GPUs of the node is added to the staging buffer. -/
  | land (chunkId i : Nat)
  /-- A sending CTA sets `sender_done`. -/
  | send (chunkId : Nat)
  | cta (r : Fin setup.numReduce)

/-- One step of any CTA. A CTA goes on with its loop only when it has drained. -/
def step {W : Type*} {setup : Setup} (recvBuf : Nat → Nat → V) (hadd2 : V → V → V)
    (storeAdd : V → W → V) (w : World V W setup) : Action setup → Option (World V W setup)
  | .take d word =>
      if w.draining d ∧ w.toStore d = none then
        (Arrivals.step setup.drainage w.arr (.take d word)).map fun arr => { w with arr := arr }
      else none
  | .drain d =>
      if w.draining d ∧ w.toStore d = none then
        (Arrivals.step setup.drainage w.arr (.turn d)).map fun arr =>
          { w with arr := arr, toStore := Function.update w.toStore d (w.ticket d) }
      else none
  | .enter d =>
      match w.toStore d with
      | none => none
      | some (slot, peerSlot, chunkId) =>
          some { w with
            toStore := Function.update w.toStore d none
            mem :=
              if slot < setup.peerAccumCap then
                { w.mem with
                  peerAccumQueue := Function.update w.mem.peerAccumQueue slot
                    (encodePeerAccumWork peerSlot chunkId) }
              else w.mem }
  | .land c i =>
      -- `tma::store_add_async`, which nothing here orders with the flag of the chunk.
      (w.landing.toLand c)[i]?.map fun tile =>
        { w with
          landing := w.landing.land c i tile
          mem :=
            { w.mem with
              stagingBuf :=
                Function.update w.mem.stagingBuf c (storeAdd (w.mem.stagingBuf c) tile) } }
  | .send c =>
      some { w with
        landing := w.landing.send c
        mem := { w.mem with senderDone := Function.update w.mem.senderDone c true } }
  | .cta r =>
      if w.arr.pc (.inl r) = .idle ∧ w.toStore (.inl r) = none then
        (ctaStep setup recvBuf hadd2 w.peerAccumTail w.mem (w.cta r)).map fun x =>
          { w with mem := x.1, cta := Function.update w.cta r x.2 }
      else none

/-! ## Effects -/

namespace Pc

/-- The part a CTA has drawn and not added yet, given the parts at the places of
    the queue. -/
def part (queue : List (Nat × Nat)) : Pc V → Option (Nat × Nat)
  | .peerPopped head => queue[head]?
  | .awaiting p c | .locking p c | .loading p c | .storing p c _ => some (p, c)
  | _ => none

/-- The chunk whose `sender_done` a CTA with a part has seen. -/
def sent : Pc V → Option Nat
  | .locking _ c | .loading _ c | .storing _ c _ => some c
  | _ => none

/-- The chunk whose lock a CTA has. -/
def inside : Pc V → Option Nat
  | .loading _ c | .storing _ c _ | .unlocking _ c => some c
  | _ => none

/-- The part a CTA has taken the lock for and not added yet. -/
def adding : Pc V → Option (Nat × Nat)
  | .loading p c | .storing p c _ => some (p, c)
  | _ => none

/-- The part a CTA has added and not counted yet. -/
def toCount : Pc V → Option (Nat × Nat)
  | .unlocking p c | .counting p c => some (p, c)
  | _ => none

/-- The chunk a CTA has still to mark as reduced. -/
def toMark : Pc V → Option Nat
  | .marking c => some c
  | _ => none

/-- The chunk a CTA has still to mark or to draw a ticket for. -/
def owes : Pc V → Option Nat
  | .marking c | .reserving c => some c
  | _ => none

/-- The entry a CTA has still to store. -/
def toEnter : Pc V → Option (Nat × Nat)
  | .entering c slot => some (c, slot)
  | _ => none

/-- The chunk a CTA has drawn and not written yet, given the chunks at the places
    of the queue. -/
def chunk (readied : List Nat) : Pc V → Option Nat
  | .readyPopped head => readied[head]?
  | .awaitingReduced c | .writing c => some c
  | _ => none

/-- The chunk a CTA has written and not counted yet. -/
def toProcess : Pc V → Option Nat
  | .processing c => some c
  | _ => none

/-- The place a CTA has found filled in the queue of parts, or has drawn. -/
def peerPlace : Pc V → Option Nat
  | .peerTail head | .peerPopped head => some head
  | _ => none

/-- The place a CTA has found filled in the queue of chunks, or has drawn. -/
def readyPlace : Pc V → Option Nat
  | .readyTail head | .readyPopped head => some head
  | _ => none

/-- All that a place says of the parts and chunks a CTA has. -/
structure Same (pc pc' : Pc V) : Prop where
  part : ∀ queue, pc'.part queue = pc.part queue
  inside : pc'.inside = pc.inside
  adding : pc'.adding = pc.adding
  toCount : pc'.toCount = pc.toCount
  toMark : pc'.toMark = pc.toMark
  owes : pc'.owes = pc.owes
  toEnter : pc'.toEnter = none
  chunk : ∀ readied, pc'.chunk readied = pc.chunk readied
  toProcess : pc'.toProcess = pc.toProcess

end Pc

/-- What a step of a reducing CTA can do. -/
inductive Effect (setup : Setup) (recvBuf : Nat → Nat → V) (hadd2 : V → V → V) (peerAccumTail : Nat)
    (m : Memory V) (pc : Pc V) : Memory V → Pc V → Prop
  /-- It looks at something. -/
  | look (pc' : Pc V) (hsame : pc.Same pc')
      (hsent : ∀ c, pc'.sent = some c → pc.sent = some c ∨ m.senderDone c = true)
      (hstore : ∀ p c v, pc' ≠ .storing p c v)
      (hpeer : ∀ i, pc'.peerPlace = some i → pc.peerPlace = some i ∨ i < peerAccumTail)
      (hready : ∀ i, pc'.readyPlace = some i → pc.readyPlace = some i ∨ i < m.readyReduceTail)
      (hreturn : pc' = .returned → setup.doneTarget ≤ m.chunksProcessed) :
      Effect setup recvBuf hadd2 peerAccumTail m pc m pc'
  /-- It draws from the head of the chunks that are ready. -/
  | popReady (hpc : pc = .readyTail m.readyReduceHead) :
      Effect setup recvBuf hadd2 peerAccumTail m pc
        { m with readyReduceHead := m.readyReduceHead + 1 } (.readyPopped m.readyReduceHead)
  /-- It finds the entry, and goes where this leads. -/
  | readyEntry (head : Nat) (pc' : Pc V) (hpc : pc = .readyPopped head)
      (hentry : m.readyReduceQueue head ≠ 0)
      (hgood : m.readyReduceQueue head - 1 < setup.totalChunks →
        setup.receiverOwnsChunk (m.readyReduceQueue head - 1) = true →
        pc' = .awaitingReduced (m.readyReduceQueue head - 1)) :
      Effect setup recvBuf hadd2 peerAccumTail m pc m pc'
  /-- It draws from the head of the parts. -/
  | popPeer (hpc : pc = .peerTail m.peerAccumHead) :
      Effect setup recvBuf hadd2 peerAccumTail m pc
        { m with peerAccumHead := m.peerAccumHead + 1 } (.peerPopped m.peerAccumHead)
  /-- It finds the entry, and goes where this leads. -/
  | peerEntry (head : Nat) (pc' : Pc V) (hpc : pc = .peerPopped head)
      (hentry : m.peerAccumQueue head ≠ 0)
      (hgood : ∀ p c : Nat, decodePeerAccumWork (m.peerAccumQueue head) = (p, (c : Int)) →
        p < setup.numPeers → c < setup.totalChunks → setup.receiverOwnsChunk c = true →
        pc' = .awaiting p c) :
      Effect setup recvBuf hadd2 peerAccumTail m pc m pc'
  /-- It takes the lock. -/
  | lock (p c : Nat) (hpc : pc = .locking p c) (hfree : m.chunkAccumLock c = 0) :
      Effect setup recvBuf hadd2 peerAccumTail m pc
        { m with
          chunkAccumLock := Function.update m.chunkAccumLock c 1
          locked := m.locked ++ [(p, c)] } (.loading p c)
  /-- It loads the sum. -/
  | load (p c : Nat) (hpc : pc = .loading p c) :
      Effect setup recvBuf hadd2 peerAccumTail m pc m (.storing p c (m.stagingBuf c))
  /-- It stores the new sum. -/
  | add (p c : Nat) (accum : V) (hpc : pc = .storing p c accum) :
      Effect setup recvBuf hadd2 peerAccumTail m pc
        { m with
          stagingBuf := Function.update m.stagingBuf c (hadd2 accum (recvBuf p c))
          added := m.added ++ [(p, c)] } (.unlocking p c)
  /-- It lets go of the lock. -/
  | unlock (p c : Nat) (hpc : pc = .unlocking p c) :
      Effect setup recvBuf hadd2 peerAccumTail m pc
        { m with chunkAccumLock := Function.update m.chunkAccumLock c 0 } (.counting p c)
  /-- It counts the part. -/
  | count (p c : Nat) (hpc : pc = .counting p c) :
      Effect setup recvBuf hadd2 peerAccumTail m pc
        { m with
          peerAccumDoneCount :=
            Function.update m.peerAccumDoneCount c (m.peerAccumDoneCount c + 1)
          counted := m.counted ++ [(p, c)] }
        (if m.peerAccumDoneCount c + 1 = setup.numPeers then .marking c else .top)
  /-- It marks the chunk as reduced. -/
  | mark (c : Nat) (hpc : pc = .marking c) :
      Effect setup recvBuf hadd2 peerAccumTail m pc
        { m with
          chunkReduceDone := Function.update m.chunkReduceDone c 1
          marked := m.marked ++ [c] } (.reserving c)
  /-- It draws a ticket for the chunk. -/
  | reserve (c : Nat) (hpc : pc = .reserving c) :
      Effect setup recvBuf hadd2 peerAccumTail m pc
        { m with
          readyReduceTail := m.readyReduceTail + 1
          readied := m.readied ++ [c] } (.entering c m.readyReduceTail)
  /-- It stores the entry. -/
  | enter (c slot : Nat) (queue : Nat → Nat) (hpc : pc = .entering c slot)
      (hqueue : queue = if slot < setup.totalChunks then
        Function.update m.readyReduceQueue slot (c + 1) else m.readyReduceQueue) :
      Effect setup recvBuf hadd2 peerAccumTail m pc { m with readyReduceQueue := queue } .top
  /-- It writes the chunk. -/
  | write (c : Nat) (hpc : pc = .writing c) :
      Effect setup recvBuf hadd2 peerAccumTail m pc
        { m with
          outputLocal := Function.update m.outputLocal c (some (m.stagingBuf c))
          written := m.written ++ [c] } (.processing c)
  /-- It counts the chunk. -/
  | process (c : Nat) (hpc : pc = .processing c) :
      Effect setup recvBuf hadd2 peerAccumTail m pc
        { m with
          chunksProcessed := m.chunksProcessed + 1
          processed := m.processed ++ [c] } .top

section Effects

variable {setup : Setup} {recvBuf : Nat → Nat → V} {hadd2 : V → V → V} {peerAccumTail : Nat}
  {m m' : Memory V} {pc pc' : Pc V}

/-- A place where a CTA has neither part nor chunk, and has found none. -/
def Pc.Bare : Pc V → Prop
  | .top | .readyHead _ | .testing | .accumulating | .peerHead _ => True
  | _ => False

/-- A step that changes nothing of what a CTA has, to a place that is not the last. -/
theorem Effect.look_same (hsame : pc.Same pc')
    (hsent : ∀ c, pc'.sent = some c → pc.sent = some c ∨ m.senderDone c = true)
    (hstore : ∀ p c v, pc' ≠ .storing p c v)
    (hpeer : ∀ i, pc'.peerPlace = some i → i < peerAccumTail)
    (hready : ∀ i, pc'.readyPlace = some i → i < m.readyReduceTail) (hreturn : pc' ≠ .returned) :
    Effect setup recvBuf hadd2 peerAccumTail m pc m pc' :=
  .look pc' hsame hsent hstore (fun i hi => Or.inr (hpeer i hi)) (fun i hi => Or.inr (hready i hi))
    fun h => absurd h hreturn

/-- From a place where it has nothing, a CTA goes on with nothing. -/
theorem Effect.look_bare (hpart : ∀ queue, pc.part queue = none) (hinside : pc.inside = none)
    (hadding : pc.adding = none) (hcount : pc.toCount = none) (howes : pc.owes = none)
    (hmark : pc.toMark = none) (hchunk : ∀ readied, pc.chunk readied = none)
    (hprocess : pc.toProcess = none) (h : pc'.Bare) :
    Effect setup recvBuf hadd2 peerAccumTail m pc m pc' := by
  cases pc' with
  | top | readyHead | testing | accumulating | peerHead =>
      exact .look_same ⟨fun q => (hpart q).symm, hinside.symm, hadding.symm, hcount.symm,
        hmark.symm, howes.symm, rfl, fun q => (hchunk q).symm, hprocess.symm⟩ (by rintro _ ⟨⟩)
        (by rintro _ _ _ ⟨⟩) (by rintro _ ⟨⟩) (by rintro _ ⟨⟩) (by rintro ⟨⟩)
  | _ => exact absurd h not_false

/-- From one place where it has nothing to another. -/
theorem Effect.of_bare (hpc : pc.Bare) (h : pc'.Bare) :
    Effect setup recvBuf hadd2 peerAccumTail m pc m pc' := by
  cases pc with
  | top | readyHead | testing | accumulating | peerHead =>
      exact .look_bare (fun _ => rfl) rfl rfl rfl rfl rfl (fun _ => rfl) rfl h
  | _ => exact absurd hpc not_false

/-- Where a CTA waits, it stays. -/
theorem Effect.look_again (henter : pc.toEnter = none) (hstore : ∀ p c v, pc ≠ .storing p c v)
    (hreturn : pc ≠ .returned) : Effect setup recvBuf hadd2 peerAccumTail m pc m pc :=
  .look pc ⟨fun _ => rfl, rfl, rfl, rfl, rfl, rfl, henter, fun _ => rfl, rfl⟩
    (fun _ hc => Or.inl hc) hstore (fun _ hi => Or.inl hi) (fun _ hi => Or.inl hi)
    fun h => absurd h hreturn

/-! ### One place at a time -/

section Places

variable {head p c slot : Nat}

theorem readyHead_effect
    (h : ctaStep setup recvBuf hadd2 peerAccumTail m (.readyHead head) = some (m', pc')) :
    Effect setup recvBuf hadd2 peerAccumTail m (.readyHead head) m' pc' := by
  unfold ctaStep at h
  simp only at h
  split at h
  · cases h
    exact .of_bare trivial trivial
  · rename_i hlt
    cases h
    refine .look_same ⟨fun _ => rfl, rfl, rfl, rfl, rfl, rfl, rfl, fun _ => rfl, rfl⟩
      (by rintro _ ⟨⟩) (by rintro _ _ _ ⟨⟩) (by rintro _ ⟨⟩) (fun i hi => ?_) (by rintro ⟨⟩)
    cases hi
    exact Nat.not_le.mp hlt

/-- The compare-and-swap draws the place only if nobody has drawn it since. -/
theorem readyTail_effect
    (h : ctaStep setup recvBuf hadd2 peerAccumTail m (.readyTail head) = some (m', pc')) :
    Effect setup recvBuf hadd2 peerAccumTail m (.readyTail head) m' pc' := by
  unfold ctaStep at h
  simp only at h
  split at h
  · rename_i heq
    cases h
    rw [← heq]
    exact .popReady rfl
  · cases h
    exact .look_bare (fun _ => rfl) rfl rfl rfl rfl rfl (fun _ => rfl) rfl trivial

theorem readyPopped_effect
    (h : ctaStep setup recvBuf hadd2 peerAccumTail m (.readyPopped head) = some (m', pc')) :
    Effect setup recvBuf hadd2 peerAccumTail m (.readyPopped head) m' pc' := by
  unfold ctaStep at h
  simp only at h
  split at h
  · cases h
    exact .look_again rfl (by rintro _ _ _ ⟨⟩) (by rintro ⟨⟩)
  · rename_i hentry
    split at h
    · -- An entry that is no chunk is passed over, and so is a chunk of another owner.
      rename_i hge
      cases h
      exact .readyEntry head _ rfl hentry fun hlt _ => absurd hlt (Nat.not_lt.mpr hge)
    · split at h
      · rename_i hforeign
        cases h
        refine .readyEntry head _ rfl hentry fun _ howns => ?_
        rw [hforeign] at howns
        exact absurd howns Bool.false_ne_true
      · cases h
        exact .readyEntry head _ rfl hentry fun _ _ => rfl

theorem testing_effect
    (h : ctaStep setup recvBuf hadd2 peerAccumTail m .testing = some (m', pc')) :
    Effect setup recvBuf hadd2 peerAccumTail m .testing m' pc' := by
  unfold ctaStep at h
  simp only at h
  split at h
  · rename_i hdone
    cases h
    exact .look _ ⟨fun _ => rfl, rfl, rfl, rfl, rfl, rfl, rfl, fun _ => rfl, rfl⟩
      (by rintro _ ⟨⟩) (by rintro _ _ _ ⟨⟩) (by rintro _ ⟨⟩) (by rintro _ ⟨⟩) fun _ => hdone
  · cases h
    exact .of_bare trivial trivial

theorem peerHead_effect
    (h : ctaStep setup recvBuf hadd2 peerAccumTail m (.peerHead head) = some (m', pc')) :
    Effect setup recvBuf hadd2 peerAccumTail m (.peerHead head) m' pc' := by
  unfold ctaStep at h
  simp only at h
  split at h
  · rename_i hlt
    cases h
    refine .look_same ⟨fun _ => rfl, rfl, rfl, rfl, rfl, rfl, rfl, fun _ => rfl, rfl⟩
      (by rintro _ ⟨⟩) (by rintro _ _ _ ⟨⟩) (fun i hi => ?_) (by rintro _ ⟨⟩) (by rintro ⟨⟩)
    cases hi
    exact hlt
  · cases h
    exact .of_bare trivial trivial

/-- As with the chunks, the compare-and-swap draws a place once. -/
theorem peerTail_effect
    (h : ctaStep setup recvBuf hadd2 peerAccumTail m (.peerTail head) = some (m', pc')) :
    Effect setup recvBuf hadd2 peerAccumTail m (.peerTail head) m' pc' := by
  unfold ctaStep at h
  simp only at h
  split at h
  · rename_i heq
    cases h
    rw [← heq]
    exact .popPeer rfl
  · cases h
    exact .look_bare (fun _ => rfl) rfl rfl rfl rfl rfl (fun _ => rfl) rfl trivial

theorem peerPopped_effect
    (h : ctaStep setup recvBuf hadd2 peerAccumTail m (.peerPopped head) = some (m', pc')) :
    Effect setup recvBuf hadd2 peerAccumTail m (.peerPopped head) m' pc' := by
  unfold ctaStep at h
  simp only at h
  split at h
  · cases h
    exact .look_again rfl (by rintro _ _ _ ⟨⟩) (by rintro ⟨⟩)
  · rename_i hentry
    split at h
    · -- The part is not one of this launch.
      rename_i hbad
      cases h
      refine .peerEntry head _ rfl hentry fun p c hdecode hp hc _ => ?_
      rw [hdecode] at hbad
      simp only at hbad
      omega
    · split at h
      · rename_i hforeign
        cases h
        refine .peerEntry head _ rfl hentry fun p c hdecode _ _ howns => ?_
        rw [hdecode, Int.toNat_natCast, howns] at hforeign
        exact absurd hforeign Bool.true_eq_false.mp
      · cases h
        refine .peerEntry head _ rfl hentry fun p c hdecode _ _ _ => ?_
        rw [hdecode, Int.toNat_natCast]

/-- A part is added only after the sender is done with the chunk. -/
theorem awaiting_effect
    (h : ctaStep setup recvBuf hadd2 peerAccumTail m (.awaiting p c) = some (m', pc')) :
    Effect setup recvBuf hadd2 peerAccumTail m (.awaiting p c) m' pc' := by
  unfold ctaStep at h
  simp only at h
  split at h
  · rename_i hsent
    cases h
    refine .look_same ⟨fun _ => rfl, rfl, rfl, rfl, rfl, rfl, rfl, fun _ => rfl, rfl⟩
      (fun x hx => ?_) (by rintro _ _ _ ⟨⟩) (by rintro _ ⟨⟩) (by rintro _ ⟨⟩) (by rintro ⟨⟩)
    cases hx
    exact Or.inr hsent
  · cases h
    exact .look_again rfl (by rintro _ _ _ ⟨⟩) (by rintro ⟨⟩)

theorem locking_effect
    (h : ctaStep setup recvBuf hadd2 peerAccumTail m (.locking p c) = some (m', pc')) :
    Effect setup recvBuf hadd2 peerAccumTail m (.locking p c) m' pc' := by
  unfold ctaStep at h
  simp only at h
  split at h
  · rename_i hfree
    cases h
    exact .lock p c rfl hfree
  · cases h
    exact .look_again rfl (by rintro _ _ _ ⟨⟩) (by rintro ⟨⟩)

theorem entering_effect
    (h : ctaStep setup recvBuf hadd2 peerAccumTail m (.entering c slot) = some (m', pc')) :
    Effect setup recvBuf hadd2 peerAccumTail m (.entering c slot) m' pc' := by
  unfold ctaStep at h
  simp only at h
  split at h
  · rename_i hlt
    cases h
    exact .enter c slot _ rfl (if_pos hlt).symm
  · -- A place behind the queue is not written to.
    rename_i hge
    cases h
    exact .enter c slot m.readyReduceQueue rfl (if_neg hge).symm

theorem awaitingReduced_effect
    (h : ctaStep setup recvBuf hadd2 peerAccumTail m (.awaitingReduced c) = some (m', pc')) :
    Effect setup recvBuf hadd2 peerAccumTail m (.awaitingReduced c) m' pc' := by
  unfold ctaStep at h
  simp only at h
  split at h
  · cases h
    exact .look_again rfl (by rintro _ _ _ ⟨⟩) (by rintro ⟨⟩)
  · cases h
    exact .look_same ⟨fun _ => rfl, rfl, rfl, rfl, rfl, rfl, rfl, fun _ => rfl, rfl⟩
      (by rintro _ ⟨⟩) (by rintro _ _ _ ⟨⟩) (by rintro _ ⟨⟩) (by rintro _ ⟨⟩) (by rintro ⟨⟩)

end Places

/-- Every step of a CTA has one of the effects. -/
theorem ctaStep_effect (h : ctaStep setup recvBuf hadd2 peerAccumTail m pc = some (m', pc')) :
    Effect setup recvBuf hadd2 peerAccumTail m pc m' pc' := by
  -- One case for each place of a CTA in its loop.
  cases pc with
  | top | accumulating =>
      cases h
      exact .of_bare trivial trivial
  | readyHead head => exact readyHead_effect h
  | readyTail head => exact readyTail_effect h
  | readyPopped head => exact readyPopped_effect h
  | testing => exact testing_effect h
  | peerHead head => exact peerHead_effect h
  | peerTail head => exact peerTail_effect h
  | peerPopped head => exact peerPopped_effect h
  | awaiting p c => exact awaiting_effect h
  | locking p c => exact locking_effect h
  -- The steps that neither wait nor ask are each an effect of their own.
  | loading p c =>
      cases h
      exact .load p c rfl
  | storing p c accum =>
      cases h
      exact .add p c accum rfl
  | unlocking p c =>
      cases h
      exact .unlock p c rfl
  | counting p c =>
      cases h
      exact .count p c rfl
  | marking c =>
      cases h
      exact .mark c rfl
  | reserving c =>
      cases h
      exact .reserve c rfl
  | entering c slot => exact entering_effect h
  | awaitingReduced c => exact awaitingReduced_effect h
  | writing c =>
      cases h
      exact .write c rfl
  | processing c =>
      cases h
      exact .process c rfl
  | returned => exact absurd h (by simp only [ctaStep, reduceCtorEq, not_false_eq_true])

end Effects

end PeerAccum

end GemmRs

end MKernel
