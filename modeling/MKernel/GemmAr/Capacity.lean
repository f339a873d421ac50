import Mathlib.Algebra.Group.Action.Defs
import MKernel.Core.Spread
import MKernel.GemmAr.Decode
import MKernel.Internode.Efa.Session
import MKernel.Internode.Cx7.Routing
import MKernel.Internode.Peers

/-!
# The Capacity of an Arrival Queue

How many notifications `gemm_ar` sends into one logical queue of a receiver in
an epoch, against the number of words the queue has.

Every node sends each chunk of its slice to every peer. At the receiver the
queues are divided into one block for each peer, and within a block a chunk
goes to the queue of its row block, as the kernel decodes it. So a queue gets
all chunks of some row blocks of one peer, or of several peers where there are
fewer queues than peers. The first queue gets most (`load_le_worst`,
`load_zero`).

The number of words is another matter: all tiles of the output, over the queues
that were *allocated*. It grows with the tiles of a row block rather than with
its chunks, which leaves room, but it shrinks with queues that were allocated
and are not used. Nothing ties the two together, so there is room exactly where
the closed form says so (`capacity_iff`).

## Main definitions

* `Launch`: What the entry point is called with.
* `Launch.remoteQueueStride`: The number of words of a queue.
* `Launch.fusedInterSendSm`: What a sending CTA of a node pushes.
* `Launch.load`: The notifications into a queue of a receiver.
* `Launch.worst`: The notifications into the first queue, in closed form.
* `Launch.Roomy`: The queues have room for that many.

## Theorems

* `load_eq`: The load of a queue, peer by peer.
* `load_le_worst`, `load_zero`: The first queue of a receiver gets most.
* `capacity_iff`: Every load is within the stride exactly if the queues are roomy.
-/

namespace MKernel

namespace GemmAr

open MKernel.Core
open MKernel.Internode (TransferCmd peerRankForSlot slotAtPeer)
open MKernel.Internode.Cx7 (Sender Push gemmArSend kMaxPeers)

/-- What `entrypoint` is called with, as far as the queues go, on all nodes. A
    session has no more than `kMaxPeers` peers, and a lane has 16 bits. -/
structure Launch where
  shape : Shape
  numNodes : Nat
  devIdx : Nat
  numInterSendSms : Nat
  numRemoteQueuesArg : Int
  numAllocatedRemoteQueuesArg : Int
  numNodes_le : numNodes ≤ kMaxPeers + 1
  numInterSendSms_pos : 0 < numInterSendSms
  numRemoteQueues_le : numRemoteQueuesArg ≤ 2 ^ 16

namespace Launch

variable (l : Launch)

/-- The number of queues in use, made good. -/
def numRemoteQueues : Nat :=
  if l.numRemoteQueuesArg ≤ 0 then 1 else l.numRemoteQueuesArg.toNat

/-- The number of queues allocated, made good: no fewer than are in use. -/
def numAllocatedRemoteQueues : Nat :=
  let n := if l.numAllocatedRemoteQueuesArg ≤ 0 then l.numRemoteQueues
    else l.numAllocatedRemoteQueuesArg.toNat
  if n < l.numRemoteQueues then l.numRemoteQueues else n

/-- The nodes of a session are no more than a launch may have. -/
theorem numNodes_le_of_session (s : Internode.Efa.Session) : s.numPeers + 1 ≤ kMaxPeers + 1 := by
  have hle := s.numPeers_le
  simp only [Internode.Efa.Session.numPeers, kMaxPeers] at hle ⊢
  omega

theorem numRemoteQueues_le_of_session {s : Internode.Efa.Session} {numRemoteQueues : Nat}
    (h : numRemoteQueues ≤ s.totalLogicalQueues) : (numRemoteQueues : Int) ≤ 2 ^ 16 := by
  have hle := s.totalLogicalQueues_le
  omega

/-- A launch on the nodes of a session, with all its queues allocated and one
    sending CTA. -/
def ofSession (s : Internode.Efa.Session) (shape : Shape) (devIdx numRemoteQueues : Nat)
    (h : numRemoteQueues ≤ s.totalLogicalQueues) : Launch where
  shape := shape
  numNodes := s.numPeers + 1
  devIdx := devIdx
  numInterSendSms := 1
  numRemoteQueuesArg := numRemoteQueues
  numAllocatedRemoteQueuesArg := s.totalLogicalQueues
  numNodes_le := numNodes_le_of_session s
  numInterSendSms_pos := Nat.one_pos
  numRemoteQueues_le := numRemoteQueues_le_of_session h

/-- `G.num_nodes - 1`. -/
def numPeers : Nat := l.numNodes - 1

/-- `total_tiles`: those of the whole output. -/
def totalTiles : Nat := l.shape.rowBlocks * l.shape.colBlocks

/-- `remote_queue_stride`. -/
def remoteQueueStride : Nat :=
  let nPeers := max 1 l.numPeers
  max 1 ((l.totalTiles * nPeers + l.numAllocatedRemoteQueues - 1) / l.numAllocatedRemoteQueues)

def sender (n : Nat) : Sender where
  numDevices := l.shape.numDevices
  devIdx := l.devIdx
  nodeIdx := n
  numNodes := l.numNodes

def queuesPerPeer : Nat := Internode.Cx7.queuesPerPeer l.numRemoteQueues l.numNodes

/-- `TILE_BYTES`. -/
def tileBytes : Nat := 128 * 256 * 2

/-- `gemm_ar_arrival_idx`. -/
def arrivalIdx (rb _colIdx _colBlocks : Nat) : Nat := rb

/-- What `fused_inter_send_sm` writes into the command of a chunk for a peer,
    its lane and channel apart. The time stamp is left out. -/
def chunkCmd (n chunkId peerSlot : Nat) : TransferCmd :=
  let chunk := l.shape.chunkDecode l.devIdx chunkId
  let packFirstTile := chunk.rbInSlice * l.shape.colBlocks + chunk.colStart
  let offset := BitVec.ofNat 64 packFirstTile * BitVec.ofNat 64 tileBytes
  let singlePeerTiles := l.shape.rowBlocksPerSlice * l.shape.colBlocks
  let sap := (l.sender n).slotAtPeer peerSlot
  { TransferCmd.zero with
    cmdType := .write
    dstRank := BitVec.ofInt 8 (peerRankForSlot n l.numNodes peerSlot)
    tileId := BitVec.ofInt 32 (sap * singlePeerTiles + packFirstTile)
    bytes := BitVec.ofInt 32 (chunk.tilesThisChunk * tileBytes)
    localOffset := offset
    srcView := 0
    rowCount := BitVec.ofInt 16 chunk.tilesThisChunk
    remoteOffset := BitVec.ofInt 64 (sap * (singlePeerTiles * tileBytes : Nat)) + offset }

/-- The sends of one chunk: one for each peer slot. -/
def sendChunk (n chunkId : Nat) : List Push :=
  let chunk := l.shape.chunkDecode l.devIdx chunkId
  (List.range l.numPeers).map fun peerSlot =>
    gemmArSend (l.sender n) l.numRemoteQueues
      (arrivalIdx chunk.rbInSlice chunk.colStart l.shape.colBlocks) peerSlot
      (l.chunkCmd n chunkId peerSlot)

/-- `fused_inter_send_sm`: the row blocks of a CTA, and the chunks of each. -/
def fusedInterSendSm (n sendId : Nat) : List Push :=
  (walk sendId l.numInterSendSms l.shape.rowBlocksPerSlice).flatMap fun rbInSlice =>
    (List.range l.shape.chunksPerRow).flatMap fun c =>
      l.sendChunk n (rbInSlice * l.shape.chunksPerRow + c)

/-- What all sending CTAs of a node push. -/
def sent (n : Nat) : List Push := (List.range l.numInterSendSms).flatMap (l.fusedInterSendSm n)

/-- A command announces itself in logical queue `q` of node `r`: the proxy
    reduces the lane by the number of logical queues. -/
def Into (r q : Nat) (push : Push) : Prop :=
  push.cmd.dstRank = BitVec.ofNat 8 r ∧ push.cmd.laneId.toNat % l.numAllocatedRemoteQueues = q

instance (r q : Nat) (push : Push) : Decidable (l.Into r q push) :=
  inferInstanceAs (Decidable (_ ∧ _))

/-- The notifications sent into logical queue `q` of node `r` in an epoch. -/
def load (r q : Nat) : Nat :=
  ((List.range l.numNodes).flatMap l.sent).countP fun push => l.Into r q push

/-- The row blocks the kernel decodes in full, and the chunks of one more. -/
def fullRows : Nat := l.shape.totalChunks / l.shape.device.chunksPerRow

/-- The chunks of one peer that fall to the first queue of its block. -/
def firstChunks : Nat :=
  l.shape.device.chunksPerRow * fullest l.fullRows l.numRemoteQueues l.queuesPerPeer +
    if l.fullRows % l.numRemoteQueues % l.queuesPerPeer = 0 then
      l.shape.totalChunks % l.shape.device.chunksPerRow else 0

/-- The notifications into the first queue: the chunks that fall to it, from
    each of the peers that share it. -/
def worst : Nat := rounds l.numPeers l.numAllocatedRemoteQueues * l.firstChunks

/-- The tiles of the output, once for each peer, are more than the words of all
    queues would be with one word less than the first queue needs. -/
def Roomy : Prop :=
  l.worst ≤ 1 ∨ l.numAllocatedRemoteQueues * (l.worst - 1) < l.totalTiles * max 1 l.numPeers

instance : Decidable l.Roomy := inferInstanceAs (Decidable (_ ∨ _))

variable {l}

theorem numRemoteQueues_pos : 0 < l.numRemoteQueues := by
  unfold numRemoteQueues
  split <;> omega

theorem numRemoteQueues_le' : l.numRemoteQueues ≤ 2 ^ 16 := by
  have hle := l.numRemoteQueues_le
  unfold numRemoteQueues
  split <;> omega

/-- No fewer queues are allocated than are in use. -/
theorem numRemoteQueues_le_allocated : l.numRemoteQueues ≤ l.numAllocatedRemoteQueues := by
  unfold numAllocatedRemoteQueues
  dsimp only
  split <;> split <;> omega

theorem numAllocatedRemoteQueues_pos : 0 < l.numAllocatedRemoteQueues :=
  Nat.lt_of_lt_of_le numRemoteQueues_pos numRemoteQueues_le_allocated

theorem queuesPerPeer_pos : 0 < l.queuesPerPeer := Internode.Cx7.queuesPerPeer_pos _ _

/-- All CTAs together send each chunk once. -/
theorem countP_sent (n : Nat) (p : Push → Bool) :
    (l.sent n).countP p =
      ∑ chunkId ∈ Finset.range l.shape.totalChunks, (l.sendChunk n chunkId).countP p := by
  rw [Shape.totalChunks, ← sum_range_mul fun chunkId => (l.sendChunk n chunkId).countP p]
  refine (countP_walks l.numInterSendSms_pos l.shape.rowBlocksPerSlice p _).trans ?_
  exact Finset.sum_congr rfl fun rb _ => countP_flatMap_range _ _ _

/-- The queue a row block of a peer's block falls to. -/
def blockQueue (l : Launch) (b rb : Nat) : Nat :=
  (b * l.queuesPerPeer + rb % l.numRemoteQueues % l.queuesPerPeer) % l.numAllocatedRemoteQueues

/-- The queues of all blocks fit into a lane. -/
theorem blockQueue_fits {b : Nat} (hb : b < l.numPeers) (rb : Nat) :
    b * l.queuesPerPeer + rb % l.numRemoteQueues % l.queuesPerPeer < 2 ^ 16 :=
  Internode.Cx7.block_queue_fits l.numRemoteQueues_le' l.numNodes_le hb
    (Nat.mod_lt _ l.queuesPerPeer_pos)

/-- Where the command of a chunk for a peer slot announces itself. -/
theorem into_iff {n r p chunkId q : Nat} (hn : n < l.numNodes) (hr : r < l.numNodes)
    (hp : p < l.numPeers) :
    l.Into r q (gemmArSend (l.sender n) l.numRemoteQueues
        (arrivalIdx (l.shape.chunkDecode l.devIdx chunkId).rbInSlice
          (l.shape.chunkDecode l.devIdx chunkId).colStart l.shape.colBlocks)
        p (l.chunkCmd n chunkId p)) ↔
      peerRankForSlot n l.numNodes p = r ∧
        l.blockQueue (l.numPeers - 1 - p) (chunkId / l.shape.device.chunksPerRow) = q := by
  have hnodes := l.numNodes_le
  simp only [kMaxPeers] at hnodes
  have hpeers : (l.numNodes : Int) = l.numPeers + 1 := by
    simp only [numPeers] at hp ⊢
    omega
  -- The sender's slot at the peer is the peer's slot, from the other end.
  have hsap : (l.sender n).slotAtPeer p = (l.numPeers - 1 - p : Nat) := by
    rw [Sender.slotAtPeer]
    exact (Internode.slotAtPeer_peerRankForSlot _ _ _ (by omega)
      (by simp only [sender]; omega)).trans (by simp only [sender]; omega)
  rw [Into, Internode.Cx7.dstRank_gemmArSend, Internode.Cx7.laneId_gemmArSend hsap
    (l.blockQueue_fits (by omega) _)]
  exact and_congr (Internode.dstRank_eq_iff (by omega) hn hr (by simpa only [numPeers] using hp))
    (Iff.refl _)

/-- The chunks all peers together send to a queue. -/
def chunks (l : Launch) (q : Nat) : Nat :=
  ∑ b ∈ Finset.range l.numPeers,
    Nat.count (fun c => l.blockQueue b (c / l.shape.device.chunksPerRow) = q) l.shape.totalChunks

/-- The load of a queue: the chunks that fall to it, peer by peer. -/
theorem load_eq {r : Nat} (hr : r < l.numNodes) (q : Nat) : l.load r q = l.chunks q := by
  -- Push by push, with the senders summed over last.
  have hcell : ∀ c, ∀ p ∈ Finset.range l.numPeers,
      (∑ n ∈ Finset.range l.numNodes,
        if l.Into r q (gemmArSend (l.sender n) l.numRemoteQueues
          (arrivalIdx (l.shape.chunkDecode l.devIdx c).rbInSlice
            (l.shape.chunkDecode l.devIdx c).colStart l.shape.colBlocks)
          p (l.chunkCmd n c p)) then 1 else 0) =
      if l.blockQueue (l.numPeers - 1 - p) (c / l.shape.device.chunksPerRow) = q then 1 else 0 := by
    intro c p hp
    rw [Finset.mem_range] at hp
    exact Internode.sum_senders hr hp fun n hn => into_iff hn hr hp
  have hsum : l.load r q = ∑ c ∈ Finset.range l.shape.totalChunks, ∑ p ∈ Finset.range l.numPeers,
      if l.blockQueue (l.numPeers - 1 - p) (c / l.shape.device.chunksPerRow) = q then 1 else 0 := by
    rw [load, countP_flatMap_range]
    simp only [countP_sent, sendChunk, countP_map_range, decide_eq_true_eq, ← sum_range_ite]
    rw [Finset.sum_comm]
    refine Finset.sum_congr rfl fun c _ => ?_
    rw [Finset.sum_comm]
    exact Finset.sum_congr rfl fun p hp => hcell c p hp
  rw [hsum, Finset.sum_comm, chunks]
  -- The slots count the peers from the other end.
  rw [← Finset.sum_range_reflect]
  refine Finset.sum_congr rfl fun p hp => ?_
  rw [← sum_range_ite]
  have hlt := Finset.mem_range.mp hp
  have hback : l.numPeers - 1 - (l.numPeers - 1 - p) = p := by omega
  rw [hback]

/-- The blocks of all peers have places of their own, or a place each. -/
theorem blocks_fit : l.numPeers * l.queuesPerPeer ≤ l.numAllocatedRemoteQueues ∨
    l.queuesPerPeer = 1 :=
  (Internode.Cx7.queuesPerPeer_fit l.numRemoteQueues l.numNodes).imp_left fun hfit =>
    Nat.le_trans hfit l.numRemoteQueues_le_allocated

/-- The place of a chunk in its peer's block of queues. -/
def place (l : Launch) (c : Nat) : Nat :=
  c / l.shape.device.chunksPerRow % l.numRemoteQueues % l.queuesPerPeer

theorem place_lt (c : Nat) : l.place c < l.queuesPerPeer := Nat.mod_lt _ l.queuesPerPeer_pos

theorem chunks_eq (q : Nat) : l.chunks q = ∑ b ∈ Finset.range l.numPeers,
    Nat.count (fun c => True ∧ (b * l.queuesPerPeer + l.place c) % l.numAllocatedRemoteQueues = q)
      l.shape.totalChunks :=
  Finset.sum_congr rfl fun _ _ => count_congr fun _ _ => (and_iff_right trivial).symm

/-- The first place gets the chunks of the row blocks that fall to it. -/
theorem count_place_zero :
    Nat.count (fun c => l.place c = 0) l.shape.totalChunks = l.firstChunks := by
  have hdiv := count_div (fun rb => rb % l.numRemoteQueues % l.queuesPerPeer = 0)
    l.shape.device.chunksPerRow l.shape.totalChunks
  rw [count_mod_mod_zero l.numRemoteQueues_pos l.queuesPerPeer_pos] at hdiv
  exact hdiv

/-- No place of a block gets more chunks than the first. -/
theorem count_place_le (k : Nat) :
    Nat.count (fun c => l.place c = k) l.shape.totalChunks ≤ l.firstChunks := by
  rw [← count_place_zero]
  refine count_div_le (p := fun rb => rb % l.numRemoteQueues % l.queuesPerPeer = k)
    (w := fun rb => rb % l.numRemoteQueues % l.queuesPerPeer = 0) (fun n => ?_)
    l.shape.device.chunksPerRow l.shape.totalChunks
  rw [count_mod_mod_zero l.numRemoteQueues_pos l.queuesPerPeer_pos]
  exact count_mod_mod_le l.numRemoteQueues_pos l.queuesPerPeer_pos k

theorem load_le_worst {r : Nat} (hr : r < l.numNodes) (q : Nat) : l.load r q ≤ l.worst := by
  rw [load_eq hr, chunks_eq, worst]
  refine sum_blocks_le l.numAllocatedRemoteQueues_pos l.place_lt l.blocks_fit (fun k => ?_) q
  rw [count_congr fun _ _ => and_iff_right trivial]
  exact count_place_le k

theorem load_zero {r : Nat} (hr : r < l.numNodes) : l.load r 0 = l.worst := by
  rw [load_eq hr, chunks_eq, worst,
    sum_blocks_zero l.numAllocatedRemoteQueues_pos l.place_lt l.blocks_fit]
  simp only [true_and]
  rw [count_place_zero]

end Launch

/-- There is room for the notifications into each queue of each receiver exactly
    if there is for those into a first queue: the chunks that fall to it, times
    the peers that share it. -/
theorem capacity_iff (l : Launch) :
    (∀ r < l.numNodes, ∀ q, l.load r q ≤ l.remoteQueueStride) ↔ l.Roomy := by
  have hstride : l.worst ≤ l.remoteQueueStride ↔ l.Roomy :=
    le_max_one_iff Launch.numAllocatedRemoteQueues_pos
  rw [← hstride]
  constructor
  · intro h
    by_cases hnodes : 0 < l.numNodes
    · -- The bound is reached at the first node.
      rw [← Launch.load_zero hnodes]
      exact h 0 hnodes 0
    · -- Without nodes there are no peers to send.
      have hnone : l.numPeers = 0 := by
        unfold Launch.numPeers
        omega
      rw [Launch.worst, hnone, rounds_zero Launch.numAllocatedRemoteQueues_pos, Nat.zero_mul]
      exact Nat.zero_le _
  · intro h r hr q
    exact Nat.le_trans (Launch.load_le_worst hr q) h

section Sample

/-- One peer, and the most queues a session can have. -/
def manyQueues : Internode.Efa.Session where
  cfg :=
    { rank := 0
      numPeers := 1
      peerRanks := none
      numTiles := 16
      maxInflight := 0
      numQps := 24
      logicalQueuesPerQp := 16
      numProxyThreads := 1
      useArrivalQueue := true
      numRails := 1 }
  env := fun _ => none
  numPeers_pos := by decide
  numPeers_le := by decide

/-- Eight GPUs on each node, one row block of 16 tiles on each GPU, and four of
    the queues in use. -/
def fewInUse : Launch := Launch.ofSession manyQueues ⟨1024, 4096, 8, 0⟩ 0 4 (by decide)

-- With no more queues allocated than are in use, there is room.
example : ¬ fewInUse.Roomy ∧
    ({ fewInUse with numAllocatedRemoteQueuesArg := 4 } : Launch).Roomy := by
  decide

/-- The four chunks of the row block go to the first queue, which has one word. -/
theorem capacity_exceeded :
    ¬ ∀ l : Launch, ∀ r < l.numNodes, ∀ q, l.load r q ≤ l.remoteQueueStride := by
  intro h
  have hload := h fewInUse 0 (by decide) 0
  exact absurd hload (by decide +kernel)

end Sample

end GemmAr

end MKernel
