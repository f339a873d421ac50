import Mathlib.Algebra.Group.Action.Defs
import MKernel.GemmRs.Geometry
import MKernel.Internode.Cx7.Routing
import MKernel.Internode.Peers

/-!
# The Capacity of a Transport Queue of GemmRs

How many notifications `gemm_rs` sends into one queue of a receiver in an epoch,
against the number of words the queue has.

A sending CTA goes through the chunks of its row blocks and sends each to every
peer, or, where receivers own chunks, to the one peer that owns it. A chunk goes
to the queue of its own number within the block of the peer's slot. So a queue
gets every `queuesPerPeer`-th chunk of a peer, and of several peers where there
are fewer queues than peers.

The words of a queue are the tiles of all peers over all queues. What the two
divisions have in common is lost to rounding: a chunk may be a single tile, and
queues that are left over when they are divided between the peers have their
share of the words, but get no chunk (`transportCapacity_iff`).

## Main definitions

* `Launch.sendTilesCoalesced`: What a sending CTA of a node pushes.
* `Launch.load`: The notifications into a queue of a receiver.
* `Launch.chunksPerQueue`: Those of one peer, if each chunk goes to each peer.
* `Launch.worst`: The notifications into the first queue, in closed form.
* `Launch.Room`: A queue has room for so many.

## Theorems

* `load_eq`: The load of a queue, peer by peer.
* `load_le_worst`, `load_zero`: The first queue of the first node gets most.
* `transportCapacity_iff`: When there is room.
-/

namespace MKernel

namespace GemmRs

open MKernel.Core
open MKernel.Internode (TransferCmd atoi peerRankForSlot)
open MKernel.Internode.Cx7 (Sender Push gemmRsSend)

namespace Launch

variable (l : Launch)

/-- `fused_globals::CHUNK_TILES`. -/
def defaultChunkTiles : Nat := 4

/-- `chunk_tiles_ct`. -/
def chunkTiles : Nat :=
  let chunkTilesOverride :=
    match l.env "GEMM_RS_RDMA_CHUNK_TILES_RT" with
    | some e => atoi e
    | none => 0
  if 0 < chunkTilesOverride then min chunkTilesOverride.toNat l.colBlocks
  else min defaultChunkTiles l.colBlocks

def chunksPerRow : Nat := (l.colBlocks + l.chunkTiles - 1) / l.chunkTiles
def totalChunks : Nat := l.localRowBlocks * l.chunksPerRow

/-- `num_send`. -/
def numSend : Nat := l.numSendSms.toNat

def sender (n : Nat) : Sender where
  numDevices := l.numDevices
  devIdx := l.devIdx
  nodeIdx := n
  numNodes := l.numNodes

def queuesPerPeer : Nat := Internode.Cx7.queuesPerPeer l.numRemoteQueues l.numNodes

/-- `TILE_BYTES`. -/
def tileBytes : Nat := rowBlock * colBlock * 2

/-- What `send_tiles_coalesced` writes into the command of a chunk for a peer,
    its lane and channel apart. -/
def chunkCmd (n rb ci peerSlot : Nat) : TransferCmd :=
  let colStart := ci * l.chunkTiles
  let colsThisChunk := min l.chunkTiles (l.colBlocks - colStart)
  let chunkFirstTile := rb * l.colBlocks + colStart
  let offset := BitVec.ofNat 64 chunkFirstTile * BitVec.ofNat 64 tileBytes
  let singlePeerTiles := l.localRowBlocks * l.colBlocks
  let singlePeerBytes := singlePeerTiles * tileBytes
  let sap := (l.sender n).slotAtPeer peerSlot
  { TransferCmd.zero with
    cmdType := .write
    dstRank := BitVec.ofInt 8 (peerRankForSlot n l.numNodes peerSlot)
    tileId := BitVec.ofInt 32 (sap * singlePeerTiles + chunkFirstTile)
    bytes := BitVec.ofNat 32 (colsThisChunk * tileBytes)
    localOffset := offset
    remoteOffset := BitVec.ofInt 64 (sap * singlePeerBytes) + offset }

/-- A chunk is sent to a peer: to each, or, where receivers own chunks, to the
    owner if that is another node. -/
def Sends (n globalChunkId peerSlot : Nat) : Prop :=
  l.useReceiverOwnerRs = true →
    let ownerNode := globalChunkId % l.numNodes
    ¬ (ownerNode = n ∨ peerRankForSlot n l.numNodes peerSlot ≠ ownerNode)

instance (n c p : Nat) : Decidable (l.Sends n c p) := inferInstanceAs (Decidable (_ → _))

/-- The sends of one chunk. -/
def sendChunk (n rb ci : Nat) : List Push :=
  ((List.range l.numPeers).filter fun p => l.Sends n (rb * l.chunksPerRow + ci) p).map
    fun peerSlot =>
      gemmRsSend (l.sender n) l.useTransportArrivalQueue l.numRemoteQueues rb l.chunksPerRow ci
        peerSlot (l.chunkCmd n rb ci peerSlot)

/-- `send_tiles_coalesced`: all chunks of the row blocks of a CTA, once each. They
    are sent as they get ready, and are listed here in the order of their numbers. -/
def sendTilesCoalesced (n sendId : Nat) : List Push :=
  (walk sendId l.numSend l.localRowBlocks).flatMap fun rb =>
    (List.range l.chunksPerRow).flatMap fun ci => l.sendChunk n rb ci

/-- What all sending CTAs of a node push. -/
def sent (n : Nat) : List Push := (List.range l.numSend).flatMap (l.sendTilesCoalesced n)

/-- A command announces itself in queue `q` of node `r`: the proxy reduces the
    lane by the number of queues. -/
def Into (r q : Nat) (push : Push) : Prop :=
  push.cmd.dstRank = BitVec.ofNat 8 r ∧ push.cmd.laneId.toNat % l.numRemoteQueues = q

instance (r q : Nat) (push : Push) : Decidable (l.Into r q push) :=
  inferInstanceAs (Decidable (_ ∧ _))

/-- The notifications sent into queue `q` of node `r` in an epoch. -/
def load (r q : Nat) : Nat :=
  ((List.range l.numNodes).flatMap l.sent).countP fun push => l.Into r q push

/-- The chunks one peer sends to the first queue of its block, if it sends all
    its chunks. -/
def chunksPerQueue : Nat := rounds l.totalChunks l.queuesPerPeer

/-- Chunks of one queue that go to one receiver are this far apart. -/
def spacing : Nat :=
  if l.useReceiverOwnerRs then Nat.lcm l.numNodes l.queuesPerPeer else l.queuesPerPeer

/-- The notifications into the first queue of the first node, from each of the
    peers that share it. -/
def worst : Nat :=
  if 0 < l.numSend then rounds l.numPeers l.numRemoteQueues * rounds l.totalChunks l.spacing else 0

/-- A queue has room for `k` notifications: the tiles of all peers are more than
    the words of all queues would be with one word less. -/
def Room (k : Nat) : Prop := k ≤ 1 ∨ l.numRemoteQueues * (k - 1) < l.sessionArrivalSlots

instance (k : Nat) : Decidable (l.Room k) := inferInstanceAs (Decidable (_ ∨ _))

variable {l}

theorem queuesPerPeer_pos : 0 < l.queuesPerPeer := Internode.Cx7.queuesPerPeer_pos _ _

/-- The blocks of all peers have places of their own, or a place each. -/
theorem blocks_fit : l.numPeers * l.queuesPerPeer ≤ l.numRemoteQueues ∨ l.queuesPerPeer = 1 :=
  Internode.Cx7.queuesPerPeer_fit _ _

/-- A queue has room exactly for what its words are enough for. -/
theorem le_remoteQueueStride_iff (k : Nat) : k ≤ l.remoteQueueStride ↔ l.Room k :=
  le_max_one_iff l.numRemoteQueues_pos

/-- All CTAs together send each chunk once. -/
theorem countP_sent (hsend : 0 < l.numSend) (n : Nat) (p : Push → Bool) :
    (l.sent n).countP p = ∑ rb ∈ Finset.range l.localRowBlocks,
      ∑ ci ∈ Finset.range l.chunksPerRow, (l.sendChunk n rb ci).countP p := by
  refine (countP_walks hsend l.localRowBlocks p _).trans ?_
  exact Finset.sum_congr rfl fun rb _ => countP_flatMap_range _ _ _

/-- The queue a chunk goes to from a peer slot. -/
def chunkQueue (l : Launch) (p c : Nat) : Nat :=
  (p * l.queuesPerPeer + c % l.queuesPerPeer) % l.numRemoteQueues

/-- The chunks a node is sent: all, or those it owns. -/
def Meant (l : Launch) (r c : Nat) : Prop := l.useReceiverOwnerRs = true → c % l.numNodes = r

instance (r c : Nat) : Decidable (l.Meant r c) := inferInstanceAs (Decidable (_ → _))

/-- Who is sent a chunk from a peer slot, and where it announces itself. -/
theorem into_iff (ht : l.useTransportArrivalQueue = true) {n r p rb ci q : Nat}
    (hn : n < l.numNodes) (hr : r < l.numNodes) (hp : p < l.numPeers) :
    (l.Into r q (gemmRsSend (l.sender n) l.useTransportArrivalQueue l.numRemoteQueues rb
        l.chunksPerRow ci p (l.chunkCmd n rb ci p)) ∧ l.Sends n (rb * l.chunksPerRow + ci) p) ↔
      peerRankForSlot n l.numNodes p = r ∧
        (l.Meant r (rb * l.chunksPerRow + ci) ∧
          l.chunkQueue p (rb * l.chunksPerRow + ci) = q) := by
  have hnodes := l.numNodes_le
  simp only [Internode.Cx7.kMaxPeers] at hnodes
  have hfit := Internode.Cx7.block_queue_fits (Nat.le_trans l.numRemoteQueues_le (by decide))
    l.numNodes_le hp (Nat.mod_lt (rb * l.chunksPerRow + ci) l.queuesPerPeer_pos)
  have hdst := Internode.dstRank_eq_iff (p := p) (by omega) hn hr hp
  -- A node is no peer of its own, so being owner and receiver are two things.
  have hother := Internode.peerRankForSlot_ne n hp
  have hlane : (gemmRsSend (l.sender n) true l.numRemoteQueues rb l.chunksPerRow ci p
      (l.chunkCmd n rb ci p)).cmd.laneId.toNat =
        p * l.queuesPerPeer + (rb * l.chunksPerRow + ci) % l.queuesPerPeer :=
    Internode.Cx7.laneId_gemmRsSend hfit
  rw [Into, ht, Internode.Cx7.dstRank_gemmRsSend, hlane]
  constructor
  · -- The receiver owns the chunk, or else it would not have been sent.
    rintro ⟨⟨hrank, hq⟩, hsends⟩
    have hto := hdst.mp hrank
    refine ⟨hto, fun howner => ?_, hq⟩
    have hkept := hsends howner
    simp only [not_or, not_not, hto] at hkept
    omega
  · rintro ⟨hto, hmeant, hq⟩
    refine ⟨⟨hdst.mpr hto, hq⟩, fun howner => ?_⟩
    have hmine := hmeant howner
    -- The owner is the peer, so it is not the sender.
    simp only [not_or, not_not]
    omega

/-- The load of a queue: the chunks meant for the node that go to the queue, peer
    by peer. -/
theorem load_eq (ht : l.useTransportArrivalQueue = true) (hsend : 0 < l.numSend) {r : Nat}
    (hr : r < l.numNodes) (q : Nat) :
    l.load r q = ∑ p ∈ Finset.range l.numPeers,
      Nat.count (fun c => l.Meant r c ∧ l.chunkQueue p c = q) l.totalChunks := by
  -- Push by push, with the senders summed over last.
  have hcell : ∀ rb ci, ∀ p ∈ Finset.range l.numPeers,
      (∑ n ∈ Finset.range l.numNodes,
        if (l.Into r q (gemmRsSend (l.sender n) l.useTransportArrivalQueue l.numRemoteQueues rb
          l.chunksPerRow ci p (l.chunkCmd n rb ci p)) ∧
            l.Sends n (rb * l.chunksPerRow + ci) p) then 1 else 0) =
      if (l.Meant r (rb * l.chunksPerRow + ci) ∧
        l.chunkQueue p (rb * l.chunksPerRow + ci) = q) then 1 else 0 := by
    intro rb ci p hp
    rw [Finset.mem_range] at hp
    exact Internode.sum_senders hr hp fun n hn => into_iff ht hn hr hp
  have hsum : l.load r q = ∑ rb ∈ Finset.range l.localRowBlocks,
      ∑ ci ∈ Finset.range l.chunksPerRow, ∑ p ∈ Finset.range l.numPeers,
        if (l.Meant r (rb * l.chunksPerRow + ci) ∧
          l.chunkQueue p (rb * l.chunksPerRow + ci) = q) then 1 else 0 := by
    rw [load, countP_flatMap_range]
    simp only [countP_sent hsend, sendChunk, countP_filter_map_range, decide_eq_true_eq,
      ← sum_range_ite]
    rw [Finset.sum_comm]
    refine Finset.sum_congr rfl fun rb _ => ?_
    rw [Finset.sum_comm]
    refine Finset.sum_congr rfl fun ci _ => ?_
    rw [Finset.sum_comm]
    exact Finset.sum_congr rfl fun p hp => hcell rb ci p hp
  rw [hsum, sum_range_mul (fun c => ∑ p ∈ Finset.range l.numPeers,
    if (l.Meant r c ∧ l.chunkQueue p c = q) then 1 else 0), Finset.sum_comm]
  exact Finset.sum_congr rfl fun p _ => sum_range_ite _ _

/-- Without a sending CTA nothing is sent. -/
theorem load_of_not_send (hsend : ¬ 0 < l.numSend) (r q : Nat) : l.load r q = 0 := by
  have hnone : l.sent = fun _ => [] := by
    funext n
    rw [sent, Nat.eq_zero_of_not_pos hsend]
    rfl
  rw [load, hnone, countP_flatMap_range]
  exact Finset.sum_eq_zero fun _ _ => rfl

theorem spacing_pos (hnodes : 0 < l.numNodes) : 0 < l.spacing := by
  unfold spacing
  split
  · exact Nat.lcm_pos hnodes l.queuesPerPeer_pos
  · exact l.queuesPerPeer_pos

/-- No place of a block gets more than the chunks that are spaced out. -/
theorem count_meant_le (hnodes : 0 < l.numNodes) (r k : Nat) :
    Nat.count (fun c => l.Meant r c ∧ c % l.queuesPerPeer = k) l.totalChunks ≤
      rounds l.totalChunks l.spacing := by
  have hpos := l.spacing_pos hnodes
  unfold spacing at hpos ⊢
  unfold Meant
  by_cases howner : l.useReceiverOwnerRs = true
  · rw [if_pos howner] at hpos ⊢
    simp only [howner, forall_const]
    exact count_mod_and_le hpos r k
  · rw [if_neg howner] at hpos ⊢
    simp only [howner, Bool.false_eq_true, false_imp_iff, true_and]
    exact count_mod_le hpos k

theorem count_meant_zero (hnodes : 0 < l.numNodes) :
    Nat.count (fun c => l.Meant 0 c ∧ c % l.queuesPerPeer = 0) l.totalChunks =
      rounds l.totalChunks l.spacing := by
  have hpos := l.spacing_pos hnodes
  unfold spacing at hpos ⊢
  unfold Meant
  by_cases howner : l.useReceiverOwnerRs = true
  · rw [if_pos howner] at hpos ⊢
    simp only [howner, forall_const]
    exact count_mod_and_zero hpos
  · rw [if_neg howner] at hpos ⊢
    simp only [howner, Bool.false_eq_true, false_imp_iff, true_and]
    exact count_mod_zero hpos

/-- No queue gets more than the first of the first node. -/
theorem load_le_worst (ht : l.useTransportArrivalQueue = true) {r : Nat} (hr : r < l.numNodes)
    (q : Nat) : l.load r q ≤ l.worst := by
  by_cases hsend : 0 < l.numSend
  · rw [load_eq ht hsend hr, worst, if_pos hsend]
    exact sum_blocks_le l.numRemoteQueues_pos (fun c => Nat.mod_lt c l.queuesPerPeer_pos)
      l.blocks_fit (count_meant_le (Nat.lt_of_le_of_lt (Nat.zero_le r) hr) r) q
  · rw [load_of_not_send hsend]
    exact Nat.zero_le _

theorem load_zero (ht : l.useTransportArrivalQueue = true) (hnodes : 0 < l.numNodes) :
    l.load 0 0 = l.worst := by
  by_cases hsend : 0 < l.numSend
  · rw [load_eq ht hsend hnodes, worst, if_pos hsend, ← count_meant_zero hnodes]
    exact sum_blocks_zero l.numRemoteQueues_pos (fun c => Nat.mod_lt c l.queuesPerPeer_pos)
      l.blocks_fit
  · rw [load_of_not_send hsend, worst, if_neg hsend]

end Launch

/-- A queue has room for every `queuesPerPeer`-th chunk exactly if the tiles of
    all peers are enough of them; and there is room for what is sent into each
    queue of each node exactly if there is for the first queue of the first. -/
theorem transportCapacity_iff (l : Launch) (ht : l.useTransportArrivalQueue = true) :
    (l.chunksPerQueue ≤ l.remoteQueueStride ↔ l.Room l.chunksPerQueue) ∧
    ((∀ r < l.numNodes, ∀ q, l.load r q ≤ l.remoteQueueStride) ↔ l.Room l.worst) := by
  refine ⟨Launch.le_remoteQueueStride_iff _, ?_⟩
  rw [← Launch.le_remoteQueueStride_iff]
  constructor
  · intro h
    by_cases hnodes : 0 < l.numNodes
    · rw [← Launch.load_zero ht hnodes]
      exact h 0 hnodes 0
    · -- Without nodes there are no peers to send.
      have hnone : l.numPeers = 0 := by
        unfold Launch.numPeers
        omega
      rw [Launch.worst, hnone, rounds_zero l.numRemoteQueues_pos, Nat.zero_mul, ite_self]
      exact Nat.zero_le _
  · intro h r hr q
    exact Nat.le_trans (Launch.load_le_worst ht hr q) h

section Sample

/-- Four nodes, four row blocks of one tile each, and the four queues of the four
    QPs there are by default: one queue for each of three peers, and one that is
    left over. -/
def leftOver : Launch where
  mLocal := 512
  n := 256
  numDevices := 8
  devIdx := 0
  numNodes := 4
  numSendSms := 2
  env := fun name => if name = "GEMM_RS_TRANSPORT_ARRIVAL_QUEUE" then some "1" else none
  numNodes_le := four_le_maxNodes
  numSendSms_lt := by decide

-- With twice the tiles in a chunk, there is room.
example : ¬ leftOver.Room leftOver.worst ∧
    ({ leftOver with n := 512 } : Launch).Room ({ leftOver with n := 512 } : Launch).worst := by
  decide +kernel

theorem transportCapacity_iff_leftOver : leftOver.useTransportArrivalQueue = true ∧
    (leftOver.chunksPerQueue ≤ leftOver.remoteQueueStride ↔
      leftOver.Room leftOver.chunksPerQueue) ∧
    ((∀ r < 4, ∀ q, leftOver.load r q ≤ leftOver.remoteQueueStride) ↔
      leftOver.Room leftOver.worst) :=
  ⟨by decide +kernel, transportCapacity_iff leftOver (by decide +kernel)⟩

/-- Each peer sends four chunks to its queue, which has three words. -/
theorem capacity_exceeded_leftOver :
    (¬ ∀ l : Launch, l.useTransportArrivalQueue = true →
      l.chunksPerQueue ≤ l.remoteQueueStride) ∧
    ¬ ∀ l : Launch, l.useTransportArrivalQueue = true →
      ∀ r < l.numNodes, ∀ q, l.load r q ≤ l.remoteQueueStride := by
  have ht : leftOver.useTransportArrivalQueue = true := by decide +kernel
  constructor
  · intro h
    exact absurd (h leftOver ht) (by decide +kernel)
  · intro h
    have hload := h leftOver ht 0 (by decide) 0
    rw [Launch.load_zero ht (by decide)] at hload
    exact absurd hload (by decide +kernel)

end Sample

end GemmRs

end MKernel
