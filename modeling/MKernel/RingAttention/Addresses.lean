import MKernel.Core.MachineInt
import MKernel.Internode.Peers
import MKernel.RingAttention.Stages

/-!
# Addresses of Ring Attention

Where `kv_send` has the shard of a node written, and where `kv_copy` of another
node looks for it, in the arithmetic of the machine.

The sender multiplies its slot at the receiver by the bytes of a peer in 64 bits,
after a cast. The receiver multiplies its slot for the sender by the same number
in an `int`. What the sender computes is always the exact number
(`remoteOffset_eq`), and so the two agree just as long as the product of the
receiver does not reach 2^31 (`srcOffset_eq_iff`). `K_bytes` and `V_bytes` are any
two numbers, with a sum that fits into an `int`.

The ranks and slots themselves are small, and are left as they are.

## Main definitions

* `Globals`: What the two kernels are given.
* `stageAndSend`: The command of a chunk for a peer.
* `copyChunk`: What `kv_copy` does with a chunk of a peer.
* `Agrees`: All chunks are read where they are written.

## Theorems

* `remoteOffset_eq`: What the sender computes is exact.
* `srcOffset_eq_iff`: When the receiver reads there.
* `agrees_iff`: When all chunks are read where they are written.
* `not_agrees_four`: Four nodes with a shard of a gigabyte.
-/

namespace MKernel

namespace RingAttention

namespace Addresses

open MKernel.Core
open MKernel.Internode (peerRankForSlot slotAtPeer)

/-! ## The kernels -/

/-- `kv_exchange_globals`, as far as the kernels compute with it. -/
structure Globals where
  kBytes : Int
  vBytes : Int
  totalChunksK : Int
  totalChunksV : Int
  nodeIdx : Int
  devIdx : Int
  numDevices : Int
  numNodes : Int

namespace Globals

variable (G : Globals)

/-- `total_chunks` -/
def totalChunks : Int := int32 (G.totalChunksK + G.totalChunksV)

/-- `single_peer_bytes` -/
def singlePeerBytes : Int := int32 (G.kBytes + G.vBytes)

/-- `off` of a chunk of the values, if it is one, or of the keys. -/
def off (chunkId : Int) : Int :=
  if G.totalChunksK ≤ chunkId then uint32 (int32 (int32 (chunkId - G.totalChunksK) * chunkBytes))
  else uint32 (int32 (chunkId * chunkBytes))

/-- `bytes` -/
def bytes (chunkId : Int) : Int :=
  if G.totalChunksK ≤ chunkId then
    uint32 (min (chunkBytes : Int) (int32 (G.vBytes - int32 (G.off chunkId))))
  else uint32 (min (chunkBytes : Int) (int32 (G.kBytes - int32 (G.off chunkId))))

/-- `remote_off` of `kv_stage_and_send_sm`. -/
def remoteOff (chunkId : Int) : Int :=
  if G.totalChunksK ≤ chunkId then uint32 (uint32 G.kBytes + G.off chunkId) else G.off chunkId

end Globals

/-- The fields of `TransferCmd` that are filled in. -/
structure TransferCmd where
  dstRank : Int
  tileId : Int
  bytes : Int
  localOffset : Int
  remoteOffset : Int
  srcView : Int
  laneId : Int
  reserved0 : Int

/-- `kv_stage_and_send_sm`: the command of a chunk for a peer slot. -/
def stageAndSend (G : Globals) (peerSlot chunkId : Int) : TransferCmd :=
  let peerRank := peerRankForSlot G.nodeIdx G.numNodes peerSlot
  let sap := slotAtPeer G.nodeIdx peerRank G.numNodes
  { dstRank := peerRank % 2 ^ 8
    tileId := uint32 (int32 (int32 (sap * G.totalChunks) + chunkId))
    bytes := G.bytes chunkId
    localOffset := G.off chunkId
    remoteOffset := uint64 (uint64 (uint64 sap * uint32 G.singlePeerBytes) + G.remoteOff chunkId)
    srcView := if G.totalChunksK ≤ chunkId then 1 else 0
    laneId := chunkId % 2 ^ 16
    reserved0 := int32 (int32 (peerSlot * G.numDevices) + G.devIdx) % 2 ^ 8 }

/-- What `kv_copy` waits for and copies. `srcOffset` counts from `recv_buf_base`, and
    `dstOffset` from `K0_local` or `V0_local`. -/
structure KvCopy where
  flagIdx : Int
  srcOffset : Int
  dstOffset : Int
  bytes : Int

/-- `kv_copy_sm`, for a chunk of a peer slot. The pointers are to `bf16`, of two bytes. -/
def copyChunk (G : Globals) (peerSlot chunkId : Int) : KvCopy :=
  let kSrcBase := 2 * (int32 (peerSlot * G.singlePeerBytes)).tdiv 2
  let vSrcBase := kSrcBase + 2 * G.kBytes.tdiv 2
  { flagIdx := int32 (int32 (peerSlot * G.totalChunks) + chunkId)
    srcOffset := uint64 ((if G.totalChunksK ≤ chunkId then vSrcBase else kSrcBase) +
      2 * (G.off chunkId / 2))
    dstOffset := 2 * (G.off chunkId / 2)
    bytes := G.bytes chunkId }

/-! ## A launch -/

/-- A launch on all nodes: the elements of the keys and of the values, of two bytes each.
    The bytes of both together fit into an `int`, and so does the number of nodes. -/
structure Launch where
  kNumel : Nat
  vNumel : Nat
  numDevices : Nat
  numNodes : Nat
  fits : 2 * kNumel + 2 * vNumel < 2 ^ 31
  numNodes_lt : numNodes < 2 ^ 31

namespace Launch

variable (l : Launch)

/-- The bytes of a peer, as they are. -/
def peerBytes : Nat := 2 * l.kNumel + 2 * l.vNumel

/-- The number of chunks of a side, as the entrypoint computes it. -/
def chunksOf (numel : Nat) : Int :=
  (int32 (int32 (int32 (2 * numel) + chunkBytes) - 1)).tdiv chunkBytes

/-- What the entrypoint gives to the kernels. -/
def globals (nodeIdx devIdx : Int) : Globals where
  kBytes := int32 (2 * l.kNumel)
  vBytes := int32 (2 * l.vNumel)
  totalChunksK := chunksOf l.kNumel
  totalChunksV := chunksOf l.vNumel
  nodeIdx := nodeIdx
  devIdx := devIdx
  numDevices := l.numDevices
  numNodes := l.numNodes

/-- `total_chunks`, which all nodes count alike. -/
def totalChunks : Int := int32 (chunksOf l.kNumel + chunksOf l.vNumel)

/-- Where a chunk begins in the bytes of a peer. -/
def place (chunkId : Int) : Int :=
  if chunksOf l.kNumel ≤ chunkId then
    2 * l.kNumel + (chunkId - chunksOf l.kNumel) * chunkBytes
  else chunkId * chunkBytes

/-- Every node reads each chunk of each peer where this peer has it written. -/
def Agrees : Prop :=
  ∀ devIdx : Int, ∀ r < l.numNodes, ∀ p < l.numNodes - 1, ∀ chunkId, 0 ≤ chunkId →
    chunkId < l.totalChunks → ∀ q < l.numNodes - 1,
    peerRankForSlot (peerRankForSlot r l.numNodes p) l.numNodes q = r →
      (copyChunk (l.globals r devIdx) p chunkId).srcOffset =
        (stageAndSend (l.globals (peerRankForSlot r l.numNodes p) devIdx) q chunkId).remoteOffset

end Launch

/-! ## Chunks -/

/-- The number of chunks is right, or negative where the sum does not fit. -/
theorem chunksOf_cases {numel : Nat} (h : 2 * numel < 2 ^ 31) :
    (0 ≤ Launch.chunksOf numel ∧ (Launch.chunksOf numel - 1) * chunkBytes < 2 * numel) ∨
      (2 ^ 31 - 2 ^ 18 < 2 * numel ∧ -2 ^ 14 ≤ Launch.chunksOf numel ∧
        Launch.chunksOf numel < -1) := by
  unfold Launch.chunksOf chunkBytes
  rw [int32_eq (x := 2 * numel) (by omega) (by omega), int32_sub]
  by_cases hfit : 2 * numel + 2 ^ 18 ≤ 2 ^ 31
  · left
    rw [int32_eq (by omega) (by omega), Int.tdiv_eq_ediv_of_nonneg (by omega)]
    omega
  · right
    rw [int32_wrap (-1) (by omega) (by omega)]
    -- What has wrapped is negative, and `tdiv` rounds it up.
    have hneg (x : Int) : x.tdiv (256 * 1024 : Nat) = -(-x).tdiv (256 * 1024 : Nat) := by
      rw [Int.neg_tdiv, neg_neg]
    rw [hneg, Int.tdiv_eq_ediv_of_nonneg (by omega)]
    omega

/-- Where there is a chunk at all, the entrypoint has counted right. -/
theorem chunks_of_lt {l : Launch} {chunkId : Int} (h0 : 0 ≤ chunkId)
    (hlt : chunkId < l.totalChunks) :
    0 ≤ Launch.chunksOf l.kNumel ∧ (Launch.chunksOf l.kNumel - 1) * chunkBytes < 2 * l.kNumel ∧
      chunkId < Launch.chunksOf l.kNumel + Launch.chunksOf l.vNumel ∧
      (Launch.chunksOf l.vNumel - 1) * chunkBytes < 2 * l.vNumel := by
  have hfits := l.fits
  have hfitk : 2 * l.kNumel < 2 ^ 31 := by omega
  have hfitv : 2 * l.vNumel < 2 ^ 31 := by omega
  have hk := chunksOf_cases hfitk
  have hv := chunksOf_cases hfitv
  unfold Launch.totalChunks at hlt
  unfold chunkBytes at hk hv ⊢
  rw [int32_eq (by omega) (by omega)] at hlt
  omega

section Chunks

variable {l : Launch} {chunkId : Int} (nodeIdx devIdx : Int)

theorem totalChunksK_eq :
    (l.globals nodeIdx devIdx).totalChunksK = Launch.chunksOf l.kNumel := by
  rw [Launch.globals]

theorem kBytes_eq : (l.globals nodeIdx devIdx).kBytes = 2 * l.kNumel := by
  have hfits := l.fits
  rw [Launch.globals, int32_eq (x := 2 * l.kNumel) (by omega) (by omega)]

theorem vBytes_eq : (l.globals nodeIdx devIdx).vBytes = 2 * l.vNumel := by
  have hfits := l.fits
  rw [Launch.globals, int32_eq (x := 2 * l.vNumel) (by omega) (by omega)]

theorem singlePeerBytes_eq : (l.globals nodeIdx devIdx).singlePeerBytes = l.peerBytes := by
  have hfits := l.fits
  unfold Globals.singlePeerBytes Launch.peerBytes
  rw [kBytes_eq, vBytes_eq, int32_eq (by omega) (by omega)]
  omega

/-- A chunk begins where it is to begin in the buffer of its side, without a wrap. -/
theorem off_eq (h0 : 0 ≤ chunkId) (hlt : chunkId < l.totalChunks) :
    (l.globals nodeIdx devIdx).off chunkId =
      if Launch.chunksOf l.kNumel ≤ chunkId then (chunkId - Launch.chunksOf l.kNumel) * chunkBytes
      else chunkId * chunkBytes := by
  have hfits := l.fits
  have hchunks := chunks_of_lt h0 hlt
  unfold Globals.off
  rw [totalChunksK_eq]
  unfold chunkBytes at hchunks ⊢
  split
  · rw [int32_eq (x := chunkId - _) (by omega) (by omega), int32_eq (by omega) (by omega),
      uint32_eq (by omega) (by omega)]
  · rw [int32_eq (by omega) (by omega), uint32_eq (by omega) (by omega)]

/-- Within the bytes of a peer the sender and the receiver are at the same place. -/
theorem remoteOff_eq (h0 : 0 ≤ chunkId) (hlt : chunkId < l.totalChunks) :
    (l.globals nodeIdx devIdx).remoteOff chunkId = l.place chunkId := by
  have hfits := l.fits
  have hchunks := chunks_of_lt h0 hlt
  have hoff := off_eq nodeIdx devIdx h0 hlt
  unfold Globals.remoteOff Launch.place
  rw [hoff, kBytes_eq, totalChunksK_eq]
  unfold chunkBytes at hchunks ⊢
  by_cases hv : Launch.chunksOf l.kNumel ≤ chunkId
  · rw [if_pos hv, if_pos hv, if_pos hv, uint32_eq (x := 2 * l.kNumel) (by omega) (by omega),
      uint32_eq (by omega) (by omega)]
  · rw [if_neg hv, if_neg hv, if_neg hv]

theorem place_mem (h0 : 0 ≤ chunkId) (hlt : chunkId < l.totalChunks) :
    0 ≤ l.place chunkId ∧ l.place chunkId < l.peerBytes := by
  have hchunks := chunks_of_lt h0 hlt
  unfold Launch.place Launch.peerBytes
  unfold chunkBytes at hchunks ⊢
  split <;> omega

/-- The receiver adds the place to where it takes the bytes of the peer to begin. -/
theorem srcOffset_eq (p : Int) (h0 : 0 ≤ chunkId) (hlt : chunkId < l.totalChunks) :
    (copyChunk (l.globals nodeIdx devIdx) p chunkId).srcOffset =
      uint64 (int32 (p * l.peerBytes) + l.place chunkId) := by
  have hoff := off_eq nodeIdx devIdx h0 hlt
  -- The bytes are twice the elements, so half the wrapped product is a whole number.
  obtain ⟨k, hk, -⟩ := int32_two_mul (p * (l.kNumel + l.vNumel))
  have hbytes : p * l.peerBytes = 2 * (p * (l.kNumel + l.vNumel)) := by
    unfold Launch.peerBytes
    push_cast
    ring
  unfold copyChunk Launch.place
  simp only [totalChunksK_eq]
  rw [hoff, kBytes_eq, singlePeerBytes_eq, hbytes, hk, Int.mul_tdiv_cancel_left _ two_ne_zero,
    Int.mul_tdiv_cancel_left _ two_ne_zero]
  unfold chunkBytes
  -- V's chunks start behind K's bytes
  by_cases hv : Launch.chunksOf l.kNumel ≤ chunkId
  · rw [if_pos hv, if_pos hv, if_pos hv]
    congr 1
    omega
  · rw [if_neg hv, if_neg hv, if_neg hv]
    congr 1
    omega

end Chunks

/-! ## Addresses -/

section Agreement

variable {l : Launch} {r p q : Nat} {chunkId : Int} (devIdx : Int)

/-- What the bytes of the peers before a slot come to. -/
theorem slot_mul_lt (hp : p < l.numNodes - 1) : p * l.peerBytes < 2 ^ 62 := by
  have hfits := l.fits
  have hnodes := l.numNodes_lt
  calc p * l.peerBytes ≤ 2 ^ 31 * l.peerBytes := Nat.mul_le_mul_right _ (by omega)
    _ < 2 ^ 31 * 2 ^ 31 := Nat.mul_lt_mul_of_pos_left hfits (by decide)
    _ = 2 ^ 62 := by norm_num

/-- What the sender computes is exact, for the slot that the receiver has it in. -/
theorem remoteOffset_eq (hr : r < l.numNodes) (hp : p < l.numNodes - 1)
    (hq : peerRankForSlot (peerRankForSlot r l.numNodes p) l.numNodes q = r) (h0 : 0 ≤ chunkId)
    (hlt : chunkId < l.totalChunks) :
    (stageAndSend (l.globals (peerRankForSlot r l.numNodes p) devIdx) q chunkId).remoteOffset =
      p * l.peerBytes + l.place chunkId := by
  have hfits := l.fits
  have hnodes := l.numNodes_lt
  have hplace := place_mem h0 hlt
  have hmul := slot_mul_lt hp
  have hpeer : (l.peerBytes : Int) < 2 ^ 31 := by
    unfold Launch.peerBytes
    omega
  -- The receiver's slot at the sender is the sender's slot at the receiver.
  have hsap : slotAtPeer (peerRankForSlot r l.numNodes p) r l.numNodes = p := by
    simp only [slotAtPeer, peerRankForSlot]
    split <;> split <;> omega
  have hcast : (p : Int) * l.peerBytes = (p * l.peerBytes : Nat) := (Int.natCast_mul _ _).symm
  unfold stageAndSend
  rw [remoteOff_eq _ _ h0 hlt, singlePeerBytes_eq]
  simp only [Launch.globals]
  rw [hq, hsap, uint64_eq (x := p) (by omega) (by omega), uint32_eq (by omega) (by omega), hcast,
    uint64_eq (x := (p * l.peerBytes : Nat)) (by omega) (by omega), uint64_eq (by omega) (by omega)]

/-- The receiver reads there as long as its product fits into an `int`. -/
theorem srcOffset_eq_iff (nodeIdx : Int) (hp : p < l.numNodes - 1) (h0 : 0 ≤ chunkId)
    (hlt : chunkId < l.totalChunks) :
    (copyChunk (l.globals nodeIdx devIdx) p chunkId).srcOffset = p * l.peerBytes + l.place chunkId ↔
      p * l.peerBytes < 2 ^ 31 := by
  have hfits := l.fits
  have hplace := place_mem h0 hlt
  have hmul := slot_mul_lt hp
  have hpeer : (l.peerBytes : Int) < 2 ^ 31 := by
    unfold Launch.peerBytes
    omega
  have hcast : (p : Int) * l.peerBytes = (p * l.peerBytes : Nat) := (Int.natCast_mul _ _).symm
  rw [srcOffset_eq nodeIdx devIdx p h0 hlt, hcast]
  exact uint64_int32_iff hmul hplace.1 (by omega)

end Agreement

/-- All chunks are read where they are written if and only if there is no chunk, or the bytes
    of all peers but the last fit into an `int`. -/
theorem agrees_iff (l : Launch) :
    l.Agrees ↔ l.totalChunks ≤ 0 ∨ (l.numNodes - 2) * l.peerBytes < 2 ^ 31 := by
  constructor
  · intro h
    by_contra hnot
    push Not at hnot
    obtain ⟨hchunks, hbytes⟩ := hnot
    have hnodes : 2 < l.numNodes := by
      by_contra hle
      rw [Nat.sub_eq_zero_of_le (by omega), Nat.zero_mul] at hbytes
      omega
    -- The last peer of node 0 is the node before it, and has node 0 in its first slot.
    have hq : peerRankForSlot (peerRankForSlot (0 : Nat) l.numNodes (l.numNodes - 2 : Nat))
        l.numNodes (0 : Nat) = (0 : Nat) := by
      simp only [peerRankForSlot]
      split <;> split <;> omega
    have heq := h 0 0 (by omega) (l.numNodes - 2) (by omega) 0 le_rfl hchunks 0 (by omega) hq
    rw [remoteOffset_eq 0 (by omega) (by omega) hq le_rfl hchunks,
      srcOffset_eq_iff 0 _ (by omega) le_rfl hchunks] at heq
    omega
  · intro h devIdx r hr p hp chunkId h0 hlt q hlq hq
    rw [remoteOffset_eq devIdx hr hp hq h0 hlt, srcOffset_eq_iff devIdx _ hp h0 hlt]
    rcases h with hnone | hfit
    · omega
    · have hle : p * l.peerBytes ≤ (l.numNodes - 2) * l.peerBytes :=
        Nat.mul_le_mul_right _ (by omega)
      omega

/-- Four nodes, with half a gigabyte of keys and as much of values on each GPU. -/
def four : Launch := ⟨2 ^ 28, 2 ^ 28, 8, 4, by decide, by decide⟩

/-- Node 3 has its shard written two gigabytes behind the receive buffer of node 0, which
    looks for it two gigabytes before the buffer. -/
theorem not_agrees_four : ¬ four.Agrees ∧
    (stageAndSend (four.globals 3 0) 0 0).remoteOffset = 2 ^ 31 ∧
    (copyChunk (four.globals 0 0) 2 0).srcOffset = 2 ^ 64 - 2 ^ 31 := by
  refine ⟨?_, by decide, by decide⟩
  rintro h
  have heq := h 0 0 (by decide) 2 (by decide) 0 (by decide) (by decide) 0 (by decide) (by decide)
  revert heq
  decide

end Addresses

end RingAttention

end MKernel
