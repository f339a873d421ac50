import MKernel.Core.Spread
import MKernel.Internode.Peers

/-!
# The Ring of Nodes

Who sends what to whom in the all-gather of `ag_gemm`, and where it arrives.

Every node sends its shard to the next node, and forwards each shard it gets, up to
the last hop. A shard that arrives in step `s` comes from the node `s + 1` before, and
is put into bank `s` of the receive buffer, at the slot which that node has here. The
receiver computes this slot from the step (`awaitSlot`), and the sender from the shard
it forwards and the bank (`phase0Slot`, `forwardSlot`). These agree (`hopSlot_eq`), and no
two shards or hops share a slot (`hopSlot_inj`).

A shard is sent in row blocks. How many chunks one has is rounded down, and computed as
an `int`, so the commands are for the whole of the shard only if a row block is a multiple
of a chunk that fits one (`blockBytes_mul`, `rbBytes_eq`).

## Main definitions

* `Setup`: The launch.
* `ringOriginForStep`: The node whose shard arrives in a step.
* `awaitSlot`: The slot a node waits for.
* `phase0Slot`, `forwardSlot`: The slots it sends to.
* `Write`, `phase0Write`, `forwardWrite`: The commands.
* `hopSlot`, `hopOrigin`, `hopWrite`: The same for each hop.

## Theorems

* `hopSlot_eq`: The slot of a hop is the one that is waited for.
* `hopSlot_inj`: No two hops share a slot.
* `hopWrite_awaited`: The command of a hop is the one that is waited for.
* `blockBytes_mul`, `rbBytes_eq`: Where row blocks are whole chunks.
-/

namespace MKernel

namespace AgGemm

open MKernel.Core
open MKernel.Internode (peerRankForSlot slotAtPeer)

/-- `CHUNK_BYTES`. -/
def chunkBytes : Nat := 64 * 1024

/-- `ROW_BLOCK`: the rows of a command. -/
def rowBlock : Nat := 128

/-- `RED_BLOCK`. -/
def redBlock : Nat := 64

theorem redBlock_dvd : redBlock ∣ 256 := by decide

/-- `sizeof(bf16)`. -/
def elemBytes : Nat := 2

/-- `DYNAMIC_SHARED_MEMORY`. -/
def dynamicSharedMemory : Nat := 227 * 1024 - 1024

/-- `sizeof(A_comm_tile)`. -/
def commTileBytes : Nat := rowBlock * 2 * (redBlock * 2) * elemBytes

/-- `NUM_COMM_CHUNKS`: the warps of a comm CTA that move tiles. -/
def numCommChunks : Nat := dynamicSharedMemory / commTileBytes

/-- A launch. `numIntraComm` is what the host has chosen, and not zero. The rows of a node
    are whole blocks of 256 for each GPU, and the columns whole blocks of `RED_BLOCK`. -/
structure Setup where
  numNodes : Nat
  numDevices : Nat
  /-- The row blocks of 256 rows that a GPU has of the shard of its node. -/
  localRowBlocks : Nat
  /-- `K`. -/
  cols : Nat
  numIntraComm : Nat
  numNodes_ge : 2 ≤ numNodes
  numDevices_pos : 0 < numDevices
  localRowBlocks_pos : 0 < localRowBlocks
  cols_dvd : redBlock ∣ cols
  numIntraComm_pos : 0 < numIntraComm

namespace Setup

variable (setup : Setup)

/-- `n_peers`, and the number of steps and of banks. -/
def numPeers : Nat := setup.numNodes - 1

/-- `global_row_blocks`, and `rows_per_peer_slot`. -/
def globalRowBlocks : Nat := setup.localRowBlocks * setup.numDevices

/-- `M_node`. -/
def mNode : Nat := setup.globalRowBlocks * (rowBlock * 2)

/-- `col_blocks`. -/
def colBlocks : Nat := setup.cols / (redBlock * 2)

/-- `num_local_blocks`. -/
def numLocalBlocks : Nat := setup.localRowBlocks * setup.colBlocks

/-- `a_half_bytes`, as the caller computes it: the bytes of a shard. -/
def aHalfBytes : Nat := setup.mNode * setup.cols * elemBytes

/-- `total_chunks`. -/
def totalChunks : Nat := rounds setup.aHalfBytes chunkBytes

/-- The bytes of a row block, as an `int`. -/
def rowBlockBytes : Int := Int.bmod (rowBlock * setup.cols * elemBytes) (2 ^ 32)

/-- `chunks_per_rb`. -/
def chunksPerRb : Nat := (max 1 (setup.rowBlockBytes.tdiv chunkBytes)).toNat

theorem numPeers_pos : 0 < setup.numPeers := Nat.sub_pos_of_lt setup.numNodes_ge

end Setup

/-! ## Slots -/

/-- The loop of `ag_gemm_ring_origin_for_step`, for as many rounds as it can have. -/
def raise (numNodes : Int) : Nat → Int → Int
  | 0, origin => origin
  | n + 1, origin => if origin < 0 then raise numNodes n (origin + numNodes) else origin

/-- `ag_gemm_ring_origin_for_step`. -/
def ringOriginForStep (nodeIdx numNodes : Int) (step : Nat) : Int :=
  raise numNodes (step + 1) (nodeIdx - 1 - step)

namespace Setup

variable (setup : Setup)

/-- `origin_rank`: the node whose shard arrives in a step. -/
def origin (node step : Nat) : Nat := (ringOriginForStep node setup.numNodes step).toNat

/-- The peer slot of a node at another. -/
def slot (rank node : Nat) : Nat := (slotAtPeer rank node setup.numNodes).toNat

/-- `next_rank`, which is also the peer of the first sends. -/
def nextRank (node : Nat) : Nat := (peerRankForSlot node setup.numNodes 0).toNat

/-- `virt_arrival_slot`. -/
def awaitSlot (node step : Nat) : Nat :=
  setup.slot (setup.origin node step) node + setup.numPeers * step

/-- `sap` of `post_merge_wrs_for_intra_row`. -/
def phase0Slot (node : Nat) : Nat := setup.slot node (setup.nextRank node)

/-- `dst_virtual` of `post_ring_forward_wrs_for_intra_row`, for what arrived in a step: the
    bank is that of the next step. -/
def forwardSlot (node step : Nat) : Nat :=
  setup.slot (setup.origin node step) (setup.nextRank node) + setup.numPeers * (step + 1)

/-- The slot a node sends to for a hop. -/
def hopSlot (node : Nat) : Nat → Nat
  | 0 => setup.phase0Slot node
  | step + 1 => setup.forwardSlot node step

/-- The node whose shard it sends. -/
def hopOrigin (node : Nat) : Nat → Nat
  | 0 => node
  | step + 1 => setup.origin node step

end Setup

section Slots

variable {setup : Setup} {n p s : Nat}

theorem raise_of_nonneg {N o : Int} {k : Nat} (h : 0 ≤ o) : raise N k o = o := by
  cases k with
  | zero => rfl
  | succ k => rw [raise, if_neg (by omega)]

theorem origin_val (hn : n < setup.numNodes) (hs : s < setup.numPeers) :
    setup.origin n s = if s < n then n - 1 - s else n + setup.numNodes - 1 - s := by
  unfold Setup.numPeers at hs
  unfold Setup.origin ringOriginForStep
  by_cases hlt : s < n
  · rw [raise_of_nonneg (by omega), if_pos hlt]
    omega
  · -- One round of the loop is enough.
    rw [raise, if_pos (by omega), raise_of_nonneg (by omega), if_neg hlt]
    omega

theorem slot_val {o : Nat} (hn : n < setup.numNodes) :
    setup.slot o n = if n < o then o - n - 1 else o + setup.numNodes - n - 1 := by
  unfold Setup.slot slotAtPeer
  simp only
  split <;> split <;> omega

theorem nextRank_val (hn : n < setup.numNodes) :
    setup.nextRank n = if n + 1 < setup.numNodes then n + 1 else 0 := by
  unfold Setup.nextRank peerRankForSlot
  simp only
  split <;> split <;> omega

theorem nextRank_lt (hn : n < setup.numNodes) : setup.nextRank n < setup.numNodes := by
  rw [nextRank_val hn]
  split <;> omega

/-- Every node is the next of one. -/
theorem exists_nextRank (hn : n < setup.numNodes) :
    ∃ p < setup.numNodes, setup.nextRank p = n := by
  have hge := setup.numNodes_ge
  by_cases h0 : n = 0
  · refine ⟨setup.numNodes - 1, by omega, ?_⟩
    rw [nextRank_val (by omega), if_neg (by omega), h0]
  · refine ⟨n - 1, by omega, ?_⟩
    rw [nextRank_val (by omega), if_pos (by omega)]
    omega

theorem nextRank_inj {p' : Nat} (hp : p < setup.numNodes) (hp' : p' < setup.numNodes)
    (h : setup.nextRank p = setup.nextRank p') : p = p' := by
  rw [nextRank_val hp, nextRank_val hp'] at h
  split at h <;> split at h <;> omega

theorem origin_lt (hn : n < setup.numNodes) (hs : s < setup.numPeers) :
    setup.origin n s < setup.numNodes := by
  rw [origin_val hn hs]
  unfold Setup.numPeers at hs
  split <;> omega

theorem origin_ne (hn : n < setup.numNodes) (hs : s < setup.numPeers) : setup.origin n s ≠ n := by
  rw [origin_val hn hs]
  unfold Setup.numPeers at hs
  split <;> omega

/-- Every other node is the origin of one of the steps. -/
theorem exists_step {o : Nat} (ho : o < setup.numNodes) (hn : n < setup.numNodes) (hne : o ≠ n) :
    ∃ s < setup.numPeers, setup.origin n s = o := by
  refine ⟨if o < n then n - 1 - o else n + setup.numNodes - 1 - o, ?_, ?_⟩
  · unfold Setup.numPeers
    split <;> omega
  · rw [origin_val hn (by unfold Setup.numPeers; split <;> omega)]
    split <;> split <;> omega

/-- What arrives in a step is of the slot counted from the last. -/
theorem slot_origin (hn : n < setup.numNodes) (hs : s < setup.numPeers) :
    setup.slot (setup.origin n s) n = setup.numPeers - 1 - s := by
  rw [slot_val hn, origin_val hn hs]
  unfold Setup.numPeers at hs ⊢
  split <;> split <;> omega

/-- What a node has in a step, the next has in the step after. -/
theorem origin_nextRank (hn : n < setup.numNodes) (hs : s + 1 < setup.numPeers) :
    setup.origin (setup.nextRank n) (s + 1) = setup.origin n s := by
  rw [origin_val (nextRank_lt hn) hs, origin_val hn (Nat.lt_of_succ_lt hs), nextRank_val hn]
  unfold Setup.numPeers at hs
  split <;> split <;> split <;> omega

/-- The shard of a node arrives at the next in the first step. -/
theorem origin_nextRank_zero (hn : n < setup.numNodes) :
    setup.origin (setup.nextRank n) 0 = n := by
  have hge := setup.numNodes_ge
  rw [origin_val (nextRank_lt hn) setup.numPeers_pos, nextRank_val hn]
  split <;> split <;> omega

theorem hopOrigin_eq (hn : n < setup.numNodes) (hs : s < setup.numPeers) :
    setup.hopOrigin n s = setup.origin (setup.nextRank n) s := by
  cases s with
  | zero => exact (origin_nextRank_zero hn).symm
  | succ s => exact (origin_nextRank hn hs).symm

/-- The slot of a hop is the one that is waited for. -/
theorem hopSlot_eq (hn : n < setup.numNodes) (hs : s < setup.numPeers) :
    setup.hopSlot n s = setup.awaitSlot (setup.nextRank n) s := by
  cases s with
  | zero =>
      rw [Setup.hopSlot, Setup.phase0Slot, Setup.awaitSlot, origin_nextRank_zero hn, Nat.mul_zero,
        Nat.add_zero]
  | succ s => rw [Setup.hopSlot, Setup.forwardSlot, Setup.awaitSlot, origin_nextRank hn hs]

/-- Each step has a slot of its own, in its bank. -/
theorem awaitSlot_div (hn : n < setup.numNodes) (hs : s < setup.numPeers) :
    setup.awaitSlot n s / setup.numPeers = s := by
  rw [Setup.awaitSlot, slot_origin hn hs, Nat.add_mul_div_left _ _ setup.numPeers_pos,
    Nat.div_eq_of_lt (by omega), Nat.zero_add]

theorem awaitSlot_mod (hn : n < setup.numNodes) (hs : s < setup.numPeers) :
    setup.awaitSlot n s % setup.numPeers = setup.slot (setup.origin n s) n := by
  rw [Setup.awaitSlot, Nat.add_mul_mod_self_left, Nat.mod_eq_of_lt]
  rw [slot_origin hn hs]
  omega

/-- No two hops share a slot of the receiver. -/
theorem hopSlot_inj {p' s' : Nat} (hp : p < setup.numNodes) (hp' : p' < setup.numNodes)
    (hs : s < setup.numPeers) (hs' : s' < setup.numPeers)
    (hnext : setup.nextRank p = setup.nextRank p') (h : setup.hopSlot p s = setup.hopSlot p' s') :
    p = p' ∧ s = s' := by
  refine ⟨nextRank_inj hp hp' hnext, ?_⟩
  rw [hopSlot_eq hp hs, hopSlot_eq hp' hs', hnext] at h
  rw [← awaitSlot_div (nextRank_lt hp') hs, h, awaitSlot_div (nextRank_lt hp') hs']

end Slots

/-! ## Commands -/

/-- The fields of a `WRITE` that the kernels fill in, and the row block it is for. -/
structure Write where
  rb : Nat
  dstRank : Nat
  tileId : Nat
  bytes : Nat
  localOffset : Nat
  remoteOffset : Nat
  srcView : Nat
  laneId : BitVec 16
  reserved0 : Nat
deriving DecidableEq

namespace Setup

variable (setup : Setup)

/-- `first_chunk`. -/
def firstChunk (rb : Nat) : Nat := rb * setup.chunksPerRb

/-- `base_offset`. -/
def baseOffset (rb : Nat) : Nat := setup.firstChunk rb * chunkBytes

/-- `end_offset`. -/
def endOffset (rb : Nat) : Nat :=
  let lastChunk := min (setup.firstChunk rb + setup.chunksPerRb) setup.totalChunks
  let lastChunkBytes := lastChunk * chunkBytes
  if setup.aHalfBytes < lastChunkBytes then setup.aHalfBytes else lastChunkBytes

/-- `rb_bytes`, as a 32-bit number. -/
def rbBytes (rb : Nat) : Nat :=
  (((setup.endOffset rb : Int) - setup.baseOffset rb) % 2 ^ 32).toNat

/-- A command for a row block. With `WR_SPLIT_CEILING` 1 a row block is not split. -/
def rbWrite (node dev dstVirtual srcBase srcView rb : Nat) : Write where
  rb := rb
  dstRank := setup.nextRank node
  tileId := dstVirtual * setup.totalChunks + setup.firstChunk rb
  bytes := setup.rbBytes rb
  localOffset := srcBase + setup.baseOffset rb
  remoteOffset := dstVirtual * setup.aHalfBytes + setup.baseOffset rb
  srcView := srcView
  laneId := BitVec.ofNat 16 rb
  reserved0 := 0 * setup.numDevices + dev

/-- `post_merge_wrs_for_intra_row`: from `A`. -/
def phase0Write (node dev rb : Nat) : Write :=
  setup.rbWrite node dev (setup.phase0Slot node) 0 1 rb

/-- `post_ring_forward_wrs_for_intra_row`: from the slot of `A_recv` that has the shard. -/
def forwardWrite (node dev step rb : Nat) : Write :=
  setup.rbWrite node dev (setup.forwardSlot node step)
    (setup.slot (setup.origin node step) node * setup.aHalfBytes) 0 rb

/-- The command of a hop. -/
def hopWrite (node dev : Nat) : Nat → Nat → Write
  | 0, rb => setup.phase0Write node dev rb
  | step + 1, rb => setup.forwardWrite node dev step rb

/-- The tile a node waits for. -/
def awaitTile (node step rb : Nat) : Nat :=
  setup.awaitSlot node step * setup.totalChunks + setup.firstChunk rb

end Setup

section Commands

variable {setup : Setup} {n s : Nat}

/-- The command of a hop is the one that is waited for. -/
theorem hopWrite_awaited (hn : n < setup.numNodes) (hs : s < setup.numPeers) (d rb : Nat) :
    (setup.hopWrite n d s rb).dstRank = setup.nextRank n ∧
    (setup.hopWrite n d s rb).tileId = setup.awaitTile (setup.nextRank n) s rb ∧
    (setup.hopWrite n d s rb).remoteOffset =
      setup.awaitSlot (setup.nextRank n) s * setup.aHalfBytes + setup.baseOffset rb ∧
    (setup.hopWrite n d s rb).bytes = setup.rbBytes rb := by
  have hslot := hopSlot_eq hn hs
  rw [Setup.awaitTile, ← hslot]
  cases s with
  | zero => simp only [Setup.hopWrite, Setup.phase0Write, Setup.rbWrite, Setup.hopSlot, and_self]
  | succ s => simp only [Setup.hopWrite, Setup.forwardWrite, Setup.rbWrite, Setup.hopSlot, and_self]

end Commands

/-! ## Whole chunks -/

section Chunks

variable {setup : Setup}

/-- The bytes of 256 rows. -/
def Setup.rowBytes (setup : Setup) : Nat := rowBlock * 2 * (setup.cols * elemBytes)

/-- The bytes of the chunks of a row block. -/
def Setup.blockBytes (setup : Setup) : Nat := setup.chunksPerRb * chunkBytes

theorem aHalfBytes_eq (setup : Setup) :
    setup.aHalfBytes = setup.globalRowBlocks * setup.rowBytes := by
  rw [Setup.aHalfBytes, Setup.mNode, Setup.rowBytes, Nat.mul_assoc, Nat.mul_assoc]

theorem globalRowBlocks_pos (setup : Setup) : 0 < setup.globalRowBlocks :=
  Nat.mul_pos setup.localRowBlocks_pos setup.numDevices_pos

theorem chunksPerRb_pos (setup : Setup) : 0 < setup.chunksPerRb := by
  unfold Setup.chunksPerRb
  omega

/-- A row block that fits an `int` has as many chunks as go into it, never none. -/
theorem chunksPerRb_eq (h : setup.cols < 2 ^ 23) :
    setup.chunksPerRb = max 1 (setup.cols / 256) := by
  have hmul : (rowBlock * setup.cols * elemBytes : Int) = 256 * setup.cols := by
    simp only [rowBlock, elemBytes]
    omega
  have hbytes : setup.rowBlockBytes = 256 * setup.cols := by
    unfold Setup.rowBlockBytes
    rw [hmul, Int.bmod_eq_of_le (by omega) (by omega)]
  have hchunk : (chunkBytes : Int) = 65536 := rfl
  rw [Setup.chunksPerRb, hbytes, hchunk, Int.tdiv_eq_ediv_of_nonneg (by omega)]
  omega

theorem blockBytes_pos (setup : Setup) : 0 < setup.blockBytes :=
  Nat.mul_pos (chunksPerRb_pos setup) (by decide)

/-- A row block begins after the chunks of those before. -/
theorem baseOffset_eq (setup : Setup) (rb : Nat) : setup.baseOffset rb = rb * setup.blockBytes :=
  Nat.mul_assoc _ _ _

/-- The chunks of a row block fit an `int` in any case. -/
theorem blockBytes_lt (setup : Setup) : setup.blockBytes < 2 ^ 31 := by
  have hlt : setup.rowBlockBytes < 2 ^ 31 := by
    have hbmod := Int.bmod_lt (x := rowBlock * setup.cols * elemBytes) (m := 2 ^ 32) (by omega)
    unfold Setup.rowBlockBytes
    omega
  have hchunk : (chunkBytes : Int) = 65536 := rfl
  have hchunk' : chunkBytes = 65536 := rfl
  rw [Setup.blockBytes, Setup.chunksPerRb, hchunk, hchunk']
  by_cases hneg : setup.rowBlockBytes < 0
  · have hdiv := Int.tdiv_nonneg (a := -setup.rowBlockBytes) (b := 65536) (by omega) (by omega)
    rw [Int.neg_tdiv] at hdiv
    omega
  · rw [Int.tdiv_eq_ediv_of_nonneg (by omega)]
    omega

/-- Row blocks are whole chunks, at least one, and fit an `int`. -/
def Setup.Whole (setup : Setup) : Prop := 0 < setup.cols ∧ 256 ∣ setup.cols ∧ setup.cols < 2 ^ 23

theorem rowBytes_pos (h : setup.Whole) : 0 < setup.rowBytes :=
  Nat.mul_pos (by decide) (Nat.mul_pos h.1 (by decide))

instance : Decidable setup.Whole := inferInstanceAs (Decidable (_ ∧ _))

/-- Two row blocks are a row. -/
theorem blockBytes_mul (h : setup.Whole) : setup.blockBytes * 2 = setup.rowBytes := by
  rcases h with ⟨hpos, ⟨q, hq⟩, hlt⟩
  rw [Setup.blockBytes, chunksPerRb_eq hlt]
  simp only [Setup.rowBytes, chunkBytes, rowBlock, elemBytes, hq]
  omega

theorem aHalfBytes_eq_blocks (h : setup.Whole) :
    setup.aHalfBytes = 2 * setup.globalRowBlocks * setup.blockBytes := by
  rw [aHalfBytes_eq, ← blockBytes_mul h]
  ring

theorem totalChunks_eq (h : setup.Whole) :
    setup.totalChunks = 2 * setup.globalRowBlocks * setup.chunksPerRb := by
  have hchunk : chunkBytes = 65536 := rfl
  rw [Setup.totalChunks, aHalfBytes_eq_blocks h, Setup.blockBytes, ← Nat.mul_assoc, rounds, hchunk]
  omega

/-- A row block ends with its chunks, or with the shard. -/
theorem endOffset_le (setup : Setup) (rb : Nat) :
    setup.endOffset rb ≤ (rb + 1) * setup.blockBytes ∧ setup.endOffset rb ≤ setup.aHalfBytes := by
  have hmin : min (setup.firstChunk rb + setup.chunksPerRb) setup.totalChunks * chunkBytes ≤
      (rb + 1) * setup.blockBytes := by
    rw [Setup.blockBytes, ← Nat.mul_assoc, Nat.succ_mul]
    exact Nat.mul_le_mul_right _ (Nat.min_le_left _ _)
  simp only [Setup.endOffset]
  split <;> omega

/-- The last chunk of a row block is one of the shard. -/
theorem endOffset_eq (h : setup.Whole) {rb : Nat} (hrb : rb < 2 * setup.globalRowBlocks) :
    setup.endOffset rb = (rb + 1) * setup.blockBytes := by
  have hlast : (rb + 1) * setup.chunksPerRb ≤ setup.totalChunks := by
    rw [totalChunks_eq h]
    exact Nat.mul_le_mul_right _ hrb
  have hle : ¬ setup.aHalfBytes < (rb + 1) * setup.blockBytes := by
    rw [aHalfBytes_eq_blocks h]
    exact Nat.not_lt.mpr (Nat.mul_le_mul_right _ hrb)
  rw [Setup.endOffset, Setup.firstChunk, ← Nat.succ_mul, Nat.min_eq_left hlast, Nat.mul_assoc]
  exact if_neg hle

/-- A command is for all of its row block. -/
theorem rbBytes_eq (h : setup.Whole) {rb : Nat} (hrb : rb < 2 * setup.globalRowBlocks) :
    setup.rbBytes rb = setup.blockBytes := by
  have hlt := blockBytes_lt setup
  rw [Setup.rbBytes, endOffset_eq h hrb, baseOffset_eq, Nat.succ_mul, Nat.cast_add,
    add_sub_cancel_left, Int.emod_eq_of_lt (by omega) (by omega), Int.toNat_natCast]

theorem firstChunk_lt (h : setup.Whole) {rb : Nat} (hrb : rb < 2 * setup.globalRowBlocks) :
    setup.firstChunk rb < setup.totalChunks := by
  rw [totalChunks_eq h, Setup.firstChunk]
  exact Nat.mul_lt_mul_of_pos_right hrb (chunksPerRb_pos setup)

end Chunks

end AgGemm

end MKernel
