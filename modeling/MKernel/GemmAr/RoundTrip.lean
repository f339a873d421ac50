import MKernel.GemmAr.Capacity
import MKernel.Internode.Arrivals
import MKernel.Internode.Efa.Notification

/-!
# The Way of a Chunk's Notification

From the chunk that a sending CTA of `gemm_ar` decodes, over the tile id of its
command and the arrival word that the proxy packs, to the bit that the drainer
of the receiver records.

The sender numbers the tiles of its slice row by row, and sets its own slot at
the receiver above that number. The proxy puts tile and count into one word. The
drainer divides the tile by the size of a slice and again by the length of a
row, and finds the chunk from the column. The divisions undo what was added as
long as a tile lies in its slice, and the word has room for the tile as long as
the slices of all peers do. A chunk of the default size has four tiles at most,
so the count fits as well, and the run is one chunk of one row, the last one of
a row included.

## Main definitions

* `Launch.drainage`: What the drainers of a receiver read of the launch.
* `Launch.packedWord`: The arrival word of a command.

## Theorems

* `chunkCmd_flatChunk`: The tile and the bytes of a chunk's command.
* `ofWord_packed`: The run that a word made of a tile and a count tells of.
* `notification_round_trip`: The receiver records the sender's bit for the chunk.
-/

namespace MKernel

namespace GemmAr

open MKernel.Core MKernel.Internode MKernel.Internode.Cx7 MKernel.Internode.Arrivals

namespace Launch

variable (l : Launch)

theorem numPeers_le : l.numPeers ≤ 31 := by
  have hle := l.numNodes_le
  simp only [numPeers, kMaxPeers] at hle ⊢
  omega

/-- What the drainers of a receiver read of the launch. -/
def drainage : Drainage :=
  gemmArDrainage l.numPeers l.shape.rowBlocksPerSlice l.shape.colBlocks l.shape.chunkTiles
    l.shape.chunksPerRow l.numPeers_le

/-- The word a proxy announces a command with. -/
def packedWord (cmd : TransferCmd) : BitVec 32 := packArrivalWork cmd.tileId (runTiles cmd.bytes)

end Launch

variable {l : Launch}

/-- Sending adds a lane and a channel to a command. -/
theorem packedWord_gemmArSend (g : Sender) (numRemoteQueues arrivalIdx peerSlot : Nat)
    (rest : TransferCmd) :
    Launch.packedWord (gemmArSend g numRemoteQueues arrivalIdx peerSlot rest).cmd =
      Launch.packedWord rest := by
  simp only [gemmArSend, gemmArPostSendCmd]
  split <;> rfl

/-- In a slice with chunks, a tile has a number below that of the tiles. -/
theorem firstTile_lt {row col : Nat} (hrow : row < l.shape.rowBlocksPerSlice)
    (hcol : col < l.shape.chunksPerRow) :
    row * l.shape.colBlocks + col * l.shape.chunkTiles < l.shape.totalTilesPerDevice :=
  place_lt hrow (chunkCol_start_lt hcol)

/-- A chunk of the default size has four tiles at most. -/
theorem tilesThisChunk_le_four (h : l.shape.chunkTilesOverride = 0) (col : Nat) :
    l.shape.tilesThisChunk col ≤ 4 := by
  rw [Shape.tilesThisChunk, Shape.chunkTiles, h]
  simp only [Nat.lt_irrefl, if_false]
  omega

/-- The tile and the bytes in the command of a chunk. -/
theorem chunkCmd_flatChunk (hdefault : l.shape.chunkTilesOverride = 0)
    (hfit : l.numPeers * l.shape.totalTilesPerDevice < 2 ^ 24 - 1) {x p row col : Nat}
    (hp : p < l.numPeers) (hrow : row < l.shape.rowBlocksPerSlice)
    (hcol : col < l.shape.chunksPerRow) :
    (l.chunkCmd x (l.shape.flatChunk row col) p).tileId.toNat =
        (l.numPeers - 1 - p) * l.shape.totalTilesPerDevice +
          (row * l.shape.colBlocks + col * l.shape.chunkTiles) ∧
      (l.chunkCmd x (l.shape.flatChunk row col) p).bytes.toNat =
        l.shape.tilesThisChunk col * 2 ^ 16 := by
  -- The peer takes the slot of the sender.
  have hsap : (l.sender x).slotAtPeer p = (l.numPeers - 1 - p : Nat) := by
    rw [Sender.slotAtPeer]
    simp only [Launch.numPeers] at hp ⊢
    exact (slotAtPeer_peerRankForSlot _ _ _ (by omega) (by simp only [Launch.sender]; omega)).trans
      (by simp only [Launch.sender]; omega)
  -- The tile fits into the 24 bits that it has in the word.
  have hplace : (l.numPeers - 1 - p) * l.shape.totalTilesPerDevice +
      (row * l.shape.colBlocks + col * l.shape.chunkTiles) < 2 ^ 24 :=
    Nat.lt_trans (place_lt (P := l.numPeers) (by omega) (firstTile_lt hrow hcol)) (by omega)
  have hfour := tilesThisChunk_le_four hdefault col
  simp only [Launch.chunkCmd, chunkDecode_flatChunk (rowsAgree_of_default hdefault) l.devIdx hrow
    hcol, hsap, Launch.tileBytes]
  constructor
  · -- No product leaves the range of `int`.
    have hcast : (((l.numPeers - 1 - p : Nat) : Int) *
        (l.shape.rowBlocksPerSlice * l.shape.colBlocks : Nat) +
        (row * l.shape.colBlocks + col * l.shape.chunkTiles : Nat)) =
        (((l.numPeers - 1 - p) * l.shape.totalTilesPerDevice +
          (row * l.shape.colBlocks + col * l.shape.chunkTiles) : Nat) : Int) := by
      rw [Shape.totalTilesPerDevice]
      push_cast
      rfl
    rw [hcast, BitVec.ofInt_natCast, BitVec.toNat_ofNat]
    exact Nat.mod_eq_of_lt (Nat.lt_trans hplace (by decide))
  · have hcast : ((l.shape.tilesThisChunk col : Nat) : Int) * (128 * 256 * 2 : Nat) =
        ((l.shape.tilesThisChunk col * 2 ^ 16 : Nat) : Int) := by
      push_cast
      rfl
    rw [hcast, BitVec.ofInt_natCast, BitVec.toNat_ofNat]
    exact Nat.mod_eq_of_lt (by omega)

/-- The run that a word made of a tile and a count tells of, if the tile is one of
    a slice and the run does not leave its row. -/
theorem ofWord_packed {flagVal : BitVec 32} {slot row colStart tiles : Nat}
    (hfirst : flagVal.toNat % 2 ^ 24 - 1 = slot * l.shape.totalTilesPerDevice +
      (row * l.shape.colBlocks + colStart))
    (hcount : flagVal.toNat / 2 ^ 24 + 1 = tiles) (hrow : row < l.shape.rowBlocksPerSlice)
    (hcol : colStart < l.shape.colBlocks) (htiles : colStart + tiles ≤ l.shape.colBlocks) :
    Cursor.ofWord l.drainage flagVal = ⟨slot, row, colStart, tiles⟩ := by
  have hin : row * l.shape.colBlocks + colStart < l.shape.totalTilesPerDevice :=
    place_lt hrow hcol
  have hslot : (slot * l.shape.totalTilesPerDevice + (row * l.shape.colBlocks + colStart)) /
      (l.shape.rowBlocksPerSlice * l.shape.colBlocks) = slot := place_div hin
  have hback : slot * l.shape.totalTilesPerDevice + (row * l.shape.colBlocks + colStart) -
      slot * (l.shape.rowBlocksPerSlice * l.shape.colBlocks) =
        row * l.shape.colBlocks + colStart := Nat.add_sub_cancel_left ..
  simp only [Cursor.ofWord, Efa.firstTile_eq, Efa.numTiles_eq, hfirst, hcount, Int.toNat_natCast,
    Launch.drainage, gemmArDrainage, hslot, hback, place_div hcol, Nat.add_sub_cancel_left]
  -- The row has room for the whole run.
  rw [Nat.min_eq_left (by omega)]

/-- A sender has a slot for every other node. -/
theorem exists_slot {n x y : Nat} (hx : x < n) (hy : y < n) (hne : x ≠ y) :
    ∃ p < n - 1, peerRankForSlot x n p = y := by
  refine ⟨if x < y then y - x - 1 else y + n - x - 1, ?_, ?_⟩
  · split <;> omega
  · simp only [peerRankForSlot]
    split <;> split <;> omega

/-- The slot of a node at its peer is the slot of the peer, from the other end. -/
theorem slotAtPeer_toNat {n x y p : Nat} (hp : p < n - 1) (h : peerRankForSlot x n p = y) :
    (slotAtPeer x y n).toNat = n - 1 - 1 - p := by
  rw [← h, slotAtPeer_peerRankForSlot _ _ _ (by omega) (by omega)]
  omega

/-- The bit a word of a chunk makes a drainer record, and where. -/
theorem drainWord_chunk (hdefault : l.shape.chunkTilesOverride = 0)
    (hfit : l.numPeers * l.shape.totalTilesPerDevice < 2 ^ 24 - 1) {x p c : Nat}
    (hp : p < l.numPeers) (hc : c < l.shape.totalChunks) (m : Memory) :
    drainWord l.drainage m (Launch.packedWord (l.chunkCmd x c p)) =
      (m.arrive l.drainage c (1#32 <<< (l.numPeers - 1 - p)), .idle) := by
  rcases exists_flatChunk hc with ⟨row, hrow, col, hcol, rfl⟩
  rcases chunkCmd_flatChunk hdefault hfit (x := x) hp hrow hcol with ⟨htile, hbytes⟩
  have hpos := tilesThisChunk_pos hcol
  have hfour := tilesThisChunk_le_four hdefault col
  have hstart := chunkCol_start_lt hcol
  have hsize := chunkTiles_pos (Nat.lt_of_le_of_lt (Nat.zero_le _) hcol)
  have hplace : (l.chunkCmd x (l.shape.flatChunk row col) p).tileId.toNat + 1 < 2 ^ 24 := by
    have hin := place_lt (P := l.numPeers) (p := l.numPeers - 1 - p) (by omega)
      (firstTile_lt hrow hcol)
    rw [htile]
    omega
  have htiles : Efa.tileCount (l.chunkCmd x (l.shape.flatChunk row col) p).bytes =
      l.shape.tilesThisChunk col := by
    rw [Efa.tileCount, hbytes, Efa.kTileBytes_toNat, rounds]
    omega
  -- What the word says is what the command says.
  have hlegible : 0 < (l.chunkCmd x (l.shape.flatChunk row col) p).bytes.toNat ∧
      (l.chunkCmd x (l.shape.flatChunk row col) p).bytes.toNat ≤ 2 ^ 24 := by
    rw [hbytes]
    omega
  rcases (Efa.packed_iff _ _).mpr ⟨hplace, hlegible⟩ with ⟨-, hfirst, hcount⟩
  rw [htile] at hfirst
  rw [htiles] at hcount
  have hrun : col * l.shape.chunkTiles + l.shape.tilesThisChunk col ≤ l.shape.colBlocks := by
    rw [Shape.tilesThisChunk]
    omega
  have hword := ofWord_packed hfirst hcount hrow hstart hrun
  -- The run is the chunk, to its last tile.
  have hconsumed : Cursor.consumedTiles l.drainage ⟨l.numPeers - 1 - p, row,
      col * l.shape.chunkTiles, l.shape.tilesThisChunk col⟩ = l.shape.tilesThisChunk col :=
    Nat.min_self _
  have hid : Cursor.chunkId l.drainage ⟨l.numPeers - 1 - p, row, col * l.shape.chunkTiles,
      l.shape.tilesThisChunk col⟩ = l.shape.flatChunk row col := by
    simp only [Cursor.chunkId, Launch.drainage, gemmArDrainage, Nat.mul_div_cancel _ hsize,
      Shape.flatChunk]
  have hbit : Cursor.peerBit ⟨l.numPeers - 1 - p, row, col * l.shape.chunkTiles,
      l.shape.tilesThisChunk col⟩ = 1#32 <<< (l.numPeers - 1 - p) := by
    have hle := l.numPeers_le
    exact if_pos (by dsimp only; omega)
  have hone :=
    drainWord_one (l := l.drainage) rfl hword ⟨⟨hpos, hstart⟩, by rw [hconsumed]; exact hpos⟩
    rfl (by simp only [Cursor.next, hconsumed, Nat.sub_self]) m
  rw [hid, hbit] at hone
  exact hone

/-- The send of a chunk to a node is drained there into the bit of the sender's
    slot, for the same chunk. Where this is the last bit, the chunk is counted and
    flagged; nothing else changes. -/
theorem notification_round_trip (l : Launch) (hdefault : l.shape.chunkTilesOverride = 0)
    (hfit : l.numPeers * l.shape.totalTilesPerDevice < 2 ^ 24 - 1) {x y c : Nat}
    (hx : x < l.numNodes) (hy : y < l.numNodes) (hne : x ≠ y) (hc : c < l.shape.totalChunks)
    (m : Memory) :
    (∃ push ∈ l.sendChunk x c, push.cmd.dstRank = BitVec.ofNat 8 y) ∧
      ∀ push ∈ l.sendChunk x c, push.cmd.dstRank = BitVec.ofNat 8 y →
        let slot := (slotAtPeer x y l.numNodes).toNat
        let drained := drainWord l.drainage m (Launch.packedWord push.cmd)
        drained = (m.arrive l.drainage c (1#32 <<< slot), .idle) ∧
          ∀ x', voters (drained.1.remoteArrivedPeerMask x') =
            if x' = c then insert slot (voters (m.remoteArrivedPeerMask c))
            else voters (m.remoteArrivedPeerMask x') := by
  have hbytes : l.numNodes ≤ 2 ^ 8 := by
    have hle := l.numNodes_le
    simp only [kMaxPeers] at hle
    omega
  constructor
  · -- Each node is the peer of some slot.
    rcases exists_slot hx hy hne with ⟨p, hp, hrank⟩
    refine ⟨_, List.mem_map.mpr ⟨p, List.mem_range.mpr hp, rfl⟩, ?_⟩
    rw [dstRank_gemmArSend]
    exact (dstRank_eq_iff hbytes hx hy hp).mpr hrank
  · intro push hpush hdst
    rcases List.mem_map.mp hpush with ⟨p, hp, rfl⟩
    rw [List.mem_range] at hp
    rw [dstRank_gemmArSend] at hdst
    have hrank := (dstRank_eq_iff hbytes hx hy hp).mp hdst
    -- The destination tells the slot again.
    have hslot := slotAtPeer_toNat hp hrank
    have hle := l.numPeers_le
    have hdrain := drainWord_chunk hdefault hfit (x := x) hp hc m
    dsimp only
    rw [packedWord_gemmArSend, hslot]
    refine ⟨hdrain, fun x' => ?_⟩
    -- To count and to flag a chunk leaves the masks.
    have hmask :
      ((m.arrive l.drainage c (1#32 <<< (l.numNodes - 1 - 1 - p))).remoteArrivedPeerMask) =
        (m.record c (1#32 <<< (l.numNodes - 1 - 1 - p))).remoteArrivedPeerMask := by
      simp only [Memory.arrive]
      split <;> rfl
    have hbit : l.numNodes - 1 - 1 - p < 32 := by
      simp only [Launch.numPeers] at hle
      omega
    rw [hdrain, show l.numPeers - 1 - p = l.numNodes - 1 - 1 - p from rfl, hmask, voters_record,
      voters_bit hbit, Finset.union_comm, ← Finset.insert_eq]

section Sample

/-- Three nodes of two GPUs, and on each GPU two row blocks of six tiles: a chunk of
    four and one of two in each. -/
def threeNodesOfTwo : Launch where
  shape := ⟨512, 1536, 2, 0⟩
  numNodes := 3
  devIdx := 0
  numInterSendSms := 1
  numRemoteQueuesArg := 4
  numAllocatedRemoteQueuesArg := 4
  numNodes_le := by decide
  numInterSendSms_pos := Nat.one_pos
  numRemoteQueues_le := by decide

theorem notification_round_trip_ragged :
    (∃ push ∈ threeNodesOfTwo.sendChunk 2 3, push.cmd.dstRank = BitVec.ofNat 8 1) ∧
      ∀ push ∈ threeNodesOfTwo.sendChunk 2 3, push.cmd.dstRank = BitVec.ofNat 8 1 →
        ∀ x, voters ((drainWord threeNodesOfTwo.drainage Memory.init
          (Launch.packedWord push.cmd)).1.remoteArrivedPeerMask x) = if x = 3 then {0} else ∅ := by
  have h := notification_round_trip threeNodesOfTwo rfl (by decide) (x := 2) (y := 1) (c := 3)
    (by decide) (by decide) (by decide) (by decide) Memory.init
  refine ⟨h.1, fun push hpush hdst x => ?_⟩
  rw [(h.2 push hpush hdst).2 x]
  simp only [Memory.init, voters_zero]
  rfl

end Sample

end GemmAr

end MKernel
