import MKernel.GemmAr.TaskOrder

/-!
# Compute Tasks and Ready Words

How `gemm_rs` orders the tiles of a GPU, and where it announces a chunk.

The tiles and chunks are those of `gemm_ar`: each GPU computes all tiles of the
output, and each slice of row blocks has an owner. The tasks of a GPU begin each
round with its own slice, so the same task is another tile on another GPU. As
long as the row blocks are divided evenly, a round still has every slice once,
and as many tasks of each GPU decode into a chunk as the chunk has tiles
(`card_tasks`). The other decoders of `gemm_rs` are those of `gemm_ar` too.

On its owner a chunk has a count and a bit. The counts come first, one for each
chunk of all slices, and behind them the sending CTAs have a queue of words each,
with a bit for each chunk they send. No count is a word of a queue
(`flatChunk_lt`), and no two chunks have the same bit (`bit_inj`).

## Main definitions

* `sliceInterleavedDevrelDecode`: The tile a task stands for.
* `sliceRowMajorDecode`, `sliceInterleavedDecode`, `sliceSuperMDecode`: The other
  decoders.
* `chunkOfTask`: The chunk of a task.
* `bitmapWord`, `bitmapBit`: Where the bit of a chunk is.

## Theorems

* `card_tasks`: As many tasks of a GPU are in a chunk as it has tiles.
* `exists_chunk`: Every task is in a chunk.
* `bit_inj`: A chunk is known by its bit.
-/

namespace MKernel

namespace GemmRs

open MKernel.Core MKernel.GemmAr

/-- `gemm_rs_slice_interleaved_devrel_decode`: the row block and the column of a
    task. -/
def sliceInterleavedDevrelDecode (taskId rowBlocksPerSlice colBlocks numSlices devIdx : Nat) :
    Nat × Nat :=
  let tilesPerRound := numSlices * colBlocks
  let roundIdx := taskId / tilesPerRound
  let withinRound := taskId - roundIdx * tilesPerRound
  let rawSlice := withinRound / colBlocks
  let sliceIdx := (rawSlice + devIdx) % numSlices
  (sliceIdx * rowBlocksPerSlice + roundIdx, withinRound - rawSlice * colBlocks)

/-- `gemm_rs_slice_row_major_decode`, which is that of `gemm_ar`. -/
def sliceRowMajorDecode (taskId rowBlocksPerSlice colBlocks : Nat) : Nat × Nat :=
  GemmAr.sliceRowMajorDecode taskId rowBlocksPerSlice colBlocks

/-- `gemm_rs_slice_interleaved_decode`, `slice_interleaved_slices_decode` of `gemm_ar`. -/
def sliceInterleavedDecode (taskId rowBlocksPerSlice colBlocks numSlices : Nat) : Nat × Nat :=
  GemmAr.sliceInterleavedSlicesDecode taskId rowBlocksPerSlice colBlocks numSlices

/-- `gemm_rs_slice_super_m_decode`, which is that of `gemm_ar`. -/
def sliceSuperMDecode (taskId rowBlocksPerSlice colBlocks superM : Nat) : Nat × Nat :=
  GemmAr.sliceSuperMDecode taskId rowBlocksPerSlice colBlocks superM

/-- The row block and the column of chunks of a task of a GPU. -/
def chunkOfTask (s : Shape) (devIdx taskId : Nat) : Nat × Nat :=
  let tile := sliceInterleavedDevrelDecode taskId s.rowBlocksPerSlice s.colBlocks s.numDevices
    devIdx
  (tile.1, tile.2 / s.chunkTiles)

/-! ## Ready words -/

/-- `gemm_rs_send_ready_bitmap_queue_capacity`. -/
def sendReadyBitmapQueueCapacity (rowBlocksPerDev numSendSms chunksPerRow : Nat) : Nat :=
  if numSendSms = 0 then 0
  else (rowBlocksPerDev + numSendSms - 1) / numSendSms * chunksPerRow

/-- `gemm_rs_send_ready_bitmap_words_per_queue`. -/
def sendReadyBitmapWordsPerQueue (rowBlocksPerDev numSendSms chunksPerRow : Nat) : Nat :=
  (sendReadyBitmapQueueCapacity rowBlocksPerDev numSendSms chunksPerRow + 31) / 32

/-- `gemm_rs_send_ready_bitmap_region_base`. -/
def sendReadyBitmapRegionBase (rowBlocksPerDev numDevices chunksPerRow : Nat) : Nat :=
  rowBlocksPerDev * numDevices * chunksPerRow

variable (s : Shape) (numSend : Nat)

/-- A chunk's place in the queue of its sending CTA. -/
def queueIdx (rbInSlice chunkCol : Nat) : Nat :=
  let ownerRbInQueue := rbInSlice / numSend
  ownerRbInQueue * s.chunksPerRow + chunkCol

/-- A word of the queue of a sending CTA. -/
def queueWord (sendId wordIdx : Nat) : Nat :=
  let queueWords := sendReadyBitmapWordsPerQueue s.rowBlocksPerSlice numSend s.chunksPerRow
  let queueBase := sendReadyBitmapRegionBase s.rowBlocksPerSlice s.numDevices s.chunksPerRow
  queueBase + sendId * queueWords + wordIdx

/-- The word with the bit of a chunk. -/
def bitmapWord (rbInSlice chunkCol : Nat) : Nat :=
  queueWord s numSend (rbInSlice % numSend) (queueIdx s numSend rbInSlice chunkCol / 32)

/-- The place of the bit in its word. -/
def bitmapBit (rbInSlice chunkCol : Nat) : Nat := queueIdx s numSend rbInSlice chunkCol % 32

variable {s numSend}

/-! ## Tasks -/

/-- The tile of the task at a place in a round. -/
theorem devrelDecode_eq {rowBlocksPerSlice colBlocks numSlices devIdx rb raw col : Nat}
    (hraw : raw < numSlices) (hcol : col < colBlocks) :
    sliceInterleavedDevrelDecode (rb * (numSlices * colBlocks) + (raw * colBlocks + col))
      rowBlocksPerSlice colBlocks numSlices devIdx =
        ((raw + devIdx) % numSlices * rowBlocksPerSlice + rb, col) := by
  have hin : raw * colBlocks + col < numSlices * colBlocks := place_lt hraw hcol
  simp only [sliceInterleavedDevrelDecode, place_div hin, Nat.add_sub_cancel_left, place_div hcol]

/-- In aligned shapes, as many tasks of a GPU are in a chunk as it has tiles. -/
theorem card_tasks (ha : s.Aligned) (d : Fin s.numDevices) (x : Chunk s) :
    ((Finset.range s.numBlocks).filter
      (fun t => chunkOfTask s d t = (x.row, x.chunkCol.val))).card = x.tiles := by
  -- Each slice has one turn in a round.
  have hrotate := IsTileOrder.rotate s.numDevices d
  rcases hrotate.surjOn x.owner.isLt with ⟨turn, hlt, hturn⟩
  dsimp only at hturn
  refine x.card_of_turn ha hlt fun rb hrb raw hraw col hcol => ?_
  rw [chunkOfTask, devrelDecode_eq hraw hcol, Prod.mk.injEq]
  constructor
  · rintro ⟨hrow, hdiv⟩
    rcases place_inj hrb x.rbInSlice.isLt hrow with ⟨hso, hrr⟩
    exact ⟨hrr, hrotate.injOn hraw hlt (hso.trans hturn.symm), hdiv⟩
  · rintro ⟨rfl, rfl, hdiv⟩
    exact ⟨by rw [hturn]; rfl, hdiv⟩

/-- In aligned shapes every task is in a chunk. -/
theorem exists_chunk (ha : s.Aligned) (d : Nat) {t : Nat} (ht : t < s.numBlocks) :
    ∃ x : Chunk s, chunkOfTask s d t = (x.row, x.chunkCol.val) := by
  rw [Shape.numBlocks, ha] at ht
  rcases exists_place ht with ⟨rb, hrb, raw, hraw, col, hcol, rfl⟩
  have hslice : (raw + d) % s.numDevices < s.numDevices := Nat.mod_lt _ (by omega)
  refine ⟨⟨⟨_, hslice⟩, ⟨rb, hrb⟩, ⟨col / s.chunkTiles, div_chunkTiles_lt hcol⟩⟩, ?_⟩
  rw [chunkOfTask, devrelDecode_eq hraw hcol]
  rfl

/-! ## Places of counts and bits -/

/-- The row block and the column of a chunk. -/
def place (x : Chunk s) : Nat × Nat := (x.row, x.chunkCol.val)

theorem flat_eq_iff (x y : Chunk s) :
    s.flatChunk x.row x.chunkCol = s.flatChunk y.row y.chunkCol ↔ place x = place y := by
  rw [flatChunk_inj x.chunkCol.isLt y.chunkCol.isLt, place, place, Prod.mk.injEq]

/-- One word of one GPU is written. -/
theorem update_word {D V : Type*} [DecidableEq D] (words : D → Nat → V) (d e : D) (i j : Nat)
    (v : V) : Function.update words d (Function.update (words d) i v) e j =
      if e = d ∧ j = i then v else words e j := by
  by_cases he : e = d
  · subst he
    simp only [Function.update_self, true_and]
    by_cases hj : j = i
    · rw [if_pos hj, hj, Function.update_self]
    · rw [if_neg hj, Function.update_of_ne hj]
  · simp only [Function.update_of_ne he, he, false_and, if_false]

/-- The counts of all chunks are in front of the queues. -/
theorem flatChunk_lt (x : Chunk s) (sendId wordIdx : Nat) :
    s.flatChunk x.row x.chunkCol < queueWord s numSend sendId wordIdx := by
  have hrow : x.row < s.numDevices * s.rowBlocksPerSlice := place_lt x.owner.isLt x.rbInSlice.isLt
  have hflat : s.flatChunk x.row x.chunkCol <
      s.numDevices * s.rowBlocksPerSlice * s.chunksPerRow := place_lt hrow x.chunkCol.isLt
  have hbase : sendReadyBitmapRegionBase s.rowBlocksPerSlice s.numDevices s.chunksPerRow =
      s.numDevices * s.rowBlocksPerSlice * s.chunksPerRow := by
    rw [sendReadyBitmapRegionBase, Nat.mul_comm s.rowBlocksPerSlice]
  simp only [queueWord, hbase]
  omega

/-- A chunk's place is inside the queue. -/
theorem queueIdx_lt (hsend : 0 < numSend) {rb col : Nat} (hrb : rb < s.rowBlocksPerSlice)
    (hcol : col < s.chunksPerRow) : queueIdx s numSend rb col <
      32 * sendReadyBitmapWordsPerQueue s.rowBlocksPerSlice numSend s.chunksPerRow := by
  have hround : rb / numSend < (s.rowBlocksPerSlice + numSend - 1) / numSend := by
    rw [Nat.lt_div_iff_mul_lt hsend]
    have hle := Nat.div_mul_le_self rb numSend
    omega
  have hplace : queueIdx s numSend rb col <
      (s.rowBlocksPerSlice + numSend - 1) / numSend * s.chunksPerRow := place_lt hround hcol
  rw [sendReadyBitmapWordsPerQueue, sendReadyBitmapQueueCapacity, if_neg (by omega)]
  omega

/-- Two chunks of one owner with the same bit are the same. -/
theorem bit_inj (hsend : 0 < numSend) {x y : Chunk s} (howner : x.owner = y.owner)
    (hword : bitmapWord s numSend x.rbInSlice x.chunkCol =
      bitmapWord s numSend y.rbInSlice y.chunkCol)
    (hbit : bitmapBit s numSend x.rbInSlice x.chunkCol =
      bitmapBit s numSend y.rbInSlice y.chunkCol) : x = y := by
  have hx := queueIdx_lt hsend x.rbInSlice.isLt x.chunkCol.isLt
  have hy := queueIdx_lt hsend y.rbInSlice.isLt y.chunkCol.isLt
  simp only [bitmapWord, queueWord, Nat.add_assoc, Nat.add_left_cancel_iff] at hword
  -- The same word of the same queue,
  rcases place_inj (by omega) (by omega) hword with ⟨hid, hidx⟩
  -- so the same place in it, which tells the round of the row block and the column.
  have hplace : queueIdx s numSend x.rbInSlice x.chunkCol =
      queueIdx s numSend y.rbInSlice y.chunkCol := by
    simp only [bitmapBit] at hbit
    omega
  rcases place_inj x.chunkCol.isLt y.chunkCol.isLt hplace with ⟨hround, hcol⟩
  have hrb : x.rbInSlice.val = y.rbInSlice.val := by
    rw [← Nat.div_add_mod x.rbInSlice.val numSend, hround, hid, Nat.div_add_mod]
  exact Chunk.ext howner (Fin.ext hrb) (Fin.ext hcol)

end GemmRs

end MKernel
