import Mathlib.Algebra.Order.Interval.Finset.SuccPred
import Mathlib.Order.Interval.Finset.Nat
import Mathlib.Tactic.Ring
import MKernel.Core.Spread

/-!
# Tiles and Chunks

How `gemm_ar` cuts the output of one node into tiles and chunks.

The output has `row_blocks` times `col_blocks` tiles. Each GPU computes all of
them, in the order of `slice_interleaved_slices_decode`, and reduces those of
its own slice, `row_blocks_per_slice` consecutive row blocks. The tiles of a
row block are grouped into chunks of `chunk_tiles`, the last one possibly
shorter, and both the compute CTAs and the reducing CTAs count the tiles of a
chunk they have finished, to do something once when the count is full.

That count is full exactly when the chunk is finished if as many tasks decode
into a chunk as the chunk has tiles. For the reducing CTAs it always is so
(`card_tiles`). For the compute CTAs it needs the row blocks to be divided
evenly among the GPUs (`card_tasks`): otherwise the tasks of the rows left over
decode into rows that are computed already.

## Main definitions

* `Shape`: The size of the output and the number of GPUs.
* `sliceInterleavedSlicesDecode`: The tile a compute task stands for.
* `Shape.chunkOfTask`, `Shape.chunkOfTile`: The chunk of a task or a tile.
* `Shape.Aligned`: The row blocks are divided evenly among the GPUs.
* `Chunk`: A chunk, by its owner and its place in the owner's slice.

## Theorems

* `flatChunk_inj`: The flat index determines the row block and the column.
* `tilesThisChunk_pos`: Every chunk has a tile.
* `card_tiles`: As many tiles of a slice lie in a chunk as the chunk has.
* `card_tasks`: In aligned shapes, as many tasks decode into a chunk.
* `exists_chunk_of_task`: In aligned shapes, every task lies in a chunk.
-/

namespace MKernel

namespace GemmAr

open MKernel.Core

/-- The size of the output, the number of GPUs and the chunk size asked for in
    the environment, zero if none is. -/
structure Shape where
  m : Nat
  n : Nat
  numDevices : Nat
  chunkTilesOverride : Nat

namespace Shape

variable (s : Shape)

/-- `A.rows() / ROW_BLOCK`. -/
def rowBlocks : Nat := s.m / 128

/-- `N / COL_BLOCK`. -/
def colBlocks : Nat := s.n / 256

/-- `M / NUM_DEVICES`. -/
def sliceRows : Nat := s.m / s.numDevices

/-- `slice_rows / ROW_BLOCK`. -/
def rowBlocksPerSlice : Nat := s.sliceRows / 128

/-- The number of compute tasks of each GPU. -/
def numBlocks : Nat := s.rowBlocks * s.colBlocks

/-- The number of tiles each GPU reduces. -/
def totalTilesPerDevice : Nat := s.rowBlocksPerSlice * s.colBlocks

/-- `gemm_ar_chunk_tiles`. -/
def chunkTiles : Nat :=
  min (if 0 < s.chunkTilesOverride then s.chunkTilesOverride else 4) s.colBlocks

/-- `gemm_ar_chunks_per_row`. -/
def chunksPerRow : Nat := (s.colBlocks + s.chunkTiles - 1) / s.chunkTiles

/-- The number of chunks each GPU reduces. -/
def totalChunks : Nat := s.rowBlocksPerSlice * s.chunksPerRow

/-- The number of tiles in the chunks of one column of chunks. -/
def tilesThisChunk (chunkCol : Nat) : Nat :=
  min s.chunkTiles (s.colBlocks - chunkCol * s.chunkTiles)

/-- The index of a chunk in an array with `chunks_per_row` entries a row block. -/
def flatChunk (row chunkCol : Nat) : Nat := row * s.chunksPerRow + chunkCol

end Shape

/-- `slice_interleaved_slices_decode`: the row block and the column of a task. -/
def sliceInterleavedSlicesDecode (taskId rowBlocksPerSlice colBlocks numSlices : Nat) :
    Nat × Nat :=
  let tilesPerRound := numSlices * colBlocks
  let roundIdx := taskId / tilesPerRound
  let withinRound := taskId - roundIdx * tilesPerRound
  let sliceIdx := withinRound / colBlocks
  (sliceIdx * rowBlocksPerSlice + roundIdx, withinRound - sliceIdx * colBlocks)

namespace Shape

variable (s : Shape)

/-- The row block and the column of chunks of a compute task. -/
def chunkOfTask (taskId : Nat) : Nat × Nat :=
  let tile := sliceInterleavedSlicesDecode taskId s.rowBlocksPerSlice s.colBlocks s.numDevices
  (tile.1, tile.2 / s.chunkTiles)

/-- The row block in the slice and the column of chunks of a tile to reduce. -/
def chunkOfTile (tileId : Nat) : Nat × Nat :=
  let rbInSlice := tileId / s.colBlocks
  (rbInSlice, (tileId - rbInSlice * s.colBlocks) / s.chunkTiles)

/-- The row blocks are divided evenly among the GPUs. -/
def Aligned : Prop := s.rowBlocks = s.numDevices * s.rowBlocksPerSlice

instance : Decidable s.Aligned := inferInstanceAs (Decidable (_ = _))

end Shape

/-- A chunk: the GPU that reduces it, its row block in that GPU's slice and its
    place in the row block. -/
@[ext]
structure Chunk (s : Shape) where
  owner : Fin s.numDevices
  rbInSlice : Fin s.rowBlocksPerSlice
  chunkCol : Fin s.chunksPerRow
deriving DecidableEq

namespace Chunk

variable {s : Shape} (x : Chunk s)

/-- The row block of the whole output. -/
def row : Nat := x.owner * s.rowBlocksPerSlice + x.rbInSlice

/-- How many tiles the chunk has. -/
def tiles : Nat := s.tilesThisChunk x.chunkCol

/-- The index of the chunk among those of its owner. -/
def id : Nat := s.flatChunk x.rbInSlice x.chunkCol

end Chunk

/-! ## Indices -/

variable {s : Shape}

/-- The flat index determines the row block and the column of chunks. -/
theorem flatChunk_inj {row row' col col' : Nat} (h : col < s.chunksPerRow)
    (h' : col' < s.chunksPerRow) :
    s.flatChunk row col = s.flatChunk row' col' ↔ row = row' ∧ col = col' := by
  constructor
  · exact place_inj h h'
  · rintro ⟨rfl, rfl⟩
    rfl

/-- Where chunks exist, they have a size. -/
theorem chunkTiles_pos (h : 0 < s.chunksPerRow) : 0 < s.chunkTiles := by
  by_contra hz
  have hnone : s.chunksPerRow = 0 := by
    rw [Shape.chunksPerRow, Nat.eq_zero_of_not_pos hz, Nat.div_zero]
  omega

/-- A column of chunks starts inside the row. -/
theorem chunkCol_start_lt {col : Nat} (h : col < s.chunksPerRow) :
    col * s.chunkTiles < s.colBlocks := by
  have hpos := chunkTiles_pos (lt_of_le_of_lt (Nat.zero_le _) h)
  rw [Shape.chunksPerRow, Nat.lt_div_iff_mul_lt hpos] at h
  omega

theorem tilesThisChunk_pos {col : Nat} (h : col < s.chunksPerRow) : 0 < s.tilesThisChunk col := by
  have hstart := chunkCol_start_lt h
  have hpos := chunkTiles_pos (lt_of_le_of_lt (Nat.zero_le _) h)
  rw [Shape.tilesThisChunk]
  omega

/-- The tiles of a row block that lie in a column of chunks. -/
theorem div_chunkTiles_eq_iff {c col : Nat} (h : col < s.chunksPerRow) :
    c < s.colBlocks ∧ c / s.chunkTiles = col ↔
      col * s.chunkTiles ≤ c ∧ c < col * s.chunkTiles + s.tilesThisChunk col := by
  have hpos := chunkTiles_pos (lt_of_le_of_lt (Nat.zero_le _) h)
  have hstart := chunkCol_start_lt h
  -- The last chunk of a row ends where the row does.
  rw [Nat.div_eq_iff hpos, Shape.tilesThisChunk]
  omega

/-- A slice with tiles has columns, and the division finds a tile's column. -/
theorem tile_col {t : Nat} (ht : t < s.totalTilesPerDevice) :
    t % s.colBlocks < s.colBlocks ∧ t - t / s.colBlocks * s.colBlocks = t % s.colBlocks := by
  have hcols : 0 < s.colBlocks := by
    by_contra hz
    rw [Shape.totalTilesPerDevice, Nat.eq_zero_of_not_pos hz, Nat.mul_zero] at ht
    exact absurd ht (Nat.not_lt_zero _)
  have hsplit := Nat.div_add_mod' t s.colBlocks
  exact ⟨Nat.mod_lt t hcols, by omega⟩

/-- Every tile of a row block lies in a column of chunks. -/
theorem div_chunkTiles_lt {c : Nat} (h : c < s.colBlocks) :
    c / s.chunkTiles < s.chunksPerRow := by
  have hpos : 0 < s.chunkTiles := by
    rw [Shape.chunkTiles]
    split <;> omega
  rw [Shape.chunksPerRow, Nat.div_lt_iff_lt_mul hpos, Nat.mul_comm]
  have hmod := Nat.mod_add_div (s.colBlocks + s.chunkTiles - 1) s.chunkTiles
  have hlt := Nat.mod_lt (s.colBlocks + s.chunkTiles - 1) hpos
  omega

/-! ## Counting -/

/-- The tile of the task at a place in a round. -/
theorem decode_eq {rowBlocksPerSlice colBlocks numSlices rb slice col : Nat}
    (hslice : slice < numSlices) (hcol : col < colBlocks) :
    sliceInterleavedSlicesDecode (rb * (numSlices * colBlocks) + (slice * colBlocks + col))
      rowBlocksPerSlice colBlocks numSlices = (slice * rowBlocksPerSlice + rb, col) := by
  have hin : slice * colBlocks + col < numSlices * colBlocks := place_lt hslice hcol
  simp only [sliceInterleavedSlicesDecode, place_div hin, Nat.add_sub_cancel_left, place_div hcol]

/-- Every task below the tasks of all slices has a place in a round. -/
theorem exists_place {rowBlocksPerSlice colBlocks numSlices t : Nat}
    (h : t < numSlices * rowBlocksPerSlice * colBlocks) :
    ∃ rb < rowBlocksPerSlice, ∃ slice < numSlices, ∃ col < colBlocks,
      t = rb * (numSlices * colBlocks) + (slice * colBlocks + col) := by
  have hcols : 0 < colBlocks := by
    by_contra hz
    rw [Nat.eq_zero_of_not_pos hz, Nat.mul_zero] at h
    exact absurd h (Nat.not_lt_zero _)
  have hround : 0 < numSlices * colBlocks := by
    by_contra hz
    rw [Nat.mul_right_comm, Nat.eq_zero_of_not_pos hz, Nat.zero_mul] at h
    exact absurd h (Nat.not_lt_zero _)
  refine ⟨t / (numSlices * colBlocks), ?_, t % (numSlices * colBlocks) / colBlocks, ?_,
    t % (numSlices * colBlocks) % colBlocks, Nat.mod_lt _ hcols, ?_⟩
  · -- The rounds have as many tasks in all as the slices.
    rw [Nat.div_lt_iff_lt_mul hround]
    calc t < numSlices * rowBlocksPerSlice * colBlocks := h
      _ = rowBlocksPerSlice * (numSlices * colBlocks) := by ring
  · rw [Nat.div_lt_iff_lt_mul hcols]
    exact Nat.mod_lt _ hround
  · rw [Nat.div_add_mod', Nat.div_add_mod']

/-- As many tiles of a slice lie in a column of chunks of a row block as the chunk
    there has. -/
theorem card_tiles_at {row col : Nat} (hrow : row < s.rowBlocksPerSlice)
    (hcol : col < s.chunksPerRow) :
    ((Finset.range s.totalTilesPerDevice).filter (fun t => s.chunkOfTile t = (row, col))).card =
      s.tilesThisChunk col := by
  -- They are the columns of the chunk, in one row block.
  have himage :
      (Finset.range s.totalTilesPerDevice).filter (fun t => s.chunkOfTile t = (row, col)) =
      (Finset.Ico (col * s.chunkTiles) (col * s.chunkTiles + s.tilesThisChunk col)).image
        (fun c => row * s.colBlocks + c) := by
    ext t
    simp only [Finset.mem_filter, Finset.mem_range, Finset.mem_image, Finset.mem_Ico,
      Shape.chunkOfTile, Prod.mk.injEq]
    constructor
    · rintro ⟨ht, hrb, hc⟩
      rcases tile_col ht with ⟨hmod, hrest⟩
      rw [hrest] at hc
      refine ⟨t % s.colBlocks, (div_chunkTiles_eq_iff hcol).mp ⟨hmod, hc⟩, ?_⟩
      rw [← hrb]
      exact Nat.div_add_mod' t s.colBlocks
    · rintro ⟨c, hc, rfl⟩
      rcases (div_chunkTiles_eq_iff hcol).mpr hc with ⟨hlt, hcol'⟩
      refine ⟨place_lt hrow hlt, place_div hlt, ?_⟩
      rw [place_div hlt, Nat.add_sub_cancel_left]
      exact hcol'
  rw [himage, Finset.card_image_of_injective _ (fun a b h => Nat.add_left_cancel h), Nat.card_Ico,
    Nat.add_sub_cancel_left]

namespace Chunk

variable (x : Chunk s)

/-- As many tiles of the owner's slice lie in a chunk as the chunk has. -/
theorem card_tiles :
    ((Finset.range s.totalTilesPerDevice).filter
      (fun t => s.chunkOfTile t = (x.rbInSlice.val, x.chunkCol.val))).card = x.tiles :=
  card_tiles_at x.rbInSlice.isLt x.chunkCol.isLt

/-- Where the tasks of one turn in each round are the owner's, as many tasks lie in a chunk as
    it has tiles. -/
theorem card_of_turn (ha : s.Aligned) {chunkOf : Nat → Nat × Nat} {turn : Nat}
    (hturn : turn < s.numDevices)
    (hchunk : ∀ rb < s.rowBlocksPerSlice, ∀ raw < s.numDevices, ∀ col < s.colBlocks,
      chunkOf (rb * (s.numDevices * s.colBlocks) + (raw * s.colBlocks + col)) =
          (x.row, x.chunkCol.val) ↔
        rb = x.rbInSlice ∧ raw = turn ∧ col / s.chunkTiles = x.chunkCol) :
    ((Finset.range s.numBlocks).filter
      (fun t => chunkOf t = (x.row, x.chunkCol.val))).card = x.tiles := by
  -- They are the same columns, at that turn of one round.
  have himage : (Finset.range s.numBlocks).filter
      (fun t => chunkOf t = (x.row, x.chunkCol.val)) =
      (Finset.Ico (x.chunkCol * s.chunkTiles) (x.chunkCol * s.chunkTiles + x.tiles)).image
        (fun c => x.rbInSlice * (s.numDevices * s.colBlocks) + (turn * s.colBlocks + c)) := by
    ext t
    simp only [Finset.mem_filter, Finset.mem_range, Finset.mem_image, Finset.mem_Ico]
    constructor
    · rintro ⟨ht, hin⟩
      rw [Shape.numBlocks, ha] at ht
      rcases exists_place ht with ⟨rb, hrb, raw, hraw, col, hcol, rfl⟩
      rcases (hchunk rb hrb raw hraw col hcol).mp hin with ⟨hrow, hown, hdiv⟩
      refine ⟨col, (div_chunkTiles_eq_iff x.chunkCol.isLt).mp ⟨hcol, hdiv⟩, ?_⟩
      rw [hrow, hown]
    · rintro ⟨c, hc, rfl⟩
      rcases (div_chunkTiles_eq_iff x.chunkCol.isLt).mpr hc with ⟨hlt, hcol⟩
      refine ⟨?_, (hchunk _ x.rbInSlice.isLt _ hturn _ hlt).mpr ⟨rfl, rfl, hcol⟩⟩
      rw [Shape.numBlocks, ha]
      calc x.rbInSlice * (s.numDevices * s.colBlocks) + (turn * s.colBlocks + c)
          < s.rowBlocksPerSlice * (s.numDevices * s.colBlocks) :=
            place_lt x.rbInSlice.isLt (place_lt hturn hlt)
        _ = s.numDevices * s.rowBlocksPerSlice * s.colBlocks := by ring
  rw [himage, Finset.card_image_of_injective _
    (fun a b h => Nat.add_left_cancel (Nat.add_left_cancel h)), Nat.card_Ico,
    Nat.add_sub_cancel_left]

/-- In aligned shapes, as many compute tasks lie in a chunk as it has tiles. -/
theorem card_tasks (ha : s.Aligned) :
    ((Finset.range s.numBlocks).filter
      (fun t => s.chunkOfTask t = (x.row, x.chunkCol.val))).card = x.tiles := by
  refine x.card_of_turn ha x.owner.isLt fun rb hrb slice hslice col hcol => ?_
  rw [Shape.chunkOfTask, decode_eq hslice hcol, Prod.mk.injEq]
  constructor
  · rintro ⟨hrow, hdiv⟩
    rcases place_inj hrb x.rbInSlice.isLt hrow with ⟨hso, hrr⟩
    exact ⟨hrr, hso, hdiv⟩
  · rintro ⟨rfl, rfl, hdiv⟩
    exact ⟨rfl, hdiv⟩

end Chunk

/-- In aligned shapes every compute task lies in a chunk. -/
theorem exists_chunk_of_task (ha : s.Aligned) {t : Nat} (ht : t < s.numBlocks) :
    ∃ x : Chunk s, s.chunkOfTask t = (x.row, x.chunkCol.val) := by
  rw [Shape.numBlocks, ha] at ht
  rcases exists_place ht with ⟨rb, hrb, slice, hslice, col, hcol, rfl⟩
  refine ⟨⟨⟨slice, hslice⟩, ⟨rb, hrb⟩, ⟨col / s.chunkTiles, div_chunkTiles_lt hcol⟩⟩, ?_⟩
  rw [Shape.chunkOfTask, decode_eq hslice hcol]
  rfl

/-- Every tile of a slice lies in a row block and a column of chunks. -/
theorem chunkOfTile_lt {t : Nat} (ht : t < s.totalTilesPerDevice) :
    (s.chunkOfTile t).1 < s.rowBlocksPerSlice ∧ (s.chunkOfTile t).2 < s.chunksPerRow := by
  rcases tile_col ht with ⟨hmod, hrest⟩
  have hcols : 0 < s.colBlocks := Nat.lt_of_le_of_lt (Nat.zero_le _) hmod
  rw [← hrest] at hmod
  exact ⟨(Nat.div_lt_iff_lt_mul hcols).mpr ht, div_chunkTiles_lt hmod⟩

/-- Every tile of a slice lies in a chunk of its owner. -/
theorem exists_chunk_of_tile (owner : Fin s.numDevices) {t : Nat}
    (ht : t < s.totalTilesPerDevice) :
    ∃ x : Chunk s, x.owner = owner ∧ s.chunkOfTile t = (x.rbInSlice.val, x.chunkCol.val) :=
  ⟨⟨owner, ⟨_, (chunkOfTile_lt ht).1⟩, ⟨_, (chunkOfTile_lt ht).2⟩⟩, rfl, rfl⟩

/-- The owner of a chunk is the GPU whose slice holds its row block. -/
theorem Chunk.row_div (x : Chunk s) : x.row / s.rowBlocksPerSlice = x.owner :=
  place_div x.rbInSlice.isLt

/-- A chunk is determined by its row block and column. -/
theorem Chunk.eq_of_row {x y : Chunk s} (hrow : x.row = y.row)
    (hcol : x.chunkCol = y.chunkCol) : x = y := by
  rcases place_inj x.rbInSlice.isLt y.rbInSlice.isLt hrow with ⟨ho, hr⟩
  exact Chunk.ext (Fin.ext ho) (Fin.ext hr) hcol

/-- A chunk is determined by its owner and its index there. -/
theorem Chunk.eq_of_id {x y : Chunk s} (ho : x.owner = y.owner) (hid : x.id = y.id) : x = y := by
  rcases (flatChunk_inj x.chunkCol.isLt y.chunkCol.isLt).mp hid with ⟨hr, hc⟩
  exact Chunk.ext ho (Fin.ext hr) (Fin.ext hc)

end GemmAr

end MKernel
