import MKernel.GemmAr.Chunks

/-!
# Decoding a Chunk

The chunks of a slice, as the host counts them, as the kernel decodes them and
as the kernel encodes them.

A chunk is known by its index. Three places turn tiles into indices or back.
The host counts the chunks of a row block from the chunk size, and hands both
to the kernel. The kernel finds the chunk of a tile from these two numbers. But
`gemm_ar_chunk_decode` takes only the chunk size from its caller: the chunks of
a row block it counts again, with `gemm_ar_chunks_per_row` compiled for the
device, where the environment is not read.

So an index is decoded in rows of another length than it was encoded in, if
the chunk size was set in the environment and this changes the length. The rows
agree where the two lengths do, or in a slice of one row block, where a longer
row on the device does no harm (`rowsAgree_iff`). The chunks then are a
partition of the slice and the encoders invert the decoder, and otherwise not
(`partitioned_iff`).

## Main definitions

* `Shape.device`: The shape as the functions compiled for the device see it.
* `Shape.chunkDecode`: `gemm_ar_chunk_decode`.
* `Shape.encode`: The chunk of a tile, as the kernel finds it.
* `Shape.Partitioned`: The chunks are a partition, and the encoders find them.
* `Shape.RowsAgree`: Host and device count the same rows.

## Theorems

* `mem_tiles_iff`: Where the rows agree, decoded ranges are the fibres of `encode`.
* `partitioned_iff`: The chunks are a partition exactly if the rows agree.
* `decode_disagrees`: With two tiles to a chunk they are not.
-/

namespace MKernel

namespace GemmAr

open MKernel.Core

/-- What `gemm_ar_chunk_decode` writes. -/
structure Decoded where
  rbInSlice : Nat
  rowIdx : Nat
  colStart : Nat
  tilesThisChunk : Int
deriving DecidableEq

/-- The tiles of a decoded chunk, by row block in the slice and column. -/
def Decoded.tiles (d : Decoded) : Finset (Nat × Nat) :=
  {d.rbInSlice} ×ˢ Finset.Ico d.colStart (d.colStart + d.tilesThisChunk.toNat)

namespace Shape

variable (s : Shape)

/-- What is left of the shape where `__CUDA_ARCH__` is defined: the environment
    is not read. -/
def device : Shape := { s with chunkTilesOverride := 0 }

/-- `gemm_ar_chunk_decode`, called with the chunk size of the host. -/
def chunkDecode (devIdx chunkId : Nat) : Decoded :=
  let chunksPerRow := s.device.chunksPerRow
  let rbInSlice := chunkId / chunksPerRow
  let chunkCol := chunkId - rbInSlice * chunksPerRow
  let colStart := chunkCol * s.chunkTiles
  { rbInSlice := rbInSlice
    rowIdx := devIdx * s.rowBlocksPerSlice + rbInSlice
    colStart := colStart
    tilesThisChunk := min (s.chunkTiles : Int) (s.colBlocks - colStart) }

/-- The chunk of a tile of the slice, in the intra-node all-reduce and in the
    arrival drainer. -/
def encode (tile : Nat × Nat) : Nat := s.flatChunk tile.1 (tile.2 / s.chunkTiles)

/-- The tiles of a slice. -/
def sliceTiles : Finset (Nat × Nat) :=
  Finset.range s.rowBlocksPerSlice ×ˢ Finset.range s.colBlocks

/-- The decoder maps the indices one to one to the parts of a partition of the
    slice, and the encoders name the part a tile lies in. -/
def Partitioned (devIdx : Nat) : Prop :=
  (∃ P : Finpartition s.sliceTiles,
    Set.BijOn (fun c => (s.chunkDecode devIdx c).tiles) (Set.Iio s.totalChunks) P.parts) ∧
  ∀ tile ∈ s.sliceTiles, s.encode tile < s.totalChunks ∧
    tile ∈ (s.chunkDecode devIdx (s.encode tile)).tiles

/-- Host and device count the same chunks in a row, or there is one row and the
    device does not end it too early. -/
def RowsAgree : Prop :=
  s.rowBlocksPerSlice = 0 ∨ s.chunksPerRow = s.device.chunksPerRow ∨
    s.rowBlocksPerSlice = 1 ∧ s.chunksPerRow ≤ s.device.chunksPerRow

instance : Decidable s.RowsAgree := inferInstanceAs (Decidable (_ ∨ _))

end Shape

variable {s : Shape}

/-! ## Rows -/

@[simp] theorem device_colBlocks : s.device.colBlocks = s.colBlocks := rfl

/-- A row with columns has chunks. -/
theorem chunksPerRow_pos (h : 0 < s.colBlocks) : 0 < s.chunksPerRow :=
  Nat.lt_of_le_of_lt (Nat.zero_le _) (div_chunkTiles_lt h)

/-- The index of a chunk in the slice is below the number of chunks. -/
theorem flatChunk_lt {row col : Nat} (hrow : row < s.rowBlocksPerSlice)
    (hcol : col < s.chunksPerRow) : s.flatChunk row col < s.totalChunks :=
  place_lt hrow hcol

/-- Every index below the number of chunks has a row and a column. -/
theorem exists_flatChunk {c : Nat} (h : c < s.totalChunks) :
    ∃ row < s.rowBlocksPerSlice, ∃ col < s.chunksPerRow, s.flatChunk row col = c := by
  have hpos : 0 < s.chunksPerRow := by
    by_contra hz
    rw [Shape.totalChunks, Nat.eq_zero_of_not_pos hz, Nat.mul_zero] at h
    exact absurd h (Nat.not_lt_zero _)
  exact ⟨c / s.chunksPerRow, (Nat.div_lt_iff_lt_mul hpos).mpr h, c % s.chunksPerRow,
    Nat.mod_lt _ hpos, Nat.div_add_mod' c s.chunksPerRow⟩

/-- Where the rows agree, a chunk is decoded as it was encoded. -/
theorem chunkDecode_flatChunk (h : s.RowsAgree) (devIdx : Nat) {row col : Nat}
    (hrow : row < s.rowBlocksPerSlice) (hcol : col < s.chunksPerRow) :
    s.chunkDecode devIdx (s.flatChunk row col) =
      { rbInSlice := row
        rowIdx := devIdx * s.rowBlocksPerSlice + row
        colStart := col * s.chunkTiles
        tilesThisChunk := s.tilesThisChunk col } := by
  have hplace : s.flatChunk row col / s.device.chunksPerRow = row ∧
      s.flatChunk row col - row * s.device.chunksPerRow = col := by
    rw [Shape.flatChunk]
    rcases h with h | h | ⟨hone, hle⟩
    · omega
    · rw [← h, place_div hcol, Nat.add_sub_cancel_left]
      exact ⟨rfl, rfl⟩
    · -- The row is the first, and the device takes it to be longer.
      have hzero : row = 0 := by omega
      rw [hzero, Nat.zero_mul, Nat.zero_mul, Nat.zero_add,
        Nat.div_eq_of_lt (Nat.lt_of_lt_of_le hcol hle)]
      exact ⟨rfl, rfl⟩
  have hstart := chunkCol_start_lt hcol
  simp only [Shape.chunkDecode, hplace.1, hplace.2, Decoded.mk.injEq, true_and,
    Shape.tilesThisChunk]
  omega

/-- Where the rows agree, the range of a chunk holds the tiles that are encoded
    to it. -/
theorem mem_tiles_iff (h : s.RowsAgree) (devIdx : Nat) {c : Nat} (hc : c < s.totalChunks)
    (tile : Nat × Nat) :
    tile ∈ (s.chunkDecode devIdx c).tiles ↔ tile ∈ s.sliceTiles ∧ s.encode tile = c := by
  rcases exists_flatChunk hc with ⟨row, hrow, col, hcol, rfl⟩
  rw [chunkDecode_flatChunk h devIdx hrow hcol, Decoded.tiles, Shape.sliceTiles, Shape.encode]
  simp only [Finset.mem_product, Finset.mem_singleton, Finset.mem_Ico, Finset.mem_range,
    Int.toNat_natCast]
  rw [← div_chunkTiles_eq_iff hcol]
  constructor
  · rintro ⟨rfl, hlt, rfl⟩
    exact ⟨⟨hrow, hlt⟩, rfl⟩
  · rintro ⟨⟨_, hlt⟩, heq⟩
    rcases (flatChunk_inj (div_chunkTiles_lt hlt) hcol).mp heq with ⟨hr, hcol'⟩
    exact ⟨hr, hlt, hcol'⟩

/-- The first tile of a chunk of the host is encoded to it. -/
theorem encode_start {row col : Nat} (hrow : row < s.rowBlocksPerSlice)
    (hcol : col < s.chunksPerRow) :
    (row, col * s.chunkTiles) ∈ s.sliceTiles ∧
      s.encode (row, col * s.chunkTiles) = s.flatChunk row col := by
  have hpos := chunkTiles_pos (Nat.lt_of_le_of_lt (Nat.zero_le _) hcol)
  rw [Shape.sliceTiles, Finset.mem_product, Finset.mem_range, Finset.mem_range, Shape.encode,
    Nat.mul_div_cancel _ hpos]
  exact ⟨⟨hrow, chunkCol_start_lt hcol⟩, rfl⟩

/-- Every tile is encoded to a chunk of its row block. -/
theorem encode_lt {tile : Nat × Nat} (h : tile ∈ s.sliceTiles) : s.encode tile < s.totalChunks := by
  rw [Shape.sliceTiles, Finset.mem_product, Finset.mem_range, Finset.mem_range] at h
  exact flatChunk_lt h.1 (div_chunkTiles_lt h.2)

/-- If the kernel finds the row block of every chunk of the host, the rows
    agree. -/
theorem rowsAgree_of_row (devIdx : Nat)
    (h : ∀ row < s.rowBlocksPerSlice, ∀ col < s.chunksPerRow,
      (s.chunkDecode devIdx (s.flatChunk row col)).rbInSlice = row) : s.RowsAgree := by
  by_cases hrows : s.rowBlocksPerSlice = 0
  · exact Or.inl hrows
  · by_cases hcols : 0 < s.colBlocks
    · have hhost := chunksPerRow_pos hcols
      have hdev := chunksPerRow_pos (s := s.device) hcols
      rcases Nat.lt_trichotomy s.chunksPerRow s.device.chunksPerRow with hlt | heq | hgt
      · -- A second row would start inside the first row of the device.
        refine Or.inr (Or.inr ⟨?_, Nat.le_of_lt hlt⟩)
        by_contra hmore
        have hsecond := h 1 (by omega) 0 hhost
        rw [Shape.flatChunk, Nat.one_mul, Nat.add_zero] at hsecond
        simp only [Shape.chunkDecode, Nat.div_eq_of_lt hlt] at hsecond
        exact absurd hsecond Nat.zero_ne_one
      · exact Or.inr (Or.inl heq)
      · -- The device starts a second row inside the first.
        have hfirst := h 0 (by omega) s.device.chunksPerRow hgt
        rw [Shape.flatChunk, Nat.zero_mul, Nat.zero_add] at hfirst
        simp only [Shape.chunkDecode, Nat.div_self hdev] at hfirst
        exact absurd hfirst Nat.one_ne_zero
    · -- Without columns there are no chunks on either side.
      have hnone : s.colBlocks = 0 := by omega
      refine Or.inr (Or.inl ?_)
      simp only [Shape.chunksPerRow, Shape.chunkTiles, device_colBlocks, hnone, Nat.min_zero,
        Nat.div_zero]

/-- If every encoded chunk holds its tile, the rows agree. -/
theorem rowsAgree_of_partitioned {devIdx : Nat} (h : s.Partitioned devIdx) : s.RowsAgree := by
  refine rowsAgree_of_row devIdx fun row hrow col hcol => ?_
  rcases encode_start hrow hcol with ⟨hmem, heq⟩
  have hin := (h.2 _ hmem).2
  rw [heq, Decoded.tiles, Finset.mem_product, Finset.mem_singleton] at hin
  exact hin.1.symm

/-- The chunks of a slice are a partition of its tiles, and the encoders find
    the chunk of each tile, exactly if host and device count the same rows. -/
theorem partitioned_iff (s : Shape) (devIdx : Nat) : s.Partitioned devIdx ↔ s.RowsAgree := by
  constructor
  · exact rowsAgree_of_partitioned
  · intro h
    -- The chunks are the fibres of the encoder, none of them empty.
    have hfibre : ∀ c ∈ Set.Iio s.totalChunks,
        s.sliceTiles.filter (s.encode · = c) = (s.chunkDecode devIdx c).tiles := by
      intro c hc
      ext tile
      rw [Finset.mem_filter]
      exact (mem_tiles_iff h devIdx hc tile).symm
    have hstart : ∀ c < s.totalChunks, ∃ tile ∈ s.sliceTiles, s.encode tile = c := by
      intro c hc
      rcases exists_flatChunk hc with ⟨row, hrow, col, hcol, rfl⟩
      exact ⟨_, encode_start hrow hcol⟩
    constructor
    · rcases exists_finpartition_fibres (fun tile => encode_lt) hstart with ⟨P, hP⟩
      exact ⟨P, hP.congr hfibre⟩
    · intro tile htile
      have hlt := encode_lt htile
      exact ⟨hlt, (mem_tiles_iff h devIdx hlt tile).mpr ⟨htile, rfl⟩⟩

/-- The environment matters only if it sets a size: left alone, host and device
    count the same rows. -/
theorem rowsAgree_of_default (h : s.chunkTilesOverride = 0) : s.RowsAgree := by
  have hself : s.device = s := by
    rw [Shape.device, ← h]
  rw [Shape.RowsAgree, hself]
  exact Or.inr (Or.inl rfl)

/-- Two row blocks of eight columns and a chunk size of two: four chunks in a
    row on the host, two on the device. -/
theorem decode_disagrees : ¬ ∀ (s : Shape) (devIdx : Nat), s.Partitioned devIdx := by
  intro h
  have hagree := rowsAgree_of_partitioned (h ⟨256, 2048, 1, 2⟩ 0)
  exact absurd hagree (by decide)

end GemmAr

end MKernel
