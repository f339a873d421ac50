import MKernel.Core.TileOrder
import MKernel.GemmAr.Chunks

/-!
# The Orders of the Compute Tasks

The compute CTAs number their tasks, and a decoder says which tile a number stands for.
There are four decoders. Three of them divide the number by that of the tiles of a slice
or of a round, and what is left over by that of the columns. The fourth goes through each
slice in bands of `super_m` row blocks, and through what is left of the slice in one more
band that is not as high.

Whichever the sizes are, each decoder goes through all tiles, so CTAs that take the tasks
in strides compute each tile once.

## Main definitions

* `sliceRowMajorDecode`, `sliceInterleavedDevrelDecode`, `sliceSuperMDecode`: The tile of
  a task.
* `TakesEach`: The tasks are those of the tiles.

## Theorems

* `takesEach_of_order`: A decoder that is a tile order takes each tile.
* `isTileOrder_rowMajor`, `isTileOrder_slices`, `isTileOrder_devrel`, `isTileOrder_superM`:
  The decoders are tile orders.
-/

namespace MKernel

namespace GemmAr

open MKernel.Core

/-- `slice_row_major_decode`: the row block and the column of a task. -/
def sliceRowMajorDecode (taskId rowBlocksPerSlice colBlocks : Nat) : Nat × Nat :=
  let tilesPerSlice := rowBlocksPerSlice * colBlocks
  let sliceIdx := taskId / tilesPerSlice
  let localIdx := taskId - sliceIdx * tilesPerSlice
  let rbInSlice := localIdx / colBlocks
  (sliceIdx * rowBlocksPerSlice + rbInSlice, localIdx - rbInSlice * colBlocks)

/-- `slice_interleaved_devrel_decode`. -/
def sliceInterleavedDevrelDecode (taskId rowBlocksPerSlice colBlocks numSlices devIdx : Nat) :
    Nat × Nat :=
  let tilesPerRound := numSlices * colBlocks
  let roundIdx := taskId / tilesPerRound
  let withinRound := taskId - roundIdx * tilesPerRound
  let rawSlice := withinRound / colBlocks
  let sliceIdx := (rawSlice + devIdx) % numSlices
  (sliceIdx * rowBlocksPerSlice + roundIdx, withinRound - rawSlice * colBlocks)

/-- `slice_super_m_decode`. The source divides by `super_m`, so it is positive there. -/
def sliceSuperMDecode (taskId rowBlocksPerSlice colBlocks superM : Nat) : Nat × Nat :=
  let tilesPerSlice := rowBlocksPerSlice * colBlocks
  let sliceIdx := taskId / tilesPerSlice
  let localIdx := taskId - sliceIdx * tilesPerSlice
  let superRows := rowBlocksPerSlice / superM * superM
  let superBlocks := superM * colBlocks
  if localIdx < superRows * colBlocks then
    let band := localIdx / superBlocks
    let inBand := localIdx - band * superBlocks
    let rbInBand := inBand % superM
    (sliceIdx * rowBlocksPerSlice + band * superM + rbInBand, inBand / superM)
  else
    let tailRows := rowBlocksPerSlice - superRows
    let tailIdx := localIdx - superRows * colBlocks
    let rbInTail := tailIdx % tailRows
    (sliceIdx * rowBlocksPerSlice + superRows + rbInTail, tailIdx / tailRows)

/-- The tasks are one to one those of the tiles, and a tile is computed once by CTAs that
    take every task from their index on, in strides of their number. -/
structure TakesEach (decode : Nat → Nat × Nat) (rowBlocks colBlocks : Nat) : Prop where
  bijective : Set.BijOn decode (Set.Iio (rowBlocks * colBlocks))
    (Set.Iio rowBlocks ×ˢ Set.Iio colBlocks)
  once : ∀ numCompSms, 0 < numCompSms → ∀ tile,
    (((List.range numCompSms).flatMap fun cta =>
      walk cta numCompSms (rowBlocks * colBlocks)).map decode).count tile =
        if tile.1 < rowBlocks ∧ tile.2 < colBlocks then 1 else 0

theorem takesEach_of_order {decode : Nat → Nat × Nat} {rowBlocks colBlocks : Nat}
    (h : IsTileOrder decode rowBlocks colBlocks) : TakesEach decode rowBlocks colBlocks :=
  ⟨h, fun _ hpos tile => h.once hpos tile⟩

section Orders

variable (rowBlocksPerSlice colBlocks numSlices devIdx superM : Nat)

theorem isTileOrder_rowMajor : IsTileOrder
    (fun taskId => sliceRowMajorDecode taskId rowBlocksPerSlice colBlocks)
    (numSlices * rowBlocksPerSlice) colBlocks := by
  refine (IsTileOrder.slices (IsTileOrder.rows rowBlocksPerSlice colBlocks)
    (Set.bijOn_id _)).congr fun taskId _ => ?_
  simp only [sliceRowMajorDecode, ← Nat.mod_eq_sub_div_mul, id_eq]

theorem isTileOrder_slices : IsTileOrder
    (fun taskId => sliceInterleavedSlicesDecode taskId rowBlocksPerSlice colBlocks numSlices)
    (numSlices * rowBlocksPerSlice) colBlocks := by
  refine (IsTileOrder.rounds (Set.bijOn_id _)).congr fun taskId _ => ?_
  simp only [sliceInterleavedSlicesDecode, ← Nat.mod_eq_sub_div_mul, id_eq]

/-- Each round begins with the slice of the GPU, and still has every slice. -/
theorem isTileOrder_devrel : IsTileOrder
    (fun taskId => sliceInterleavedDevrelDecode taskId rowBlocksPerSlice colBlocks numSlices devIdx)
    (numSlices * rowBlocksPerSlice) colBlocks := by
  refine (IsTileOrder.rounds (IsTileOrder.rotate numSlices devIdx)).congr fun taskId _ => ?_
  simp only [sliceInterleavedDevrelDecode, ← Nat.mod_eq_sub_div_mul]

/-- The bands of a slice are followed by its left-over row blocks. -/
theorem isTileOrder_superM : IsTileOrder
    (fun taskId => sliceSuperMDecode taskId rowBlocksPerSlice colBlocks superM)
    (numSlices * rowBlocksPerSlice) colBlocks := by
  refine (IsTileOrder.slices (IsTileOrder.bands rowBlocksPerSlice colBlocks superM)
    (Set.bijOn_id _)).congr fun taskId _ => ?_
  simp only [sliceSuperMDecode, ← Nat.mod_eq_sub_div_mul, id_eq, Nat.add_assoc]
  by_cases hband : taskId % (rowBlocksPerSlice * colBlocks) <
      rowBlocksPerSlice / superM * superM * colBlocks
  · simp only [if_pos hband]
  · simp only [if_neg hband]

end Orders

end GemmAr

end MKernel
