import MKernel.AgGemm.Signals
import MKernel.GemmRs.Tasks

/-!
# The Tiles of the Decoders

The decoder of `ag_gemm` goes through the tiles of a shard in bands of `SUPER_M` row
blocks, as one of those of `gemm_ar` does. The numbers from the number of the tiles of a
shard on are those of a remote shard, whose tiles are gone through again. The compute
CTAs use it for one shard at a time. They begin with that of their own node, so in the
end they have been at each tile of the output.

With this the decoders of all three kernels are known to be one to one onto the tiles,
for all sizes (`decoders_bijective`).

## Main definitions

* `decodeTile`: The tile of a shard a task stands for.
* `bothTile`: The tile of two shards, a local and a remote one.
* `outTile`: The tile of the output a compute task stands for.

## Theorems

* `isTileOrder_decode`, `isTileOrder_bothTile`: The tasks of the shards are their tiles.
* `isTileOrder_outTile`: The compute tasks are the tiles of the output.
* `decoders_bijective`: Each decoder takes each tile.
-/

namespace MKernel

namespace AgGemm

open MKernel.Core MKernel.GemmAr

/-- The tile of a shard a task stands for. -/
def decodeTile (nodeRowBlocks colBlocks taskId : Nat) : Nat × Nat :=
  let t := decodeShard nodeRowBlocks colBlocks taskId
  (t.rb, t.colIdx)

/-- The tile of a task of two shards, with those of the remote one below the others. -/
def bothTile (nodeRowBlocks colBlocks taskId : Nat) : Nat × Nat :=
  let t := decodeShard nodeRowBlocks colBlocks taskId
  let tile := decodeTile nodeRowBlocks colBlocks taskId
  ((if t.isRemote then nodeRowBlocks else 0) + tile.1, tile.2)

/-- The row block and the column that the store warp of a compute CTA stores. -/
def outTile (nodeIdx numNodes nodeRowBlocks colBlocks taskId : Nat) : Nat × Nat :=
  let numNodeBlocks := nodeRowBlocks * colBlocks
  let shardStep := taskId / numNodeBlocks
  let shardRank := (nodeIdx + shardStep) % numNodes
  let t := decodeShard nodeRowBlocks colBlocks (taskId - shardStep * numNodeBlocks)
  (shardRank * nodeRowBlocks + t.rb, t.colIdx)

section Orders

variable (nodeRowBlocks colBlocks : Nat)

theorem isRemote_decodeShard (taskId : Nat) :
    (decodeShard nodeRowBlocks colBlocks taskId).isRemote =
      decide (nodeRowBlocks * colBlocks ≤ taskId) := by
  simp only [decodeShard, decodeCompTask, apply_ite CompTask.isRemote, ite_self]

/-- The tiles of a remote shard are gone through as those of a local one. -/
theorem decodeTile_remote {taskId : Nat} (htask : taskId < nodeRowBlocks * colBlocks) :
    decodeTile nodeRowBlocks colBlocks (nodeRowBlocks * colBlocks + taskId) =
      decodeTile nodeRowBlocks colBlocks taskId := by
  have hlocal : ¬ nodeRowBlocks * colBlocks ≤ taskId := Nat.not_le.mpr htask
  simp only [decodeTile, decodeShard, decodeCompTask, hlocal, Nat.le_add_right, decide_true,
    decide_false, if_true, Bool.false_eq_true, if_false, Nat.add_sub_cancel_left]
  split <;> rfl

theorem isTileOrder_decode :
    IsTileOrder (decodeTile nodeRowBlocks colBlocks) nodeRowBlocks colBlocks := by
  refine (IsTileOrder.bands nodeRowBlocks colBlocks superM).congr fun taskId htask => ?_
  have hlocal : ¬ nodeRowBlocks * colBlocks ≤ taskId := Nat.not_le.mpr htask
  simp only [decodeTile, decodeShard, decodeCompTask, hlocal, decide_false, Bool.false_eq_true,
    if_false]
  by_cases hband : taskId < nodeRowBlocks / superM * superM * colBlocks
  · simp only [if_pos hband, Nat.mod_mul_right_mod, Nat.mul_comm superM (taskId / _)]
  · simp only [if_neg hband]
    by_cases hleft : 0 < nodeRowBlocks - nodeRowBlocks / superM * superM
    · rw [if_pos hleft]
    · -- With no rows left over, every task is in a band.
      have hall : nodeRowBlocks / superM * superM = nodeRowBlocks :=
        Nat.le_antisymm (Nat.div_mul_le_self _ _) (by omega)
      rw [hall] at hband
      exact absurd htask hband

/-- The tasks of a local shard are followed by those of a remote one. -/
theorem isTileOrder_bothTile :
    IsTileOrder (bothTile nodeRowBlocks colBlocks) (nodeRowBlocks + nodeRowBlocks) colBlocks := by
  have hshard := isTileOrder_decode nodeRowBlocks colBlocks
  refine (hshard.stack hshard).congr fun taskId htask => ?_
  rw [Nat.add_mul] at htask
  simp only [bothTile, isRemote_decodeShard]
  by_cases hlocal : taskId < nodeRowBlocks * colBlocks
  · have hremote : ¬ nodeRowBlocks * colBlocks ≤ taskId := Nat.not_le.mpr hlocal
    simp only [if_pos hlocal, hremote, decide_false, Bool.false_eq_true, if_false, Nat.zero_add]
  · rcases Nat.exists_eq_add_of_le (Nat.not_lt.mp hlocal) with ⟨k, rfl⟩
    have hk : k < nodeRowBlocks * colBlocks := Nat.lt_of_add_lt_add_left htask
    simp only [if_neg hlocal, Nat.le_add_right, decide_true, if_true, Nat.add_sub_cancel_left,
      decodeTile_remote _ _ hk]

/-- The shards come one after the other, that of the node first. -/
theorem isTileOrder_outTile (nodeIdx numNodes : Nat) :
    IsTileOrder (outTile nodeIdx numNodes nodeRowBlocks colBlocks) (numNodes * nodeRowBlocks)
      colBlocks := by
  refine (IsTileOrder.slices (isTileOrder_decode nodeRowBlocks colBlocks)
    (IsTileOrder.rotate numNodes nodeIdx)).congr fun taskId _ => ?_
  simp only [outTile, decodeTile, ← Nat.mod_eq_sub_div_mul, Nat.add_comm nodeIdx]

end Orders

/-- Each decoder takes each tile, whatever the sizes are. -/
theorem decoders_bijective (numSlices rowBlocksPerSlice colBlocks devIdx superM : Nat) :
    let rowBlocks := numSlices * rowBlocksPerSlice
    TakesEach (fun t => GemmAr.sliceRowMajorDecode t rowBlocksPerSlice colBlocks)
      rowBlocks colBlocks ∧
    TakesEach (fun t => GemmAr.sliceInterleavedSlicesDecode t rowBlocksPerSlice colBlocks numSlices)
      rowBlocks colBlocks ∧
    TakesEach (fun t =>
        GemmAr.sliceInterleavedDevrelDecode t rowBlocksPerSlice colBlocks numSlices devIdx)
      rowBlocks colBlocks ∧
    TakesEach (fun t => GemmAr.sliceSuperMDecode t rowBlocksPerSlice colBlocks superM)
      rowBlocks colBlocks ∧
    TakesEach (fun t => GemmRs.sliceRowMajorDecode t rowBlocksPerSlice colBlocks)
      rowBlocks colBlocks ∧
    TakesEach (fun t => GemmRs.sliceInterleavedDecode t rowBlocksPerSlice colBlocks numSlices)
      rowBlocks colBlocks ∧
    TakesEach (fun t =>
        GemmRs.sliceInterleavedDevrelDecode t rowBlocksPerSlice colBlocks numSlices devIdx)
      rowBlocks colBlocks ∧
    TakesEach (fun t => GemmRs.sliceSuperMDecode t rowBlocksPerSlice colBlocks superM)
      rowBlocks colBlocks ∧
    ∀ nodeRowBlocks numNodes nodeIdx,
      TakesEach (decodeTile nodeRowBlocks colBlocks) nodeRowBlocks colBlocks ∧
      TakesEach (bothTile nodeRowBlocks colBlocks) (nodeRowBlocks + nodeRowBlocks) colBlocks ∧
      TakesEach (outTile nodeIdx numNodes nodeRowBlocks colBlocks) (numNodes * nodeRowBlocks)
        colBlocks := by
  have hrows := takesEach_of_order (isTileOrder_rowMajor rowBlocksPerSlice colBlocks numSlices)
  have hslices := takesEach_of_order (isTileOrder_slices rowBlocksPerSlice colBlocks numSlices)
  have hdevrel := takesEach_of_order
    (isTileOrder_devrel rowBlocksPerSlice colBlocks numSlices devIdx)
  have hsuper := takesEach_of_order
    (isTileOrder_superM rowBlocksPerSlice colBlocks numSlices superM)
  -- The decoders of `gemm_rs` are those of `gemm_ar`.
  refine ⟨hrows, hslices, hdevrel, hsuper, hrows, hslices, hdevrel, hsuper,
    fun nodeRowBlocks numNodes nodeIdx => ?_⟩
  exact ⟨takesEach_of_order (isTileOrder_decode nodeRowBlocks colBlocks),
    takesEach_of_order (isTileOrder_bothTile nodeRowBlocks colBlocks),
    takesEach_of_order (isTileOrder_outTile nodeRowBlocks colBlocks nodeIdx numNodes)⟩

end AgGemm

end MKernel
