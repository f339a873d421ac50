import MKernel.GemmAr.Scratch
import MKernel.Internode.Arrivals

/-!
# The Use of the Scratch

Which places of the scratch the kernel of `gemm_ar` and its host use, and that
they are there.

The kernel indexes its counters by queue, by chunk and by compute chunk, and the
one ring it uses by position. The index of a chunk comes from one of five
places: the tile an intra-node CTA reduces, the row block a sending CTA owns,
the word a drainer finds, the stride of a reducing CTA, or its window. Each of
them stays below the number of chunks, whatever the word (`lt_of_chunkIndex`).
The compute CTAs count the chunks of all row blocks, and in a shape the GPUs do
not divide they still decode no task into a row that is not there
(`flatChunk_chunkOfTask_lt`).

So in a layout that fits, no place of a region is used that is not in it, and no
two regions share one (`scratch_layout`). The rings between the CTAs have room
for all chunks. Those of the owners do not have to, and do not: each of them is
one of several, and is given twice the chunks of a row.

A layout that does not fit is accepted with regions that overlap, and the mirror
does not make a number of queues good, so both conditions stay
(`scratch_not_as_stated`).

## Main definitions

* `ChunkIndex`: The indices of chunks the kernel comes by.
* `Uses`: The places that are used.

## Theorems

* `lt_of_chunkIndex`, `lt_of_uses`: All of them are there.
* `exists_gemmRqCapacity`, `exists_ownerPendingCapacity`: The rings, as powers of two.
* `scratch_layout`: Disjoint regions, large enough, and the mirror's total.
* `scratch_not_as_stated`: What does not hold of all launches.
-/

namespace MKernel

namespace GemmAr

open MKernel.Core MKernel.Internode.Arrivals

namespace ScratchArgs

variable (a : ScratchArgs)

/-- What the drainers read of the launch. Where a word points to has nothing to do
    with the number of peers. -/
def drainage : Drainage :=
  gemmArDrainage 0 a.shape.rowBlocksPerSlice a.shape.colBlocks a.shape.chunkTiles
    a.shape.chunksPerRow (Nat.zero_le _)

/-- The indices of chunks the CTAs of the kernel come by. -/
inductive ChunkIndex : Nat → Prop
  /-- `fused_intra_ar_sm`: the chunk of a tile. -/
  | intra {tile : Nat} (h : tile < a.shape.totalTilesPerDevice) :
      ChunkIndex (a.shape.flatChunk (a.shape.chunkOfTile tile).1 (a.shape.chunkOfTile tile).2)
  /-- `fused_inter_send_sm`: the chunks of the row blocks a CTA owns. -/
  | send {sendId stride rb c : Nat} (hstride : 0 < stride)
      (hrb : rb ∈ walk sendId stride a.shape.rowBlocksPerSlice) (hc : c < a.shape.chunksPerRow) :
      ChunkIndex (rb * a.shape.chunksPerRow + c)
  /-- `gemm_ar_drain_arrival_queue_publish_flags`: a chunk of the run of a word,
      which comes from a peer that has chunks to send. -/
  | drain {flagVal : BitVec 32} {k : Nat} (hpeer : 0 < a.shape.totalChunks)
      (hlive : ((Cursor.next a.drainage)^[k] (Cursor.ofWord a.drainage flagVal)).Live
        a.drainage) :
      ChunkIndex (((Cursor.next a.drainage)^[k] (Cursor.ofWord a.drainage flagVal)).chunkId
        a.drainage)
  /-- `shared_reduce_my_slice_static` and `gemm_ar_try_enqueue_recv_ready_chunks`:
      the chunks a CTA owns. -/
  | owned {ctaId stride c : Nat} (hstride : 0 < stride)
      (hc : c ∈ walk ctaId stride a.shape.totalChunks) : ChunkIndex c
  /-- The scans for a chunk to claim, which need more than 64 chunks. -/
  | window {origin i : Nat} (hchunks : 64 < a.shape.totalChunks) :
      ChunkIndex ((origin + i) % a.shape.totalChunks)

/-- The places of the scratch that are used, by the kernel or by
    `gemm_ar_init_debug_scratch`. Regions that are missing are laid out and not
    used. -/
inductive Uses : Region → Nat → Prop
  /-- A flag or a count of each chunk. -/
  | chunk {r : Region} {c : Nat}
      (hr : r ∈ [Region.chunkRemoteArrived, .localDoneFlag, .remoteArrivedFlag,
        .remoteArrivedPeerMask, .intraChunkTilesDone])
      (hc : a.ChunkIndex c) : Uses r c
  /-- A cursor or a count of each queue a CTA drains. -/
  | queue {r : Region} {ctaId stride q : Nat}
      (hr : r ∈ [Region.arrivalQueueHead, .queueObservedArrivals]) (hstride : 0 < stride)
      (hq : q ∈ walk ctaId stride a.numRemoteQueues) : Uses r q
  /-- What the host expects of each queue. -/
  | expected {q : Nat} (hq : q < a.numRemoteQueues) : Uses .queueExpectedArrivals q
  /-- `fused_comp_sm`: the count of the chunk of a task. -/
  | compute {task : Nat} (h : task < a.shape.numBlocks) :
      Uses .compChunkTilesDone
        (a.shape.flatChunk (a.shape.chunkOfTask task).1 (a.shape.chunkOfTask task).2)
  /-- An entry of the queue of chunks that are ready to be reduced. -/
  | entry (pos : BitVec 32) :
      Uses .remoteRqEntries (pos.toNat % a.layout.remoteRqCapacity.toNat)
  /-- A counter, a cursor or a flag there is one of. -/
  | one {r : Region}
      (hr : r ∈ [Region.localArDoneChunks, .sendIssuedChunks, .remoteArrivedChunks,
        .publishedChunks, .finalPublishDone, .debugFlags, .remoteRqHead, .remoteRqTail,
        .reduceCursor, .xnodeReadyDevice]) : Uses r 0

variable {a}

/-- The loop of a drainer does not leave the row block the word points to. -/
theorem rb_next (l : Drainage) (c : Cursor) (k : Nat) : ((Cursor.next l)^[k] c).rb = c.rb := by
  induction k with
  | zero => rfl
  | succ k ih =>
      rw [Function.iterate_succ_apply']
      exact ih

theorem colBlocks_pos : 0 < a.shape.colBlocks := Nat.div_pos a.n_ge (by omega)

/-- Whatever a word says, it points to a row block of the slice. -/
theorem rb_ofWord_lt (h : 0 < a.shape.totalChunks) (flagVal : BitVec 32) :
    (Cursor.ofWord a.drainage flagVal).rb < a.shape.rowBlocksPerSlice := by
  have hcols := a.colBlocks_pos
  have hrows : 0 < a.shape.rowBlocksPerSlice := Nat.pos_of_mul_pos_right h
  have htiles : 0 < a.shape.rowBlocksPerSlice * a.shape.colBlocks := Nat.mul_pos hrows hcols
  unfold Cursor.ofWord
  dsimp only
  change (_ - _ / (a.shape.rowBlocksPerSlice * a.shape.colBlocks) *
    (a.shape.rowBlocksPerSlice * a.shape.colBlocks)) / a.shape.colBlocks < _
  rw [Nat.div_lt_iff_lt_mul hcols]
  generalize Int.toNat _ = firstTile
  -- What is left of the first tile is its place in the slice.
  have hsplit := Nat.div_add_mod' firstTile (a.shape.rowBlocksPerSlice * a.shape.colBlocks)
  have hmod := Nat.mod_lt firstTile htiles
  omega

/-- All indices of chunks are below the number of chunks. -/
theorem lt_of_chunkIndex {c : Nat} (h : a.ChunkIndex c) : c < a.shape.totalChunks := by
  cases h with
  | intra htile =>
      have hlt := chunkOfTile_lt htile
      exact flatChunk_lt hlt.1 hlt.2
  | send hstride hrb hc => exact flatChunk_lt (lt_of_mem_walk hstride hrb) hc
  | @drain flagVal k hpeer hlive =>
      have hrb := rb_ofWord_lt hpeer flagVal
      rw [← rb_next a.drainage _ k] at hrb
      exact flatChunk_lt hrb (div_chunkTiles_lt hlive.1.2)
  | owned hstride hc => exact lt_of_mem_walk hstride hc
  | window hchunks => exact Nat.mod_lt _ (by omega)

/-- A slice takes its part of the row blocks, rounded down. -/
theorem rowBlocksPerSlice_eq : a.shape.rowBlocksPerSlice = a.shape.rowBlocks / a.numDevices := by
  change a.m / a.numDevices / 128 = a.m / 128 / a.numDevices
  rw [Nat.div_div_eq_div_mul, Nat.div_div_eq_div_mul, Nat.mul_comm]

/-- A round that begins is no further than the last row block of a slice, or it
    is the one of the row blocks left over. -/
theorem interleaved_lt {rows devices rnd slice : Nat} (hslice : slice < devices)
    (h : rnd * devices + slice < rows) : slice * (rows / devices) + rnd < rows := by
  have hdev : 0 < devices := Nat.lt_of_le_of_lt (Nat.zero_le _) hslice
  have hround : rnd ≤ rows / devices := by
    rw [Nat.le_div_iff_mul_le hdev]
    omega
  have hslices : (slice + 1) * (rows / devices) ≤ devices * (rows / devices) :=
    Nat.mul_le_mul_right _ hslice
  have hall : devices * (rows / devices) ≤ rows := Nat.mul_div_le rows devices
  rw [Nat.succ_mul] at hslices
  rcases Nat.lt_or_eq_of_le hround with hlt | heq
  · omega
  · have hleft : devices * (rows / devices) = rnd * devices := by rw [heq, Nat.mul_comm]
    omega

/-- A task is decoded into a row block that is there, even if the GPUs do not
    divide the row blocks. -/
theorem chunkOfTask_lt {task : Nat} (h : task < a.shape.numBlocks) :
    (a.shape.chunkOfTask task).1 < a.shape.rowBlocks ∧
      (a.shape.chunkOfTask task).2 < a.shape.chunksPerRow := by
  have hcols := a.colBlocks_pos
  have hround : 0 < a.numDevices * a.shape.colBlocks := Nat.mul_pos a.numDevices_pos hcols
  -- The task is at a column of a slice's row block, in a round.
  obtain ⟨rnd, within, hwithin, rfl⟩ : ∃ rnd within, within < a.numDevices * a.shape.colBlocks ∧
      rnd * (a.numDevices * a.shape.colBlocks) + within = task :=
    ⟨_, _, Nat.mod_lt task hround, Nat.div_add_mod' task _⟩
  obtain ⟨slice, col, hcol, rfl⟩ : ∃ slice col, col < a.shape.colBlocks ∧
      slice * a.shape.colBlocks + col = within :=
    ⟨_, _, Nat.mod_lt within hcols, Nat.div_add_mod' within _⟩
  have hslice : slice < a.numDevices := by
    refine Nat.lt_of_mul_lt_mul_right (Nat.lt_of_le_of_lt ?_ hwithin)
    exact Nat.le_add_right _ col
  have hplace : rnd * a.numDevices + slice < a.shape.rowBlocks := by
    unfold Shape.numBlocks at h
    refine Nat.lt_of_mul_lt_mul_right (Nat.lt_of_le_of_lt ?_ h)
    calc (rnd * a.numDevices + slice) * a.shape.colBlocks
        = rnd * (a.numDevices * a.shape.colBlocks) + slice * a.shape.colBlocks := by ring
      _ ≤ rnd * (a.numDevices * a.shape.colBlocks) + (slice * a.shape.colBlocks + col) :=
          Nat.add_le_add_left (Nat.le_add_right _ col) _
  have hdecode : a.shape.chunkOfTask
      (rnd * (a.numDevices * a.shape.colBlocks) + (slice * a.shape.colBlocks + col)) =
        (slice * a.shape.rowBlocksPerSlice + rnd, col / a.shape.chunkTiles) := by
    rw [Shape.chunkOfTask]
    change (let tile := sliceInterleavedSlicesDecode _ _ _ a.numDevices
      (tile.1, tile.2 / _)) = _
    rw [decode_eq hslice hcol]
  rw [hdecode, rowBlocksPerSlice_eq]
  exact ⟨interleaved_lt hslice hplace, div_chunkTiles_lt hcol⟩

/-- The compute CTAs count in one of as many places as there are chunks. -/
theorem flatChunk_chunkOfTask_lt {task : Nat} (h : task < a.shape.numBlocks) :
    a.shape.flatChunk (a.shape.chunkOfTask task).1 (a.shape.chunkOfTask task).2 <
      a.shape.rowBlocks * a.shape.chunksPerRow :=
  place_lt (chunkOfTask_lt h).1 (chunkOfTask_lt h).2

/-! ## Capacities -/

/-- In layouts that fit, the ready queues have a power of two of entries, which is
    enough for all chunks. -/
theorem exists_gemmRqCapacity (h : a.Fits) :
    ∃ k : Nat, a.layout.gemmRqCapacity = 2 ^ k ∧ a.layout.totalChunks ≤ 2 ^ k := by
  have hlt : (a.layoutIn id).totalChunks < 2 ^ 31 := size_lt h .localDoneFlag
  rw [layout, gemmRqCapacity_eq h, totalChunks_eq h, gemmRqCapacity_layoutIn, id]
  have hcap : max 16 (a.layoutIn id).totalChunks ≤ 2 ^ 32 := by omega
  obtain ⟨k, heq, hle⟩ := exists_roundUp hcap
  exact ⟨k, heq, Int.le_trans (Int.le_max_right _ _) hle⟩

/-- In layouts that fit, the ring of an owner has a power of two of entries, which is
    enough for two rows of chunks. -/
theorem exists_ownerPendingCapacity (h : a.Fits) :
    ∃ k : Nat, a.layout.ownerPendingCapacity = 2 ^ k ∧
      max 8 (a.layout.chunksPerRow * 2) ≤ 2 ^ k := by
  have hrow := a.chunksPerRow_lt
  rw [layout, ownerPendingCapacity_eq h, ownerPendingCapacity_layoutIn, chunksPerRow_layoutIn]
  exact exists_roundUp (by simp only [id]; omega)

/-- A used place is one of its region's. -/
theorem lt_of_uses (h : a.Fits) {r : Region} {i : Nat} (huse : a.Uses r i) :
    (i : Int) < a.regions.size r := by
  rw [regions_size h]
  cases huse with
  | chunk hr hc =>
      -- A chunk is below the number of chunks.
      have hlt := lt_of_chunkIndex hc
      have hsize : Region.size (a.countsIn id) r = (a.layoutIn id).totalChunks := by
        simp only [List.mem_cons, List.not_mem_nil, or_false] at hr
        rcases hr with rfl | rfl | rfl | rfl | rfl <;> rfl
      rw [hsize, totalChunks_layoutIn, id, ← Int.natCast_mul]
      exact Int.ofNat_lt.mpr hlt
  | queue hr hstride hq =>
      have hlt := lt_of_mem_walk hstride hq
      have hsize : Region.size (a.countsIn id) r = (a.numRemoteQueues : Int) := by
        simp only [List.mem_cons, List.not_mem_nil, or_false] at hr
        rcases hr with rfl | rfl <;> rfl
      rw [hsize]
      exact Int.ofNat_lt.mpr hlt
  | expected hq => exact Int.ofNat_lt.mpr hq
  | compute htask =>
      have hlt := flatChunk_chunkOfTask_lt htask
      change _ < (a.shape.rowBlocks : Int) * a.shape.chunksPerRow
      rw [← Int.natCast_mul]
      exact Int.ofNat_lt.mpr hlt
  | entry pos =>
      -- The places of a queue are taken modulo its capacity, which is positive.
      have hpow : ∃ k : Nat, a.layout.remoteRqCapacity = 2 ^ k := by
        obtain ⟨k, hk, -⟩ := exists_gemmRqCapacity h
        exact ⟨k, hk⟩
      change _ < (a.layoutIn id).gemmRqCapacity
      rw [← gemmRqCapacity_eq h]
      obtain ⟨k, hk⟩ := hpow
      change _ < a.layout.remoteRqCapacity
      have hpos : (0 : Int) < 2 ^ k := Int.pow_pos (by omega)
      have hmod := Nat.mod_lt pos.toNat (show 0 < a.layout.remoteRqCapacity.toNat by omega)
      omega
  | one hr =>
      have hsize : Region.size (a.countsIn id) r = 1 := by
        simp only [List.mem_cons, List.not_mem_nil, or_false] at hr
        rcases hr with rfl | rfl | rfl | rfl | rfl | rfl | rfl | rfl | rfl | rfl <;> rfl
      rw [hsize]
      exact Int.one_pos

end ScratchArgs

/-- Where the total fits into an `int`, no two regions share a place, all of them
    lie in the buffer, and what is used of a region lies in it. The ready queues
    have room for all chunks and the rings of the owners for two rows each, all
    of them a power of two. The mirror returns the total for any number of
    queues from one on, and the entry point accepts a buffer of that size. -/
theorem scratch_layout (a : ScratchArgs) (h : a.Fits) :
    (∀ r r', r ≠ r' → Disjoint (a.regions.cells r) (a.regions.cells r')) ∧
    (∀ r, 0 ≤ a.regions.offset r ∧
      a.regions.offset r + a.regions.size r ≤ a.layout.scratchIntsNeeded) ∧
    (∀ r i, a.Uses r i → (i : Int) < a.regions.size r) ∧
    (∃ k : Nat, a.layout.totalChunks ≤ 2 ^ k ∧ a.layout.gemmRqCapacity = 2 ^ k ∧
      a.layout.localArRqCapacity = 2 ^ k ∧ a.layout.remoteRqCapacity = 2 ^ k) ∧
    (∃ k : Nat, max 8 (a.layout.chunksPerRow * 2) ≤ 2 ^ k ∧
      a.layout.ownerPendingCapacity = 2 ^ k) ∧
    (1 ≤ a.numRemoteQueuesArg →
      computeScratchInts a.chunkTilesEnv a.m a.n a.numDevices a.numRemoteQueuesArg =
        a.layout.scratchIntsNeeded ∧
      a.Accepts
        (computeScratchInts a.chunkTilesEnv a.m a.n a.numDevices a.numRemoteQueuesArg)) := by
  have hchain := ScratchArgs.chain_regions h
  have hsize : ∀ r ∈ Region.order, 0 ≤ a.regions.size r :=
    fun r _ => ScratchArgs.regions_size_nonneg h r
  refine ⟨?_, ?_, ?_, ?_, ?_, ?_⟩
  · intro r r' hne
    exact hchain.disjoint hsize r.mem_order r'.mem_order hne
  · intro r
    exact hchain.bounds hsize r.mem_order
  · intro r i huse
    exact ScratchArgs.lt_of_uses h huse
  · obtain ⟨k, hk, hle⟩ := ScratchArgs.exists_gemmRqCapacity h
    exact ⟨k, hle, hk, hk, hk⟩
  · obtain ⟨k, hk, hle⟩ := ScratchArgs.exists_ownerPendingCapacity h
    exact ⟨k, hle, hk⟩
  · intro hq
    rw [ScratchArgs.scratchIntsNeeded_eq h]
    exact ⟨ScratchArgs.computeScratchInts_eq hq, ScratchArgs.accepts_computeScratchInts h hq⟩

section Sample

/-- Eight GPUs, eight row blocks on each, and eight chunks in a row. -/
def benchShape (numRemoteQueuesArg : Int) (h : numRemoteQueuesArg < 2 ^ 31) : ScratchArgs where
  m := 8192
  n := 8192
  numDevices := 8
  chunkTilesEnv := none
  numRemoteQueuesArg := numRemoteQueuesArg
  numAllocatedRemoteQueuesArg := 8
  numNodes := 2
  m_lt := by decide
  n_lt := by decide
  n_ge := by decide
  numDevices_pos := by decide
  numRemoteQueuesArg_lt := h

theorem scratch_layout_bench :
    (benchShape 8 (by decide)).Fits ∧
    computeScratchInts none 8192 8192 8 8 = (benchShape 8 (by decide)).layout.scratchIntsNeeded ∧
    (benchShape 8 (by decide)).Accepts (computeScratchInts none 8192 8192 8 8) :=
  have hfits : (benchShape 8 (by decide)).Fits := by decide +kernel
  ⟨hfits, (scratch_layout (benchShape 8 (by decide)) hfits).2.2.2.2.2 (by decide)⟩

/-- The rings of the owners do not have room for all chunks; with 200000000 queues
    the sums wrap around, and what is left of the total is accepted; and the mirror
    counts no queue where the entry point makes it one. -/
theorem scratch_not_as_stated :
    (¬ ∀ (a : ScratchArgs) (scratchInts : Int), a.Accepts scratchInts →
      a.layout.totalChunks ≤ a.layout.ownerPendingCapacity) ∧
    (¬ ∀ (a : ScratchArgs) (scratchInts : Int), a.Accepts scratchInts →
      ∀ r r', r ≠ r' → Disjoint (a.regions.cells r) (a.regions.cells r')) ∧
    ¬ ∀ (a : ScratchArgs) (scratchInts : Int), a.Accepts scratchInts →
      computeScratchInts a.chunkTilesEnv a.m a.n a.numDevices a.numRemoteQueuesArg =
        a.layout.scratchIntsNeeded := by
  refine ⟨?_, ?_, ?_⟩
  · intro h
    exact absurd (h (benchShape 8 (by decide)) 4096 (by decide +kernel)) (by decide +kernel)
  · intro h
    have hdisjoint := h (benchShape 200000000 (by decide)) (2 ^ 31 - 1) (by decide +kernel)
      .ownerPendingMaxDepth .arrivalQueueHead (by decide)
    -- Place 1000 is in both.
    have hhead : (1000 : Int) ∈ (benchShape 200000000 (by decide)).regions.cells
        .ownerPendingMaxDepth := Set.mem_Ico.mpr (by decide +kernel)
    have hcursor : (1000 : Int) ∈ (benchShape 200000000 (by decide)).regions.cells
        .arrivalQueueHead := Set.mem_Ico.mpr (by decide +kernel)
    exact Set.disjoint_left.mp hdisjoint hhead hcursor
  · intro h
    exact absurd (h (benchShape 0 (by decide)) 4096 (by decide +kernel)) (by decide +kernel)

end Sample

end GemmAr

end MKernel
