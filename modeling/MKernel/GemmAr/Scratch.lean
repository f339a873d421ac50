import MKernel.Core.PowerOfTwo
import MKernel.Core.Regions
import MKernel.GemmAr.Decode

/-!
# The Scratch of the Kernel

How the counters, flags and rings of `gemm_ar` are laid out in one buffer.

The caller allocates the buffer and the host divides it. The layout is computed
twice: `gemm_ar_compute_scratch_layout` chains some forty regions, each behind
the one before, in the `int`s of C++; and a Python function that is to return
the same total chains them again, in integers without bound. The entry point
compares the size of the buffer it is given with the total it has computed
itself.

All regions have a size that comes from seven counts. Where the total fits into
an `int`, so do the counts and all sums of the chain (`counts_eq`), and the
chain is one of numbers (`chain_regions`). Where it does not, the entry point
may still be content: the total it compares has wrapped around as well.

## Main definitions

* `ScratchLayout`, `gemmArComputeScratchLayout`: The layout, as the host computes it.
* `Region`, `ScratchLayout.offset`: The pointers `gemm_ar_make_globals` makes of it.
* `computeScratchInts`: The mirror in Python.
* `ScratchArgs`: What the entry point is called with.
* `ScratchArgs.Accepts`: It does not refuse the buffer.
* `Counts`, `Region.size`: What a region is given.

## Theorems

* `chain_layout`: The offsets are a chain, in whatever integers.
* `counts_eq`: In layouts that fit, the counts are right.
* `chain_regions`: And the chain is one of numbers.
* `computeScratchInts_eq`: The mirror returns the total without bound.
* `accepts_computeScratchInts`: So a buffer of that size is accepted.
-/

namespace MKernel

namespace GemmAr

open MKernel.Core

/-! ## The layout -/

/-- `gemm_ar_scratch_layout`. -/
structure ScratchLayout where
  sliceRows : Int
  rowBlocksPerSlice : Int
  colBlocks : Int
  totalChunks : Int
  totalTiles : Int
  chunkTiles : Int
  chunksPerRow : Int
  chunkRemoteArrivedOffset : Int
  arrivalQueueHeadOffset : Int
  localArDoneOffset : Int
  sendIssuedOffset : Int
  remoteArrivedOffset : Int
  publishedOffset : Int
  finalPublishDoneOffset : Int
  debugFlagsOffset : Int
  debugDumpCounterOffset : Int
  queueExpectedOffset : Int
  queueObservedOffset : Int
  rowSendCountOffset : Int
  sliceTiles : Int
  gemmTilesReadyCountOffset : Int
  gemmTileScannedOffset : Int
  gemmRqEntriesOffset : Int
  gemmRqCapacity : Int
  gemmRqHeadOffset : Int
  gemmRqTailOffset : Int
  gemmScanCursorOffset : Int
  localArRqCapacity : Int
  localArRqEntriesOffset : Int
  localArRqHeadOffset : Int
  localArRqTailOffset : Int
  remoteRqCapacity : Int
  remoteRqEntriesOffset : Int
  remoteRqHeadOffset : Int
  remoteRqTailOffset : Int
  ownerPendingCapacity : Int
  ownerPendingEntriesOffset : Int
  ownerPendingHeadOffset : Int
  ownerPendingTailOffset : Int
  ownerPendingMaxDepthOffset : Int
  ownerPendingPushCountOffset : Int
  ownerPendingPopCountOffset : Int
  localDoneFlagOffset : Int
  remoteArrivedFlagOffset : Int
  remoteArrivedPeerMaskOffset : Int
  intraStartedFlagOffset : Int
  reduceCursorOffset : Int
  chunkClaimedFlagOffset : Int
  compChunkTilesDoneOffset : Int
  intraChunkTilesDoneOffset : Int
  xnodeReadyOffset : Int
  scratchIntsNeeded : Int
  remoteQueueStride : Int

/-- `gemm_ar_compute_scratch_layout`, where `wrap` is what is kept of a sum or a
    product. The quotients of the shape are no larger than `M` and `N`. -/
def gemmArComputeScratchLayout (wrap : Int → Int) (s : Shape)
    (numRemoteQueues numAllocatedRemoteQueues numNodes : Int) : ScratchLayout :=
  let rowBlocksPerSlice : Int := s.rowBlocksPerSlice
  let colBlocks : Int := s.colBlocks
  let chunksPerRow : Int := s.chunksPerRow
  let totalChunks := wrap (rowBlocksPerSlice * chunksPerRow)
  let rowBlocks : Int := s.rowBlocks
  let totalTiles := wrap (rowBlocks * colBlocks)
  let chunkRemoteArrivedOffset := 0
  let arrivalQueueHeadOffset := wrap (chunkRemoteArrivedOffset + totalChunks)
  let localArDoneOffset := wrap (arrivalQueueHeadOffset + numRemoteQueues)
  let sendIssuedOffset := wrap (localArDoneOffset + 1)
  let remoteArrivedOffset := wrap (sendIssuedOffset + 1)
  let publishedOffset := wrap (remoteArrivedOffset + 1)
  let finalPublishDoneOffset := wrap (publishedOffset + 1)
  let debugFlagsOffset := wrap (finalPublishDoneOffset + 1)
  let debugDumpCounterOffset := wrap (debugFlagsOffset + 1)
  let queueExpectedOffset := wrap (debugDumpCounterOffset + 1)
  let queueObservedOffset := wrap (queueExpectedOffset + numRemoteQueues)
  let rowSendCountOffset := wrap (queueObservedOffset + numRemoteQueues)
  let sliceTiles := wrap (rowBlocksPerSlice * colBlocks)
  let gemmTilesReadyCountOffset := wrap (rowSendCountOffset + rowBlocksPerSlice)
  let gemmTileScannedOffset := wrap (gemmTilesReadyCountOffset + totalChunks)
  let gemmRqEntriesOffset := wrap (gemmTileScannedOffset + sliceTiles)
  let gemmRqCapacity := wrap (roundUp (max 16 totalChunks).toNat)
  let gemmRqHeadOffset := wrap (gemmRqEntriesOffset + gemmRqCapacity)
  let gemmRqTailOffset := wrap (gemmRqHeadOffset + 1)
  let gemmScanCursorOffset := wrap (gemmRqTailOffset + 1)
  let localArRqCapacity := gemmRqCapacity
  let localArRqEntriesOffset := wrap (gemmScanCursorOffset + 1)
  let localArRqHeadOffset := wrap (localArRqEntriesOffset + localArRqCapacity)
  let localArRqTailOffset := wrap (localArRqHeadOffset + 1)
  let remoteRqCapacity := gemmRqCapacity
  let remoteRqEntriesOffset := wrap (localArRqTailOffset + 1)
  let remoteRqHeadOffset := wrap (remoteRqEntriesOffset + remoteRqCapacity)
  let remoteRqTailOffset := wrap (remoteRqHeadOffset + 1)
  let ownerPendingCapacity := wrap (roundUp (max 8 (wrap (chunksPerRow * 2))).toNat)
  let ownerPendingEntriesOffset := wrap (remoteRqTailOffset + 1)
  let ownerPendingHeadOffset :=
    wrap (ownerPendingEntriesOffset + wrap (numRemoteQueues * ownerPendingCapacity))
  let ownerPendingTailOffset := wrap (ownerPendingHeadOffset + numRemoteQueues)
  let ownerPendingMaxDepthOffset := wrap (ownerPendingTailOffset + numRemoteQueues)
  let ownerPendingPushCountOffset := wrap (ownerPendingMaxDepthOffset + numRemoteQueues)
  let ownerPendingPopCountOffset := wrap (ownerPendingPushCountOffset + numRemoteQueues)
  let localDoneFlagOffset := wrap (ownerPendingPopCountOffset + numRemoteQueues)
  let remoteArrivedFlagOffset := wrap (localDoneFlagOffset + totalChunks)
  let remoteArrivedPeerMaskOffset := wrap (remoteArrivedFlagOffset + totalChunks)
  let intraStartedFlagOffset := wrap (remoteArrivedPeerMaskOffset + totalChunks)
  let reduceCursorOffset := wrap (intraStartedFlagOffset + 16)
  let chunkClaimedFlagOffset := wrap (reduceCursorOffset + 1)
  let totalAllChunks := wrap (rowBlocks * chunksPerRow)
  let compChunkTilesDoneOffset := wrap (chunkClaimedFlagOffset + totalChunks)
  let intraChunkTilesDoneOffset := wrap (compChunkTilesDoneOffset + totalAllChunks)
  let xnodeReadyOffset := wrap (intraChunkTilesDoneOffset + totalChunks)
  let nPeers := max 1 (wrap (numNodes - 1))
  { sliceRows := s.sliceRows
    rowBlocksPerSlice := rowBlocksPerSlice
    colBlocks := colBlocks
    totalChunks := totalChunks
    totalTiles := totalTiles
    chunkTiles := s.chunkTiles
    chunksPerRow := chunksPerRow
    chunkRemoteArrivedOffset := chunkRemoteArrivedOffset
    arrivalQueueHeadOffset := arrivalQueueHeadOffset
    localArDoneOffset := localArDoneOffset
    sendIssuedOffset := sendIssuedOffset
    remoteArrivedOffset := remoteArrivedOffset
    publishedOffset := publishedOffset
    finalPublishDoneOffset := finalPublishDoneOffset
    debugFlagsOffset := debugFlagsOffset
    debugDumpCounterOffset := debugDumpCounterOffset
    queueExpectedOffset := queueExpectedOffset
    queueObservedOffset := queueObservedOffset
    rowSendCountOffset := rowSendCountOffset
    sliceTiles := sliceTiles
    gemmTilesReadyCountOffset := gemmTilesReadyCountOffset
    gemmTileScannedOffset := gemmTileScannedOffset
    gemmRqEntriesOffset := gemmRqEntriesOffset
    gemmRqCapacity := gemmRqCapacity
    gemmRqHeadOffset := gemmRqHeadOffset
    gemmRqTailOffset := gemmRqTailOffset
    gemmScanCursorOffset := gemmScanCursorOffset
    localArRqCapacity := localArRqCapacity
    localArRqEntriesOffset := localArRqEntriesOffset
    localArRqHeadOffset := localArRqHeadOffset
    localArRqTailOffset := localArRqTailOffset
    remoteRqCapacity := remoteRqCapacity
    remoteRqEntriesOffset := remoteRqEntriesOffset
    remoteRqHeadOffset := remoteRqHeadOffset
    remoteRqTailOffset := remoteRqTailOffset
    ownerPendingCapacity := ownerPendingCapacity
    ownerPendingEntriesOffset := ownerPendingEntriesOffset
    ownerPendingHeadOffset := ownerPendingHeadOffset
    ownerPendingTailOffset := ownerPendingTailOffset
    ownerPendingMaxDepthOffset := ownerPendingMaxDepthOffset
    ownerPendingPushCountOffset := ownerPendingPushCountOffset
    ownerPendingPopCountOffset := ownerPendingPopCountOffset
    localDoneFlagOffset := localDoneFlagOffset
    remoteArrivedFlagOffset := remoteArrivedFlagOffset
    remoteArrivedPeerMaskOffset := remoteArrivedPeerMaskOffset
    intraStartedFlagOffset := intraStartedFlagOffset
    reduceCursorOffset := reduceCursorOffset
    chunkClaimedFlagOffset := chunkClaimedFlagOffset
    compChunkTilesDoneOffset := compChunkTilesDoneOffset
    intraChunkTilesDoneOffset := intraChunkTilesDoneOffset
    xnodeReadyOffset := xnodeReadyOffset
    scratchIntsNeeded := wrap (xnodeReadyOffset + 1)
    remoteQueueStride := max 1
      ((wrap (wrap (wrap (totalTiles * nPeers) + numAllocatedRemoteQueues) - 1)).tdiv
        numAllocatedRemoteQueues) }

/-- The pointers of `fused_globals` into the scratch. -/
inductive Region where
  | chunkRemoteArrived
  | arrivalQueueHead
  | localArDoneChunks
  | sendIssuedChunks
  | remoteArrivedChunks
  | publishedChunks
  | finalPublishDone
  | debugFlags
  | debugDumpCounter
  | queueExpectedArrivals
  | queueObservedArrivals
  | rowSendCount
  | gemmTilesReadyCount
  | gemmTileScanned
  | gemmRqEntries
  | gemmRqHead
  | gemmRqTail
  | gemmScanCursor
  | localArRqEntries
  | localArRqHead
  | localArRqTail
  | remoteRqEntries
  | remoteRqHead
  | remoteRqTail
  | ownerPendingEntries
  | ownerPendingHead
  | ownerPendingTail
  | ownerPendingMaxDepth
  | ownerPendingPushCount
  | ownerPendingPopCount
  | localDoneFlag
  | remoteArrivedFlag
  | remoteArrivedPeerMask
  | intraStartedFlag
  | reduceCursor
  | chunkClaimedFlag
  | compChunkTilesDone
  | intraChunkTilesDone
  | xnodeReadyDevice
deriving DecidableEq

/-- The offset `gemm_ar_make_globals` adds to `ar_done_ptr` for a pointer. -/
def ScratchLayout.offset (l : ScratchLayout) : Region → Int
  | .chunkRemoteArrived => l.chunkRemoteArrivedOffset
  | .arrivalQueueHead => l.arrivalQueueHeadOffset
  | .localArDoneChunks => l.localArDoneOffset
  | .sendIssuedChunks => l.sendIssuedOffset
  | .remoteArrivedChunks => l.remoteArrivedOffset
  | .publishedChunks => l.publishedOffset
  | .finalPublishDone => l.finalPublishDoneOffset
  | .debugFlags => l.debugFlagsOffset
  | .debugDumpCounter => l.debugDumpCounterOffset
  | .queueExpectedArrivals => l.queueExpectedOffset
  | .queueObservedArrivals => l.queueObservedOffset
  | .rowSendCount => l.rowSendCountOffset
  | .gemmTilesReadyCount => l.gemmTilesReadyCountOffset
  | .gemmTileScanned => l.gemmTileScannedOffset
  | .gemmRqEntries => l.gemmRqEntriesOffset
  | .gemmRqHead => l.gemmRqHeadOffset
  | .gemmRqTail => l.gemmRqTailOffset
  | .gemmScanCursor => l.gemmScanCursorOffset
  | .localArRqEntries => l.localArRqEntriesOffset
  | .localArRqHead => l.localArRqHeadOffset
  | .localArRqTail => l.localArRqTailOffset
  | .remoteRqEntries => l.remoteRqEntriesOffset
  | .remoteRqHead => l.remoteRqHeadOffset
  | .remoteRqTail => l.remoteRqTailOffset
  | .ownerPendingEntries => l.ownerPendingEntriesOffset
  | .ownerPendingHead => l.ownerPendingHeadOffset
  | .ownerPendingTail => l.ownerPendingTailOffset
  | .ownerPendingMaxDepth => l.ownerPendingMaxDepthOffset
  | .ownerPendingPushCount => l.ownerPendingPushCountOffset
  | .ownerPendingPopCount => l.ownerPendingPopCountOffset
  | .localDoneFlag => l.localDoneFlagOffset
  | .remoteArrivedFlag => l.remoteArrivedFlagOffset
  | .remoteArrivedPeerMask => l.remoteArrivedPeerMaskOffset
  | .intraStartedFlag => l.intraStartedFlagOffset
  | .reduceCursor => l.reduceCursorOffset
  | .chunkClaimedFlag => l.chunkClaimedFlagOffset
  | .compChunkTilesDone => l.compChunkTilesDoneOffset
  | .intraChunkTilesDone => l.intraChunkTilesDoneOffset
  | .xnodeReadyDevice => l.xnodeReadyOffset

/-! ## The mirror -/

/-- `kernel_chunk_tiles_for_n`, with the number `GEMM_AR_CHUNK_TILES` is set to. -/
def kernelChunkTilesForN (chunkTilesEnv : Option Int) (n : Int) : Int :=
  let colBlocks := n / 256
  let chunkTiles := chunkTilesEnv.getD 4
  let chunkTiles := if chunkTiles ≤ 0 then 4 else chunkTiles
  min chunkTiles colBlocks

/-- `compute_scratch_ints`. -/
def computeScratchInts (chunkTilesEnv : Option Int) (m n worldSize numRemoteQueues : Int) : Int :=
  let rowBlocksPerSlice := m / worldSize / 128
  let colBlocks := n / 256
  let chunkTiles := kernelChunkTilesForN chunkTilesEnv n
  let chunksPerRow := max 1 ((colBlocks + chunkTiles - 1) / chunkTiles)
  let totalChunks := rowBlocksPerSlice * chunksPerRow
  let sliceTiles := rowBlocksPerSlice * colBlocks
  let cap := max 16 totalChunks
  let gemmRqCapacity : Int := roundUp cap.toNat
  let chunkRemoteArrivedOffset := 0
  let arrivalQueueHeadOffset := chunkRemoteArrivedOffset + totalChunks
  let localArDoneOffset := arrivalQueueHeadOffset + numRemoteQueues
  let sendIssuedOffset := localArDoneOffset + 1
  let remoteArrivedOffset := sendIssuedOffset + 1
  let publishedOffset := remoteArrivedOffset + 1
  let finalPublishDoneOffset := publishedOffset + 1
  let debugFlagsOffset := finalPublishDoneOffset + 1
  let debugDumpCounterOffset := debugFlagsOffset + 1
  let queueExpectedOffset := debugDumpCounterOffset + 1
  let queueObservedOffset := queueExpectedOffset + numRemoteQueues
  let rowSendCountOffset := queueObservedOffset + numRemoteQueues
  let gemmTilesReadyCountOffset := rowSendCountOffset + rowBlocksPerSlice
  let gemmTileScannedOffset := gemmTilesReadyCountOffset + totalChunks
  let gemmRqEntriesOffset := gemmTileScannedOffset + sliceTiles
  let gemmRqHeadOffset := gemmRqEntriesOffset + gemmRqCapacity
  let gemmRqTailOffset := gemmRqHeadOffset + 1
  let gemmScanCursorOffset := gemmRqTailOffset + 1
  let localArRqEntriesOffset := gemmScanCursorOffset + 1
  let localArRqHeadOffset := localArRqEntriesOffset + gemmRqCapacity
  let localArRqTailOffset := localArRqHeadOffset + 1
  let remoteRqEntriesOffset := localArRqTailOffset + 1
  let remoteRqHeadOffset := remoteRqEntriesOffset + gemmRqCapacity
  let remoteRqTailOffset := remoteRqHeadOffset + 1
  let ownerCap := max 8 (chunksPerRow * 2)
  let ownerPendingCapacity : Int := roundUp ownerCap.toNat
  let ownerPendingEntriesOffset := remoteRqTailOffset + 1
  let ownerPendingHeadOffset :=
    ownerPendingEntriesOffset + numRemoteQueues * ownerPendingCapacity
  let ownerPendingTailOffset := ownerPendingHeadOffset + numRemoteQueues
  let ownerPendingMaxDepthOffset := ownerPendingTailOffset + numRemoteQueues
  let ownerPendingPushCountOffset := ownerPendingMaxDepthOffset + numRemoteQueues
  let ownerPendingPopCountOffset := ownerPendingPushCountOffset + numRemoteQueues
  let localDoneFlagOffset := ownerPendingPopCountOffset + numRemoteQueues
  let remoteArrivedFlagOffset := localDoneFlagOffset + totalChunks
  let remoteArrivedPeerMaskOffset := remoteArrivedFlagOffset + totalChunks
  let intraStartedFlagOffset := remoteArrivedPeerMaskOffset + totalChunks
  let reduceCursorOffset := intraStartedFlagOffset + 16
  let chunkClaimedFlagOffset := reduceCursorOffset + 1
  let rowBlocks := m / 128
  let totalAllChunks := rowBlocks * chunksPerRow
  let compChunkTilesDoneOffset := chunkClaimedFlagOffset + totalChunks
  let intraChunkTilesDoneOffset := compChunkTilesDoneOffset + totalAllChunks
  let xnodeReadyOffset := intraChunkTilesDoneOffset + totalChunks
  xnodeReadyOffset + 1

/-! ## The entry point -/

/-- What the scratch is computed from: `M` and `N`, the number of GPUs of a node
    the kernel is compiled for and the caller runs on, the number
    `GEMM_AR_CHUNK_TILES` is set to, and the arguments of `entrypoint`. An `N`
    below 256 leaves no column of tiles, and is divided by. -/
structure ScratchArgs where
  m : Nat
  n : Nat
  numDevices : Nat
  chunkTilesEnv : Option Int
  numRemoteQueuesArg : Int
  numAllocatedRemoteQueuesArg : Int
  numNodes : Int
  m_lt : m < 2 ^ 31
  n_lt : n < 2 ^ 31
  n_ge : 256 ≤ n
  numDevices_pos : 0 < numDevices
  numRemoteQueuesArg_lt : numRemoteQueuesArg < 2 ^ 31

namespace ScratchArgs

variable (a : ScratchArgs)

/-- An override that is not positive is none. -/
def shape : Shape where
  m := a.m
  n := a.n
  numDevices := a.numDevices
  chunkTilesOverride := (a.chunkTilesEnv.getD 0).toNat

/-- The number of queues in use, made good. -/
def numRemoteQueues : Nat :=
  if a.numRemoteQueuesArg ≤ 0 then 1 else a.numRemoteQueuesArg.toNat

/-- The number of queues allocated, made good: no fewer than are in use. -/
def numAllocatedRemoteQueues : Int :=
  let n := if a.numAllocatedRemoteQueuesArg ≤ 0 then (a.numRemoteQueues : Int)
    else a.numAllocatedRemoteQueuesArg
  if n < a.numRemoteQueues then a.numRemoteQueues else n

/-- The layout with a way to keep sums and products. -/
def layoutIn (wrap : Int → Int) : ScratchLayout :=
  gemmArComputeScratchLayout wrap a.shape a.numRemoteQueues a.numAllocatedRemoteQueues a.numNodes

/-- The layout as it is computed. -/
def layout : ScratchLayout := a.layoutIn int32

/-- The size of `ar_done` the entry point goes by: it takes the number of tiles
    if it is not told. -/
def arDoneBufSize (scratchInts : Int) : Int :=
  if 0 < scratchInts then scratchInts else a.layout.totalTiles

/-- The entry point does not refuse a buffer, and can make the vector it clears
    the end of it with. -/
def Accepts (scratchInts : Int) : Prop :=
  a.layout.scratchIntsNeeded ≤ a.arDoneBufSize scratchInts ∧
    a.layout.remoteArrivedOffset ≤ a.layout.scratchIntsNeeded

instance (scratchInts : Int) : Decidable (a.Accepts scratchInts) :=
  inferInstanceAs (Decidable (_ ∧ _))

end ScratchArgs

/-! ## Sizes -/

/-- What the sizes of the regions are made of. -/
structure Counts where
  totalChunks : Int
  numRemoteQueues : Int
  rowBlocksPerSlice : Int
  sliceTiles : Int
  gemmRqCapacity : Int
  ownerPendingEntries : Int
  totalAllChunks : Int

/-- The size of each region. -/
def Region.size (c : Counts) : Region → Int
  | .chunkRemoteArrived => c.totalChunks
  | .arrivalQueueHead => c.numRemoteQueues
  | .queueExpectedArrivals => c.numRemoteQueues
  | .queueObservedArrivals => c.numRemoteQueues
  | .rowSendCount => c.rowBlocksPerSlice
  | .gemmTilesReadyCount => c.totalChunks
  | .gemmTileScanned => c.sliceTiles
  | .gemmRqEntries => c.gemmRqCapacity
  | .localArRqEntries => c.gemmRqCapacity
  | .remoteRqEntries => c.gemmRqCapacity
  | .ownerPendingEntries => c.ownerPendingEntries
  | .ownerPendingHead => c.numRemoteQueues
  | .ownerPendingTail => c.numRemoteQueues
  | .ownerPendingMaxDepth => c.numRemoteQueues
  | .ownerPendingPushCount => c.numRemoteQueues
  | .ownerPendingPopCount => c.numRemoteQueues
  | .localDoneFlag => c.totalChunks
  | .remoteArrivedFlag => c.totalChunks
  | .remoteArrivedPeerMask => c.totalChunks
  | .intraStartedFlag => 16
  | .chunkClaimedFlag => c.totalChunks
  | .compChunkTilesDone => c.totalAllChunks
  | .intraChunkTilesDone => c.totalChunks
  | _ => 1

/-- The regions in the order they are laid out. -/
def Region.order : List Region :=
  [.chunkRemoteArrived, .arrivalQueueHead, .localArDoneChunks, .sendIssuedChunks,
    .remoteArrivedChunks, .publishedChunks, .finalPublishDone, .debugFlags, .debugDumpCounter,
    .queueExpectedArrivals, .queueObservedArrivals, .rowSendCount, .gemmTilesReadyCount,
    .gemmTileScanned, .gemmRqEntries, .gemmRqHead, .gemmRqTail, .gemmScanCursor,
    .localArRqEntries, .localArRqHead, .localArRqTail, .remoteRqEntries, .remoteRqHead,
    .remoteRqTail, .ownerPendingEntries, .ownerPendingHead, .ownerPendingTail,
    .ownerPendingMaxDepth, .ownerPendingPushCount, .ownerPendingPopCount, .localDoneFlag,
    .remoteArrivedFlag, .remoteArrivedPeerMask, .intraStartedFlag, .reduceCursor,
    .chunkClaimedFlag, .compChunkTilesDone, .intraChunkTilesDone, .xnodeReadyDevice]

theorem Region.mem_order (r : Region) : r ∈ Region.order := by
  cases r <;> decide

namespace ScratchArgs

variable (a : ScratchArgs)

/-- The counts the layout adds up. -/
def countsIn (wrap : Int → Int) : Counts where
  totalChunks := (a.layoutIn wrap).totalChunks
  numRemoteQueues := a.numRemoteQueues
  rowBlocksPerSlice := (a.layoutIn wrap).rowBlocksPerSlice
  sliceTiles := (a.layoutIn wrap).sliceTiles
  gemmRqCapacity := (a.layoutIn wrap).gemmRqCapacity
  ownerPendingEntries := wrap (a.numRemoteQueues * (a.layoutIn wrap).ownerPendingCapacity)
  totalAllChunks := wrap (a.shape.rowBlocks * (a.layoutIn wrap).chunksPerRow)

theorem rowBlocksPerSlice_layoutIn (wrap : Int → Int) :
    (a.layoutIn wrap).rowBlocksPerSlice = a.shape.rowBlocksPerSlice := rfl

theorem chunksPerRow_layoutIn (wrap : Int → Int) :
    (a.layoutIn wrap).chunksPerRow = a.shape.chunksPerRow := rfl

theorem totalChunks_layoutIn (wrap : Int → Int) : (a.layoutIn wrap).totalChunks =
    wrap ((a.shape.rowBlocksPerSlice : Int) * a.shape.chunksPerRow) := rfl

theorem sliceTiles_layoutIn (wrap : Int → Int) : (a.layoutIn wrap).sliceTiles =
    wrap ((a.shape.rowBlocksPerSlice : Int) * a.shape.colBlocks) := rfl

theorem gemmRqCapacity_layoutIn (wrap : Int → Int) : (a.layoutIn wrap).gemmRqCapacity =
    wrap (roundUp (max 16 (a.layoutIn wrap).totalChunks).toNat) := rfl

theorem ownerPendingCapacity_layoutIn (wrap : Int → Int) :
    (a.layoutIn wrap).ownerPendingCapacity =
      wrap (roundUp (max 8 (wrap ((a.shape.chunksPerRow : Int) * 2))).toNat) := rfl

/-- The regions of the buffer. -/
def regionsIn (wrap : Int → Int) : Regions Region where
  offset := (a.layoutIn wrap).offset
  size := Region.size (a.countsIn wrap)

theorem offset_remoteArrivedChunks (wrap : Int → Int) :
    (a.regionsIn wrap).offset .remoteArrivedChunks = (a.layoutIn wrap).remoteArrivedOffset := rfl

/-- The layout chains the regions. -/
theorem chain_layout (wrap : Int → Int) :
    (a.regionsIn wrap).Chain wrap 0 Region.order (a.layoutIn wrap).scratchIntsNeeded := by
  unfold Region.order
  simp only [Regions.Chain]
  exact ⟨rfl, rfl, rfl, rfl, rfl, rfl, rfl, rfl, rfl, rfl, rfl, rfl, rfl, rfl, rfl, rfl, rfl,
    rfl, rfl, rfl, rfl, rfl, rfl, rfl, rfl, rfl, rfl, rfl, rfl, rfl, rfl, rfl, rfl, rfl, rfl,
    rfl, rfl, rfl, rfl, rfl⟩

/-- The layout fits: its total, counted without bound, is an `int`. -/
def Fits : Prop := (a.layoutIn id).scratchIntsNeeded < 2 ^ 31

instance : Decidable a.Fits := inferInstanceAs (Decidable (_ < _))

variable {a}

theorem numRemoteQueues_pos : 0 < a.numRemoteQueues := by
  unfold numRemoteQueues
  by_cases h : a.numRemoteQueuesArg ≤ 0
  · rw [if_pos h]
    exact Nat.one_pos
  · rw [if_neg h]
    omega

/-- A row has no more chunks than tiles, and no more tiles than `N` leaves it. -/
theorem chunksPerRow_lt : a.shape.chunksPerRow < 2 ^ 24 := by
  have hn := a.n_lt
  have hcols : a.shape.colBlocks ≤ 2 ^ 23 := Nat.div_le_of_le_mul (by simp only [shape]; omega)
  unfold Shape.chunksPerRow
  refine Nat.lt_of_le_of_lt (Nat.div_le_self _ _) ?_
  have htiles : a.shape.chunkTiles ≤ a.shape.colBlocks := Nat.min_le_right _ _
  omega

/-- Without bound, all sizes are natural numbers. -/
theorem size_nonneg (r : Region) : 0 ≤ Region.size (a.countsIn id) r := by
  have htotal : (0 : Int) ≤ (a.countsIn id).totalChunks :=
    Int.mul_nonneg (Int.natCast_nonneg _) (Int.natCast_nonneg _)
  have htiles : (0 : Int) ≤ (a.countsIn id).sliceTiles :=
    Int.mul_nonneg (Int.natCast_nonneg _) (Int.natCast_nonneg _)
  have hcap : (0 : Int) ≤ (a.countsIn id).gemmRqCapacity := Int.natCast_nonneg _
  have howner : (0 : Int) ≤ (a.countsIn id).ownerPendingEntries :=
    Int.mul_nonneg (Int.natCast_nonneg _) (Int.natCast_nonneg _)
  have hall : (0 : Int) ≤ (a.countsIn id).totalAllChunks :=
    Int.mul_nonneg (Int.natCast_nonneg _) (Int.natCast_nonneg _)
  have hqueues : (0 : Int) ≤ (a.countsIn id).numRemoteQueues := Int.natCast_nonneg _
  have hrows : (0 : Int) ≤ (a.countsIn id).rowBlocksPerSlice := Int.natCast_nonneg _
  cases r <;> first | assumption | exact Int.one_nonneg | exact Int.natCast_nonneg 16

/-- A region is no larger than the buffer. -/
theorem size_lt (h : a.Fits) (r : Region) : Region.size (a.countsIn id) r < 2 ^ 31 := by
  have hbounds := (a.chain_layout id).bounds (fun r _ => size_nonneg r) r.mem_order
  unfold Fits at h
  have hle : (a.regionsIn id).size r ≤ (a.layoutIn id).scratchIntsNeeded := by omega
  exact lt_of_le_of_lt hle h

/-- The capacity of an owner's ring is no larger than the rings of all owners. -/
theorem ownerCapacity_lt (h : a.Fits) : (a.layoutIn id).ownerPendingCapacity < 2 ^ 31 := by
  have hrings : (a.numRemoteQueues : Int) * (a.layoutIn id).ownerPendingCapacity < 2 ^ 31 :=
    size_lt h .ownerPendingEntries
  have hpos : (1 : Int) ≤ a.numRemoteQueues := by
    have := a.numRemoteQueues_pos
    omega
  have hcap : (0 : Int) ≤ (a.layoutIn id).ownerPendingCapacity := Int.natCast_nonneg _
  exact lt_of_le_of_lt (le_mul_of_one_le_left hcap hpos) hrings

/-- A count that fits is kept. -/
theorem int32_eq_id {x : Int} (hl : 0 ≤ x) (hu : x < 2 ^ 31) : int32 x = id x :=
  int32_eq (by omega) hu

theorem totalChunks_eq (h : a.Fits) :
    (a.layoutIn int32).totalChunks = (a.layoutIn id).totalChunks := by
  rw [totalChunks_layoutIn, totalChunks_layoutIn]
  exact int32_eq_id (size_nonneg .localDoneFlag) (size_lt h .localDoneFlag)

theorem sliceTiles_eq (h : a.Fits) :
    (a.layoutIn int32).sliceTiles = (a.layoutIn id).sliceTiles := by
  rw [sliceTiles_layoutIn, sliceTiles_layoutIn]
  exact int32_eq_id (size_nonneg .gemmTileScanned) (size_lt h .gemmTileScanned)

theorem gemmRqCapacity_eq (h : a.Fits) :
    (a.layoutIn int32).gemmRqCapacity = (a.layoutIn id).gemmRqCapacity := by
  rw [gemmRqCapacity_layoutIn, gemmRqCapacity_layoutIn, totalChunks_eq h]
  exact int32_eq_id (size_nonneg .gemmRqEntries) (size_lt h .gemmRqEntries)

theorem ownerPendingCapacity_eq (h : a.Fits) :
    (a.layoutIn int32).ownerPendingCapacity = (a.layoutIn id).ownerPendingCapacity := by
  have hrow := a.chunksPerRow_lt
  have htwice : int32 ((a.shape.chunksPerRow : Int) * 2) = id ((a.shape.chunksPerRow : Int) * 2) :=
    int32_eq_id (by omega) (by omega)
  rw [ownerPendingCapacity_layoutIn, ownerPendingCapacity_layoutIn, htwice]
  exact int32_eq_id (Int.natCast_nonneg _) (ownerCapacity_lt h)

/-- In layouts that fit, all counts are what they are meant to be. -/
theorem counts_eq (h : a.Fits) : a.countsIn int32 = a.countsIn id := by
  have hrings : int32 (a.numRemoteQueues * (a.layoutIn id).ownerPendingCapacity) =
      id (a.numRemoteQueues * (a.layoutIn id).ownerPendingCapacity) :=
    int32_eq_id (size_nonneg .ownerPendingEntries) (size_lt h .ownerPendingEntries)
  have hall : int32 ((a.shape.rowBlocks : Int) * a.shape.chunksPerRow) =
      id ((a.shape.rowBlocks : Int) * a.shape.chunksPerRow) :=
    int32_eq_id (size_nonneg .compChunkTilesDone) (size_lt h .compChunkTilesDone)
  unfold countsIn
  rw [totalChunks_eq h, sliceTiles_eq h, gemmRqCapacity_eq h, ownerPendingCapacity_eq h, hrings,
    chunksPerRow_layoutIn, chunksPerRow_layoutIn, hall, rowBlocksPerSlice_layoutIn,
    rowBlocksPerSlice_layoutIn]

variable (a)

/-- The regions of the buffer, as the layout is computed. -/
def regions : Regions Region := a.regionsIn int32

variable {a}

theorem regions_size (h : a.Fits) (r : Region) :
    a.regions.size r = Region.size (a.countsIn id) r := by
  rw [← counts_eq h]
  rfl

/-- In layouts that fit, the regions follow one another. -/
theorem chain_regions (h : a.Fits) :
    a.regions.Chain id 0 Region.order a.layout.scratchIntsNeeded := by
  have hsum : (Region.order.map a.regions.size).sum = (a.layoutIn id).scratchIntsNeeded := by
    rw [(a.chain_layout id).length, Int.zero_add]
    exact congrArg List.sum (List.map_congr_left fun r _ => regions_size h r)
  refine (a.chain_layout int32).of_int32 ?_ (Int.le_refl 0) ?_
  · intro r _
    change 0 ≤ a.regions.size r
    rw [regions_size h]
    exact size_nonneg r
  · change 0 + (Region.order.map a.regions.size).sum < 2 ^ 31
    rw [hsum, Int.zero_add]
    exact h

theorem regions_size_nonneg (h : a.Fits) (r : Region) : 0 ≤ a.regions.size r := by
  rw [regions_size h]
  exact size_nonneg r

/-- And the total is right. -/
theorem scratchIntsNeeded_eq (h : a.Fits) :
    a.layout.scratchIntsNeeded = (a.layoutIn id).scratchIntsNeeded := by
  rw [(chain_regions h).length, (a.chain_layout id).length]
  exact congrArg (0 + List.sum ·) (List.map_congr_left fun r _ => regions_size h r)

/-- Both languages find the same number of tiles in a chunk. -/
theorem kernelChunkTilesForN_eq :
    kernelChunkTilesForN a.chunkTilesEnv a.n = a.shape.chunkTiles := by
  unfold kernelChunkTilesForN Shape.chunkTiles shape Shape.colBlocks
  rcases a.chunkTilesEnv with _ | env
  · simp only [Option.getD_none, Int.toNat_zero]
    rw [if_neg (by omega), if_neg (by omega)]
    omega
  · simp only [Option.getD_some]
    split <;> split <;> omega

/-- The mirror, given a number of queues that need not be made good, returns the
    total without bound. -/
theorem computeScratchInts_eq (h : 1 ≤ a.numRemoteQueuesArg) :
    computeScratchInts a.chunkTilesEnv a.m a.n a.numDevices a.numRemoteQueuesArg =
      (a.layoutIn id).scratchIntsNeeded := by
  have hcols : 0 < a.shape.colBlocks := Nat.div_pos a.n_ge (by omega)
  have hcpr := chunksPerRow_pos hcols
  have htiles : 0 < a.shape.chunkTiles := chunkTiles_pos hcpr
  have hqueues : a.numRemoteQueuesArg = (a.numRemoteQueues : Int) := by
    unfold numRemoteQueues
    rw [if_neg (by omega)]
    omega
  have hrows : (a.m : Int) / a.numDevices / 128 = (a.shape.rowBlocksPerSlice : Int) := rfl
  have hcols' : (a.n : Int) / 256 = (a.shape.colBlocks : Int) := rfl
  have hall : (a.m : Int) / 128 = (a.shape.rowBlocks : Int) := rfl
  -- At least one chunk, so the bound by one does nothing.
  have hrow : max 1 (((a.shape.colBlocks : Int) + a.shape.chunkTiles - 1) / a.shape.chunkTiles) =
      (a.shape.chunksPerRow : Int) := by
    have hcast : (a.shape.colBlocks : Int) + a.shape.chunkTiles - 1 =
        ((a.shape.colBlocks + a.shape.chunkTiles - 1 : Nat) : Int) := by omega
    rw [hcast, ← Int.natCast_ediv]
    change max 1 ((a.shape.chunksPerRow : Nat) : Int) = _
    omega
  unfold computeScratchInts
  simp only [kernelChunkTilesForN_eq, hrows, hcols', hall, hrow, hqueues]
  rfl

/-- A buffer of as many ints as the mirror returns is accepted. -/
theorem accepts_computeScratchInts (h : a.Fits) (hq : 1 ≤ a.numRemoteQueuesArg) :
    a.Accepts (computeScratchInts a.chunkTilesEnv a.m a.n a.numDevices a.numRemoteQueuesArg) := by
  have hchain := chain_regions h
  have hsize : ∀ r ∈ Region.order, 0 ≤ a.regions.size r := fun r _ => regions_size_nonneg h r
  have hflag := hchain.bounds hsize (Region.mem_order .xnodeReadyDevice)
  have harrived := hchain.bounds hsize (Region.mem_order .remoteArrivedChunks)
  have hone : a.regions.size .xnodeReadyDevice = 1 := rfl
  rw [computeScratchInts_eq hq, ← scratchIntsNeeded_eq h]
  constructor
  · unfold arDoneBufSize
    rw [if_pos (by omega)]
  · have hsize := hsize .remoteArrivedChunks (Region.mem_order _)
    have hle : a.regions.offset .remoteArrivedChunks ≤ a.layout.scratchIntsNeeded := by omega
    rw [regions, offset_remoteArrivedChunks] at hle
    exact hle

end ScratchArgs

end GemmAr

end MKernel
