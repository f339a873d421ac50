import Mathlib.Algebra.BigOperators.Pi
import Mathlib.Order.Lattice.Nat
import MKernel.Core.Ballot
import MKernel.Core.SmallNumbers
import MKernel.Core.System
import MKernel.GemmAr.Decode

/-!
# Early Accumulation

How a reducing CTA of `gemm_ar` adds up a chunk, at once or as the parts of the
peers arrive.

Each reducing CTA owns the chunks from its own number on in strides. It waits for
the intra-node all-reduce of a chunk and for the parts of all peers, adds them up
and multicasts the sum. If it is given a buffer to accumulate in, it does not wait
for all peers: whenever a look at the mask of the arrived peers shows new ones, it
adds their parts to the buffer, one peer after the other, and leaves the loop after
the round in whose look nothing was missing. The first peer's part overwrites what
was in the buffer, so the buffer need not be cleared.

The machine here has all reducing CTAs of a GPU. A CTA's threads work on vectors of
eight elements, in any order between two barriers, and what arrives does so at any
time. What the buffers hold is elements of a type with an addition.

## Main definitions

* `Launch`: What the CTAs are launched with, and what the buffers will hold.
* `chunkVecs`: The vectors of a chunk, by thread, tile and row.
* `sumLocalAndRemoteVec8`, `sumLocalAndAccumVec8`, `accumulateRemotePeerVec8`:
  The arithmetic on one vector.
* `World`, `step`: The reducing CTAs of a GPU.
* `direct`: The sum of the local and all peers' parts.

## Theorems

* `mem_chunkVecs`, `nodup_chunkVecs`: The threads share out the vectors of a chunk.
* `chunkOf_eq`: No two chunks have a vector in common.
* `accumAt_inj`, `place_vec_inj`: Vectors are kept and published apart.
-/

namespace MKernel

namespace GemmAr

namespace EarlyAccum

open MKernel.Core

/-- What the reducing CTAs of a GPU are launched with, what the intra-node
    all-reduce leaves in `C_local` and what the peers write to `C_recv`. -/
structure Launch (M : Type*) where
  shape : Shape
  devIdx : Nat
  numNodes : Nat
  numInterReduceStoreSms : Nat
  reduced : Nat → M
  sent : Nat → M
  numInterReduceStoreSms_pos : 0 < numInterReduceStoreSms

/-- Eight elements of a row of a tile, by the tile's row block in the slice and its
    column, the row in the tile and the first column in the tile. -/
structure Vec where
  rbInSlice : Nat
  colIdx : Nat
  tileRow : Nat
  colElem : Nat
deriving DecidableEq

/-- `global_col`. -/
def Vec.globalCol (v : Vec) : Nat := v.colIdx * 256 + v.colElem

/-- The rows a thread handles in each tile: `ROWS_PER_WAVE` is 12. -/
def waveRows (rowLane : Nat) : List Nat := List.range' rowLane ((128 - rowLane + 11) / 12) 12

namespace Launch

variable {M : Type*} (G : Launch M)

def numPeers : Nat := G.numNodes - 1

def totalChunks : Nat := G.shape.totalChunks

def fullPeerMask : BitVec 32 :=
  if 32 ≤ G.numNodes then BitVec.allOnes 32 else (1#32 <<< (G.numNodes - 1)) - 1#32

/-- The bit a drainer sets for a peer. -/
def peerBit (peerSlot : Nat) : BitVec 32 := if peerSlot < 31 then 1#32 <<< peerSlot else 0

/-- `gemm_ar_chunk_decode`. -/
def decoded (chunkId : Nat) : Decoded := G.shape.chunkDecode G.devIdx chunkId

/-- The vectors of a chunk, as the threads go through them. -/
def chunkVecs (chunkId : Nat) : List Vec :=
  let d := G.decoded chunkId
  (List.range 384).flatMap fun tid =>
    (List.range d.tilesThisChunk.toNat).flatMap fun localCol =>
      (waveRows (tid / 32)).map fun r => ⟨d.rbInSlice, d.colStart + localCol, r, tid % 32 * 8⟩

/-- `tile_id`. -/
def tileId (v : Vec) : Nat := v.rbInSlice * G.shape.colBlocks + v.colIdx

/-- Where a vector is in `C_remote_accum`. -/
def accumAt (v : Vec) : Nat := G.tileId v * 32768 + v.tileRow * 256 + v.colElem

/-- Where a peer's part of it is in `C_recv`. -/
def recvAt (peerSlot : Nat) (v : Vec) : Nat :=
  (peerSlot * G.shape.totalTilesPerDevice + G.tileId v) * 32768 + v.tileRow * 256 + v.colElem

/-- `global_row`. -/
def globalRow (v : Vec) : Nat := G.devIdx * G.shape.sliceRows + (v.rbInSlice * 128 + v.tileRow)

/-- `global_elem`. -/
def globalElem (v : Vec) : Nat :=
  G.devIdx * G.shape.sliceRows * G.shape.n + (v.rbInSlice * 128 + v.tileRow) * G.shape.n
    + v.colIdx * 256 + v.colElem

/-- The elements of `C_recv` that a peer writes for a chunk. -/
def InRecv (peerSlot chunkId i : Nat) : Prop :=
  let d := G.decoded chunkId
  let start := peerSlot * G.shape.totalTilesPerDevice
    + (d.rbInSlice * G.shape.colBlocks + d.colStart)
  start * 32768 ≤ i ∧ i < (start + d.tilesThisChunk.toNat) * 32768

instance (peerSlot chunkId i : Nat) : Decidable (G.InRecv peerSlot chunkId i) :=
  inferInstanceAs (Decidable (_ ∧ _))

/-- The elements of `C_local` that the intra-node all-reduce writes for a chunk. -/
def InLocal (chunkId i : Nat) : Prop :=
  let d := G.decoded chunkId
  let row := G.devIdx * G.shape.sliceRows + d.rbInSlice * 128
  row ≤ i / G.shape.n ∧ i / G.shape.n < row + 128 ∧ d.colStart * 256 ≤ i % G.shape.n ∧
    i % G.shape.n < (d.colStart + d.tilesThisChunk.toNat) * 256

instance (chunkId i : Nat) : Decidable (G.InLocal chunkId i) :=
  inferInstanceAs (Decidable (_ ∧ _ ∧ _ ∧ _))

end Launch

/-! ## Vectors in memory -/

section Memory

variable {M : Type*}

/-- The eight elements at a place. -/
def loadVec8 (mem : Nat → M) (a : Nat) : Fin 8 → M := fun j => mem (a + j)

/-- Eight elements written to a place. -/
def storeVec8 (mem : Nat → M) (a : Nat) (x : Fin 8 → M) : Nat → M := fun i =>
  if h : a ≤ i ∧ i < a + 8 then x ⟨i - a, by omega⟩ else mem i

variable [AddCommMonoid M] (G : Launch M)

/-- `gemm_ar_sum_local_and_remote_vec8`. -/
def sumLocalAndRemoteVec8 (cRecv : Nat → M) (v : Vec) (lv : Fin 8 → M) : Fin 8 → M :=
  (List.range G.numPeers).foldl (fun acc peerSlot => acc + loadVec8 cRecv (G.recvAt peerSlot v)) lv

/-- `gemm_ar_sum_local_and_accum_vec8`. -/
def sumLocalAndAccumVec8 (accum : Nat → M) (v : Vec) (lv : Fin 8 → M) : Fin 8 → M :=
  lv + loadVec8 accum (G.accumAt v)

/-- `gemm_ar_accumulate_remote_peer_vec8`: the buffer after it. -/
def accumulateRemotePeerVec8 (accum cRecv : Nat → M) (peerSlot : Nat) (v : Vec)
    (firstPeerForChunk : Bool) : Nat → M :=
  let rv := loadVec8 cRecv (G.recvAt peerSlot v)
  storeVec8 accum (G.accumAt v)
    (if firstPeerForChunk then rv else loadVec8 accum (G.accumAt v) + rv)

/-- `gemm_ar_publish_final_vec8`: what has been multicast after it. -/
def publishFinalVec8 (final : Nat → Nat → Option M) (v : Vec) (ov : Fin 8 → M) :
    Nat → Nat → Option M := fun row col =>
  if h : row = G.globalRow v ∧ v.globalCol ≤ col ∧ col < v.globalCol + 8 then
    some (ov ⟨col - v.globalCol, by omega⟩)
  else final row col

/-- The sum of the local part and all peers' parts of a vector. -/
def direct (v : Vec) : Fin 8 → M :=
  loadVec8 G.reduced (G.globalElem v)
    + ∑ p ∈ Finset.range G.numPeers, loadVec8 G.sent (G.recvAt p v)

end Memory

/-! ## The CTAs -/

/-- Where a reducing CTA stands with a chunk. -/
inductive Phase where
  /-- Before its next look at the flags. -/
  | polling
  /-- At a peer of the round that follows a look. -/
  | peers (newPeerMask : BitVec 32) (readyToPublish : Bool) (peerSlot : Nat)
  /-- Adding a peer's part. The vectors are those no thread has come to. -/
  | accumulating (newPeerMask : BitVec 32) (readyToPublish : Bool) (peerSlot : Nat)
      (todo : List Vec)
  /-- Publishing the sum. -/
  | publishing (todo : List Vec)
deriving DecidableEq

/-- A reducing CTA. -/
structure Cta where
  chunkId : Nat
  processedPeerMask : BitVec 32
  phase : Phase

/-- The buffers of a GPU as the kernel finds them. -/
structure Contents (M : Type*) where
  cLocal : Nat → M
  cRecv : Nat → M
  accum : Nat → M

/-- The GPU: the buffers, what has been multicast, the flags and the CTAs. -/
structure World {M : Type*} (G : Launch M) where
  cLocal : Nat → M
  cRecv : Nat → M
  accum : Nat → M
  final : Nat → Nat → Option M
  localDoneFlag : Nat → Nat
  remoteArrivedPeerMask : Nat → BitVec 32
  remoteArrivedFlag : Nat → Nat
  publishedChunks : Nat
  cta : Fin G.numInterReduceStoreSms → Cta

/-- The GPU at launch. -/
def init {M : Type*} (G : Launch M) (start : Contents M) : World G where
  cLocal := start.cLocal
  cRecv := start.cRecv
  accum := start.accum
  final := fun _ _ => none
  localDoneFlag := fun _ => 0
  remoteArrivedPeerMask := fun _ => 0
  remoteArrivedFlag := fun _ => 0
  publishedChunks := 0
  cta := fun redId => { chunkId := redId, processedPeerMask := 0, phase := .polling }

/-- What can happen next. -/
inductive Action {M : Type*} (G : Launch M) where
  /-- The intra-node all-reduce is done with a chunk. -/
  | reduceLocal (chunkId : Nat)
  /-- A peer's part of a chunk has arrived and a drainer sets the peer's bit. -/
  | arrive (peerSlot chunkId : Nat)
  /-- The drainer that found all peers there sets the flag of the chunk. -/
  | flag (chunkId : Nat)
  /-- A reducing CTA looks at the flags. -/
  | poll (redId : Fin G.numInterReduceStoreSms)
  /-- A thread of it handles a vector. -/
  | vec (redId : Fin G.numInterReduceStoreSms) (v : Vec)
  /-- It goes on, past a barrier or to the next peer. -/
  | next (redId : Fin G.numInterReduceStoreSms)

section Step

variable {M : Type*} {G : Launch M}

def World.setCta (w : World G) (redId : Fin G.numInterReduceStoreSms) (k : Cta) : World G :=
  { w with cta := Function.update w.cta redId k }

/-- What a look at the flags leads to. -/
def Cta.afterPoll (G : Launch M) (k : Cta) (early : Bool) (arrivedMask : BitVec 32)
    (localDone remoteArrived : Nat) : Cta :=
  if early then
    let newPeerMask := arrivedMask &&& ~~~k.processedPeerMask
    let readyToPublish := decide (localDone = 1) &&
      decide ((k.processedPeerMask ||| newPeerMask) &&& G.fullPeerMask = G.fullPeerMask)
    if newPeerMask ≠ 0 then { k with phase := .peers newPeerMask readyToPublish 0 }
    else if readyToPublish then { k with phase := .publishing (G.chunkVecs k.chunkId) }
    else k
  else if remoteArrived ≠ 0 ∧ localDone = 1 then
    { k with phase := .publishing (G.chunkVecs k.chunkId) }
  else k

/-- Where a CTA is after a barrier or a turn of a loop; `none` if threads are still at
    work. -/
def Cta.afterNext (G : Launch M) (k : Cta) : Option Cta :=
  match k.phase with
  | .peers newPeerMask readyToPublish peerSlot =>
      some { k with
        phase :=
          if peerSlot < G.numPeers then
            if newPeerMask &&& (1#32 <<< peerSlot) = 0 then
              .peers newPeerMask readyToPublish (peerSlot + 1)
            else .accumulating newPeerMask readyToPublish peerSlot (G.chunkVecs k.chunkId)
          else if readyToPublish then .publishing (G.chunkVecs k.chunkId)
          else .polling }
  | .accumulating newPeerMask readyToPublish peerSlot [] =>
      some { k with
        processedPeerMask := k.processedPeerMask ||| (1#32 <<< peerSlot)
        phase := .peers newPeerMask readyToPublish (peerSlot + 1) }
  | .publishing [] =>
      some
        { chunkId := k.chunkId + G.numInterReduceStoreSms
          processedPeerMask := 0
          phase := .polling }
  | _ => none

/-- A CTA that has published its chunk is about to count it. -/
def Cta.counts (k : Cta) : Bool :=
  match k.phase with
  | .publishing [] => true
  | _ => false

variable [AddCommMonoid M]

/-- One step. The flag is `early_remote_accum`. -/
def step (early : Bool) (w : World G) : Action G → Option (World G)
  | .reduceLocal c =>
      if c < G.totalChunks then
        some { w with
          cLocal := fun i => if G.InLocal c i then G.reduced i else w.cLocal i
          localDoneFlag := Function.update w.localDoneFlag c 1 }
      else none
  | .arrive p c =>
      if p < G.numPeers ∧ c < G.totalChunks then
        some { w with
          cRecv := fun i => if G.InRecv p c i then G.sent i else w.cRecv i
          remoteArrivedPeerMask := Function.update w.remoteArrivedPeerMask c
            (w.remoteArrivedPeerMask c ||| Launch.peerBit p) }
      else none
  | .flag c =>
      if 0 < G.numPeers ∧ G.numPeers ≤ (w.remoteArrivedPeerMask c).cpop.toNat then
        some { w with remoteArrivedFlag := Function.update w.remoteArrivedFlag c 1 }
      else none
  | .poll redId =>
      let k := w.cta redId
      if k.chunkId < G.totalChunks ∧ k.phase = .polling then
        some (w.setCta redId (k.afterPoll G early (w.remoteArrivedPeerMask k.chunkId)
          (w.localDoneFlag k.chunkId) (w.remoteArrivedFlag k.chunkId)))
      else none
  | .vec redId v =>
      let k := w.cta redId
      match k.phase with
      | .accumulating newPeerMask readyToPublish peerSlot todo =>
          if v ∈ todo then
            some { w.setCta redId { k with
                phase := .accumulating newPeerMask readyToPublish peerSlot (todo.erase v) } with
              accum := accumulateRemotePeerVec8 G w.accum w.cRecv peerSlot v
                (decide (k.processedPeerMask = 0)) }
          else none
      | .publishing todo =>
          if v ∈ todo then
            let lv := loadVec8 w.cLocal (G.globalElem v)
            some { w.setCta redId { k with phase := .publishing (todo.erase v) } with
              final := publishFinalVec8 G w.final v
                (if early then sumLocalAndAccumVec8 G w.accum v lv
                  else sumLocalAndRemoteVec8 G w.cRecv v lv) }
          else none
      | _ => none
  | .next redId =>
      let k := w.cta redId
      (k.afterNext G).map fun k' =>
        { w.setCta redId k' with
          publishedChunks := if k.counts then w.publishedChunks + 1 else w.publishedChunks }

end Step

/-! ## The vectors of a chunk -/

section Vectors

variable {M : Type*} {G : Launch M} {c c' : Nat} {v v' : Vec}

theorem mem_waveRows {rowLane r : Nat} (hlane : rowLane < 12) :
    r ∈ waveRows rowLane ↔ r < 128 ∧ r % 12 = rowLane := by
  rw [waveRows, List.mem_range']
  constructor
  · rintro ⟨i, hi, rfl⟩
    omega
  · rintro ⟨hlt, hmod⟩
    exact ⟨r / 12, by omega, by omega⟩

/-- Together the threads go through all rows and columns of the tiles of a chunk, -/
theorem mem_chunkVecs : v ∈ G.chunkVecs c ↔ v.rbInSlice = (G.decoded c).rbInSlice ∧
    (G.decoded c).colStart ≤ v.colIdx ∧
    v.colIdx < (G.decoded c).colStart + (G.decoded c).tilesThisChunk.toNat ∧
    v.tileRow < 128 ∧ v.colElem % 8 = 0 ∧ v.colElem < 256 := by
  simp only [Launch.chunkVecs, List.mem_flatMap, List.mem_range, List.mem_map]
  constructor
  · rintro ⟨tid, htid, localCol, hcol, r, hr, rfl⟩
    rw [mem_waveRows (by omega)] at hr
    have helem : tid % 32 * 8 < 256 := by omega
    exact ⟨rfl, Nat.le_add_right _ _, Nat.add_lt_add_left hcol _, hr.1, Nat.mul_mod_left _ _, helem⟩
  · rintro ⟨hrb, hle, hlt, hrow, hmod, helem⟩
    -- The thread is in the wave of the row, at the lane of the columns.
    refine ⟨v.tileRow % 12 * 32 + v.colElem / 8, by omega,
      v.colIdx - (G.decoded c).colStart, by omega, v.tileRow, ?_, ?_⟩
    · rw [mem_waveRows (by omega)]
      omega
    · rw [← hrb]
      cases v
      simp only [Vec.mk.injEq, true_and] at hle hlt hmod helem ⊢
      omega

/-- and no two threads come to the same vector. -/
theorem nodup_chunkVecs (c : Nat) : (G.chunkVecs c).Nodup := by
  rw [Launch.chunkVecs, List.nodup_flatMap]
  constructor
  · -- The vectors of one thread differ in the wave or in the column,
    intro tid _
    rw [List.nodup_flatMap]
    constructor
    · intro localCol _
      refine List.Nodup.map ?_ (List.nodup_range' 12)
      intro r r' h
      exact (Vec.mk.inj h).2.2.1
    · refine List.nodup_range.imp fun hne => ?_
      rw [Function.onFun, List.disjoint_left]
      intro x hx hx'
      rcases List.mem_map.mp hx with ⟨r, _, rfl⟩
      rcases List.mem_map.mp hx' with ⟨r', _, heq⟩
      have hcol := (Vec.mk.inj heq).2.1
      omega
  · -- and those of two threads in the row or in the place in it.
    refine List.Pairwise.imp_of_mem ?_ List.nodup_range
    intro tid tid' htid htid' hne
    rw [List.mem_range] at htid htid'
    rw [Function.onFun, List.disjoint_left]
    intro x hx hx'
    simp only [List.mem_flatMap, List.mem_map] at hx hx'
    rcases hx with ⟨_, _, r, hr, rfl⟩
    rcases hx' with ⟨_, _, r', hr', heq⟩
    rw [mem_waveRows (by omega)] at hr hr'
    have hrow := (Vec.mk.inj heq).2.2.1
    have helem := (Vec.mk.inj heq).2.2.2
    omega

/-- The columns of a chunk are columns of the output. -/
theorem colIdx_lt (h : v ∈ G.chunkVecs c) : v.colIdx < G.shape.colBlocks := by
  rcases Iff.mp mem_chunkVecs h with ⟨_, hle, hlt, _⟩
  simp only [Launch.decoded, Shape.chunkDecode] at hle hlt
  omega

/-- A vector belongs to one chunk only, however the chunks are decoded. -/
theorem chunkOf_eq (h : v ∈ G.chunkVecs c) (h' : v ∈ G.chunkVecs c') : c = c' := by
  rcases Iff.mp mem_chunkVecs h with ⟨hrb, hle, hlt, _⟩
  rcases Iff.mp mem_chunkVecs h' with ⟨hrb', hle', hlt', _⟩
  simp only [Launch.decoded, Shape.chunkDecode] at hrb hle hlt hrb' hle' hlt'
  rw [hrb] at hrb'
  -- Both have the column of the vector in their place of the row.
  have hplace : c - c / G.shape.device.chunksPerRow * G.shape.device.chunksPerRow =
      c' - c' / G.shape.device.chunksPerRow * G.shape.device.chunksPerRow := by
    rw [← Nat.div_eq_of_lt_le hle (lt_of_lt_of_le hlt ?_),
      ← Nat.div_eq_of_lt_le hle' (lt_of_lt_of_le hlt' ?_)]
    · rw [Nat.succ_mul]
      omega
    · rw [Nat.succ_mul]
      omega
  have hsplit := Nat.div_mul_le_self c G.shape.device.chunksPerRow
  have hsplit' := Nat.div_mul_le_self c' G.shape.device.chunksPerRow
  rw [hrb'] at hsplit hplace
  omega

/-- Two vectors are at different places of the buffer. -/
theorem accumAt_inj (h : v ∈ G.chunkVecs c) (h' : v' ∈ G.chunkVecs c') {j j' : Nat} (hj : j < 8)
    (hj' : j' < 8) (heq : G.accumAt v + j = G.accumAt v' + j') : v = v' ∧ j = j' := by
  rcases Iff.mp mem_chunkVecs h with ⟨_, _, _, hrow, hmod, helem⟩
  rcases Iff.mp mem_chunkVecs h' with ⟨_, _, _, hrow', hmod', helem'⟩
  rw [Launch.accumAt, Launch.accumAt] at heq
  have htile : G.tileId v = G.tileId v' := by omega
  rcases place_inj (colIdx_lt h) (colIdx_lt h') htile with ⟨hrb, hcol⟩
  cases v
  cases v'
  simp only [Vec.mk.injEq] at hrb hcol hrow hmod helem hrow' hmod' helem' heq ⊢
  omega

/-- Two vectors are published to different places. -/
theorem place_vec_inj (h : v ∈ G.chunkVecs c) (h' : v' ∈ G.chunkVecs c') {j j' : Nat}
    (hj : j < 8) (hj' : j' < 8) (hrow : G.globalRow v = G.globalRow v')
    (hcol : v.globalCol + j = v'.globalCol + j') : v = v' ∧ j = j' := by
  rcases Iff.mp mem_chunkVecs h with ⟨_, _, _, hlt, hmod, helem⟩
  rcases Iff.mp mem_chunkVecs h' with ⟨_, _, _, hlt', hmod', helem'⟩
  rw [Launch.globalRow, Launch.globalRow] at hrow
  rw [Vec.globalCol, Vec.globalCol] at hcol
  cases v
  cases v'
  simp only [Vec.mk.injEq] at hrow hcol hlt hmod helem hlt' hmod' helem' ⊢
  omega

/-- A peer's part of a chunk covers the vectors of the chunk. -/
theorem inRecv_of_mem (h : v ∈ G.chunkVecs c) (p : Nat) (j : Fin 8) :
    G.InRecv p c (G.recvAt p v + j) := by
  rcases Iff.mp mem_chunkVecs h with ⟨hrb, hle, hlt, hrow, hmod, helem⟩
  simp only [Launch.InRecv, Launch.recvAt, Launch.tileId, ← hrb]
  omega

/-- The part of the intra-node all-reduce does so too. -/
theorem inLocal_of_mem (h : v ∈ G.chunkVecs c) (j : Fin 8) :
    G.InLocal c (G.globalElem v + j) := by
  have hcol := colIdx_lt h
  rcases Iff.mp mem_chunkVecs h with ⟨hrb, hle, hlt, hrow, hmod, helem⟩
  have hn : v.colIdx * 256 + v.colElem + j < G.shape.n := by
    have hdiv := Nat.div_mul_le_self G.shape.n 256
    rw [Shape.colBlocks] at hcol
    omega
  have hsplit : G.globalElem v + j =
      (G.devIdx * G.shape.sliceRows + (v.rbInSlice * 128 + v.tileRow)) * G.shape.n
        + (v.colIdx * 256 + v.colElem + j) := by
    rw [Launch.globalElem]
    ring
  simp only [Launch.InLocal, hsplit, place_div hn, Nat.mul_add_mod', Nat.mod_eq_of_lt hn, ← hrb]
  omega

end Vectors

end EarlyAccum

end GemmAr

end MKernel
