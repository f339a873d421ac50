import MKernel.Core.SmallNumbers
import MKernel.Core.Strided
import MKernel.Dist.Barrier
import MKernel.GemmAr.Chunks

/-!
# The Chunk Barrier

The intra-node barrier of `gemm_ar`, over any number of iterations without a
host reset.

Each GPU computes all tiles of the output. Its compute CTAs count the finished
tiles of every chunk, and the one that finishes a chunk signals the replica of
the GPU that owns it. On the owner the intra-AR CTAs wait, tile by tile, until
the slot of the tile's chunk equals `NUM_DEVICES`, reduce the tile and count
it; the one that finishes the chunk takes `NUM_DEVICES` off the slot again,
zeroes the count and sets the chunk's `local_done_flag`. A GPU publishes its
chunks once their flags are set, passes the final publication barrier when all
are published, and starts its next iteration, its scratch zeroed, when all GPUs
have passed.

The slot therefore works in rounds, one an iteration. `resets` counts the
rounds taken off it and `Gpu.sent` the iterations in which a GPU has signalled
it, and `Inv` says that the two keep step: a GPU never signals a round before
the previous one has been taken off, because it does not start an iteration
before the owner has passed the publication of the previous one, and a round
is not taken off before all tile CTAs of the chunk have seen it full, because
the last tile of a chunk is counted after its wait.

With `GEMM_AR_INTRA_READY_MULTIMEM` set the slot is used differently: each GPU
stores the epoch in its own replica and nothing is taken off. The step function
has both modes.

## Main definitions

* `Setup`: The shape, the CTA split, the mode and the epochs.
* `Gpu`, `World`, `step`: The GPUs of the node and the barrier slots.
* `Gpu.Finished`: A GPU has computed all tiles of a chunk in an iteration.
* `Waiting`: A tile CTA waits on the slot of a chunk.
* `Sound`: What the barrier promises of one chunk.
* `Inv`: The invariant of the counting mode.

## Theorems

* `inv_step`: Every step keeps the invariant.
* `chunk_barrier_sound`: Every slot is sound, in every run.
* `chunk_barrier_sound_twoRounds`: The same, in the second iteration.
* `chunk_barrier_unsound`: The multimem mode, and a shape that is not aligned.
-/

namespace MKernel

namespace GemmAr

open MKernel.Core MKernel.Dist

namespace ChunkBarrier

/-- The shape, the CTA split, the mode and the epochs of the iterations. -/
structure Setup where
  shape : Shape
  numCompSms : Nat
  numIntraArSms : Nat
  intraReadyMultimem : Bool
  epochs : Nat → Nat

/-- Where an intra-AR CTA stands with its tile. -/
inductive Phase where
  /-- In the wait loop, or done with all its tiles. -/
  | polling
  /-- Past the wait, reducing the tile. -/
  | reducing
  /-- It has counted the last tile of this chunk and resets the slot. -/
  | resetting (rbInSlice chunkCol : Nat)
deriving DecidableEq, Repr

/-- One GPU: its iteration, the walks of its CTAs and its scratch. -/
structure Gpu (setup : Setup) where
  iter : Nat
  /-- It has passed the final publication of the iteration. -/
  passed : Bool
  comp : Strided setup.numCompSms
  compChunkTilesDone : Nat → Nat
  ar : Strided setup.numIntraArSms
  phase : Fin setup.numIntraArSms → Phase
  intraChunkTilesDone : Nat → Nat
  localDoneFlag : Nat → Bool

/-- The GPUs and the barrier slots, by row block and column of chunks. -/
structure World (setup : Setup) where
  gpu : Fin setup.shape.numDevices → Gpu setup
  slots : Nat × Nat → Slot setup.shape.numDevices

/-- What can happen next. -/
inductive Action (setup : Setup) where
  /-- A compute CTA finishes a tile and counts it. -/
  | compute (d : Fin setup.shape.numDevices) (c : Fin setup.numCompSms)
  /-- A signal reaches a replica. -/
  | land (x : Nat × Nat) (sender dst : Fin setup.shape.numDevices)
  /-- An intra-AR CTA reads the slot of its tile once. -/
  | load (d : Fin setup.shape.numDevices) (o : Fin setup.numIntraArSms)
  /-- An intra-AR CTA has reduced its tile and counts it. -/
  | reduce (d : Fin setup.shape.numDevices) (o : Fin setup.numIntraArSms)
  /-- The CTA that counted the last tile of a chunk resets its slot. -/
  | reset (d : Fin setup.shape.numDevices) (o : Fin setup.numIntraArSms)
  /-- A GPU with all its chunks published passes the final publication. -/
  | pass (d : Fin setup.shape.numDevices)
  /-- A GPU starts its next iteration. -/
  | start (d : Fin setup.shape.numDevices)
deriving DecidableEq

variable {setup : Setup}

/-- A GPU at the start of an iteration, its scratch zeroed. -/
def Gpu.launched (setup : Setup) (iter : Nat) : Gpu setup where
  iter := iter
  passed := false
  comp := Strided.start
  compChunkTilesDone := fun _ => 0
  ar := Strided.start
  phase := fun _ => .polling
  intraChunkTilesDone := fun _ => 0
  localDoneFlag := fun _ => false

/-- The first iteration, the barrier buffer zeroed. -/
def init (setup : Setup) : World setup :=
  { gpu := fun _ => Gpu.launched setup 0, slots := fun _ => Slot.zeroed }

/-- Replace one GPU. -/
def World.setGpu (w : World setup) (d : Fin setup.shape.numDevices) (g : Gpu setup) :
    World setup :=
  { w with gpu := fun e => if e = d then g else w.gpu e }

/-- Replace one slot. -/
def World.setSlot (w : World setup) (x : Nat × Nat) (b : Slot setup.shape.numDevices) :
    World setup :=
  { w with slots := fun y => if y = x then b else w.slots y }

/-- Change one entry of an array. -/
def setAt {α : Type*} (f : Nat → α) (i : Nat) (a : α) : Nat → α :=
  fun j => if j = i then a else f j

/-- Compute CTA `c` takes its task and counts the tile for its chunk. -/
def Gpu.countTask (g : Gpu setup) (c : Fin setup.numCompSms) : Gpu setup :=
  let x := setup.shape.chunkOfTask (g.comp.next c)
  let flat := setup.shape.flatChunk x.1 x.2
  { g with
    comp := g.comp.advance c
    compChunkTilesDone := setAt g.compChunkTilesDone flat (g.compChunkTilesDone flat + 1) }

/-- Intra-AR CTA `o` leaves the wait loop. -/
def Gpu.leaveWait (g : Gpu setup) (o : Fin setup.numIntraArSms) : Gpu setup :=
  { g with phase := fun p => if p = o then .reducing else g.phase p }

/-- Intra-AR CTA `o` counts its tile for its chunk and goes on to the next. -/
def Gpu.countTile (g : Gpu setup) (o : Fin setup.numIntraArSms) : Gpu setup :=
  let q := setup.shape.chunkOfTile (g.ar.next o)
  let id := setup.shape.flatChunk q.1 q.2
  let prev := g.intraChunkTilesDone id
  { g with
    ar := g.ar.advance o
    intraChunkTilesDone := setAt g.intraChunkTilesDone id (prev + 1)
    phase := fun p =>
      if p = o then
        if prev + 1 = setup.shape.tilesThisChunk q.2 then .resetting q.1 q.2 else .polling
      else
        g.phase p }

/-- Intra-AR CTA `o` zeroes the count of a chunk and sets its flag. -/
def Gpu.finishChunk (g : Gpu setup) (o : Fin setup.numIntraArSms) (rbInSlice chunkCol : Nat) :
    Gpu setup :=
  let id := setup.shape.flatChunk rbInSlice chunkCol
  { g with
    intraChunkTilesDone := setAt g.intraChunkTilesDone id 0
    localDoneFlag := setAt g.localDoneFlag id true
    phase := fun p => if p = o then .polling else g.phase p }

/-- The slot of a chunk of GPU `d`, by its row block in the slice and its
    column. -/
def slotOf (d : Fin setup.shape.numDevices) (rbInSlice chunkCol : Nat) : Nat × Nat :=
  (d * setup.shape.rowBlocksPerSlice + rbInSlice, chunkCol)

/-- The test the wait loop of an intra-AR CTA ends with. -/
def seesReady (w : World setup) (d : Fin setup.shape.numDevices) (x : Nat × Nat) : Bool :=
  if setup.intraReadyMultimem then
    decide (∀ j, (setup.epochs (w.gpu d).iter : Int) ≤ ((w.slots x) j).value)
  else
    (w.slots x).ready d setup.shape.numDevices

/-- What the CTA that finishes a chunk on GPU `d` does to the chunk's slot. -/
def signalChunk (w : World setup) (d : Fin setup.shape.numDevices) (x : Nat × Nat) :
    Option (World setup) :=
  if setup.intraReadyMultimem then
    some (w.setSlot x (fun j => if j = d then
      { (w.slots x) j with value := setup.epochs (w.gpu d).iter } else (w.slots x) j))
  else if h : x.1 / setup.shape.rowBlocksPerSlice < setup.shape.numDevices then
    some (w.setSlot x ((w.slots x).signal d ⟨x.1 / setup.shape.rowBlocksPerSlice, h⟩))
  else
    none

/-- One step of the CTAs, the signals on their way and the iterations. -/
def step (w : World setup) : Action setup → Option (World setup)
  | .compute d c =>
    let g := w.gpu d
    if g.comp.next c < setup.shape.numBlocks then
      let x := setup.shape.chunkOfTask (g.comp.next c)
      let prev := g.compChunkTilesDone (setup.shape.flatChunk x.1 x.2)
      if prev = setup.shape.tilesThisChunk x.2 - 1 then
        signalChunk (w.setGpu d (g.countTask c)) d x
      else
        some (w.setGpu d (g.countTask c))
    else
      none
  | .land x sender dst => ((w.slots x).land sender dst).map (w.setSlot x)
  | .load d o =>
    let g := w.gpu d
    if g.phase o = .polling ∧ g.ar.next o < setup.shape.totalTilesPerDevice then
      let q := setup.shape.chunkOfTile (g.ar.next o)
      if seesReady w d (slotOf d q.1 q.2) then some (w.setGpu d (g.leaveWait o)) else some w
    else
      none
  | .reduce d o =>
    if (w.gpu d).phase o = .reducing then some (w.setGpu d ((w.gpu d).countTile o)) else none
  | .reset d o =>
    match (w.gpu d).phase o with
    | .resetting rbInSlice chunkCol =>
      let x := slotOf d rbInSlice chunkCol
      let u := if setup.intraReadyMultimem then w
        else w.setSlot x ((w.slots x).addAt d (-setup.shape.numDevices))
      some (u.setGpu d ((w.gpu d).finishChunk o rbInSlice chunkCol))
    | _ => none
  | .pass d =>
    if ∀ q < setup.shape.totalChunks, (w.gpu d).localDoneFlag q = true then
      some (w.setGpu d { w.gpu d with passed := true })
    else
      none
  | .start d =>
    let g := w.gpu d
    if g.passed = true ∧
        (∀ e, g.iter < (w.gpu e).iter ∨ (g.iter = (w.gpu e).iter ∧ (w.gpu e).passed = true)) ∧
        (∀ c, setup.shape.numBlocks ≤ g.comp.next c) ∧
        ∀ o, g.phase o = .polling ∧ setup.shape.totalTilesPerDevice ≤ g.ar.next o then
      some (w.setGpu d (Gpu.launched setup (g.iter + 1)))
    else
      none

/-- GPU `g` has computed all tiles of a chunk in an iteration. -/
def Gpu.Finished (g : Gpu setup) (x : Chunk setup.shape) (k : Nat) : Prop :=
  k < g.iter ∨ (k = g.iter ∧ ∀ t < setup.shape.numBlocks,
    setup.shape.chunkOfTask t = (x.row, x.chunkCol.val) → g.comp.Visited t)

instance (g : Gpu setup) (x : Chunk setup.shape) (k : Nat) : Decidable (g.Finished x k) :=
  inferInstanceAs (Decidable (_ ∨ _ ∧ ∀ t < setup.shape.numBlocks, _ → _))

/-- The replica of a chunk's slot on its owner. -/
def World.replica (w : World setup) (x : Chunk setup.shape) :
    Tally (Fin setup.shape.numDevices) :=
  w.slots (x.row, x.chunkCol) x.owner

/-- A tile CTA of the owner waits on the slot of a chunk. -/
def Waiting (w : World setup) (x : Chunk setup.shape) (o : Fin setup.numIntraArSms) : Prop :=
  (w.gpu x.owner).phase o = .polling ∧
    (w.gpu x.owner).ar.next o < setup.shape.totalTilesPerDevice ∧
    setup.shape.chunkOfTile ((w.gpu x.owner).ar.next o) = (x.rbInSlice.val, x.chunkCol.val)

/-- How many tiles of a chunk the GPU has computed in its iteration. -/
def Gpu.tasksDone (g : Gpu setup) (x : Chunk setup.shape) : Nat :=
  ((g.comp.seen setup.shape.numBlocks).filter
    (fun t => setup.shape.chunkOfTask t = (x.row, x.chunkCol.val))).card

/-- In how many iterations the GPU has signalled a chunk. -/
def Gpu.sent (g : Gpu setup) (x : Chunk setup.shape) : Nat :=
  g.iter + if g.tasksDone x = x.tiles then 1 else 0

/-- In how many iterations the slot of a chunk has been reset. -/
def resets (w : World setup) (x : Chunk setup.shape) : Nat :=
  (w.gpu x.owner).iter + if (w.gpu x.owner).localDoneFlag x.id = true then 1 else 0

/-- What the barrier promises of one chunk. -/
structure Sound (w : World setup) (x : Chunk setup.shape) : Prop where
  /-- The slot stays between 0 and `NUM_DEVICES`. -/
  range : 0 ≤ (w.replica x).value ∧ (w.replica x).value ≤ setup.shape.numDevices
  /-- A waiting CTA sees `NUM_DEVICES` exactly when all GPUs have finished the
      chunk and their signals have landed. -/
  observes : ∀ o, Waiting w x o →
    ((w.replica x).value = setup.shape.numDevices ↔
      ∀ d, (w.gpu d).Finished x (w.gpu x.owner).iter ∧ (w.replica x).pending d = 0)
  /-- When a signal is about to land, the slot holds the signals of the same
      iteration that have landed before it and nothing else. -/
  cleared : ∀ d, 0 < (w.replica x).pending d →
    (w.replica x).value = ((Finset.univ.filter (fun e =>
      (w.gpu e).sent x = (w.gpu d).sent x ∧ (w.replica x).pending e = 0)).card : Int)

/-! ## Counts -/

/-- How many tiles of a chunk the GPU has reduced and counted. -/
def Gpu.tilesDone (g : Gpu setup) (x : Chunk setup.shape) : Nat :=
  ((g.ar.seen setup.shape.totalTilesPerDevice).filter
    (fun t => setup.shape.chunkOfTile t = (x.rbInSlice.val, x.chunkCol.val))).card

theorem tasksDone_le (ha : setup.shape.Aligned) (g : Gpu setup) (x : Chunk setup.shape) :
    g.tasksDone x ≤ x.tiles := by
  rw [← x.card_tasks ha]
  exact Strided.card_filter_le _ _ _

theorem tilesDone_le (g : Gpu setup) (x : Chunk setup.shape) : g.tilesDone x ≤ x.tiles := by
  rw [← x.card_tiles]
  exact Strided.card_filter_le _ _ _

theorem tiles_pos (x : Chunk setup.shape) : 0 < x.tiles := tilesThisChunk_pos x.chunkCol.isLt

theorem tasksDone_countTask {g : Gpu setup} {c : Fin setup.numCompSms}
    (h : g.comp.next c < setup.shape.numBlocks) (x : Chunk setup.shape) :
    (g.countTask c).tasksDone x = g.tasksDone x +
      if setup.shape.chunkOfTask (g.comp.next c) = (x.row, x.chunkCol.val) then 1 else 0 :=
  Strided.card_filter_advance g.comp c h _

theorem tilesDone_countTile {g : Gpu setup} {o : Fin setup.numIntraArSms}
    (h : g.ar.next o < setup.shape.totalTilesPerDevice) (x : Chunk setup.shape) :
    (g.countTile o).tilesDone x = g.tilesDone x +
      if setup.shape.chunkOfTile (g.ar.next o) = (x.rbInSlice.val, x.chunkCol.val)
        then 1 else 0 :=
  Strided.card_filter_advance g.ar o h _

theorem tasksDone_launched (k : Nat) (x : Chunk setup.shape) :
    (Gpu.launched setup k).tasksDone x = 0 := by
  simp only [Gpu.tasksDone, Gpu.launched, Strided.seen_start, Finset.filter_empty,
    Finset.card_empty]

theorem tilesDone_launched (k : Nat) (x : Chunk setup.shape) :
    (Gpu.launched setup k).tilesDone x = 0 := by
  simp only [Gpu.tilesDone, Gpu.launched, Strided.seen_start, Finset.filter_empty,
    Finset.card_empty]

/-- A chunk is computed when as many of its tiles are done as it has. -/
theorem finished_iff (ha : setup.shape.Aligned) (g : Gpu setup) (x : Chunk setup.shape) (k : Nat) :
    g.Finished x k ↔ k < g.sent x := by
  have hall : (∀ t < setup.shape.numBlocks,
      setup.shape.chunkOfTask t = (x.row, x.chunkCol.val) → g.comp.Visited t) ↔
      g.tasksDone x = x.tiles := by
    constructor
    · intro h
      rw [← x.card_tasks ha]
      refine congrArg Finset.card (Finset.ext fun t => ?_)
      rw [Finset.mem_filter, Finset.mem_filter, Strided.mem_seen, Finset.mem_range]
      exact ⟨fun ht => ⟨ht.1.1, ht.2⟩, fun ht => ⟨⟨ht.1, h t ht.1 ht.2⟩, ht.2⟩⟩
    · intro h t ht hchunk
      -- As many tasks are done as there are, so they are all of them.
      have heq := Finset.eq_of_subset_of_card_le
        (Finset.filter_subset_filter (fun t => setup.shape.chunkOfTask t =
          (x.row, x.chunkCol.val)) (Finset.filter_subset g.comp.Visited
            (Finset.range setup.shape.numBlocks)))
        (le_of_eq ((x.card_tasks ha).trans h.symm))
      have hmem : t ∈ (Finset.range setup.shape.numBlocks).filter
          (fun t => setup.shape.chunkOfTask t = (x.row, x.chunkCol.val)) :=
        Finset.mem_filter.mpr ⟨Finset.mem_range.mpr ht, hchunk⟩
      rw [← heq, Finset.mem_filter, Finset.mem_filter] at hmem
      exact hmem.1.2
  rw [Gpu.Finished, hall, Gpu.sent]
  by_cases h : g.tasksDone x = x.tiles
  · rw [if_pos h]
    omega
  · rw [if_neg h]
    omega

/-! ## The state of one GPU -/

/-- A tile of the chunk has passed the wait and the slot is not reset yet. -/
def Gpu.Holds (g : Gpu setup) (x : Chunk setup.shape) : Prop :=
  (∃ o, g.phase o = .reducing ∧
    setup.shape.chunkOfTile (g.ar.next o) = (x.rbInSlice.val, x.chunkCol.val)) ∨
  (0 < g.tilesDone x ∧ g.localDoneFlag x.id = false)

/-- What the counters, flags and phases of a GPU say about its walks. -/
structure Gpu.Ok (g : Gpu setup) : Prop where
  comp : ∀ x : Chunk setup.shape,
    g.compChunkTilesDone (setup.shape.flatChunk x.row x.chunkCol) = g.tasksDone x
  intra : ∀ x : Chunk setup.shape,
    g.intraChunkTilesDone x.id = if g.localDoneFlag x.id = true then 0 else g.tilesDone x
  done : ∀ x : Chunk setup.shape, g.localDoneFlag x.id = true → g.tilesDone x = x.tiles
  taken : ∀ o, g.phase o = .reducing → g.ar.next o < setup.shape.totalTilesPerDevice
  valid : ∀ o rb cc, g.phase o = .resetting rb cc →
    rb < setup.shape.rowBlocksPerSlice ∧ cc < setup.shape.chunksPerRow
  last : ∀ (x : Chunk setup.shape) o, g.phase o = .resetting x.rbInSlice x.chunkCol →
    g.tilesDone x = x.tiles ∧ g.localDoneFlag x.id = false
  unique : ∀ rb cc o p, g.phase o = .resetting rb cc → g.phase p = .resetting rb cc → o = p

theorem ok_launched (k : Nat) : (Gpu.launched setup k).Ok where
  comp := fun x => (tasksDone_launched k x).symm
  intra := fun x => by
    rw [tilesDone_launched]
    exact (ite_self 0).symm
  done := fun _ h => absurd h (by simp only [Gpu.launched, Bool.false_eq_true, not_false_eq_true])
  taken := fun _ h => absurd h (by simp only [Gpu.launched, reduceCtorEq, not_false_eq_true])
  valid := fun _ _ _ h => absurd h (by simp only [Gpu.launched, reduceCtorEq, not_false_eq_true])
  last := fun _ _ h => absurd h (by simp only [Gpu.launched, reduceCtorEq, not_false_eq_true])
  unique := fun _ _ _ _ h =>
    absurd h (by simp only [Gpu.launched, reduceCtorEq, not_false_eq_true])

/-- The tile a CTA is at has not been counted, so its chunk is not finished. -/
theorem tilesDone_lt {g : Gpu setup} {o : Fin setup.numIntraArSms}
    (ht : g.ar.next o < setup.shape.totalTilesPerDevice) {x : Chunk setup.shape}
    (hx : setup.shape.chunkOfTile (g.ar.next o) = (x.rbInSlice.val, x.chunkCol.val)) :
    g.tilesDone x < x.tiles := by
  -- Counting it would make one more, and there is no more than all.
  have hle := tilesDone_le (g.countTile o) x
  rw [tilesDone_countTile ht, if_pos hx] at hle
  omega

theorem not_done_of_lt {g : Gpu setup} (hok : g.Ok) {x : Chunk setup.shape}
    (h : g.tilesDone x < x.tiles) : g.localDoneFlag x.id = false := by
  by_contra hne
  have hdone := hok.done x (Bool.eq_true_of_not_eq_false hne)
  omega

/-- Two chunks have the same index on their owners when they have the same
    place there. -/
theorem id_eq_iff (x y : Chunk setup.shape) :
    x.id = y.id ↔ (x.rbInSlice.val, x.chunkCol.val) = (y.rbInSlice.val, y.chunkCol.val) := by
  rw [Chunk.id, Chunk.id, flatChunk_inj x.chunkCol.isLt y.chunkCol.isLt, Prod.mk.injEq]

/-- Chunks of the same index have as many tiles, and as many of them counted. -/
theorem tilesDone_congr (g : Gpu setup) {x y : Chunk setup.shape} (h : x.id = y.id) :
    g.tilesDone x = g.tilesDone y ∧ x.tiles = y.tiles := by
  have hplace := (id_eq_iff x y).mp h
  rw [Prod.mk.injEq] at hplace
  simp only [Gpu.tilesDone, Chunk.tiles, hplace.1, hplace.2, and_self]

theorem ok_countTask (ha : setup.shape.Aligned) {g : Gpu setup} (hok : g.Ok)
    {c : Fin setup.numCompSms} (h : g.comp.next c < setup.shape.numBlocks) :
    (g.countTask c).Ok := by
  refine ⟨fun x => ?_, hok.intra, hok.done, hok.taken, hok.valid, hok.last, hok.unique⟩
  rcases exists_chunk_of_task ha h with ⟨y, hy⟩
  rw [tasksDone_countTask h, hy]
  simp only [Gpu.countTask, setAt, hy]
  by_cases hxy : (y.row, y.chunkCol.val) = (x.row, x.chunkCol.val)
  · have hflat := hxy
    rw [Prod.mk.injEq, ← flatChunk_inj y.chunkCol.isLt x.chunkCol.isLt] at hflat
    rw [if_pos hflat.symm, if_pos hxy, hflat, hok.comp x]
  · -- Another chunk has its counter elsewhere.
    have hflat : ¬ setup.shape.flatChunk x.row x.chunkCol =
        setup.shape.flatChunk y.row y.chunkCol := by
      rw [flatChunk_inj x.chunkCol.isLt y.chunkCol.isLt, ← Prod.mk.injEq]
      exact fun heq => hxy heq.symm
    rw [if_neg hflat, if_neg hxy, hok.comp x, Nat.add_zero]

theorem ok_leaveWait {g : Gpu setup} (hok : g.Ok) {o : Fin setup.numIntraArSms}
    (h : g.ar.next o < setup.shape.totalTilesPerDevice) : (g.leaveWait o).Ok := by
  have hphase : ∀ p rb cc, (g.leaveWait o).phase p = .resetting rb cc →
      g.phase p = .resetting rb cc := by
    intro p rb cc hp
    by_cases hpo : p = o
    · simp only [Gpu.leaveWait, if_pos hpo, reduceCtorEq] at hp
    · simpa only [Gpu.leaveWait, if_neg hpo] using hp
  refine ⟨hok.comp, hok.intra, hok.done, fun p hp => ?_, fun p rb cc hp => ?_,
    fun x p hp => hok.last x p (hphase p _ _ hp),
    fun rb cc p q hp hq => hok.unique rb cc p q (hphase p _ _ hp) (hphase q _ _ hq)⟩
  · by_cases hpo : p = o
    · rw [hpo]
      exact h
    · exact hok.taken p (by simpa only [Gpu.leaveWait, if_neg hpo] using hp)
  · exact hok.valid p rb cc (hphase p _ _ hp)

/-- The chunk of the counted tile gains a tile, the others none. -/
theorem tilesDone_countTile_eq {g : Gpu setup} {o : Fin setup.numIntraArSms}
    (ht : g.ar.next o < setup.shape.totalTilesPerDevice) {y : Chunk setup.shape}
    (hy : setup.shape.chunkOfTile (g.ar.next o) = (y.rbInSlice.val, y.chunkCol.val))
    (x : Chunk setup.shape) :
    (g.countTile o).tilesDone x = g.tilesDone x + if x.id = y.id then 1 else 0 := by
  rw [tilesDone_countTile ht, hy]
  by_cases hxy : x.id = y.id
  · rw [if_pos hxy, if_pos ((id_eq_iff x y).mp hxy).symm]
  · rw [if_neg hxy, if_neg (fun heq => hxy ((id_eq_iff x y).mpr heq.symm))]

/-- The counter of an unfinished chunk is the number of its counted tiles. -/
theorem intra_eq_of_not_done {g : Gpu setup} (hok : g.Ok) {y : Chunk setup.shape}
    (hnot : g.localDoneFlag y.id = false) : g.intraChunkTilesDone y.id = g.tilesDone y := by
  rw [hok.intra y, hnot]
  exact if_neg (by simp only [Bool.false_eq_true, not_false_eq_true])

/-- A CTA that resets a chunk after a tile is counted did so before, or it has
    just counted the last tile of the chunk. -/
theorem phase_countTile {g : Gpu setup} (hok : g.Ok) {o p : Fin setup.numIntraArSms}
    {y : Chunk setup.shape}
    (hy : setup.shape.chunkOfTile (g.ar.next o) = (y.rbInSlice.val, y.chunkCol.val))
    (hnot : g.localDoneFlag y.id = false) {rb cc : Nat}
    (hp : (g.countTile o).phase p = .resetting rb cc) :
    (p ≠ o ∧ g.phase p = .resetting rb cc) ∨
      (p = o ∧ g.tilesDone y + 1 = y.tiles ∧ rb = y.rbInSlice ∧ cc = y.chunkCol) := by
  by_cases hpo : p = o
  · have hslot : g.intraChunkTilesDone (setup.shape.flatChunk y.rbInSlice y.chunkCol) =
        g.tilesDone y := intra_eq_of_not_done hok hnot
    simp only [Gpu.countTile, if_pos hpo, hy, hslot] at hp
    by_cases hfull : g.tilesDone y + 1 = setup.shape.tilesThisChunk y.chunkCol
    · rw [if_pos hfull, Phase.resetting.injEq] at hp
      exact Or.inr ⟨hpo, hfull, hp.1.symm, hp.2.symm⟩
    · rw [if_neg hfull] at hp
      exact absurd hp (by simp only [reduceCtorEq, not_false_eq_true])
  · exact Or.inl ⟨hpo, by simpa only [Gpu.countTile, if_neg hpo] using hp⟩

/-- A CTA that reduces a tile after another has counted one was at its tile
    before. -/
theorem reducing_countTile {g : Gpu setup} {o p : Fin setup.numIntraArSms}
    (hp : (g.countTile o).phase p = .reducing) :
    g.phase p = .reducing ∧ (g.countTile o).ar.next p = g.ar.next p := by
  have hpo : p ≠ o := by
    rintro rfl
    simp only [Gpu.countTile, if_true] at hp
    split at hp
    all_goals exact absurd hp (by simp only [reduceCtorEq, not_false_eq_true])
  exact ⟨by simpa only [Gpu.countTile, if_neg hpo] using hp, if_neg hpo⟩

theorem ok_countTile (d : Fin setup.shape.numDevices) {g : Gpu setup} (hok : g.Ok)
    {o : Fin setup.numIntraArSms} (ho : g.phase o = .reducing) : (g.countTile o).Ok := by
  have ht := hok.taken o ho
  rcases exists_chunk_of_tile d ht with ⟨y, -, hy⟩
  have hlt := tilesDone_lt ht hy
  have hnot := not_done_of_lt hok hlt
  have hprev := intra_eq_of_not_done hok hnot
  have hcount := tilesDone_countTile_eq ht hy
  have hid : (setup.shape.flatChunk (setup.shape.chunkOfTile (g.ar.next o)).1
      (setup.shape.chunkOfTile (g.ar.next o)).2) = y.id := by
    rw [hy]
    rfl
  -- Nobody resets a chunk that has a tile to be counted.
  have hfull : ∀ p, g.phase p ≠ .resetting y.rbInSlice y.chunkCol := by
    intro p hp
    have hlast := (hok.last y p hp).1
    omega
  refine ⟨hok.comp, fun x => ?_, fun x hx => ?_, fun p hp => ?_, fun p rb cc hp => ?_,
    fun x p hp => ?_, fun rb cc p q hp hq => ?_⟩
  · have hx := hok.intra x
    rw [hcount x]
    simp only [Gpu.countTile, setAt, hid]
    by_cases hxy : x.id = y.id
    · have hflag : ¬ g.localDoneFlag y.id = true := by
        rw [hnot]
        exact Bool.false_ne_true
      rw [if_pos hxy, if_pos hxy, hxy, if_neg hflag, hprev, (tilesDone_congr g hxy).1]
    · rw [if_neg hxy, if_neg hxy, Nat.add_zero]
      exact hx
  · by_cases hxy : x.id = y.id
    · rw [show (g.countTile o).localDoneFlag x.id = g.localDoneFlag y.id from
        congrArg g.localDoneFlag hxy, hnot] at hx
      exact absurd hx Bool.false_ne_true
    · rw [hcount x, if_neg hxy, Nat.add_zero]
      exact hok.done x hx
  · rcases reducing_countTile hp with ⟨hold, hnext⟩
    rw [hnext]
    exact hok.taken p hold
  · rcases phase_countTile hok hy hnot hp with ⟨-, hold⟩ | ⟨-, -, rfl, rfl⟩
    · exact hok.valid p rb cc hold
    · exact ⟨y.rbInSlice.isLt, y.chunkCol.isLt⟩
  · rcases phase_countTile hok hy hnot hp with ⟨-, hold⟩ | ⟨-, hcnt, hrb, hcc⟩
    · have hlast := hok.last x p hold
      have hxy : x.id ≠ y.id := by
        intro hxy
        have heq := tilesDone_congr g hxy
        omega
      rw [hcount x, if_neg hxy, Nat.add_zero]
      exact hlast
    · have hxy : x.id = y.id := (id_eq_iff x y).mpr (Prod.ext hrb hcc)
      rw [hcount x, if_pos hxy, (tilesDone_congr g hxy).1, (tilesDone_congr g hxy).2, hcnt]
      exact ⟨rfl, (congrArg g.localDoneFlag hxy).trans hnot⟩
  · -- Only the CTA that counts the last tile resets the chunk.
    rcases phase_countTile hok hy hnot hp with ⟨-, holdp⟩ | ⟨hpo, -, hrb, hcc⟩
    · rcases phase_countTile hok hy hnot hq with ⟨-, holdq⟩ | ⟨-, -, hrb, hcc⟩
      · exact hok.unique rb cc p q holdp holdq
      · rw [hrb, hcc] at holdp
        exact absurd holdp (hfull p)
    · rcases phase_countTile hok hy hnot hq with ⟨-, holdq⟩ | ⟨hqo, -, -, -⟩
      · rw [hrb, hcc] at holdq
        exact absurd holdq (hfull q)
      · exact hpo.trans hqo.symm

theorem ok_finishChunk {g : Gpu setup} (hok : g.Ok) {o : Fin setup.numIntraArSms}
    {y : Chunk setup.shape} (ho : g.phase o = .resetting y.rbInSlice y.chunkCol) :
    (g.finishChunk o y.rbInSlice y.chunkCol).Ok := by
  have hlast := hok.last y o ho
  -- Only this CTA goes on.
  have hphase : ∀ p rb cc, (g.finishChunk o y.rbInSlice y.chunkCol).phase p = .resetting rb cc →
      p ≠ o ∧ g.phase p = .resetting rb cc := by
    intro p rb cc hp
    by_cases hpo : p = o
    · simp only [Gpu.finishChunk, if_pos hpo, reduceCtorEq] at hp
    · exact ⟨hpo, by simpa only [Gpu.finishChunk, if_neg hpo] using hp⟩
  have hid : setup.shape.flatChunk y.rbInSlice y.chunkCol = y.id := rfl
  refine ⟨hok.comp, fun x => ?_, fun x hx => ?_, fun p hp => ?_, fun p rb cc hp => ?_,
    fun x p hp => ?_, fun rb cc p q hp hq => ?_⟩
  · simp only [Gpu.finishChunk, setAt, hid]
    -- The count of the chunk is zero now, and so is what it counts.
    by_cases hxy : x.id = y.id
    · rw [if_pos hxy, if_pos hxy, if_pos rfl]
    · rw [if_neg hxy, if_neg hxy]
      exact hok.intra x
  · by_cases hxy : x.id = y.id
    · -- Its tiles are done all the same.
      rw [show (g.finishChunk o y.rbInSlice y.chunkCol).tilesDone x = g.tilesDone x from rfl,
        (tilesDone_congr g hxy).1, (tilesDone_congr g hxy).2]
      exact hlast.1
    · simp only [Gpu.finishChunk, setAt, hid, if_neg hxy] at hx
      exact hok.done x hx
  · have hpo : p ≠ o := by
      rintro rfl
      simp only [Gpu.finishChunk, if_true, reduceCtorEq] at hp
    exact hok.taken p (by simpa only [Gpu.finishChunk, if_neg hpo] using hp)
  · exact hok.valid p rb cc (hphase p rb cc hp).2
  · rcases hphase p _ _ hp with ⟨hpo, hold⟩
    have hxlast := hok.last x p hold
    -- Two CTAs are never at the reset of one chunk.
    have hxy : x.id ≠ y.id := by
      intro hxy
      have hplace := (id_eq_iff x y).mp hxy
      rw [Prod.mk.injEq] at hplace
      rw [hplace.1, hplace.2] at hold
      exact hpo (hok.unique _ _ p o hold ho)
    refine ⟨hxlast.1, ?_⟩
    simp only [Gpu.finishChunk, setAt, hid, if_neg hxy]
    exact hxlast.2
  · exact hok.unique rb cc p q (hphase p rb cc hp).2 (hphase q rb cc hq).2

/-! ## The rounds of the slots -/

/-- The GPUs are at most one iteration apart, and whoever is behind has passed
    the publication of its own. -/
def Skew (w : World setup) : Prop :=
  ∀ d e, (w.gpu d).iter ≤ (w.gpu e).iter + 1 ∧
    ((w.gpu d).iter = (w.gpu e).iter + 1 → (w.gpu e).passed = true)

/-- What holds in every run of the counting mode. -/
structure Inv (w : World setup) : Prop where
  ok : ∀ d, (w.gpu d).Ok
  round : ∀ x, (w.replica x).InRound (fun d => (w.gpu d).sent x) (resets w x)
  held : ∀ x : Chunk setup.shape, (w.gpu x.owner).Holds x →
    (w.replica x).value = setup.shape.numDevices
  skew : Skew w
  done : ∀ x : Chunk setup.shape, (w.gpu x.owner).passed = true →
    (w.gpu x.owner).localDoneFlag x.id = true

section Setters

variable (w : World setup) (d : Fin setup.shape.numDevices) (g : Gpu setup)

@[simp] theorem setGpu_self : (w.setGpu d g).gpu d = g := if_pos rfl

theorem setGpu_ne {e : Fin setup.shape.numDevices} (h : e ≠ d) :
    (w.setGpu d g).gpu e = w.gpu e := if_neg h

@[simp] theorem setGpu_slots : (w.setGpu d g).slots = w.slots := rfl

@[simp] theorem setGpu_replica (x : Chunk setup.shape) :
    (w.setGpu d g).replica x = w.replica x := rfl

@[simp] theorem setSlot_gpu (y : Nat × Nat) (b : Slot setup.shape.numDevices) :
    (w.setSlot y b).gpu = w.gpu := rfl

theorem setSlot_replica (y : Nat × Nat) (b : Slot setup.shape.numDevices)
    (x : Chunk setup.shape) :
    (w.setSlot y b).replica x = if (x.row, x.chunkCol.val) = y then b x.owner else w.replica x := by
  by_cases h : (x.row, x.chunkCol.val) = y
  · simp only [World.replica, World.setSlot, if_pos h]
  · simp only [World.replica, World.setSlot, if_neg h]

end Setters

/-- What holds of the new state of one GPU and of the others as they were holds
    of all. -/
theorem setGpu_forall {w : World setup} {d : Fin setup.shape.numDevices} {g : Gpu setup}
    {P : Fin setup.shape.numDevices → Gpu setup → Prop} (hd : P d g)
    (hother : ∀ e, e ≠ d → P e (w.gpu e)) (e : Fin setup.shape.numDevices) :
    P e ((w.setGpu d g).gpu e) := by
  by_cases he : e = d
  · subst he
    rw [setGpu_self]
    exact hd
  · rw [setGpu_ne _ _ _ he]
    exact hother e he

theorem sent_setGpu {w : World setup} {d : Fin setup.shape.numDevices} {g : Gpu setup}
    {x : Chunk setup.shape} (h : g.sent x = (w.gpu d).sent x) :
    (fun e => ((w.setGpu d g).gpu e).sent x) = fun e => (w.gpu e).sent x := by
  funext e
  exact setGpu_forall (P := fun e g => g.sent x = (w.gpu e).sent x) h (fun _ _ => rfl) e

theorem resets_setGpu {w : World setup} {d : Fin setup.shape.numDevices} {g : Gpu setup}
    {x : Chunk setup.shape}
    (h : x.owner = d → g.iter + (if g.localDoneFlag x.id = true then 1 else 0) = resets w x) :
    resets (w.setGpu d g) x = resets w x := by
  by_cases hx : x.owner = d
  · rw [← h hx, resets, hx, setGpu_self]
  · rw [resets, setGpu_ne _ _ _ hx, resets]

theorem skew_setGpu {w : World setup} {d : Fin setup.shape.numDevices} {g : Gpu setup}
    (h : Skew w) (hiter : g.iter = (w.gpu d).iter)
    (hpassed : (w.gpu d).passed = true → g.passed = true) : Skew (w.setGpu d g) := by
  have hi : ∀ e, ((w.setGpu d g).gpu e).iter = (w.gpu e).iter := by
    intro e
    by_cases he : e = d
    · rw [he, setGpu_self, hiter]
    · rw [setGpu_ne _ _ _ he]
  intro e f
  rw [hi e, hi f]
  refine ⟨(h e f).1, fun heq => ?_⟩
  by_cases hf : f = d
  · rw [hf, setGpu_self]
    exact hpassed (hf ▸ (h e f).2 heq)
  · rw [setGpu_ne _ _ _ hf]
    exact (h e f).2 heq

/-- A change of one GPU, together with what it does to the slots. -/
theorem inv_update {w u : World setup} (hi : Inv w) {d : Fin setup.shape.numDevices}
    {g : Gpu setup} (hgpu : u.gpu = (w.setGpu d g).gpu) (hok : g.Ok)
    (hround : ∀ x, (u.replica x).InRound (fun e => (u.gpu e).sent x) (resets u x))
    (hheld : ∀ x : Chunk setup.shape, x.owner = d → g.Holds x →
      (u.replica x).value = setup.shape.numDevices)
    (hkept : ∀ x : Chunk setup.shape, x.owner ≠ d →
      (w.replica x).value = setup.shape.numDevices → (u.replica x).value = setup.shape.numDevices)
    (hskew : Skew u)
    (hdone : ∀ x : Chunk setup.shape, x.owner = d → g.passed = true →
      g.localDoneFlag x.id = true) : Inv u := by
  refine ⟨fun e => ?_, hround, fun x => ?_, hskew, fun x => ?_⟩
  · rw [hgpu]
    exact setGpu_forall (P := fun _ g => g.Ok) hok (fun e _ => hi.ok e) e
  · -- The GPU that changed answers for its own chunks, the others for theirs.
    rw [hgpu]
    refine setGpu_forall (P := fun e g => x.owner = e → g.Holds x →
      (u.replica x).value = setup.shape.numDevices) (hheld x) (fun e he howner hx => ?_) x.owner rfl
    subst howner
    exact hkept x he (hi.held x hx)
  · rw [hgpu]
    refine setGpu_forall (P := fun e g => x.owner = e → g.passed = true →
      g.localDoneFlag x.id = true) (hdone x) (fun e _ howner hx => ?_) x.owner rfl
    subst howner
    exact hi.done x hx

/-- A change of one GPU that leaves the counts of all rounds. -/
theorem inv_setGpu {w : World setup} (hi : Inv w) {d : Fin setup.shape.numDevices} {g : Gpu setup}
    (hok : g.Ok) (hsent : ∀ x, g.sent x = (w.gpu d).sent x)
    (hresets : ∀ x : Chunk setup.shape, x.owner = d →
      g.iter + (if g.localDoneFlag x.id = true then 1 else 0) = resets w x)
    (hheld : ∀ x : Chunk setup.shape, x.owner = d → g.Holds x →
      (w.replica x).value = setup.shape.numDevices)
    (hskew : Skew (w.setGpu d g))
    (hdone : ∀ x : Chunk setup.shape, x.owner = d → g.passed = true →
      g.localDoneFlag x.id = true) : Inv (w.setGpu d g) := by
  refine inv_update hi rfl hok (fun x => ?_) hheld (fun _ _ h => h) hskew hdone
  rw [sent_setGpu (hsent x), resets_setGpu (hresets x)]
  exact hi.round x

/-- No slot is ahead of the iteration its owner is in, and a GPU that is behind
    it has been waited for. -/
theorem iter_le_resets {w : World setup} (hi : Inv w) (d : Fin setup.shape.numDevices)
    (x : Chunk setup.shape) : (w.gpu d).iter ≤ resets w x := by
  have hskew := hi.skew d x.owner
  by_cases hone : (w.gpu d).iter = (w.gpu x.owner).iter + 1
  · rw [resets, if_pos (hi.done x (hskew.2 hone)), hone]
  · rw [resets]
    omega

/-- A GPU that passed the publication of an iteration has had a signal of every
    GPU for all its chunks, and so has signalled all chunks itself. -/
theorem sent_of_all_passed {w : World setup} (hi : Inv w) {d : Fin setup.shape.numDevices}
    (hall : ∀ e, (w.gpu d).iter < (w.gpu e).iter ∨
      ((w.gpu d).iter = (w.gpu e).iter ∧ (w.gpu e).passed = true)) (x : Chunk setup.shape) :
    (w.gpu d).sent x = (w.gpu d).iter + 1 := by
  have hle := (hi.round x).bounds d
  have hsent : (w.gpu d).sent x ≤ (w.gpu d).iter + 1 := by
    rw [Gpu.sent]
    split <;> omega
  -- Every chunk of the iteration was taken off its slot.
  have hresets : (w.gpu d).iter + 1 ≤ resets w x := by
    rcases hall x.owner with hlt | ⟨heq, hpassed⟩
    · rw [resets]
      omega
    · rw [resets, if_pos (hi.done x hpassed), heq]
  omega

theorem inv_start {w : World setup} (hi : Inv w) {d : Fin setup.shape.numDevices}
    (hpassed : (w.gpu d).passed = true)
    (hall : ∀ e, (w.gpu d).iter < (w.gpu e).iter ∨
      ((w.gpu d).iter = (w.gpu e).iter ∧ (w.gpu e).passed = true)) :
    Inv (w.setGpu d (Gpu.launched setup ((w.gpu d).iter + 1))) := by
  refine inv_setGpu hi (ok_launched _) (fun x => ?_) (fun x hx => ?_) (fun x hx hholds => ?_) ?_
    (fun x hx hp => ?_)
  · -- The signals of the iteration that ends are counted by its number.
    have hpos := tiles_pos x
    have hnone : ¬ (Gpu.launched setup ((w.gpu d).iter + 1)).tasksDone x = x.tiles := by
      rw [tasksDone_launched]
      omega
    rw [sent_of_all_passed hi hall x, Gpu.sent, if_neg hnone]
    rfl
  · subst hx
    rw [resets, if_pos (hi.done x hpassed)]
    rfl
  · -- A GPU just launched holds no slot.
    rcases hholds with ⟨o, ho, -⟩ | ⟨hpos, -⟩
    · exact absurd ho (by simp only [Gpu.launched, reduceCtorEq, not_false_eq_true])
    · rw [tilesDone_launched] at hpos
      exact absurd hpos (lt_irrefl _)
  · intro e f
    by_cases he : e = d
    · subst he
      by_cases hf : f = e
      · subst hf
        refine ⟨Nat.le_succ _, fun h => ?_⟩
        omega
      · rw [setGpu_self, setGpu_ne _ _ _ hf]
        -- Whoever is behind the new iteration has passed the publication of the last.
        have hef := hall f
        simp only [Gpu.launched]
        refine ⟨by omega, fun h => ?_⟩
        rcases hef with hlt | ⟨-, hp⟩
        · omega
        · exact hp
    · by_cases hf : f = d
      · subst hf
        have hef := hi.skew e f
        rw [setGpu_self, setGpu_ne _ _ _ he]
        simp only [Gpu.launched]
        refine ⟨by omega, fun h => ?_⟩
        omega
      · rw [setGpu_ne _ _ _ he, setGpu_ne _ _ _ hf]
        exact hi.skew e f
  · exact absurd hp (by simp only [Gpu.launched, Bool.false_eq_true, not_false_eq_true])

/-- The slot a GPU addresses is the one of its own chunk. -/
theorem slotOf_eq (x : Chunk setup.shape) :
    slotOf x.owner x.rbInSlice x.chunkCol = (x.row, x.chunkCol.val) := rfl

theorem inv_load {w : World setup} (hi : Inv w) (hm : setup.intraReadyMultimem = false)
    {d : Fin setup.shape.numDevices} {o : Fin setup.numIntraArSms}
    (ht : (w.gpu d).ar.next o < setup.shape.totalTilesPerDevice)
    (hready : seesReady w d (slotOf d (setup.shape.chunkOfTile ((w.gpu d).ar.next o)).1
      (setup.shape.chunkOfTile ((w.gpu d).ar.next o)).2) = true) :
    Inv (w.setGpu d ((w.gpu d).leaveWait o)) := by
  rcases exists_chunk_of_tile d ht with ⟨y, hyd, hy⟩
  -- What it read is the replica of a chunk of its own.
  have hvalue : (w.replica y).value = setup.shape.numDevices := by
    rw [hy, ← hyd, slotOf_eq, seesReady, hm, if_neg Bool.false_ne_true, Slot.ready_iff] at hready
    exact hready
  refine inv_setGpu hi (ok_leaveWait (hi.ok d) ht) (fun _ => rfl) (fun x hx => by subst hx; rfl)
    (fun x hx hholds => ?_) (skew_setGpu hi.skew rfl id) (fun x hx hp => by
      subst hx
      exact hi.done x hp)
  rcases hholds with ⟨p, hp, hpx⟩ | hrest
  · by_cases hpo : p = o
    · -- The CTA that just left the loop saw the slot full.
      have htile : setup.shape.chunkOfTile ((w.gpu d).ar.next p) =
          (x.rbInSlice.val, x.chunkCol.val) := hpx
      rw [hpo, hy] at htile
      have hxy : x = y := Chunk.eq_of_id (hx.trans hyd.symm) ((id_eq_iff x y).mpr htile.symm)
      rw [hxy]
      exact hvalue
    · refine hi.held x (Or.inl ⟨p, ?_, ?_⟩)
      · rw [hx]
        simpa only [Gpu.leaveWait, if_neg hpo] using hp
      · rw [hx]
        exact hpx
  · exact hi.held x (Or.inr (by rw [hx]; exact hrest))

theorem inv_reduce {w : World setup} (hi : Inv w) {d : Fin setup.shape.numDevices}
    {o : Fin setup.numIntraArSms} (ho : (w.gpu d).phase o = .reducing) :
    Inv (w.setGpu d ((w.gpu d).countTile o)) := by
  have ht := (hi.ok d).taken o ho
  rcases exists_chunk_of_tile d ht with ⟨y, hyd, hy⟩
  refine inv_setGpu hi (ok_countTile d (hi.ok d) ho) (fun _ => rfl)
    (fun x hx => by subst hx; rfl) (fun x hx hholds => ?_) (skew_setGpu hi.skew rfl id)
    (fun x hx hp => by
      subst hx
      exact hi.done x hp)
  -- What holds the slot afterwards held it before.
  refine hi.held x ?_
  rw [hx]
  rcases hholds with ⟨p, hp, hpx⟩ | ⟨hpos, hflag⟩
  · rcases reducing_countTile hp with ⟨hold, hnext⟩
    rw [hnext] at hpx
    exact Or.inl ⟨p, hold, hpx⟩
  · by_cases hxy : setup.shape.chunkOfTile ((w.gpu d).ar.next o) =
        (x.rbInSlice.val, x.chunkCol.val)
    · exact Or.inl ⟨o, ho, hxy⟩
    · rw [tilesDone_countTile ht, if_neg hxy, Nat.add_zero] at hpos
      exact Or.inr ⟨hpos, hflag⟩

theorem inv_pass {w : World setup} (hi : Inv w) {d : Fin setup.shape.numDevices}
    (hall : ∀ q < setup.shape.totalChunks, (w.gpu d).localDoneFlag q = true) :
    Inv (w.setGpu d { w.gpu d with passed := true }) := by
  have hok := hi.ok d
  refine inv_setGpu hi ⟨hok.comp, hok.intra, hok.done, hok.taken, hok.valid, hok.last, hok.unique⟩
    (fun _ => rfl) (fun x hx => by subst hx; rfl) (fun x hx hholds => ?_)
    (skew_setGpu hi.skew rfl (fun _ => rfl)) (fun x hx _ => ?_)
  · subst hx
    exact hi.held x hholds
  · exact hall _ (place_lt x.rbInSlice.isLt x.chunkCol.isLt)

theorem inv_land {w : World setup} (hi : Inv w) {y : Nat × Nat}
    {sender dst : Fin setup.shape.numDevices} {b : Slot setup.shape.numDevices}
    (hb : (w.slots y).land sender dst = some b) : Inv (w.setSlot y b) := by
  rcases Option.map_eq_some_iff.mp hb with ⟨t, ht, hbt⟩
  -- A replica is touched only if it is the one the signal was sent to.
  have hreplica : ∀ x : Chunk setup.shape,
      ((w.setSlot y b).replica x = w.replica x) ∨
        ((w.replica x).land sender = some t ∧ (w.setSlot y b).replica x = t) := by
    intro x
    rw [setSlot_replica]
    by_cases hxy : (x.row, x.chunkCol.val) = y
    · rw [if_pos hxy, ← hbt]
      by_cases hdst : x.owner = dst
      · refine Or.inr ⟨?_, if_pos hdst⟩
        rw [World.replica, hxy, hdst]
        exact ht
      · refine Or.inl ?_
        rw [World.replica, hxy]
        exact if_neg hdst
    · rw [if_neg hxy]
      exact Or.inl rfl
  refine ⟨hi.ok, fun x => ?_, fun x hx => ?_, hi.skew, hi.done⟩
  · rcases hreplica x with hsame | ⟨hland, hnew⟩
    · rw [hsame]
      exact hi.round x
    · rw [hnew]
      exact (hi.round x).land hland
  · have hvalue := hi.held x hx
    rcases hreplica x with hsame | ⟨hland, -⟩
    · rw [hsame]
      exact hvalue
    · -- A full slot has nothing on its way.
      have hfull := (hi.round x).full_iff.mp (by rw [Fintype.card_fin]; exact hvalue)
      have hpos := (Tally.land_spec hland).1
      have hnone := (hfull sender).2
      omega

/-- A chunk is determined by the position of its slot. -/
theorem slot_inj {x y : Chunk setup.shape} :
    (x.row, x.chunkCol.val) = (y.row, y.chunkCol.val) ↔ x = y := by
  constructor
  · intro h
    rw [Prod.mk.injEq] at h
    exact Chunk.eq_of_row h.1 (Fin.ext h.2)
  · rintro rfl
    rfl

/-- A chunk that is reset has been counted in full, so its slot is full. -/
theorem full_of_resetting {w : World setup} (hi : Inv w) {y : Chunk setup.shape}
    {o : Fin setup.numIntraArSms}
    (ho : (w.gpu y.owner).phase o = .resetting y.rbInSlice y.chunkCol) :
    (w.replica y).value = setup.shape.numDevices := by
  have hlast := (hi.ok y.owner).last y o ho
  refine hi.held y (Or.inr ⟨?_, hlast.2⟩)
  rw [hlast.1]
  exact tiles_pos y

/-- Only the flag of the finished chunk is set. -/
theorem finishChunk_flag (g : Gpu setup) (o : Fin setup.numIntraArSms) (x y : Chunk setup.shape) :
    (g.finishChunk o y.rbInSlice y.chunkCol).localDoneFlag x.id =
      if x.id = y.id then true else g.localDoneFlag x.id := rfl

/-- What holds a slot after a chunk is finished belongs to another chunk and
    held its slot before. -/
theorem holds_finishChunk {g : Gpu setup} (hok : g.Ok) {o : Fin setup.numIntraArSms}
    {x y : Chunk setup.shape} (ho : g.phase o = .resetting y.rbInSlice y.chunkCol)
    (h : (g.finishChunk o y.rbInSlice y.chunkCol).Holds x) : x.id ≠ y.id ∧ g.Holds x := by
  rcases h with ⟨p, hp, hpx⟩ | ⟨hpos, hflag⟩
  · have hpo : p ≠ o := by
      rintro rfl
      simp only [Gpu.finishChunk, if_true, reduceCtorEq] at hp
    have hpp : g.phase p = .reducing := by simpa only [Gpu.finishChunk, if_neg hpo] using hp
    refine ⟨fun hxy => ?_, Or.inl ⟨p, hpp, hpx⟩⟩
    -- A tile of the chunk is not counted yet, so it cannot be the finished one.
    have hlt := tilesDone_lt (hok.taken p hpp) hpx
    have hlast := (hok.last y o ho).1
    have hsame := tilesDone_congr g hxy
    omega
  · by_cases hxy : x.id = y.id
    · rw [finishChunk_flag, if_pos hxy] at hflag
      exact absurd hflag (by simp only [Bool.true_eq_false, not_false_eq_true])
    · rw [finishChunk_flag, if_neg hxy] at hflag
      exact ⟨hxy, Or.inr ⟨hpos, hflag⟩⟩

theorem inv_reset {w : World setup} (hi : Inv w) {y : Chunk setup.shape}
    {o : Fin setup.numIntraArSms}
    (ho : (w.gpu y.owner).phase o = .resetting y.rbInSlice y.chunkCol) :
    Inv ((w.setSlot (y.row, y.chunkCol) ((w.slots (y.row, y.chunkCol)).addAt y.owner
      (-setup.shape.numDevices))).setGpu y.owner
        ((w.gpu y.owner).finishChunk o y.rbInSlice y.chunkCol)) := by
  have hok := hi.ok y.owner
  have hlast := hok.last y o ho
  have hne : ∀ x : Chunk setup.shape, x ≠ y → x.owner = y.owner → x.id ≠ y.id :=
    fun x hx howner hid => hx (Chunk.eq_of_id howner hid)
  have hreplica : ∀ x : Chunk setup.shape, (w.setSlot (y.row, y.chunkCol)
      ((w.slots (y.row, y.chunkCol)).addAt y.owner (-setup.shape.numDevices))).replica x =
        if x = y then (w.replica y).add (-setup.shape.numDevices) else w.replica x := by
    intro x
    rw [setSlot_replica]
    by_cases hxy : x = y
    · rw [if_pos hxy, hxy, if_pos rfl]
      exact if_pos rfl
    · rw [if_neg hxy, if_neg (fun h => hxy (slot_inj.mp h))]
  refine inv_update hi rfl (ok_finishChunk hok ho) (fun x => ?_) (fun x hxd hx => ?_)
    (fun x hxd hvalue => ?_) (skew_setGpu hi.skew rfl id) (fun x hxd hp => ?_)
  · have hsent : ((w.gpu y.owner).finishChunk o y.rbInSlice y.chunkCol).sent x =
        ((w.setSlot (y.row, y.chunkCol) ((w.slots (y.row, y.chunkCol)).addAt y.owner
          (-setup.shape.numDevices))).gpu y.owner).sent x := rfl
    rw [sent_setGpu hsent, setSlot_gpu, setGpu_replica, hreplica]
    by_cases hxy : x = y
    · -- The round of the chunk is full and is taken off.
      subst hxy
      have hclear := (hi.round x).clear (by rw [Fintype.card_fin]; exact full_of_resetting hi ho)
      have hold : resets w x = (w.gpu x.owner).iter := by
        rw [resets, hlast.2]
        rfl
      rw [Fintype.card_fin, hold] at hclear
      rw [if_pos rfl, resets, setGpu_self, finishChunk_flag, if_pos rfl, if_pos rfl]
      exact hclear
    · rw [if_neg hxy, resets_setGpu (fun howner => ?_)]
      · exact hi.round x
      · rw [finishChunk_flag, if_neg (hne x hxy howner), resets, setSlot_gpu, howner]
        rfl
  · rcases holds_finishChunk hok ho hx with ⟨hid, hold⟩
    rw [setGpu_replica, hreplica, if_neg (fun hxy => hid (congrArg Chunk.id hxy))]
    exact hi.held x (by rw [hxd]; exact hold)
  · rw [setGpu_replica, hreplica, if_neg (fun hxy => hxd (congrArg Chunk.owner hxy))]
    exact hvalue
  · rw [finishChunk_flag]
    split
    · rfl
    · rw [← hxd] at hp ⊢
      exact hi.done x hp

/-- A GPU that has not finished a chunk has signalled it in its earlier
    iterations, all of which have been taken off the slot. -/
theorem sent_of_unfinished {w : World setup} (hi : Inv w) {d : Fin setup.shape.numDevices}
    {x : Chunk setup.shape} (h : (w.gpu d).tasksDone x ≠ x.tiles) :
    (w.gpu d).sent x = (w.gpu d).iter ∧ (w.gpu d).sent x = resets w x := by
  have hsent : (w.gpu d).sent x = (w.gpu d).iter := by
    rw [Gpu.sent, if_neg h, Nat.add_zero]
  have hle := iter_le_resets hi d x
  have hge := (hi.round x).bounds d
  exact ⟨hsent, by omega⟩

/-- The chunk of the counted task gains a tile, the others none. -/
theorem tasksDone_countTask_eq {g : Gpu setup} {c : Fin setup.numCompSms}
    (ht : g.comp.next c < setup.shape.numBlocks) {y : Chunk setup.shape}
    (hy : setup.shape.chunkOfTask (g.comp.next c) = (y.row, y.chunkCol.val))
    (x : Chunk setup.shape) :
    (g.countTask c).tasksDone x = g.tasksDone x + if x = y then 1 else 0 := by
  rw [tasksDone_countTask ht, hy]
  by_cases hxy : x = y
  · rw [if_pos hxy, hxy, if_pos rfl]
  · rw [if_neg hxy, if_neg (fun h => hxy (slot_inj.mp h.symm))]

/-- Counting a task of one chunk does not change how often another has been
    signalled. -/
theorem sent_countTask_ne {g : Gpu setup} {c : Fin setup.numCompSms}
    (ht : g.comp.next c < setup.shape.numBlocks) {x y : Chunk setup.shape}
    (hy : setup.shape.chunkOfTask (g.comp.next c) = (y.row, y.chunkCol.val)) (hxy : x ≠ y) :
    (g.countTask c).sent x = g.sent x := by
  rw [Gpu.sent, tasksDone_countTask_eq ht hy, if_neg hxy, Nat.add_zero]
  rfl

/-- Counting a tile that does not finish its chunk. -/
theorem inv_count {w : World setup} (ha : setup.shape.Aligned) (hi : Inv w)
    {d : Fin setup.shape.numDevices} {c : Fin setup.numCompSms} {y : Chunk setup.shape}
    (ht : (w.gpu d).comp.next c < setup.shape.numBlocks)
    (hy : setup.shape.chunkOfTask ((w.gpu d).comp.next c) = (y.row, y.chunkCol.val))
    (hnot : (w.gpu d).tasksDone y + 1 ≠ y.tiles) : Inv (w.setGpu d ((w.gpu d).countTask c)) := by
  refine inv_setGpu hi (ok_countTask ha (hi.ok d) ht) (fun x => ?_) (fun x hx => by subst hx; rfl)
    (fun x hx hholds => ?_) (skew_setGpu hi.skew rfl id) (fun x hx hp => by
      subst hx
      exact hi.done x hp)
  · by_cases hxy : x = y
    · subst hxy
      -- Neither before nor after are all tiles of the chunk done.
      have hle := tasksDone_le ha ((w.gpu d).countTask c) x
      rw [tasksDone_countTask_eq ht hy, if_pos rfl] at hle
      rw [Gpu.sent, tasksDone_countTask_eq ht hy, if_pos rfl, if_neg hnot, Gpu.sent,
        if_neg (by omega)]
      rfl
    · exact sent_countTask_ne ht hy hxy
  · subst hx
    exact hi.held x hholds

/-- Counting the tile that finishes its chunk, and signalling the owner. -/
theorem inv_signal {w : World setup} (ha : setup.shape.Aligned) (hi : Inv w)
    {d : Fin setup.shape.numDevices} {c : Fin setup.numCompSms} {y : Chunk setup.shape}
    (ht : (w.gpu d).comp.next c < setup.shape.numBlocks)
    (hy : setup.shape.chunkOfTask ((w.gpu d).comp.next c) = (y.row, y.chunkCol.val))
    (hlast : (w.gpu d).tasksDone y + 1 = y.tiles) :
    Inv ((w.setGpu d ((w.gpu d).countTask c)).setSlot (y.row, y.chunkCol)
      ((w.slots (y.row, y.chunkCol)).signal d y.owner)) := by
  have hunfinished := sent_of_unfinished hi (d := d) (x := y) (by omega)
  -- The chunk is signalled once more, and no other.
  have hsent : ((w.gpu d).countTask c).sent y = (w.gpu d).sent y + 1 := by
    rw [hunfinished.1, Gpu.sent, tasksDone_countTask_eq ht hy, if_pos rfl, if_pos hlast]
    rfl
  have hreplica : ∀ x : Chunk setup.shape, ((w.setGpu d ((w.gpu d).countTask c)).setSlot
      (y.row, y.chunkCol) ((w.slots (y.row, y.chunkCol)).signal d y.owner)).replica x =
        if x = y then (w.replica y).post d else w.replica x := by
    intro x
    rw [setSlot_replica, setGpu_replica]
    by_cases hxy : x = y
    · rw [if_pos hxy, hxy, if_pos rfl]
      exact if_pos rfl
    · rw [if_neg hxy, if_neg (fun h => hxy (slot_inj.mp h))]
  -- A signal on its way does not change what a slot holds.
  have hvalue : ∀ x : Chunk setup.shape, (((w.setGpu d ((w.gpu d).countTask c)).setSlot
      (y.row, y.chunkCol) ((w.slots (y.row, y.chunkCol)).signal d y.owner)).replica x).value =
        (w.replica x).value := by
    intro x
    rw [hreplica]
    by_cases hxy : x = y
    · rw [if_pos hxy, hxy]
      rfl
    · rw [if_neg hxy]
  have hresets : ∀ x, resets ((w.setGpu d ((w.gpu d).countTask c)).setSlot (y.row, y.chunkCol)
      ((w.slots (y.row, y.chunkCol)).signal d y.owner)) x = resets w x :=
    fun x => resets_setGpu fun hx => by rw [resets, hx]; rfl
  refine inv_update hi rfl (ok_countTask ha (hi.ok d) ht) (fun x => ?_) (fun x hx hholds => ?_)
    (fun x _ hold => (hvalue x).trans hold) (skew_setGpu hi.skew rfl id) (fun x hx hp => ?_)
  · rw [hreplica, hresets, setSlot_gpu]
    by_cases hxy : x = y
    · subst hxy
      rw [if_pos rfl]
      refine (hi.round x).post (k := d) hunfinished.2 (fun e => ?_)
      by_cases he : e = d
      · rw [he, setGpu_self, if_pos rfl, hsent]
      · rw [setGpu_ne _ _ _ he, if_neg he]
    · rw [if_neg hxy, sent_setGpu (sent_countTask_ne ht hy hxy)]
      exact hi.round x
  · subst hx
    rw [hvalue]
    exact hi.held x hholds
  · subst hx
    exact hi.done x hp

theorem inv_step {w u : World setup} {a : Action setup} (ha : setup.shape.Aligned)
    (hm : setup.intraReadyMultimem = false) (hi : Inv w) (h : step w a = some u) : Inv u := by
  cases a with
  | compute d c =>
      simp only [step] at h
      by_cases ht : (w.gpu d).comp.next c < setup.shape.numBlocks
      · rw [if_pos ht] at h
        rcases exists_chunk_of_task ha ht with ⟨y, hy⟩
        have hpos := tiles_pos y
        have htiles : setup.shape.tilesThisChunk y.chunkCol = y.tiles := rfl
        rw [hy, (hi.ok d).comp y, htiles] at h
        by_cases hlast : (w.gpu d).tasksDone y = y.tiles - 1
        · -- The signal goes to the owner, by the row block.
          have howner : (y.row, y.chunkCol.val).1 / setup.shape.rowBlocksPerSlice = y.owner :=
            y.row_div
          rw [if_pos hlast, signalChunk, hm, if_neg Bool.false_ne_true,
            dif_pos (by rw [howner]; exact y.owner.isLt), Option.some.injEq] at h
          simp only [howner] at h
          rw [← h]
          exact inv_signal ha hi ht hy (by omega)
        · rw [if_neg hlast, Option.some.injEq] at h
          rw [← h]
          exact inv_count ha hi ht hy (by omega)
      · rw [if_neg ht] at h
        exact absurd h (by simp only [reduceCtorEq, not_false_eq_true])
  | land y sender dst =>
      rcases Option.map_eq_some_iff.mp h with ⟨b, hb, rfl⟩
      exact inv_land hi hb
  | load d o =>
      simp only [step] at h
      by_cases ht : (w.gpu d).phase o = .polling ∧
          (w.gpu d).ar.next o < setup.shape.totalTilesPerDevice
      · rw [if_pos ht] at h
        split at h
        · next hready =>
            rw [← Option.some.inj h]
            exact inv_load hi hm ht.2 hready
        · rw [← Option.some.inj h]
          exact hi
      · rw [if_neg ht] at h
        exact absurd h (by simp only [reduceCtorEq, not_false_eq_true])
  | reduce d o =>
      by_cases ho : (w.gpu d).phase o = .reducing
      · rw [step, if_pos ho, Option.some.injEq] at h
        rw [← h]
        exact inv_reduce hi ho
      · rw [step, if_neg ho] at h
        exact absurd h (by simp only [reduceCtorEq, not_false_eq_true])
  | reset d o =>
      cases ho : (w.gpu d).phase o with
      | polling => simp only [step, ho, reduceCtorEq] at h
      | reducing => simp only [step, ho, reduceCtorEq] at h
      | resetting rb cc =>
          have hvalid := (hi.ok d).valid o rb cc ho
          simp only [step, ho, hm] at h
          rw [← Option.some.inj h]
          exact inv_reset hi (y := ⟨d, ⟨rb, hvalid.1⟩, ⟨cc, hvalid.2⟩⟩) ho
  | pass d =>
      by_cases hall : ∀ q < setup.shape.totalChunks, (w.gpu d).localDoneFlag q = true
      · rw [step, if_pos hall, Option.some.injEq] at h
        rw [← h]
        exact inv_pass hi hall
      · rw [step, if_neg hall] at h
        exact absurd h (by simp only [reduceCtorEq, not_false_eq_true])
  | start d =>
      simp only [step] at h
      split at h
      · next hcond =>
          rw [← Option.some.inj h]
          exact inv_start hi hcond.1 hcond.2.1
      · exact absurd h (by simp only [reduceCtorEq, not_false_eq_true])

theorem inv_init : Inv (init setup) where
  ok := fun _ => ok_launched 0
  round := fun x => by
    have hs : (fun d => ((init setup).gpu d).sent x) = fun _ => 0 := by
      funext d
      -- No task is done, and a chunk has some.
      have hpos := tiles_pos x
      have hnone : ¬ ((init setup).gpu d).tasksDone x = x.tiles := by
        rw [show ((init setup).gpu d).tasksDone x = 0 from tasksDone_launched 0 x]
        omega
      rw [Gpu.sent, if_neg hnone]
      rfl
    rw [hs]
    exact Tally.InRound.empty
  held := fun x hx => by
    rcases hx with ⟨o, ho, -⟩ | ⟨hpos, -⟩
    · exact absurd ho (by simp only [init, Gpu.launched, reduceCtorEq, not_false_eq_true])
    · rw [show ((init setup).gpu x.owner).tilesDone x = 0 from tilesDone_launched 0 x] at hpos
      exact absurd hpos (lt_irrefl _)
  skew := fun _ _ => ⟨Nat.le_succ _, fun h => absurd h (Nat.succ_ne_self _).symm⟩
  done := fun _ h =>
    absurd h (by simp only [init, Gpu.launched, Bool.false_eq_true, not_false_eq_true])

theorem sound_of_inv {w : World setup} (ha : setup.shape.Aligned) (hi : Inv w)
    (x : Chunk setup.shape) : Sound w x := by
  have hround := hi.round x
  refine ⟨⟨hround.value_nonneg, ?_⟩, fun o hwait => ?_, fun d hpending => ?_⟩
  · have hle := hround.value_le
    rw [Fintype.card_fin] at hle
    exact hle
  · -- The chunk is not finished while one of its tiles still waits.
    have hflag := not_done_of_lt (hi.ok x.owner) (tilesDone_lt hwait.2.1 hwait.2.2)
    have hresets : resets w x = (w.gpu x.owner).iter := by
      rw [resets, hflag]
      rfl
    have hfull := hround.full_iff
    rw [Fintype.card_fin] at hfull
    rw [hfull]
    refine forall_congr' (fun d => ?_)
    have hd := hround.bounds d
    rw [finished_iff ha]
    rw [hresets] at hd ⊢
    constructor
    · rintro ⟨hsent, hpending⟩
      exact ⟨by omega, hpending⟩
    · rintro ⟨hsent, hpending⟩
      exact ⟨by omega, hpending⟩
  · have hd := hround.bounds d
    -- A GPU with a signal on its way is ahead of the slot by this round.
    have hsent : (w.gpu d).sent x = resets w x + 1 := by omega
    rw [hround.value_eq_card, hsent]

/-- In every run of the counting mode, on shapes that divide evenly, every slot
    keeps what the barrier promises. -/
theorem chunk_barrier_sound (ha : setup.shape.Aligned) (hm : setup.intraReadyMultimem = false)
    {w : World setup} (h : Reaches step always (init setup) w) (x : Chunk setup.shape) :
    Sound w x :=
  sound_of_inv ha
    (invariant_of_reaches Inv (fun _ _ _ hs _ hst => inv_step ha hm hs hst) h inv_init) x

/-- Two GPUs, one row block and one chunk of one tile each. -/
def small : Setup where
  shape := { m := 256, n := 256, numDevices := 2, chunkTilesOverride := 0 }
  numCompSms := 1
  numIntraArSms := 1
  intraReadyMultimem := false
  epochs := fun k => k + 3

/-- One whole iteration of GPU `0` and most of one of GPU `1`. -/
def smallRun : List (Action small) :=
  [.compute (0 : Fin 2) (0 : Fin 1), .compute (1 : Fin 2) (0 : Fin 1),
    .land (0, 0) (0 : Fin 2) (0 : Fin 2), .land (0, 0) (1 : Fin 2) (0 : Fin 2),
    .load (0 : Fin 2) (0 : Fin 1), .reduce (0 : Fin 2) (0 : Fin 1),
    .compute (0 : Fin 2) (0 : Fin 1), .compute (1 : Fin 2) (0 : Fin 1),
    .land (1, 0) (0 : Fin 2) (1 : Fin 2), .land (1, 0) (1 : Fin 2) (1 : Fin 2),
    .load (1 : Fin 2) (0 : Fin 1), .reset (0 : Fin 2) (0 : Fin 1),
    .reduce (1 : Fin 2) (0 : Fin 1), .reset (1 : Fin 2) (0 : Fin 1),
    .pass (0 : Fin 2), .pass (1 : Fin 2), .start (0 : Fin 2), .compute (0 : Fin 2) (0 : Fin 1)]

/-- The second iteration of GPU `0`, its first signal on its way while GPU `1`
    is still in the first. -/
theorem chunk_barrier_sound_twoRounds : ∃ w : World small, Reaches step always (init small) w ∧
    (w.gpu (0 : Fin 2)).iter = 1 ∧ (w.gpu (1 : Fin 2)).iter = 0 ∧
      ((w.slots (0, 0)) (0 : Fin 2)).pending (0 : Fin 2) = 1 ∧ ∀ x, Sound w x :=
  have h : Reaches step always (init small)
      ((run step always smallRun (init small)).get (by decide +kernel)) :=
    reaches_of_run _ _ _ (Option.some_get _).symm
  ⟨_, h, by decide +kernel, by decide +kernel, by decide +kernel,
    chunk_barrier_sound (by decide +kernel) rfl h⟩

/-- The same GPUs in the multimem mode. -/
def multimem : Setup where
  shape := { m := 256, n := 256, numDevices := 2, chunkTilesOverride := 0 }
  numCompSms := 1
  numIntraArSms := 1
  intraReadyMultimem := true
  epochs := fun k => k + 3

/-- Two GPUs and three row blocks of two tiles. -/
def unaligned : Setup where
  shape := { m := 384, n := 512, numDevices := 2, chunkTilesOverride := 0 }
  numCompSms := 2
  numIntraArSms := 1
  intraReadyMultimem := false
  epochs := fun k => k

/-- On both GPUs one compute CTA does its three tasks, the last of which is a
    tile it has done before. -/
def unalignedRun : List (Action unaligned) :=
  [.compute (0 : Fin 2) (0 : Fin 2), .compute (0 : Fin 2) (0 : Fin 2),
    .compute (0 : Fin 2) (0 : Fin 2), .compute (1 : Fin 2) (0 : Fin 2),
    .compute (1 : Fin 2) (0 : Fin 2), .compute (1 : Fin 2) (0 : Fin 2),
    .land (1, 0) (0 : Fin 2) (1 : Fin 2), .land (1, 0) (1 : Fin 2) (1 : Fin 2)]

/-- In the multimem mode a slot holds the epoch, and on a shape that does not
    divide evenly a chunk is signalled before it is finished. -/
theorem chunk_barrier_unsound :
    (∃ w : World multimem, Reaches step always (init multimem) w ∧ ∃ x, ¬ Sound w x) ∧
      ∃ w : World unaligned, Reaches step always (init unaligned) w ∧ ∃ x, ¬ Sound w x := by
  constructor
  · refine ⟨(run step always [.compute (0 : Fin 2) (0 : Fin 1)] (init multimem)).get
      (by decide +kernel), reaches_of_run _ _ _ (Option.some_get _).symm,
      ⟨(0 : Fin 2), (0 : Fin 1), (0 : Fin 1)⟩, fun hsound => ?_⟩
    exact absurd hsound.range.2 (by decide +kernel)
  · refine ⟨(run step always unalignedRun (init unaligned)).get (by decide +kernel),
      reaches_of_run _ _ _ (Option.some_get _).symm,
      ⟨(1 : Fin 2), (0 : Fin 1), (0 : Fin 1)⟩, fun hsound => ?_⟩
    -- The waiting CTA sees both signals, but the second tile is not done.
    have hfinished := (hsound.observes (0 : Fin 1) ⟨by decide +kernel, by decide +kernel,
      by decide +kernel⟩).mp (by decide +kernel) (0 : Fin 2)
    exact absurd hfinished.1 (by decide +kernel)

end ChunkBarrier

end GemmAr

end MKernel
