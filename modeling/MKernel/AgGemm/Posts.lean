import MKernel.Core.SmallNumbers
import MKernel.AgGemm.Ring

/-!
# The Posts of a Node

Which commands the kernels of `ag_gemm` push.

In the prologue one thread of a comm CTA goes through the rows of the CTA, which strides
by the number of these CTAs, and pushes a command for both row blocks of each. A forward
is pushed by one thread of every warp that moves tiles. But the rows are only shared out
over the CTAs, so each of these warps pushes a command for each row block
(`count_forwards`).

The commands of the prologue are for all row blocks of a node, once each
(`countP_shardPosts`). Together they are for the bytes of the shard, with nothing left out
or sent twice, if row blocks are whole chunks, and only then (`covered_iff`).

## Main definitions

* `rows`: The rows that a comm CTA pushes commands for.
* `phase0Posts`, `forwardPosts`: What a thread pushes.
* `shardPosts`, `forwards`: What all of them push.
* `ForwardsOnce`: Each row block is forwarded by one command.
* `Covered`: The commands of the prologue are for the whole of the shard.

## Theorems

* `countP_shardPosts`: The prologue has a command for each row block.
* `count_forwards`, `not_forwardsOnce`: A row block is forwarded once by each warp.
* `covered_iff`: When the commands are for the whole of the shard.
-/

namespace MKernel

namespace AgGemm

open MKernel.Core

/-- `NUM_WARPS`. -/
def numWarps : Nat := (2 + 1) * 4

/-- `WARP_THREADS`. -/
def warpThreads : Nat := 32

/-- A command for both row blocks of a row. -/
def rowPosts (write : Nat → Write) (row : Nat) : List Write :=
  (List.range 2).map fun sub => write (2 * row + sub)

namespace Setup

variable (setup : Setup)

/-- The rows of 256 that a comm CTA has of those of its GPU. -/
def rows (dev comm : Nat) : List Nat :=
  (walk comm setup.numIntraComm setup.localRowBlocks).map (· + dev * setup.localRowBlocks)

/-- `phase0_post_wrs`: what the first thread of a CTA pushes. -/
def phase0Posts (node dev comm : Nat) : List Write :=
  (setup.rows dev comm).flatMap (rowPosts (setup.phase0Write node dev))

/-- What the threads of all GPUs of a node push in the prologue. -/
def shardPosts (node : Nat) : List Write :=
  (List.range setup.numDevices).flatMap fun dev =>
    (List.range setup.numIntraComm).flatMap fun comm => setup.phase0Posts node dev comm

/-- What a thread pushes at the end of a step. -/
def forwardPosts (node dev step comm warp lane : Nat) : List Write :=
  if warp < numCommChunks ∧ lane = 0 then
    if step + 1 < setup.numPeers then
      (setup.rows dev comm).flatMap (rowPosts (setup.forwardWrite node dev step))
    else
      []
  else
    []

/-- What the threads of a GPU push at the end of a step. -/
def forwards (node dev step : Nat) : List Write :=
  (List.range setup.numIntraComm).flatMap fun comm =>
    (List.range numWarps).flatMap fun warp =>
      (List.range warpThreads).flatMap fun lane => setup.forwardPosts node dev step comm warp lane

/-- The GPU has the row block. -/
def Owns (dev rb : Nat) : Prop := rb / 2 / setup.localRowBlocks = dev

/-- Each row block of the GPU is forwarded by one command. -/
def ForwardsOnce (node dev step : Nat) : Prop :=
  ∀ rb, setup.Owns dev rb →
    (setup.forwards node dev step).count (setup.forwardWrite node dev step rb) = 1

/-- The command is for this byte of the shard. -/
def Carries (w : Write) (a : Nat) : Prop := w.localOffset ≤ a ∧ a < w.localOffset + w.bytes

instance (w : Write) (a : Nat) : Decidable (Carries w a) := inferInstanceAs (Decidable (_ ∧ _))

/-- The commands of the prologue are for the whole of the shard. -/
structure Covered (node : Nat) : Prop where
  /-- No command ends before it begins. -/
  base_le : ∀ rb < 2 * setup.globalRowBlocks, setup.baseOffset rb ≤ setup.endOffset rb
  /-- Each byte has one command, and there are no others. -/
  tiles : ∀ a, (setup.shardPosts node).countP (Carries · a) = if a < setup.aHalfBytes then 1 else 0
  /-- One command has the tile that is waited for. -/
  awaited : ∀ rb < 2 * setup.globalRowBlocks,
    (setup.shardPosts node).countP (·.tileId = setup.awaitTile (setup.nextRank node) 0 rb) = 1
  /-- It is for all bytes of the row block. -/
  whole : ∀ rb < 2 * setup.globalRowBlocks, ∀ w ∈ setup.shardPosts node,
    w.tileId = setup.awaitTile (setup.nextRank node) 0 rb →
      ∀ a, rb * (rowBlock * setup.cols * elemBytes) ≤ a →
        a < (rb + 1) * (rowBlock * setup.cols * elemBytes) → Carries w a

end Setup

/-! ## What is pushed -/

section Pushed

variable {setup : Setup}

/-- A row of a comm CTA is one of its GPU. -/
theorem exists_of_mem_rows {dev comm row : Nat} (hrow : row ∈ setup.rows dev comm) :
    ∃ k < setup.localRowBlocks, row = dev * setup.localRowBlocks + k := by
  rcases List.mem_map.mp hrow with ⟨k, hk, rfl⟩
  exact ⟨k, lt_of_mem_walk setup.numIntraComm_pos hk, Nat.add_comm _ _⟩

theorem mem_rows {k : Nat} (dev : Nat) (hk : k < setup.localRowBlocks) :
    dev * setup.localRowBlocks + k ∈ setup.rows dev (k % setup.numIntraComm) := by
  have hlt := Nat.mod_lt k setup.numIntraComm_pos
  exact List.mem_map.mpr ⟨k, (mem_walk hlt).mpr ⟨hk, rfl⟩, Nat.add_comm _ _⟩

/-- What a thread pushes for its rows is for their row blocks. -/
theorem exists_of_mem_posts {dev comm : Nat} {write : Nat → Write} {x : Write}
    (hx : x ∈ (setup.rows dev comm).flatMap (rowPosts write)) :
    ∃ k < setup.localRowBlocks, ∃ sub < 2,
      x = write (2 * (dev * setup.localRowBlocks + k) + sub) := by
  rcases List.mem_flatMap.mp hx with ⟨row, hrow, hwrite⟩
  rcases exists_of_mem_rows hrow with ⟨k, hk, rfl⟩
  rcases List.mem_map.mp hwrite with ⟨sub, hsub, rfl⟩
  exact ⟨k, hk, sub, List.mem_range.mp hsub, rfl⟩

/-- A thread pushes a command for every row block of its rows. -/
theorem mem_posts {k sub : Nat} (dev : Nat) (write : Nat → Write) (hk : k < setup.localRowBlocks)
    (hsub : sub < 2) :
    write (2 * (dev * setup.localRowBlocks + k) + sub) ∈
      (setup.rows dev (k % setup.numIntraComm)).flatMap (rowPosts write) :=
  List.mem_flatMap.mpr ⟨_, mem_rows dev hk, List.mem_map.mpr ⟨sub, List.mem_range.mpr hsub, rfl⟩⟩

theorem exists_of_mem_phase0Posts {node dev comm : Nat} {x : Write}
    (hx : x ∈ setup.phase0Posts node dev comm) :
    ∃ k < setup.localRowBlocks, ∃ sub < 2,
      x = setup.phase0Write node dev (2 * (dev * setup.localRowBlocks + k) + sub) :=
  exists_of_mem_posts hx

theorem exists_of_mem_forwardPosts {node dev step comm warp lane : Nat} {x : Write}
    (hx : x ∈ setup.forwardPosts node dev step comm warp lane) :
    step + 1 < setup.numPeers ∧ ∃ k < setup.localRowBlocks, ∃ sub < 2,
      x = setup.forwardWrite node dev step (2 * (dev * setup.localRowBlocks + k) + sub) := by
  by_cases hthread : warp < numCommChunks ∧ lane = 0
  · by_cases hs : step + 1 < setup.numPeers
    · rw [Setup.forwardPosts, if_pos hthread, if_pos hs] at hx
      exact ⟨hs, exists_of_mem_posts hx⟩
    · rw [Setup.forwardPosts, if_pos hthread, if_neg hs] at hx
      exact absurd hx List.not_mem_nil
  · rw [Setup.forwardPosts, if_neg hthread] at hx
    exact absurd hx List.not_mem_nil

end Pushed

/-! ## Counting -/

section Counting

variable {setup : Setup} {node dev step : Nat} {p : Write → Bool}

theorem countP_rowPosts (write : Nat → Write) (row : Nat) :
    (rowPosts write row).countP p =
      ∑ sub ∈ Finset.range 2, if p (write (row * 2 + sub)) = true then 1 else 0 := by
  rw [rowPosts, countP_map_range, sum_range_ite, Nat.mul_comm]

/-- What the walks of all comm CTAs push for their rows. -/
theorem countP_rows (write : Nat → Write) :
    ((List.range setup.numIntraComm).flatMap fun comm =>
        (setup.rows dev comm).flatMap (rowPosts write)).countP p =
      ∑ i ∈ Finset.range setup.localRowBlocks,
        (rowPosts write (dev * setup.localRowBlocks + i)).countP p := by
  have hmap : ∀ comm, (setup.rows dev comm).flatMap (rowPosts write) =
      (walk comm setup.numIntraComm setup.localRowBlocks).flatMap fun i =>
        rowPosts write (dev * setup.localRowBlocks + i) := by
    intro comm
    rw [Setup.rows, List.flatMap_map]
    simp only [Nat.add_comm]
  simp only [hmap]
  exact countP_walks setup.numIntraComm_pos _ _ _

/-- The row blocks of all GPUs are those of the node. -/
theorem countP_shardPosts {q : Nat → Prop} [DecidablePred q]
    (hq : ∀ dev rb, p (setup.phase0Write node dev rb) = true ↔ q rb) :
    (setup.shardPosts node).countP p = Nat.count q (setup.globalRowBlocks * 2) := by
  rw [← sum_range_ite, ← sum_range_mul, Setup.globalRowBlocks, Nat.mul_comm, ← sum_range_mul,
    Setup.shardPosts, countP_flatMap_range]
  refine Finset.sum_congr rfl fun dev _ => ?_
  refine (countP_rows (setup.phase0Write node dev)).trans (Finset.sum_congr rfl fun i _ => ?_)
  rw [countP_rowPosts]
  simp only [hq]

end Counting

/-! ## Forwards -/

section Forwards

variable {setup : Setup} {node dev step : Nat} {p : Write → Bool}

/-- The warps that move tiles push the same, with one lane each. -/
theorem countP_forwardPosts (hstep : step + 1 < setup.numPeers) (comm : Nat) :
    ((List.range numWarps).flatMap fun warp => (List.range warpThreads).flatMap fun lane =>
        setup.forwardPosts node dev step comm warp lane).countP p =
      numCommChunks *
        ((setup.rows dev comm).flatMap (rowPosts (setup.forwardWrite node dev step))).countP p := by
  -- Of a warp that moves tiles only lane 0 pushes, and the others do not push at all.
  have hlane : ∀ warp, ((List.range warpThreads).flatMap fun lane =>
      setup.forwardPosts node dev step comm warp lane).countP p =
        if warp < numCommChunks then
          ((setup.rows dev comm).flatMap (rowPosts (setup.forwardWrite node dev step))).countP p
        else 0 := by
    intro warp
    rw [countP_flatMap_range]
    by_cases hw : warp < numCommChunks
    · have hone : ∀ lane, (setup.forwardPosts node dev step comm warp lane).countP p =
          if lane = 0 then
            ((setup.rows dev comm).flatMap (rowPosts (setup.forwardWrite node dev step))).countP p
          else 0 := by
        intro lane
        rw [Setup.forwardPosts, if_pos hstep]
        by_cases hl : lane = 0
        · rw [if_pos ⟨hw, hl⟩, if_pos hl]
        · rw [if_neg fun h => hl h.2, if_neg hl, List.countP_nil]
      rw [if_pos hw, Finset.sum_congr rfl fun lane _ => hone lane, Finset.sum_ite_eq',
        if_pos (by decide)]
    · rw [if_neg hw]
      refine Finset.sum_eq_zero fun lane _ => ?_
      rw [Setup.forwardPosts, if_neg fun h => hw h.1, List.countP_nil]
  rw [countP_flatMap_range, Finset.sum_congr rfl fun warp _ => hlane warp, ← Finset.sum_filter,
    Finset.sum_const, Nat.nsmul_eq_mul]
  exact congrArg (· * _) (by decide)

theorem countP_forwards (hstep : step + 1 < setup.numPeers) :
    (setup.forwards node dev step).countP p =
      numCommChunks * ∑ i ∈ Finset.range setup.localRowBlocks,
        (rowPosts (setup.forwardWrite node dev step)
            (dev * setup.localRowBlocks + i)).countP p := by
  rw [Setup.forwards, countP_flatMap_range,
    Finset.sum_congr rfl fun comm _ => countP_forwardPosts hstep comm, ← Finset.mul_sum,
    ← countP_flatMap_range]
  exact congrArg _ (countP_rows _)

/-- Row blocks have commands of their own. -/
theorem forwardWrite_inj {rb rb' : Nat}
    (h : setup.forwardWrite node dev step rb = setup.forwardWrite node dev step rb') : rb = rb' :=
  congrArg Write.rb h

/-- Each row block of a GPU is forwarded once by every warp that moves tiles. -/
theorem count_forwards (hstep : step + 1 < setup.numPeers) {rb : Nat} (hrb : setup.Owns dev rb) :
    (setup.forwards node dev step).count (setup.forwardWrite node dev step rb) = numCommChunks := by
  have hlocal := setup.localRowBlocks_pos
  have hrow : ∀ i, (rowPosts (setup.forwardWrite node dev step)
      (dev * setup.localRowBlocks + i)).countP (· == setup.forwardWrite node dev step rb) =
        if i = rb / 2 % setup.localRowBlocks then 1 else 0 := by
    intro i
    have hdm := Nat.div_add_mod' (rb / 2) setup.localRowBlocks
    rw [hrb] at hdm
    have hsame : ∀ rb', setup.forwardWrite node dev step rb' = setup.forwardWrite node dev step rb ↔
        rb' = rb := fun rb' => ⟨forwardWrite_inj, congrArg _⟩
    rw [countP_rowPosts, Finset.sum_range_succ, Finset.sum_range_one]
    simp only [beq_iff_eq, hsame]
    -- One of the two row blocks of the row, if it is the row of the row block.
    split <;> split <;> split <;> omega
  rw [List.count, countP_forwards hstep, Finset.sum_congr rfl fun i _ => hrow i, Finset.sum_ite_eq',
    if_pos (Finset.mem_range.mpr (Nat.mod_lt _ hlocal)), Nat.mul_one]

/-- No GPU forwards its row blocks once. -/
theorem not_forwardsOnce (hstep : step + 1 < setup.numPeers) :
    ¬ setup.ForwardsOnce node dev step := by
  intro h
  have howns : setup.Owns dev (2 * (dev * setup.localRowBlocks)) := by
    rw [Setup.Owns, Nat.mul_div_cancel_left _ (by omega),
      Nat.mul_div_cancel _ setup.localRowBlocks_pos]
  have hone := h _ howns
  rw [count_forwards hstep howns] at hone
  exact absurd hone (by decide)

/-- In every step that forwards, each row block of a GPU has a command of every warp that
    moves tiles, where one is enough. -/
theorem forwarded_by_each_warp (hstep : step + 1 < setup.numPeers) :
    (∀ rb, setup.Owns dev rb →
      (setup.forwards node dev step).count (setup.forwardWrite node dev step rb) = numCommChunks) ∧
    ¬ setup.ForwardsOnce node dev step :=
  ⟨fun _ hrb => count_forwards hstep hrb, not_forwardsOnce hstep⟩

/-- Three nodes of one GPU, with one row of 256 and one comm CTA. -/
def threeNodes : Setup where
  numNodes := 3
  numDevices := 1
  localRowBlocks := 1
  cols := 256
  numIntraComm := 1
  numNodes_ge := two_le_three
  numDevices_pos := Nat.one_pos
  localRowBlocks_pos := Nat.one_pos
  cols_dvd := redBlock_dvd
  numIntraComm_pos := Nat.one_pos

theorem forwarded_by_each_warp_three :
    (∀ rb, threeNodes.Owns 0 rb →
      (threeNodes.forwards 0 0 0).count (threeNodes.forwardWrite 0 0 0 rb) = numCommChunks) ∧
    ¬ threeNodes.ForwardsOnce 0 0 0 :=
  forwarded_by_each_warp (by decide)

/-- The first row block is forwarded three times. -/
theorem forwarded_three_times :
    ¬ ∀ rb, threeNodes.Owns 0 rb →
      (threeNodes.forwards 0 0 0).count (threeNodes.forwardWrite 0 0 0 rb) = 1 :=
  fun h => absurd (h 0 rfl) (by decide +kernel)

end Forwards

/-! ## Coverage -/

section Coverage

variable {setup : Setup} {node : Nat}

theorem exists_mem_shardPosts (setup : Setup) (node : Nat) {rb : Nat}
    (hrb : rb < 2 * setup.globalRowBlocks) :
    ∃ dev, setup.phase0Write node dev rb ∈ setup.shardPosts node := by
  have hdev : rb / 2 / setup.localRowBlocks < setup.numDevices := by
    rw [Setup.globalRowBlocks] at hrb
    rw [Nat.div_lt_iff_lt_mul setup.localRowBlocks_pos, Nat.mul_comm]
    omega
  have hk := Nat.mod_lt (rb / 2) setup.localRowBlocks_pos
  have hmem := mem_posts (rb / 2 / setup.localRowBlocks)
    (setup.phase0Write node (rb / 2 / setup.localRowBlocks)) hk (Nat.mod_lt rb Nat.two_pos)
  rw [Nat.div_add_mod', Nat.div_add_mod] at hmem
  exact ⟨_, List.mem_flatMap.mpr ⟨_, List.mem_range.mpr hdev, List.mem_flatMap.mpr
    ⟨_, List.mem_range.mpr (Nat.mod_lt _ setup.numIntraComm_pos), hmem⟩⟩⟩

/-- What is pushed in the prologue is for some row block. -/
theorem exists_of_mem_shardPosts {w : Write} (hw : w ∈ setup.shardPosts node) :
    ∃ dev rb, w = setup.phase0Write node dev rb := by
  rcases List.mem_flatMap.mp hw with ⟨dev, _, hdev⟩
  rcases List.mem_flatMap.mp hdev with ⟨comm, _, hcomm⟩
  rcases exists_of_mem_phase0Posts hcomm with ⟨_, _, _, _, h⟩
  exact ⟨dev, _, h⟩

/-- The tile of a command tells its row block. -/
theorem tileId_phase0Write (hnode : node < setup.numNodes) (dev rb rb' : Nat) :
    (setup.phase0Write node dev rb').tileId = setup.awaitTile (setup.nextRank node) 0 rb ↔
      rb' = rb := by
  have hawait : (setup.phase0Write node dev rb').tileId =
      setup.awaitTile (setup.nextRank node) 0 rb' :=
    (hopWrite_awaited hnode setup.numPeers_pos dev rb').2.1
  rw [hawait, Setup.awaitTile, Setup.awaitTile, Nat.add_left_cancel_iff, Setup.firstChunk,
    Setup.firstChunk]
  exact Nat.mul_left_inj (Nat.pos_iff_ne_zero.mp (chunksPerRb_pos setup))

/-- All GPUs have the same commands. -/
theorem carries_dev (dev dev' rb a : Nat) :
    Setup.Carries (setup.phase0Write node dev rb) a ↔
      Setup.Carries (setup.phase0Write node dev' rb) a := Iff.refl _

/-- The bytes of a command for whole chunks. -/
theorem carries_phase0Write (h : setup.Whole) {rb : Nat} (hrb : rb < 2 * setup.globalRowBlocks)
    (dev a : Nat) : Setup.Carries (setup.phase0Write node dev rb) a ↔
      rb * setup.blockBytes ≤ a ∧ a < (rb + 1) * setup.blockBytes := by
  rw [Setup.Carries, Setup.phase0Write, Setup.rbWrite, baseOffset_eq, rbBytes_eq h hrb,
    Nat.zero_add, Nat.succ_mul]

theorem covered_of_whole (hnode : node < setup.numNodes) (h : setup.Whole) :
    setup.Covered node := by
  have hbytes : setup.blockBytes = rowBlock * setup.cols * elemBytes := by
    have hmul := blockBytes_mul h
    simp only [Setup.rowBytes, rowBlock, elemBytes] at hmul ⊢
    omega
  -- A row block ends where the next begins, every element is in one of them, each has one flag,
  -- and the flag is that of its data.
  refine ⟨fun rb hrb => ?_, fun a => ?_, fun rb hrb => ?_, fun rb hrb w hw htile a hle hlt => ?_⟩
  · rw [endOffset_eq h hrb, baseOffset_eq]
    exact Nat.mul_le_mul_right _ (Nat.le_succ rb)
  · rw [countP_shardPosts fun dev rb => by rw [decide_eq_true_eq]; exact carries_dev dev 0 rb a]
    -- The row block of an element is found by division.
    have hplace : ∀ x < setup.globalRowBlocks * 2,
        Setup.Carries (setup.phase0Write node 0 x) a ↔ x = a / setup.blockBytes := by
      intro x hx
      rw [carries_phase0Write h (by omega), ← Nat.le_div_iff_mul_le (blockBytes_pos setup),
        ← Nat.div_lt_iff_lt_mul (blockBytes_pos setup)]
      omega
    -- The elements of a shard are those of its row blocks.
    have hend : a < setup.aHalfBytes ↔ a / setup.blockBytes < setup.globalRowBlocks * 2 := by
      rw [Nat.div_lt_iff_lt_mul (blockBytes_pos setup), aHalfBytes_eq_blocks h, Nat.mul_comm 2]
    by_cases ha : a < setup.aHalfBytes
    · rw [if_pos ha]
      exact count_eq_one (hend.mp ha) hplace
    · rw [if_neg ha]
      refine Nat.count_of_forall_not fun x hx hc => ha (hend.mpr ?_)
      rw [← (hplace x hx).mp hc]
      exact hx
  · rw [countP_shardPosts fun dev rb' => by rw [decide_eq_true_eq, tileId_phase0Write hnode]]
    exact count_eq_one (by omega) fun x _ => Iff.refl _
  · rcases exists_of_mem_shardPosts hw with ⟨dev, rb', rfl⟩
    -- The tile tells which row block the post is about.
    rw [tileId_phase0Write hnode] at htile
    rw [htile, carries_phase0Write h hrb, hbytes]
    exact ⟨hle, hlt⟩

theorem whole_of_covered (hnode : node < setup.numNodes) (h : setup.Covered node) :
    setup.Whole := by
  have hrows := globalRowBlocks_pos setup
  have hpos := blockBytes_pos setup
  have hcols : 0 < setup.cols := by
    -- Without columns the second row block begins beyond the shard.
    by_contra hzero
    have hle := Nat.le_trans (h.base_le 1 (by omega)) (endOffset_le setup 1).2
    rw [baseOffset_eq, Setup.aHalfBytes, Nat.eq_zero_of_not_pos hzero, Nat.mul_zero,
      Nat.zero_mul] at hle
    omega
  have hfirst : 256 * setup.cols ≤ setup.blockBytes := by
    have hrb : 0 < 2 * setup.globalRowBlocks := by omega
    rcases exists_mem_shardPosts setup node hrb with ⟨dev, hmem⟩
    have hlast := h.whole 0 hrb _ hmem ((tileId_phase0Write hnode dev 0 0).mpr rfl)
      (256 * setup.cols - 1) (by omega) (by simp only [rowBlock, elemBytes]; omega)
    have hend := (endOffset_le setup 0).1
    simp only [Setup.Carries, Setup.phase0Write, Setup.rbWrite, Setup.rbBytes, baseOffset_eq,
      Nat.zero_mul, Nat.cast_zero, sub_zero] at hlast
    omega
  have hsecond : setup.blockBytes ≤ 256 * setup.cols := by
    have hrb : 1 < 2 * setup.globalRowBlocks := by omega
    rcases exists_mem_shardPosts setup node hrb with ⟨dev, hmem⟩
    have hbegin := h.whole 1 hrb _ hmem ((tileId_phase0Write hnode dev 1 1).mpr rfl)
      (256 * setup.cols) (by simp only [rowBlock, elemBytes]; omega)
      (by simp only [rowBlock, elemBytes]; omega)
    simp only [Setup.Carries, Setup.phase0Write, Setup.rbWrite, baseOffset_eq] at hbegin
    omega
  have hlt := blockBytes_lt setup
  have hwhole : setup.cols = 256 * setup.chunksPerRb := by
    have hchunk : chunkBytes = 65536 := rfl
    rw [Setup.blockBytes, hchunk] at hfirst hsecond
    omega
  exact ⟨hcols, ⟨setup.chunksPerRb, hwhole⟩, by omega⟩

/-- When the commands of the prologue are for the whole of the shard. -/
theorem covered_iff (setup : Setup) :
    (∀ node < setup.numNodes, setup.Covered node) ↔ setup.Whole := by
  have hge := setup.numNodes_ge
  constructor
  · intro h
    exact whole_of_covered (by omega) (h 0 (by omega))
  · intro h node hnode
    exact covered_of_whole hnode h

/-- Two nodes of one GPU, with a row of 256 and one comm CTA. A row block has a chunk and
    a half. -/
def chunkAndHalf : Setup where
  numNodes := 2
  numDevices := 1
  localRowBlocks := 1
  cols := 384
  numIntraComm := 1
  numNodes_ge := two_le_two
  numDevices_pos := Nat.one_pos
  localRowBlocks_pos := Nat.one_pos
  cols_dvd := by decide
  numIntraComm_pos := Nat.one_pos

/-- No command is for the last chunk of the shard. -/
theorem last_chunk_left_out : ¬ ∀ node < chunkAndHalf.numNodes, chunkAndHalf.Covered node := by
  intro h
  have htiles := (h 0 (by decide)).tiles 131072
  exact absurd htiles (by decide +kernel)

end Coverage

end AgGemm

end MKernel
