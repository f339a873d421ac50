import Mathlib.Data.Int.ConditionallyCompleteOrder
import Mathlib.Data.List.Chain
import Mathlib.Data.List.Range
import Mathlib.Data.Set.Function
import MKernel.Internode.Peers
import MKernel.RingAttention.Stages

/-!
# The Shards of the Stages

Which shard each GPU attends to in each stage of the ring, by the schedule.

Within a round the shards of one node go around the GPUs, and from one round to the
next `kv_copy` gets those of another node. So in stage `s` GPU `d` has the shard that
GPU `d - s` has of the node of round `s / M` (`shardNode`, `shardDev`). Over all stages
these are all shards, each once (`shards_bijOn`).

The chunks that are sent and copied and the tiles that are moved are two ways to go
through the vectors of a shard, and both reach what is attended to, as long as the bytes
of a side fit into an `int`. What a slot of the receive buffer holds is told from the
commands of the peers (`recv_shard`), and it is found there as long as the bytes of all
peers but the last fit into one (`Setup.Fits`).

## Main definitions

* `shardNode`, `shardDev`: The shard of a GPU in a stage.
* `Follows`: The order of the phases.
* `Setup.Fits`: No `int` of the exchange wraps.
* `Delivered`: The receive buffers hold the shards of the peers.

## Theorems

* `shards_bijOn`: A GPU has each shard in one of the stages.
* `phases_chain`: The phases follow each other.
* `stages_hostSchedule`: Each stage is launched once.
* `exists_chunk`, `attended_iff`: Chunks and tiles are all of the buffers.
* `recv_shard`: A slot of the receive buffer holds the shard of a peer.
-/

namespace MKernel

namespace RingAttention

open MKernel.Core
open MKernel.Internode (peerRankForSlot slotAtPeer slotAtPeer_peerRankForSlot peerRankForSlot_mem
  peerRankForSlot_ne)

variable {setup : Setup} {α : Type*} {c : Contents setup α}

/-! ## The shards -/

/-- The node whose shards are in the ring in a round. -/
def roundNode (setup : Setup) (round : Nat) : Int :=
  if round = 0 then setup.nodeIdx
  else peerRankForSlot setup.nodeIdx setup.numNodes ((round - 1 : Nat) : Int)

def shardNode (setup : Setup) (stage : Nat) : Int := roundNode setup (stage / setup.numDevices)

/-- The GPU of that node whose shard a GPU has in a stage. -/
def shardDev (d : Fin setup.numDevices) (stage : Nat) : Fin setup.numDevices :=
  ⟨(d + (setup.numDevices - stage % setup.numDevices)) % setup.numDevices,
    Nat.mod_lt _ setup.numDevices_pos⟩

/-- A sum of at most two turns, brought back to the ring. -/
theorem mod_turn {a m : Nat} (h : a < 2 * m) : a % m = if a < m then a else a - m := by
  by_cases ha : a < m
  · rw [if_pos ha, Nat.mod_eq_of_lt ha]
  · rw [if_neg ha, Nat.mod_eq_sub_mod (by omega), Nat.mod_eq_of_lt (by omega)]

theorem shardDev_val (d : Fin setup.numDevices) (stage : Nat) :
    (shardDev d stage).val = if stage % setup.numDevices ≤ d then d - stage % setup.numDevices
      else d + setup.numDevices - stage % setup.numDevices := by
  have hd := d.isLt
  have hlt := Nat.mod_lt stage setup.numDevices_pos
  by_cases h0 : stage % setup.numDevices = 0
  · simp only [shardDev, h0, Nat.sub_zero, Nat.zero_le, if_true, Nat.add_mod_right]
    exact Nat.mod_eq_of_lt hd
  · simp only [shardDev]
    rw [mod_turn (by omega)]
    split <;> split <;> omega

theorem dstDev_val (d : Fin setup.numDevices) :
    (dstDev d).val = if d + 1 < setup.numDevices then d.val + 1 else 0 := by
  have hd := d.isLt
  simp only [dstDev]
  rw [mod_turn (by omega)]
  split
  · rfl
  · omega

/-- The shard a GPU moves to the next is the shard of the next in the stage after. -/
theorem shardDev_dstDev (d : Fin setup.numDevices) (stage : Nat) :
    shardDev (dstDev d) (stage + 1) = shardDev d stage := by
  have hd := d.isLt
  have hlt := Nat.mod_lt stage setup.numDevices_pos
  have hlt' := Nat.mod_lt (stage + 1) setup.numDevices_pos
  have hsucc := mod_turn (a := stage % setup.numDevices + 1) (m := setup.numDevices) (by omega)
  rw [Nat.mod_add_mod] at hsucc
  apply Fin.ext
  rw [shardDev_val, shardDev_val, dstDev_val, hsucc]
  split <;> split <;> split <;> split <;> omega

theorem dstDev_surjective (d : Fin setup.numDevices) : ∃ e, dstDev e = d := by
  have hd := d.isLt
  refine ⟨⟨if d.val = 0 then setup.numDevices - 1 else d - 1, by split <;> omega⟩, Fin.ext ?_⟩
  rw [dstDev_val]
  simp only
  split <;> split <;> omega

theorem shardDev_round (d : Fin setup.numDevices) (round : Nat) :
    shardDev d (round * setup.numDevices) = d := by
  apply Fin.ext
  rw [shardDev_val, Nat.mul_mod_left, if_pos (Nat.zero_le _), Nat.sub_zero]

theorem roundNode_succ (p : Nat) :
    roundNode setup (p + 1) = peerRankForSlot setup.nodeIdx setup.numNodes p := by
  rw [roundNode, if_neg (Nat.succ_ne_zero p), Nat.add_sub_cancel]

theorem roundNode_mem {round : Nat} (h : round < setup.numNodes) :
    0 ≤ roundNode setup round ∧ roundNode setup round < setup.numNodes := by
  have hn := setup.nodeIdx_lt
  cases round with
  | zero =>
      rw [roundNode, if_pos rfl]
      omega
  | succ p =>
      rw [roundNode_succ]
      exact peerRankForSlot_mem hn (by omega)

/-- No node is in the ring for two rounds. -/
theorem roundNode_inj {round round' : Nat} (h : round < setup.numNodes)
    (h' : round' < setup.numNodes) (heq : roundNode setup round = roundNode setup round') :
    round = round' := by
  have hn := setup.nodeIdx_lt
  -- Round 0 is the node's own, and no later one is.
  cases round with
  | zero =>
      cases round' with
      | zero => rfl
      | succ p' =>
          rw [roundNode_succ, roundNode, if_pos rfl] at heq
          exact absurd heq.symm (peerRankForSlot_ne setup.nodeIdx (by omega))
  | succ p =>
      cases round' with
      | zero =>
          rw [roundNode_succ, roundNode, if_pos rfl] at heq
          exact absurd heq (peerRankForSlot_ne setup.nodeIdx (by omega))
      | succ p' =>
          rw [roundNode_succ, roundNode_succ] at heq
          simp only [peerRankForSlot] at heq
          split at heq <;> split at heq <;> omega

/-- Every node is in the ring for one. -/
theorem exists_roundNode {m : Int} (h0 : 0 ≤ m) (hm : m < setup.numNodes) :
    ∃ round < setup.numNodes, roundNode setup round = m := by
  have hn := setup.nodeIdx_lt
  by_cases hself : m = setup.nodeIdx
  · exact ⟨0, by omega, hself.symm⟩
  · refine ⟨(if (setup.nodeIdx : Int) < m then m - setup.nodeIdx - 1
      else m + setup.numNodes - setup.nodeIdx - 1).toNat + 1, by split <;> omega, ?_⟩
    rw [roundNode_succ]
    simp only [peerRankForSlot]
    split <;> split <;> omega

/-- The stages of a round. -/
theorem round_succ {stage : Nat} (h : (stage + 1) % setup.numDevices ≠ 0) :
    (stage + 1) / setup.numDevices = stage / setup.numDevices := by
  rw [Nat.succ_div, if_neg fun hdvd => h (Nat.mod_eq_zero_of_dvd hdvd), Nat.add_zero]

/-- A GPU has each shard in one of the stages. -/
theorem shards_bijOn (d : Fin setup.numDevices) :
    Set.BijOn (fun stage => (shardNode setup stage, shardDev d stage))
      (Set.Iio (setup.numNodes * setup.numDevices))
      (Set.Ico (0 : Int) setup.numNodes ×ˢ Set.univ) := by
  have hM := setup.numDevices_pos
  have hd := d.isLt
  have hround : ∀ stage ∈ Set.Iio (setup.numNodes * setup.numDevices),
      stage / setup.numDevices < setup.numNodes := fun stage hs =>
    Nat.div_lt_of_lt_mul (by rw [Nat.mul_comm]; exact hs)
  refine ⟨fun stage hs => ⟨roundNode_mem (hround stage hs), Set.mem_univ _⟩,
    fun stage hs stage' hs' heq => ?_, ?_⟩
  · -- The same node means the same round, and the same GPU the same stage of the round.
    rw [Prod.mk.injEq] at heq
    have hdiv := roundNode_inj (hround stage hs) (hround stage' hs') heq.1
    have hdev := congrArg Fin.val heq.2
    rw [shardDev_val, shardDev_val] at hdev
    have hlt := Nat.mod_lt stage hM
    have hlt' := Nat.mod_lt stage' hM
    have hmod : stage % setup.numDevices = stage' % setup.numDevices := by
      split at hdev <;> split at hdev <;> omega
    rw [← Nat.div_add_mod stage setup.numDevices, ← Nat.div_add_mod stage' setup.numDevices, hdiv,
      hmod]
  · rintro ⟨m, e⟩ ⟨hm, _⟩
    have he := e.isLt
    rcases exists_roundNode hm.1 hm.2 with ⟨round, hlt, hnode⟩
    -- The stage of the round in which the shard of `e` is at `d`.
    let localStage : Nat := if e.val ≤ d then d - e else d + setup.numDevices - e
    have hlocal : localStage < setup.numDevices := by
      simp only [localStage]
      split <;> omega
    have hmod : (round * setup.numDevices + localStage) % setup.numDevices = localStage := by
      rw [Nat.mul_add_mod_self_right, Nat.mod_eq_of_lt hlocal]
    refine ⟨round * setup.numDevices + localStage, place_lt hlt hlocal, Prod.ext ?_ (Fin.ext ?_)⟩
    · simp only [shardNode]
      rw [place_div hlocal]
      exact hnode
    · rw [shardDev_val, hmod]
      simp only [localStage]
      split <;> split <;> omega

/-! ## The phases in order -/

/-- The phase after a phase. -/
inductive Follows (setup : Setup) : Kernel → Kernel → Prop
  | first : Follows setup .kvSend (.stage 0)
  | stage (s : Nat) (h : (s + 1) % setup.numDevices ≠ 0) :
      Follows setup (.stage s) (.stage (s + 1))
  | copy (s p : Nat) (h : s + 1 = (p + 1) * setup.numDevices) :
      Follows setup (.stage s) (.kvCopy p)
  | round (p : Nat) : Follows setup (.kvCopy p) (.stage ((p + 1) * setup.numDevices))

theorem head?_stages (round : Nat) : ((List.range setup.numDevices).map fun localStage =>
    Kernel.stage (round * setup.numDevices + localStage)).head? =
      some (.stage (round * setup.numDevices)) := by
  rw [List.head?_map, List.head?_range, if_neg (Nat.ne_of_gt setup.numDevices_pos)]
  rfl

/-- The stages of a round, in order. -/
theorem round_chain (round : Nat) : (setup.roundPhases round).IsChain (Follows setup) := by
  have hstages : ((List.range setup.numDevices).map fun localStage =>
      Kernel.stage (round * setup.numDevices + localStage)).IsChain (Follows setup) := by
    rw [List.isChain_map, List.isChain_range]
    intro l hl
    refine Follows.stage _ ?_
    rw [Nat.add_assoc, Nat.mul_add_mod_self_right, Nat.mod_eq_of_lt (by omega)]
    omega
  unfold Setup.roundPhases
  -- After the copy of the round before comes the first stage of this one.
  by_cases h0 : 0 < round
  · rw [if_pos h0]
    refine List.IsChain.cons hstages fun y hy => ?_
    change y ∈ ((List.range setup.numDevices).map fun localStage =>
      Kernel.stage (round * setup.numDevices + localStage)).head? at hy
    rw [head?_stages, Option.mem_some_iff] at hy
    rw [← hy]
    have hfollows : Follows setup (.kvCopy (round - 1))
        (.stage ((round - 1 + 1) * setup.numDevices)) := Follows.round (round - 1)
    rwa [Nat.sub_add_cancel h0] at hfollows
  · rw [if_neg h0]
    exact hstages

theorem head?_roundPhases (round : Nat) : (setup.roundPhases round).head? =
    if 0 < round then some (.kvCopy (round - 1)) else some (.stage 0) := by
  unfold Setup.roundPhases
  by_cases h0 : 0 < round
  · rw [if_pos h0, if_pos h0]
    rfl
  · have hzero : round = 0 := by omega
    rw [if_neg h0, if_neg h0, List.nil_append, head?_stages, hzero, Nat.zero_mul]

theorem getLast?_roundPhases (round : Nat) : (setup.roundPhases round).getLast? =
    some (.stage (round * setup.numDevices + (setup.numDevices - 1))) := by
  rw [Setup.roundPhases, List.getLast?_append, List.getLast?_map, List.getLast?_range,
    if_neg (Nat.ne_of_gt setup.numDevices_pos)]
  rfl

/-- The phases follow each other. -/
theorem phases_chain : setup.phases.IsChain (Follows setup) := by
  have hM := setup.numDevices_pos
  have hpos : 0 < setup.numNodes := Nat.lt_of_le_of_lt (Nat.zero_le _) setup.nodeIdx_lt
  -- No round is empty, so the rounds can be joined at their ends.
  have hne : ∀ round, setup.roundPhases round ≠ [] := fun round hnil => by
    have hlast : (setup.roundPhases round).getLast? = _ := getLast?_roundPhases round
    rw [hnil] at hlast
    exact absurd hlast (by simp only [List.getLast?_nil, reduceCtorEq, not_false_eq_true])
  have hrounds :
      ((List.range setup.numNodes).flatMap setup.roundPhases).IsChain (Follows setup) := by
    rw [List.flatMap, List.isChain_flatten fun hin => by
      rcases List.mem_map.mp hin with ⟨round, _, hnil⟩
      exact hne round hnil]
    constructor
    · intro l hl
      rcases List.mem_map.mp hl with ⟨round, _, rfl⟩
      exact round_chain round
    · -- Between two rounds is a copy, which follows the last stage of the round before.
      rw [List.isChain_map, List.isChain_range]
      intro round _ x hx y hy
      rw [getLast?_roundPhases, Option.mem_some_iff] at hx
      rw [head?_roundPhases, if_pos (Nat.succ_pos round), Option.mem_some_iff] at hy
      rw [← hx, ← hy]
      refine Follows.copy _ _ ?_
      rw [Nat.succ_sub_one, Nat.succ_mul]
      omega
  -- Before the first round there is only the beginning.
  refine List.IsChain.cons hrounds fun y hy => ?_
  have hsplit : setup.numNodes = setup.numNodes - 1 + 1 := (Nat.sub_add_cancel hpos).symm
  rw [hsplit, List.range_succ_eq_map, List.flatMap_cons, List.head?_append_of_ne_nil _ (hne 0),
    head?_roundPhases, if_neg (Nat.lt_irrefl 0), Option.mem_some_iff] at hy
  rw [← hy]
  exact Follows.first

/-- The phases of the rounds, as far as they are stages. -/
def stage? : Kernel → Option Nat
  | .stage stage => some stage
  | _ => none

/-- The host launches every stage once, in order. -/
theorem stages_hostSchedule : setup.hostSchedule.filterMap stage? =
    List.range (setup.numNodes * setup.numDevices) := by
  have hround : ∀ round, (setup.hostRound round).filterMap stage? =
      (List.range setup.numDevices).map (round * setup.numDevices + ·) := by
    intro round
    -- A copy and its barrier are no stages.
    have hcopy : (if 0 < round then [Kernel.kvCopy (round - 1), Kernel.barrier] else []).filterMap
        stage? = [] := by
      split <;> rfl
    rw [Setup.hostRound, List.filterMap_append, hcopy, List.nil_append, List.filterMap_flatMap,
      ← List.flatMap_pure_eq_map]
    congr 1
    funext localStage
    simp only
    split <;> rfl
  -- The round before the first has none either.
  have hall : setup.hostSchedule.filterMap stage? =
      (List.range setup.numNodes).flatMap fun round =>
        (List.range setup.numDevices).map (round * setup.numDevices + ·) := by
    rw [Setup.hostSchedule, List.filterMap_append, List.filterMap_flatMap]
    simp only [hround]
    rfl
  have hrange : ∀ n, ((List.range n).flatMap fun round =>
      (List.range setup.numDevices).map (round * setup.numDevices + ·)) =
      List.range (n * setup.numDevices) := by
    intro n
    -- Induction on the number of rounds.
    induction n with
    | zero => rw [Nat.zero_mul]; rfl
    | succ n ih =>
        rw [List.range_succ, List.flatMap_append, ih, Nat.succ_mul, List.range_add,
          List.flatMap_singleton]
  rw [hall, hrange]

/-- The peer slots of `kv_copy`. -/
theorem lt_of_kvCopy_mem {p : Nat} (h : .kvCopy p ∈ setup.phases) : p < setup.numNodes - 1 := by
  simp only [Setup.phases, Setup.roundPhases, List.mem_cons, reduceCtorEq, false_or,
    List.mem_flatMap, List.mem_append, List.mem_map, List.mem_range, and_false, exists_false,
    or_false] at h
  rcases h with ⟨round, hround, hin⟩
  by_cases h0 : 0 < round
  · rw [if_pos h0, List.mem_singleton, Kernel.kvCopy.injEq] at hin
    omega
  · rw [if_neg h0] at hin
    exact absurd hin List.not_mem_nil

/-! ## Chunks and tiles -/

theorem bufferBytes_eq (setup : Setup) : setup.bufferBytes = setup.sideVecs * vecBytes :=
  (Nat.mul_assoc _ vecsPerRow vecBytes).symm

section Counted

variable (hchunks : setup.bufferBytes + chunkBytes ≤ 2 ^ 31)
include hchunks

/-- The bytes of a side are counted right. -/
theorem sideBytes_eq : setup.sideBytes = setup.bufferBytes := by
  unfold chunkBytes at hchunks
  rw [Setup.sideBytes, int32_eq (by omega) (by omega), Int.toNat_natCast]

/-- And so are its chunks. -/
theorem totalChunksSide_eq : setup.totalChunksSide = rounds setup.bufferBytes chunkBytes := by
  rw [Setup.totalChunksSide, sideBytes_eq hchunks, int32_sub]
  unfold chunkBytes at hchunks ⊢
  rw [int32_eq (by omega) (by omega), Int.tdiv_eq_ediv_of_nonneg (by omega), rounds]
  omega

/-- Each vector is in a chunk of its side. -/
theorem exists_chunk (side : Side) {vec : Nat} (h : vec < setup.sideVecs) :
    ∃ chunk < setup.totalChunks, setup.InChunk chunk side vec := by
  have hbuffer := bufferBytes_eq setup
  have hbytes := sideBytes_eq hchunks
  have hone : vec * vecBytes / chunkBytes < setup.totalChunksSide := by
    rw [totalChunksSide_eq hchunks, ← Nat.not_le, rounds_le_iff (by decide)]
    simp only [vecBytes, chunkBytes] at hbuffer ⊢
    omega
  -- The chunks of V come after those of K.
  cases side with
  | k =>
      refine ⟨vec * vecBytes / chunkBytes, Nat.lt_add_right _ hone, ?_⟩
      simp only [Setup.InChunk, Setup.side, Setup.bytes, Setup.off, if_pos hone]
      simp only [vecBytes, chunkBytes, true_and] at hchunks hbuffer ⊢
      omega
  | v =>
      have hge : ¬ setup.totalChunksSide + vec * vecBytes / chunkBytes < setup.totalChunksSide :=
        Nat.not_lt.mpr (Nat.le_add_right _ _)
      refine ⟨setup.totalChunksSide + vec * vecBytes / chunkBytes, Nat.add_lt_add_left hone _, ?_⟩
      simp only [Setup.InChunk, Setup.side, Setup.bytes, Setup.off, if_neg hge,
        Nat.add_sub_cancel_left]
      simp only [vecBytes, chunkBytes, true_and] at hchunks hbuffer ⊢
      omega

end Counted

/-- Tiles are within the buffer. -/
theorem lt_of_attended {vec : Nat} (h : setup.Attended vec) : vec < setup.sideVecs := by
  rcases h with ⟨b, hb, head, hhead, kv, hkv, _, hlt⟩
  have hrow : kv * kvBlock + kvBlock ≤ setup.rows := by
    have hdiv := Nat.div_mul_le_self setup.rows kvBlock
    have hle : (kv + 1) * kvBlock ≤ setup.kvBlocks * kvBlock := Nat.mul_le_mul_right _ hkv
    rw [Nat.succ_mul] at hle
    exact hle.trans hdiv
  have hhead' : b * setup.heads + head + 1 ≤ setup.batch * setup.heads := place_lt hb hhead
  refine Nat.lt_of_lt_of_le hlt (Nat.mul_le_mul_right _ ?_)
  calc (b * setup.heads + head) * setup.rows + kv * kvBlock + kvBlock
      ≤ (b * setup.heads + head) * setup.rows + setup.rows := by
        rw [Nat.add_assoc]
        exact Nat.add_le_add_left hrow _
    _ = (b * setup.heads + head + 1) * setup.rows := (Nat.succ_mul _ _).symm
    _ ≤ setup.batch * setup.heads * setup.rows := Nat.mul_le_mul_right _ hhead'

/-- The tasks of the comm CTAs are the tiles that are attended to. -/
theorem attended_iff {vec : Nat} :
    setup.Attended vec ↔ ∃ t < setup.numBlocks, setup.InTask t vec := by
  constructor
  · -- The tile of a batch, a head and a block of keys.
    rintro ⟨b, hb, head, hhead, kv, hkv, hvec⟩
    have hplace : head * setup.kvBlocks + kv < setup.heads * setup.kvBlocks := place_lt hhead hkv
    refine ⟨b * (setup.heads * setup.kvBlocks) + (head * setup.kvBlocks + kv), ?_, ?_⟩
    · rw [Setup.numBlocks, Nat.mul_assoc]
      exact place_lt hb hplace
    · have hmod : (b * (setup.heads * setup.kvBlocks) + (head * setup.kvBlocks + kv)) %
          setup.kvBlocks = kv := by
        rw [← Nat.mul_assoc, Nat.mul_add_mod_self_right, Nat.mul_add_mod_self_right,
          Nat.mod_eq_of_lt hkv]
      rw [Setup.InTask, place_div hplace, Nat.mul_add_mod_self_right, Nat.mod_eq_of_lt hplace,
        place_div hkv, hmod]
      exact hvec
  · -- Conversely, the place of a tile is found by division.
    rintro ⟨t, ht, hvec⟩
    rw [Setup.numBlocks, Nat.mul_assoc] at ht
    have hpos : 0 < setup.heads * setup.kvBlocks := by
      by_contra hzero
      rw [Nat.eq_zero_of_not_pos hzero, Nat.mul_zero] at ht
      exact absurd ht (Nat.not_lt_zero t)
    refine ⟨t / (setup.heads * setup.kvBlocks), Nat.div_lt_of_lt_mul (by rwa [Nat.mul_comm]),
      t % (setup.heads * setup.kvBlocks) / setup.kvBlocks, Nat.div_lt_of_lt_mul ?_,
      t % setup.kvBlocks, Nat.mod_lt t (Nat.pos_of_mul_pos_left hpos), hvec⟩
    rw [Nat.mul_comm setup.kvBlocks]
    exact Nat.mod_lt t hpos

/-! ## What is received -/

/-- The commands of the peers are carried out, with their shards as these were. -/
def Delivered (c : Contents setup α) : Prop :=
  ∀ m < setup.numNodes, ∀ d, ∀ chunk < setup.totalChunks, ∀ q < setup.numNodes - 1,
    (kvWrite setup m d chunk q).dstRank = setup.nodeIdx →
      ∀ j < (kvWrite setup m d chunk q).bytes / vecBytes,
        c.recvBuf d ((kvWrite setup m d chunk q).remoteOffset / vecBytes + j) =
          c.shard m d (viewSide (kvWrite setup m d chunk q).srcView)
            ((kvWrite setup m d chunk q).localOffset / vecBytes + j)

/-- There are no peers, or the bytes of a side, rounded up to a chunk, and the bytes of all
    peers but the last fit into an `int`. -/
def Setup.Fits (setup : Setup) : Prop :=
  setup.numNodes ≤ 1 ∨ (setup.bufferBytes + chunkBytes ≤ 2 ^ 31 ∧
    (setup.numNodes - 2) * (setup.bufferBytes + setup.bufferBytes) < 2 ^ 31)

instance (setup : Setup) : Decidable setup.Fits := inferInstanceAs (Decidable (_ ∨ _ ∧ _))

theorem Setup.Fits.chunks (h : setup.Fits) :
    setup.numNodes ≤ 1 ∨ setup.bufferBytes + chunkBytes ≤ 2 ^ 31 :=
  h.imp_right And.left

/-- The sender counts the bytes of a peer right, even where an `int` does not. -/
theorem uint32_singlePeerBytes (hchunks : setup.bufferBytes + chunkBytes ≤ 2 ^ 31) :
    uint32 setup.singlePeerBytes = (setup.bufferBytes + setup.bufferBytes : Nat) := by
  rw [Setup.singlePeerBytes, sideBytes_eq hchunks]
  unfold chunkBytes at hchunks
  by_cases hfit : setup.bufferBytes + setup.bufferBytes < 2 ^ 31
  · rw [int32_eq (by omega) (by omega), uint32_eq (by omega) (by omega)]
    omega
  · rw [int32_wrap (-1) (by omega) (by omega), uint32]
    omega

/-- So a command is for the right place behind the peers before the slot. -/
theorem remoteOffset_eq (hchunks : setup.bufferBytes + chunkBytes ≤ 2 ^ 31) (nodeIdx : Nat)
    (dev : Fin setup.numDevices) (chunk peerSlot : Nat) :
    (kvWrite setup nodeIdx dev chunk peerSlot).remoteOffset =
      slotAtPeer nodeIdx (peerRankForSlot nodeIdx setup.numNodes peerSlot) setup.numNodes *
        (setup.bufferBytes + setup.bufferBytes : Nat) +
        (setup.sideOff (setup.side chunk) + setup.off chunk : Nat) := by
  simp only [kvWrite, uint32_singlePeerBytes hchunks]

/-- Where the bytes of the peers before a slot fit into an `int`, `kv_copy` looks behind
    them. -/
theorem recvVec_eq (hchunks : setup.bufferBytes + chunkBytes ≤ 2 ^ 31) {p : Nat}
    (hp : p * (setup.bufferBytes + setup.bufferBytes) < 2 ^ 31) (side : Side) (vec : Nat) :
    recvVec setup p side vec =
      (p * (setup.sideVecs + setup.sideVecs) + setup.sideOff side / vecBytes + vec : Nat) := by
  have hbuffer := bufferBytes_eq setup
  have hbytes := sideBytes_eq hchunks
  have hmul : p * (setup.bufferBytes + setup.bufferBytes) =
      p * (setup.sideVecs + setup.sideVecs) * vecBytes := by
    rw [hbuffer, ← Nat.add_mul, Nat.mul_assoc]
  -- The first peer is at the beginning, however many bytes it has.
  have hprod : int32 (p * setup.singlePeerBytes) =
      (p * (setup.bufferBytes + setup.bufferBytes) : Nat) := by
    rcases Nat.eq_zero_or_pos p with rfl | hpos
    · simp only [Nat.cast_zero, Int.zero_mul, Nat.zero_mul]
      decide
    · have hle := Nat.le_mul_of_pos_left (setup.bufferBytes + setup.bufferBytes) hpos
      rw [Setup.singlePeerBytes, hbytes, int32_eq (x := (_ : Int) + _) (by omega) (by omega),
        ← Nat.cast_add, ← Nat.cast_mul, int32_eq (by omega) (by omega)]
  have hoff : setup.sideOff side / 2 = setup.sideOff side / vecBytes * 8 := by
    cases side with
    | k => simp only [Setup.sideOff, Nat.zero_div, Nat.zero_mul]
    | v =>
        simp only [Setup.sideOff, hbytes, hbuffer, vecBytes]
        omega
  rw [recvVec, srcBase, hprod, hmul, hoff, Int.tdiv_eq_ediv_of_nonneg (Int.natCast_nonneg _)]
  unfold vecBytes
  omega

/-- The vector at a byte of a chunk, behind whole vectors and a side. -/
theorem vec_of_byte {x so off vec : Nat} (hoff : vecBytes ∣ off) (hle : off / vecBytes ≤ vec) :
    (((x * vecBytes : Nat) : Int) + (so + off : Nat)) / vecBytes + (vec - off / vecBytes : Nat) =
      (x + so / vecBytes + vec : Nat) := by
  unfold vecBytes at hoff hle ⊢
  omega

/-- A slot of the receive buffer holds the shard of the peer in this slot. -/
theorem recv_shard (hdel : Delivered c) (hfits : setup.Fits) (d : Fin setup.numDevices) {p : Nat}
    (hp : p < setup.numNodes - 1) (side : Side) {vec : Nat} (hvec : vec < setup.sideVecs) :
    c.recvBuf d (recvVec setup p side vec) =
      c.shard (peerRankForSlot setup.nodeIdx setup.numNodes p) d side vec := by
  have hn := setup.nodeIdx_lt
  have hmem := peerRankForSlot_mem hn hp
  rcases hfits.resolve_left (by omega) with ⟨hchunks, hpeers⟩
  rcases Int.eq_ofNat_of_zero_le hmem.1 with ⟨m, hm⟩
  rcases exists_chunk hchunks side hvec with ⟨chunk, hchunk, hside, hle, hlt⟩
  -- The slot the peer has this node in, and the slot it is in here.
  have hq : setup.numNodes - 2 - p < setup.numNodes - 1 := by omega
  have hback : peerRankForSlot m setup.numNodes ((setup.numNodes - 2 - p : Nat) : Int) =
      setup.nodeIdx := by
    simp only [peerRankForSlot] at hm ⊢
    split at hm <;> split <;> omega
  have hsap : slotAtPeer m setup.nodeIdx setup.numNodes = p := by
    rw [← hback, slotAtPeer_peerRankForSlot _ _ _ (by omega) (by omega)]
    omega
  have hgot := hdel m (by omega) d chunk hchunk _ hq hback
    (vec - setup.off chunk / vecBytes) (by simp only [kvWrite]; omega)
  have hlocal : (kvWrite setup m d chunk (setup.numNodes - 2 - p)).localOffset / vecBytes +
      (vec - setup.off chunk / vecBytes) = vec := by
    simp only [kvWrite]
    omega
  have hremote : (kvWrite setup m d chunk (setup.numNodes - 2 - p)).remoteOffset / vecBytes +
      (vec - setup.off chunk / vecBytes : Nat) = recvVec setup p side vec := by
    have hslot : p * (setup.bufferBytes + setup.bufferBytes) < 2 ^ 31 :=
      Nat.lt_of_le_of_lt (Nat.mul_le_mul_right _ (by omega)) hpeers
    have hmul : p * (setup.bufferBytes + setup.bufferBytes) =
        p * (setup.sideVecs + setup.sideVecs) * vecBytes := by
      rw [bufferBytes_eq, ← Nat.add_mul, Nat.mul_assoc]
    have hoff : vecBytes ∣ setup.off chunk := Dvd.dvd.mul_left (by decide) _
    rw [remoteOffset_eq hchunks, hback, hsap, ← hside, recvVec_eq hchunks hslot, ← Nat.cast_mul,
      hmul]
    exact vec_of_byte hoff hle
  have hview : viewSide (kvWrite setup m d chunk (setup.numNodes - 2 - p)).srcView = side := by
    simp only [kvWrite, viewSide_view, hside]
  rw [hremote, hlocal, hview] at hgot
  rw [hgot, hm]

end RingAttention

end MKernel
