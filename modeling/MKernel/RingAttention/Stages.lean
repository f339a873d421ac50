import Mathlib.Data.Fintype.Pi
import MKernel.Core.Lockstep
import MKernel.Core.MachineInt
import MKernel.Core.Outbox
import MKernel.Core.Spread
import MKernel.Core.System
import MKernel.Internode.Types

/-!
# The Stages of Ring Attention

The host schedule of `ring_attn_multinode`, and its kernels as far as they move keys
and values.

The ring has as many rounds as there are nodes, and each round has a stage for each
GPU of the node. In a stage every GPU attends to the shard in one half of its key and
value buffers, `K0` and `V0` in even stages and `K1` and `V1` in odd ones, and its
comm CTAs move the shard to the other half of the next GPU. Before the first round
`kv_send` pushes a command for each chunk of the shard and each peer, and before each
of the other rounds `kv_copy` copies the shard of a peer from the receive buffer to
`K0` and `V0`. After `kv_send`, after each `kv_copy` and after each stage there is a
barrier of all GPUs of the node.

The send is without a copy: the NIC reads `K0` and `V0` themselves, whenever it gets
to a command.

Memory is counted in vectors of 16 bytes, which is what `kv_copy` copies at a time. A
CTA writes its vectors one by one, in any order.

The bytes of a side, of a peer and of the peers before a slot are counted in `int`s, as
the kernels count them, and what they wrap to is what is copied.

## Main definitions

* `Setup`: The launch, on one node.
* `Kernel`, `hostSchedule`: What the host launches.
* `Item`, `items`: The work of a kernel on each GPU, as its CTAs share it.
* `Contents`: What the buffers of the node hold.
* `KvWrite`, `kvWrite`: The commands of `kv_send`.
* `written`: What a CTA writes.
* `World`, `step`: The GPUs of a node, and the NIC.

## Theorems

* `hostSchedule_eq_laid`: Each phase ends with a barrier.
* `mem_items_push`, `mem_items_copy`, `mem_items_move`: What the CTAs do together.
-/

namespace MKernel

namespace RingAttention

open MKernel.Core
open MKernel.Internode (peerRankForSlot slotAtPeer)

/-- Keys or values. -/
inductive Side where
  | k
  | v
deriving DecidableEq

/-- `src_view`: `K0` is the first local buffer of the session, and `V0` the second. -/
def Side.view : Side → Nat
  | .k => 0
  | .v => 1

/-- `CHUNK_BYTES`. -/
def chunkBytes : Nat := 256 * 1024

/-- The size of a `uint4`. -/
def vecBytes : Nat := 16

/-- A row of a head: 128 elements of 2 bytes. -/
def rowBytes : Nat := 128 * 2

def vecsPerRow : Nat := rowBytes / vecBytes

/-- `KV_BLOCK`: the rows of a tile. -/
def kvBlock : Nat := 128

/-- `NUM_CHUNKS` of `attn_comm`: the tiles a comm CTA has under way at a time. -/
def numChunks : Nat := 7

/-- A launch, on one of the nodes. Both sides have a comm CTA of their own, and the GPUs
    of a node are at least one. -/
structure Setup where
  numNodes : Nat
  nodeIdx : Nat
  numDevices : Nat
  batch : Nat
  heads : Nat
  /-- The rows of the keys, and of the values, that a GPU has of each head. -/
  rows : Nat
  numCommSms : Nat
  numSendSms : Nat
  numCopySms : Nat
  nodeIdx_lt : nodeIdx < numNodes
  numDevices_pos : 0 < numDevices
  numCommSms_ge : 2 ≤ numCommSms

namespace Setup

variable (setup : Setup)

/-- `K0.data_.numel() * 2`, and `V0.data_.numel() * 2`. -/
def bufferBytes : Nat := setup.batch * setup.heads * setup.rows * rowBytes

def sideVecs : Nat := setup.batch * setup.heads * setup.rows * vecsPerRow

/-- `K_bytes`, and `V_bytes`, as an `int`. Where it is negative there is no chunk, as
    where it is zero. -/
def sideBytes : Nat := (int32 setup.bufferBytes).toNat

/-- `single_peer_bytes`. -/
def singlePeerBytes : Int := int32 (setup.sideBytes + setup.sideBytes)

/-- `total_chunks_K`, and `total_chunks_V`. -/
def totalChunksSide : Nat :=
  ((int32 (int32 (setup.sideBytes + chunkBytes) - 1)).tdiv chunkBytes).toNat

/-- `total_chunks`, and `single_peer_tiles`. -/
def totalChunks : Nat := setup.totalChunksSide + setup.totalChunksSide

/-- `KV_blocks`. -/
def kvBlocks : Nat := setup.rows / kvBlock

/-- `num_blocks` of `attn_comm`. -/
def numBlocks : Nat := setup.batch * setup.heads * setup.kvBlocks

/-- `n_send` and `n_copy`. -/
def nSend : Nat :=
  if 132 < max 1 setup.numSendSms + max 1 setup.numCopySms then 66 else max 1 setup.numSendSms

def nCopy : Nat :=
  if 132 < max 1 setup.numSendSms + max 1 setup.numCopySms then 66 else max 1 setup.numCopySms

theorem nSend_pos : 0 < setup.nSend := by
  unfold nSend
  split <;> omega

theorem nCopy_pos : 0 < setup.nCopy := by
  unfold nCopy
  split <;> omega

/-! ## Chunks and tiles -/

/-- `is_v`. -/
def side (chunk : Nat) : Side := if chunk < setup.totalChunksSide then .k else .v

/-- `off`: where a chunk begins in the buffer of its side. -/
def off (chunk : Nat) : Nat :=
  (if chunk < setup.totalChunksSide then chunk else chunk - setup.totalChunksSide) * chunkBytes

/-- `bytes`: the last chunk of a side may be short. -/
def bytes (chunk : Nat) : Nat := min chunkBytes (setup.sideBytes - setup.off chunk)

/-- Where the side begins in the buffers that hold both. -/
def sideOff : Side → Nat
  | .k => 0
  | .v => setup.sideBytes

/-- The vectors of a chunk, of which there are `n_vec`. -/
def InChunk (chunk : Nat) (side : Side) (vec : Nat) : Prop :=
  side = setup.side chunk ∧ setup.off chunk / vecBytes ≤ vec ∧
    vec < setup.off chunk / vecBytes + setup.bytes chunk / vecBytes

instance (c : Nat) (s : Side) (v : Nat) : Decidable (setup.InChunk c s v) :=
  inferInstanceAs (Decidable (_ ∧ _))

/-- The vectors of the tile `{batch_idx, head_idx, KV_idx, 0}`. -/
def InTile (batchIdx headIdx kvIdx vec : Nat) : Prop :=
  ((batchIdx * setup.heads + headIdx) * setup.rows + kvIdx * kvBlock) * vecsPerRow ≤ vec ∧
    vec < ((batchIdx * setup.heads + headIdx) * setup.rows + kvIdx * kvBlock + kvBlock) * vecsPerRow

instance (b h kv v : Nat) : Decidable (setup.InTile b h kv v) :=
  inferInstanceAs (Decidable (_ ∧ _))

/-- The vectors a comm CTA moves for `task_id`. -/
def InTask (taskId vec : Nat) : Prop :=
  setup.InTile (taskId / (setup.heads * setup.kvBlocks))
    (taskId % (setup.heads * setup.kvBlocks) / setup.kvBlocks) (taskId % setup.kvBlocks) vec

instance (t v : Nat) : Decidable (setup.InTask t v) :=
  inferInstanceAs (Decidable (InTile _ _ _ _ _))

/-- The vectors that `attn_partial` reads: all whole tiles of all heads. -/
def Attended (vec : Nat) : Prop :=
  ∃ b < setup.batch, ∃ h < setup.heads, ∃ kv < setup.kvBlocks, setup.InTile b h kv vec

end Setup

/-! ## The host schedule -/

/-- A kernel the host launches on each GPU. -/
inductive Kernel where
  | kvSend
  | kvCopy (peerSlot : Nat)
  /-- `attn_comm_partial_stage_kernel`. -/
  | stage (stage : Nat)
  | reduction (stage : Nat)
  | barrier
deriving DecidableEq

namespace Setup

variable (setup : Setup)

/-- The body of the loop over `round`. -/
def hostRound (round : Nat) : List Kernel :=
  (if 0 < round then [Kernel.kvCopy (round - 1), .barrier] else []) ++
    (List.range setup.numDevices).flatMap fun localStage =>
      let stage := round * setup.numDevices + localStage
      [Kernel.stage stage] ++ (if 0 < stage then [Kernel.reduction stage] else []) ++
        [Kernel.barrier]

/-- The entrypoint. -/
def hostSchedule : List Kernel :=
  [Kernel.kvSend, .barrier] ++ (List.range setup.numNodes).flatMap setup.hostRound

/-- The kernels of a round that have to do with keys and values. -/
def roundPhases (round : Nat) : List Kernel :=
  (if 0 < round then [Kernel.kvCopy (round - 1)] else []) ++
    (List.range setup.numDevices).map fun localStage =>
      Kernel.stage (round * setup.numDevices + localStage)

/-- The kernels that have to do with keys and values. -/
def phases : List Kernel :=
  .kvSend :: (List.range setup.numNodes).flatMap setup.roundPhases

end Setup

/-- What is launched between such a kernel and the barrier. -/
def tail : Kernel → List Kernel
  | .stage stage => if 0 < stage then [.reduction stage] else []
  | _ => []

theorem kvSend_notMem_tail (k : Kernel) : .kvSend ∉ tail k := by
  cases k <;> simp only [tail, List.not_mem_nil, not_false_eq_true]
  split <;> simp

theorem kvCopy_notMem_tail (p : Nat) (k : Kernel) : .kvCopy p ∉ tail k := by
  cases k <;> simp only [tail, List.not_mem_nil, not_false_eq_true]
  split <;> simp

theorem stage_notMem_tail (s : Nat) (k : Kernel) : .stage s ∉ tail k := by
  cases k <;> simp only [tail, List.not_mem_nil, not_false_eq_true]
  split <;> simp

section Schedule

variable {setup : Setup}

theorem hostRound_eq_laid (round : Nat) :
    setup.hostRound round = Lockstep.laid .barrier tail (setup.roundPhases round) := by
  rw [Setup.roundPhases, Lockstep.laid, List.flatMap_append, List.flatMap_map, Setup.hostRound]
  congr 1
  split <;> rfl

/-- Each kernel that has to do with keys and values is followed by a barrier. -/
theorem hostSchedule_eq_laid :
    setup.hostSchedule = Lockstep.laid .barrier tail setup.phases := by
  have hround :
      setup.hostRound = fun round => Lockstep.laid .barrier tail (setup.roundPhases round) :=
    funext hostRound_eq_laid
  rw [Setup.hostSchedule, Setup.phases, Lockstep.laid_cons, Lockstep.laid, List.flatMap_assoc,
    hround]
  rfl

end Schedule

/-! ## The work of the CTAs -/

/-- A piece of the work of a kernel. -/
inductive Item where
  /-- `kv_send` pushes the command of a chunk for a peer. -/
  | push (chunk peerSlot : Nat)
  /-- `kv_copy` copies a chunk. -/
  | copy (chunk : Nat)
  /-- `attn_comm` moves a tile. -/
  | move (side : Side) (taskId : Nat)
deriving DecidableEq

namespace Setup

variable (setup : Setup)

/-- `kv_stage_and_send_sm`, by all CTAs of the kernel. -/
def sendItems : List Item :=
  (List.range setup.nSend).flatMap fun sendId =>
    (walk sendId setup.nSend setup.totalChunks).flatMap fun chunk =>
      (List.range (setup.numNodes - 1)).map fun peerSlot => .push chunk peerSlot

/-- `kv_copy_sm`. -/
def copyItems : List Item :=
  (List.range setup.nCopy).flatMap fun copyId =>
    (walk copyId setup.nCopy setup.totalChunks).map .copy

/-- The side a comm CTA works for. -/
def blockSide (blockIdx : Nat) : Side := if blockIdx % 2 = 0 then .k else .v

/-- `attn_comm`. -/
def commItems : List Item :=
  (List.range setup.numCommSms).flatMap fun blockIdx =>
    (List.range numChunks).flatMap fun chunkId =>
      (walk (numChunks * (blockIdx / 2) + chunkId) (numChunks * (setup.numCommSms / 2))
        setup.numBlocks).map (.move (blockSide blockIdx))

/-- The work of a kernel, which is the same on every GPU. -/
def items : Kernel → List Item
  | .kvSend => setup.sendItems
  | .kvCopy _ => setup.copyItems
  | .stage _ => setup.commItems
  | .reduction _ => []
  | .barrier => []

end Setup

section Items

variable {setup : Setup}

/-- Together the CTAs push every chunk for every peer. -/
theorem mem_items_push {c p : Nat} :
    Item.push c p ∈ setup.sendItems ↔ c < setup.totalChunks ∧ p < setup.numNodes - 1 := by
  simp only [Setup.sendItems, List.mem_flatMap, List.mem_map, List.mem_range, Item.push.injEq,
    exists_eq_right_right]
  constructor
  · rintro ⟨s, hs, hc, hp⟩
    exact ⟨((mem_walk hs).mp hc).1, hp⟩
  · rintro ⟨hc, hp⟩
    have hlt := Nat.mod_lt c setup.nSend_pos
    exact ⟨c % setup.nSend, hlt, (mem_walk hlt).mpr ⟨hc, rfl⟩, hp⟩

/-- And copy every chunk. -/
theorem mem_items_copy {c : Nat} : Item.copy c ∈ setup.copyItems ↔ c < setup.totalChunks := by
  simp only [Setup.copyItems, List.mem_flatMap, List.mem_map, List.mem_range, Item.copy.injEq,
    exists_eq_right]
  constructor
  · rintro ⟨s, hs, hc⟩
    exact ((mem_walk hs).mp hc).1
  · intro hc
    have hlt := Nat.mod_lt c setup.nCopy_pos
    exact ⟨c % setup.nCopy, hlt, (mem_walk hlt).mpr ⟨hc, rfl⟩⟩

/-- The two sides have comm CTAs in turn. -/
theorem blockSide_two_mul (side : Side) (n : Nat) :
    Setup.blockSide (2 * n + if side = .k then 0 else 1) = side := by
  cases side <;> simp [Setup.blockSide, Nat.add_mod]

/-- And move every tile of both sides. -/
theorem mem_items_move {side : Side} {t : Nat} :
    Item.move side t ∈ setup.commItems ↔ t < setup.numBlocks := by
  have hge := setup.numCommSms_ge
  have hstride : 0 < numChunks * (setup.numCommSms / 2) :=
    Nat.mul_pos (by decide) (Nat.div_pos hge (by decide))
  simp only [Setup.commItems, List.mem_flatMap, List.mem_map, List.mem_range, Item.move.injEq]
  constructor
  · rintro ⟨_, _, _, _, t', ht', _, rfl⟩
    exact lt_of_mem_walk hstride ht'
  intro ht
  -- The CTA of the side that has the tile, and the chunk it has it in.
  let c := t % (numChunks * (setup.numCommSms / 2))
  have hc : c < numChunks * (setup.numCommSms / 2) := Nat.mod_lt t hstride
  have hcta : c / numChunks < setup.numCommSms / 2 :=
    Nat.div_lt_of_lt_mul hc
  have hat : numChunks * (c / numChunks) + c % numChunks = c := Nat.div_add_mod c numChunks
  let b := 2 * (c / numChunks) + if side = .k then 0 else 1
  have hb : b / 2 = c / numChunks := by
    simp only [b]
    split <;> omega
  refine ⟨b, ?_, c % numChunks, Nat.mod_lt c (by decide), t, ?_, blockSide_two_mul _ _, rfl⟩
  · simp only [b]
    split <;> omega
  · rw [hb, hat]
    exact (mem_walk hc).mpr ⟨ht, rfl⟩

end Items

/-! ## What is sent and what is written -/

/-- A vector of a buffer: of keys or values, in `K0` and `V0` or in `K1` and `V1`. -/
structure Cell (setup : Setup) where
  dev : Fin setup.numDevices
  side : Side
  half : Nat
  vec : Nat
deriving DecidableEq

/-- The fields of a `WRITE` that `kv_send` fills in. -/
structure KvWrite where
  dstRank : Int
  tileId : Int
  bytes : Nat
  localOffset : Nat
  remoteOffset : Int
  srcView : Nat
  laneId : BitVec 16
  reserved0 : BitVec 8
deriving DecidableEq

/-- `kv_stage_and_send_sm`: the command of a chunk for a peer, as GPU `dev` of node
    `nodeIdx` pushes it. -/
def kvWrite (setup : Setup) (nodeIdx : Nat) (dev : Fin setup.numDevices) (chunk peerSlot : Nat) :
    KvWrite :=
  let peerRank := peerRankForSlot nodeIdx setup.numNodes peerSlot
  let sap := slotAtPeer nodeIdx peerRank setup.numNodes
  { dstRank := peerRank
    tileId := sap * setup.totalChunks + chunk
    bytes := setup.bytes chunk
    localOffset := setup.off chunk
    remoteOffset := sap * uint32 setup.singlePeerBytes +
      (setup.sideOff (setup.side chunk) + setup.off chunk : Nat)
    srcView := (setup.side chunk).view
    laneId := BitVec.ofNat 16 chunk
    reserved0 := BitVec.ofNat 8 (peerSlot * setup.numDevices + dev) }

/-- What the proxy sends from for a `src_view`. -/
def viewSide (srcView : Nat) : Side := if srcView = 0 then .k else .v

theorem viewSide_view (side : Side) : viewSide side.view = side := by
  cases side <;> rfl

/-- A command, and the GPU that pushed it. -/
abbrev Cmd (setup : Setup) := Fin setup.numDevices × KvWrite

variable {setup : Setup} {α : Type*}

/-- The vectors of `K0` and `V0` that are sent. -/
def source (setup : Setup) (cmd : Cmd setup) (x : Cell setup) : Prop :=
  x.dev = cmd.1 ∧ x.side = viewSide cmd.2.srcView ∧ x.half = 0 ∧
    cmd.2.localOffset / vecBytes ≤ x.vec ∧
    x.vec < cmd.2.localOffset / vecBytes + cmd.2.bytes / vecBytes

instance (cmd : Cmd setup) (x : Cell setup) : Decidable (source setup cmd x) :=
  inferInstanceAs (Decidable (_ ∧ _))

/-- What the buffers hold at the beginning, and what the receive buffers of the GPUs hold
    once all peers' commands are carried out. -/
structure Contents (setup : Setup) (α : Type*) where
  /-- The keys and values of a GPU of a node. -/
  shard : Int → Fin setup.numDevices → Side → Nat → α
  /-- `recv_buf`, in vectors, with what is before it and behind. -/
  recvBuf : Fin setup.numDevices → Int → α
  /-- `K1` and `V1`. -/
  stale : Fin setup.numDevices → Side → Nat → α

/-- `dst_dev_idx`. -/
def dstDev (d : Fin setup.numDevices) : Fin setup.numDevices :=
  ⟨(d + 1) % setup.numDevices, Nat.mod_lt _ setup.numDevices_pos⟩

/-- `K_src_base` and `V_src_base`, in elements of 2 bytes from `recv_buf_base` on. The
    product is one of `int`s. -/
def srcBase (setup : Setup) (peerSlot : Nat) (side : Side) : Int :=
  (int32 (peerSlot * setup.singlePeerBytes)).tdiv 2 + (setup.sideOff side / 2 : Nat)

/-- Where `kv_copy` looks for a vector of a peer: a vector has 8 elements. -/
def recvVec (setup : Setup) (peerSlot : Nat) (side : Side) (vec : Nat) : Int :=
  srcBase setup peerSlot side / 8 + vec

/-- What a CTA writes to a vector for a piece of work, if it writes it. -/
def written (c : Contents setup α) (d : Fin setup.numDevices) (mem : Cell setup → α) (k : Kernel)
    (i : Item) (x : Cell setup) : Option α :=
  match k, i with
  | .stage stage, .move side taskId =>
      if x.dev = dstDev d ∧ x.side = side ∧ x.half = (stage + 1) % 2 ∧
          setup.InTask taskId x.vec then
        some (mem ⟨d, x.side, stage % 2, x.vec⟩)
      else none
  | .kvCopy peerSlot, .copy chunk =>
      if x.dev = d ∧ x.half = 0 ∧ setup.InChunk chunk x.side x.vec then
        some (c.recvBuf d (recvVec setup peerSlot x.side x.vec))
      else none
  | _, _ => none

/-! ## A node -/

/-- The GPUs of a node. For each GPU the kernels still to run, the first of which it is
    at, and what it has done of this. -/
structure World (setup : Setup) (α : Type*) where
  rest : Fin setup.numDevices → List Kernel
  done : Fin setup.numDevices → List Item
  mem : Cell setup → α
  out : Outbox (Cmd setup) (Cell setup) α

/-- The node at the launch. -/
def init (c : Contents setup α) : World setup α where
  rest := fun _ => setup.hostSchedule
  done := fun _ => []
  mem := fun x => if x.half = 0 then c.shard setup.nodeIdx x.dev x.side x.vec
    else c.stale x.dev x.side x.vec
  out := Outbox.empty

/-- What can happen next. -/
inductive Action (setup : Setup) where
  /-- A CTA writes a vector for a piece of work. -/
  | write (d : Fin setup.numDevices) (i : Item) (x : Cell setup)
  /-- And is done with it: it has pushed the command, or written what is left. -/
  | finish (d : Fin setup.numDevices) (i : Item)
  /-- The kernel ends, and the GPU goes on to the next. -/
  | next (d : Fin setup.numDevices)
  /-- The NIC reads a vector for a command. -/
  | nicRead (i : Nat) (x : Cell setup)
  /-- A command is complete. -/
  | complete (i : Nat)

/-- What memory holds after a CTA has written all vectors of a piece of work. -/
def finished (c : Contents setup α) (d : Fin setup.numDevices) (mem : Cell setup → α) (k : Kernel)
    (i : Item) : Cell setup → α :=
  fun x => (written c d mem k i x).getD (mem x)

/-- The commands after a piece of work. -/
def pushed (d : Fin setup.numDevices) (mem : Cell setup → α)
    (out : Outbox (Cmd setup) (Cell setup) α) : Item → Outbox (Cmd setup) (Cell setup) α
  | .push chunk peerSlot => out.push (d, kvWrite setup setup.nodeIdx d chunk peerSlot) mem
  | _ => out

/-- One step. -/
def step (c : Contents setup α) (w : World setup α) : Action setup → Option (World setup α)
  | .write d i x =>
      match w.rest d with
      | k :: _ =>
          if i ∈ setup.items k then
            (written c d w.mem k i x).map fun y => { w with mem := Function.update w.mem x y }
          else none
      | [] => none
  | .finish d i =>
      match w.rest d with
      | k :: _ =>
          if i ∈ setup.items k ∧ i ∉ w.done d then
            some { w with
              done := Function.update w.done d (w.done d ++ [i])
              mem := finished c d w.mem k i
              out := pushed d w.mem w.out i }
          else none
      | [] => none
  | .next d =>
      match w.rest d with
      | k :: rest =>
          if (∀ i ∈ setup.items k, i ∈ w.done d) ∧
              (k = .barrier → ∀ e, (w.rest e).length ≤ (w.rest d).length) then
            some { w with
              rest := Function.update w.rest d rest
              done := Function.update w.done d [] }
          else none
      | [] => none
  | .nicRead i x => (w.out.read (source setup) w.mem i x).map fun out => { w with out := out }
  | .complete i => (w.out.complete i).map fun out => { w with out := out }

end RingAttention

end MKernel
