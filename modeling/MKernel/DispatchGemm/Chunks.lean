import Mathlib.Order.CompletePartialOrder
import MKernel.Core.Spread
import MKernel.Internode.Peers

/-!
# Chunks and Tokens

Where the tokens of other nodes are put in `dispatch_gemm`, and which flags say so.

Every GPU sends all its tokens to the GPU of the same index on every other node. They
go in chunks of one size, the last of which may be shorter, and without regard to where
a token ends. The receiver keeps the tokens of each sender one after the other, in a slot
of its own. It has a flag for each chunk of each slot.

Which slot it is, is computed in three places: by the sender from the peer slot it sends
to, by the copy CTAs, who go through all slots, and by the dispatcher from the rank of the
sender. These are the same, and no two senders have one slot (`slotAtPeer_sender`,
`senderSlot_inj`). A token is a row of its slot. It takes as many chunks as it has bytes
in, and the dispatcher waits for the flags of just these (`byte_awaited`).

## Main definitions

* `Setup`: The launch.
* `sendCmd`: The command for a chunk and a peer.
* `senderSlot`, `readyIdx`: The slot of a sender, and the flag of a chunk.
* `Source`: Where a token is pulled from.
* `awaitedIdxs`, `peerTokenIdx`: What the dispatcher waits for, and what it loads.

## Theorems

* `tileId_sendCmd`, `remoteOffset_sendCmd`, `bytes_sendCmd`: What a command says.
* `senders_apart`: What different senders send is kept apart.
* `byte_awaited`: Every byte of a token is in a chunk that is waited for.
-/

namespace MKernel

namespace DispatchGemm

open MKernel.Core
open MKernel.Internode (TransferCmd peerRankForSlot slotAtPeer)

/-- `CHUNK_BYTES`. -/
def chunkBytes : Nat := 512 * 1024

/-- `NUM_MAIN_THREADS / 32`: the warps of a CTA. -/
def warpsPerCta : Nat := 384 / 32

/-- A launch, in which no offset or flag index is out of the range of an `int`. The host has
    made the numbers of CTAs positive. -/
structure Setup where
  numNodes : Nat
  numDevices : Nat
  /-- `H`: the elements of a token. -/
  hidden : Nat
  numLocalTokens : Nat
  numSendSms : Nat
  numCopySms : Nat
  epoch : BitVec 32
  numNodes_ge : 2 ≤ numNodes
  hidden_pos : 0 < hidden
  numSendSms_pos : 0 < numSendSms
  numCopySms_pos : 0 < numCopySms
  bytes_fit : numLocalTokens * hidden * 2 + chunkBytes ≤ 2 ^ 31
  idxs_fit : (numNodes - 1) * rounds (numLocalTokens * hidden * 2) chunkBytes ≤ 2 ^ 31

/-- Where a token is pulled from: a row of `pull_dispatch_indices` that is no padding. -/
structure Source (setup : Setup) where
  srcNode : Nat
  srcDev : Nat
  srcToken : Nat
  srcNode_lt : srcNode < setup.numNodes
  srcDev_lt : srcDev < setup.numDevices
  srcToken_lt : srcToken < setup.numLocalTokens

namespace Setup

variable (setup : Setup)

/-- `n_peers`. -/
def numPeers : Nat := setup.numNodes - 1

/-- `pre_tokens_bytes`, and `single_peer_bytes`. -/
def preTokensBytes : Nat := setup.numLocalTokens * setup.hidden * 2

/-- `total_chunks`, `single_peer_tiles` and `single_peer_chunks`. -/
def totalChunks : Nat := rounds setup.preTokensBytes chunkBytes

/-- `total_pushers`. -/
def totalPushers : Nat := setup.numSendSms * warpsPerCta

/-- The bytes of a token. -/
def tokenBytes : Nat := setup.hidden * 2

/-- The bytes of a chunk. -/
def chunkLen (chunk : Nat) : Nat := min chunkBytes (setup.preTokensBytes - chunk * chunkBytes)

/-- The rank of the node in a peer slot. -/
def peerRank (node peerSlot : Nat) : Nat := (peerRankForSlot node setup.numNodes peerSlot).toNat

/-- The command of `fused_inter_send_sm` for a chunk and a peer slot. -/
def sendCmd (node dev chunk peerSlot : Nat) : TransferCmd :=
  let off : BitVec 32 := BitVec.ofNat 32 (chunk * chunkBytes)
  let peerRank := peerRankForSlot node setup.numNodes peerSlot
  let sap := slotAtPeer node peerRank setup.numNodes
  { TransferCmd.zero with
    cmdType := .write
    dstRank := BitVec.ofInt 8 peerRank
    tileId := BitVec.ofInt 32 (sap * setup.totalChunks + chunk)
    bytes := BitVec.ofInt 32 (min chunkBytes (setup.preTokensBytes - off.toInt))
    localOffset := off.setWidth 64
    remoteOffset := BitVec.ofInt 64 sap * BitVec.ofNat 64 setup.preTokensBytes + off.setWidth 64
    laneId := BitVec.ofNat 16 chunk
    reserved0 := BitVec.ofNat 8 (peerSlot * setup.numDevices + dev) }

/-- What a pusher sends, in order: the chunks and the peer slots. -/
def pushes (pusher : Nat) : List (Nat × Nat) :=
  (walk pusher setup.totalPushers setup.totalChunks).flatMap fun chunk =>
    (List.range setup.numPeers).map fun peerSlot => (chunk, peerSlot)

/-- `flag_idx` of `fused_inter_copy_sm`. -/
def readyIdx (slot chunk : Nat) : Nat := slot * setup.totalChunks + chunk

/-- What a copy CTA waits for, in order: the chunks and the slots. -/
def copies (copyId : Nat) : List (Nat × Nat) :=
  (walk copyId setup.numCopySms setup.totalChunks).flatMap fun chunk =>
    (List.range setup.numPeers).map fun slot => (chunk, slot)

/-- `sender_slot` of `dispatch_fused`. -/
def senderSlot (srcNode node : Nat) : Nat := (slotAtPeer srcNode node setup.numNodes).toNat

/-- `byte_off`. -/
def byteOff (srcToken : Nat) : Nat := srcToken * setup.hidden * 2

/-- `byte_end`, which is still a byte of the token. -/
def byteEnd (srcToken : Nat) : Nat := setup.byteOff srcToken + setup.hidden * 2 - 1

/-- The chunks that are waited for, from `first_chunk` to `last_chunk`. -/
def awaitedChunks (srcToken : Nat) : List Nat :=
  let firstChunk := setup.byteOff srcToken / chunkBytes
  let lastChunk := setup.byteEnd srcToken / chunkBytes
  List.range' firstChunk (lastChunk + 1 - firstChunk)

/-- The flags that are waited for on a node, in order. The node's own tokens are not waited
    for. -/
def awaitedIdxs (node : Nat) (s : Source setup) : List Nat :=
  if s.srcNode = node then []
  else
    (setup.awaitedChunks s.srcToken).map fun c =>
      setup.senderSlot s.srcNode node * setup.totalChunks + c

/-- `peer_token_idx`. -/
def peerTokenIdx (node : Nat) (s : Source setup) : Nat :=
  setup.senderSlot s.srcNode node * setup.numLocalTokens + s.srcToken

theorem numPeers_pos : 0 < setup.numPeers := Nat.sub_pos_of_lt setup.numNodes_ge

theorem totalPushers_pos : 0 < setup.totalPushers :=
  Nat.mul_pos setup.numSendSms_pos (by decide)

end Setup

/-! ## Slots -/

section Slots

variable {setup : Setup} {a b r p : Nat}

/-- On another node, a sender has one of as many slots as there are peers. -/
theorem senderSlot_lt (ha : a < setup.numNodes) (hr : r < setup.numNodes) (hne : a ≠ r) :
    slotAtPeer a r setup.numNodes = setup.senderSlot a r ∧
      setup.senderSlot a r < setup.numPeers := by
  simp only [Setup.senderSlot, Setup.numPeers, slotAtPeer]
  split <;> omega

/-- The node in a slot is the sender whose slot it is. -/
theorem peerRank_senderSlot (ha : a < setup.numNodes) (hr : r < setup.numNodes) :
    setup.peerRank r (setup.senderSlot a r) = a := by
  simp only [Setup.peerRank, Setup.senderSlot, peerRankForSlot, slotAtPeer]
  split <;> split <;> omega

/-- No two senders have one slot. -/
theorem senderSlot_inj (ha : a < setup.numNodes) (hb : b < setup.numNodes)
    (hr : r < setup.numNodes) (h : setup.senderSlot a r = setup.senderSlot b r) : a = b := by
  rw [← peerRank_senderSlot ha hr, h, peerRank_senderSlot hb hr]

theorem peerRank_lt (ha : a < setup.numNodes) (hp : p < setup.numPeers) :
    peerRankForSlot a setup.numNodes p = setup.peerRank a p ∧
      setup.peerRank a p < setup.numNodes ∧ a ≠ setup.peerRank a p := by
  have hmem := Internode.peerRankForSlot_mem ha hp
  have hne := Internode.peerRankForSlot_ne a hp
  unfold Setup.peerRank
  omega

/-- The slot a sender computes is the one it has at the receiver. -/
theorem slotAtPeer_sender (ha : a < setup.numNodes) (hp : p < setup.numPeers) :
    slotAtPeer a (peerRankForSlot a setup.numNodes p) setup.numNodes =
      setup.senderSlot a (setup.peerRank a p) := by
  rcases peerRank_lt ha hp with ⟨hrank, hlt, hne⟩
  rw [hrank, (senderSlot_lt ha hlt hne).1]

end Slots

/-! ## Commands -/

section Commands

variable {setup : Setup} {node dev chunk p : Nat}

/-- The last chunk begins within the tokens. -/
theorem chunk_start_lt (hchunk : chunk < setup.totalChunks) :
    chunk * chunkBytes < setup.preTokensBytes := by
  by_contra hge
  have hle := (rounds_le_iff (by decide : 0 < chunkBytes)).mpr (Nat.le_of_not_lt hge)
  exact absurd hchunk (Nat.not_lt.mpr hle)

theorem chunk_end_le (hchunk : chunk < setup.totalChunks) {x : Nat}
    (hx : x < setup.chunkLen chunk) :
    chunk * chunkBytes + x < setup.preTokensBytes := by
  have hstart := chunk_start_lt hchunk
  unfold Setup.chunkLen at hx
  omega

theorem preTokensBytes_lt (setup : Setup) : setup.preTokensBytes + chunkBytes ≤ 2 ^ 31 :=
  setup.bytes_fit

theorem off_toNat (hchunk : chunk < setup.totalChunks) :
    (BitVec.ofNat 32 (chunk * chunkBytes)).toNat = chunk * chunkBytes := by
  have hstart := chunk_start_lt hchunk
  have hfit := preTokensBytes_lt setup
  rw [BitVec.toNat_ofNat, Nat.mod_eq_of_lt (by omega)]

/-- A chunk and a slot that are there have a flag whose index fits. -/
theorem readyIdx_lt (hp : p < setup.numPeers) (hchunk : chunk < setup.totalChunks) :
    setup.readyIdx p chunk < 2 ^ 31 :=
  Nat.lt_of_lt_of_le (place_lt hp hchunk) setup.idxs_fit

theorem localOffset_sendCmd (hchunk : chunk < setup.totalChunks) :
    (setup.sendCmd node dev chunk p).localOffset.toNat = chunk * chunkBytes := by
  change ((BitVec.ofNat 32 (chunk * chunkBytes)).setWidth 64).toNat = _
  rw [BitVec.toNat_setWidth_of_le (by decide), off_toNat hchunk]

theorem bytes_sendCmd (hchunk : chunk < setup.totalChunks) :
    (setup.sendCmd node dev chunk p).bytes.toNat = setup.chunkLen chunk := by
  have hstart := chunk_start_lt hchunk
  have hfit := preTokensBytes_lt setup
  have hoff : (BitVec.ofNat 32 (chunk * chunkBytes)).toInt = (chunk * chunkBytes : Nat) := by
    rw [BitVec.toInt_eq_toNat_of_lt (by rw [off_toNat hchunk]; omega), off_toNat hchunk]
  have hmin : min (chunkBytes : Int) (setup.preTokensBytes - (chunk * chunkBytes : Nat)) =
      (setup.chunkLen chunk : Nat) := by
    unfold Setup.chunkLen
    omega
  change (BitVec.ofInt 32 (min (chunkBytes : Int)
    (setup.preTokensBytes - (BitVec.ofNat 32 (chunk * chunkBytes)).toInt))).toNat = _
  rw [hoff, hmin, BitVec.ofInt_natCast, BitVec.toNat_ofNat, Nat.mod_eq_of_lt]
  unfold Setup.chunkLen
  omega

/-- The tile of a command is the flag of its chunk at the receiver. -/
theorem tileId_sendCmd (hnode : node < setup.numNodes) (hp : p < setup.numPeers)
    (hchunk : chunk < setup.totalChunks) :
    (setup.sendCmd node dev chunk p).tileId.toNat =
      setup.readyIdx (setup.senderSlot node (setup.peerRank node p)) chunk := by
  rcases peerRank_lt hnode hp with ⟨-, hlt, hne⟩
  have hidx := readyIdx_lt (senderSlot_lt hnode hlt hne).2 hchunk
  change (BitVec.ofInt 32 (slotAtPeer node (peerRankForSlot node setup.numNodes p) setup.numNodes *
    setup.totalChunks + chunk)).toNat = _
  rw [slotAtPeer_sender hnode hp]
  have hcast : ((setup.senderSlot node (setup.peerRank node p) : Nat) : Int) * setup.totalChunks +
      chunk = (setup.readyIdx (setup.senderSlot node (setup.peerRank node p)) chunk : Nat) := by
    rw [Setup.readyIdx]
    push_cast
    rfl
  rw [hcast, BitVec.ofInt_natCast, BitVec.toNat_ofNat, Nat.mod_eq_of_lt (by omega)]

/-- There are fewer peers than an `int` can count. -/
theorem numPeers_lt (hchunk : chunk < setup.totalChunks) : setup.numPeers ≤ 2 ^ 31 :=
  calc setup.numPeers
      ≤ setup.numPeers * setup.totalChunks := Nat.le_mul_of_pos_right _ (by omega)
    _ ≤ 2 ^ 31 := setup.idxs_fit

/-- A chunk is put into the sender's slot, where it was in the sender's tokens. -/
theorem remoteOffset_sendCmd (hnode : node < setup.numNodes) (hp : p < setup.numPeers)
    (hchunk : chunk < setup.totalChunks) :
    (setup.sendCmd node dev chunk p).remoteOffset.toNat =
      setup.senderSlot node (setup.peerRank node p) * setup.preTokensBytes +
        chunk * chunkBytes := by
  rcases peerRank_lt hnode hp with ⟨-, hlt, hne⟩
  have hslot := (senderSlot_lt hnode hlt hne).2
  have hstart := chunk_start_lt hchunk
  have hfit := preTokensBytes_lt setup
  have hpeers := numPeers_lt hchunk
  change (BitVec.ofInt 64 (slotAtPeer node (peerRankForSlot node setup.numNodes p)
    setup.numNodes) * BitVec.ofNat 64 setup.preTokensBytes +
      (BitVec.ofNat 32 (chunk * chunkBytes)).setWidth 64).toNat = _
  -- Neither the product nor the sum wraps.
  have hmul : setup.senderSlot node (setup.peerRank node p) * setup.preTokensBytes +
      chunk * chunkBytes < 2 ^ 64 :=
    calc setup.senderSlot node (setup.peerRank node p) * setup.preTokensBytes + chunk * chunkBytes
        < setup.numPeers * setup.preTokensBytes := place_lt hslot hstart
      _ ≤ 2 ^ 31 * 2 ^ 31 := Nat.mul_le_mul hpeers (by omega)
      _ ≤ 2 ^ 64 := by decide
  rw [slotAtPeer_sender hnode hp, BitVec.ofInt_natCast, BitVec.toNat_add, BitVec.toNat_mul,
    BitVec.toNat_setWidth_of_le (by decide), off_toNat hchunk, BitVec.toNat_ofNat,
    BitVec.toNat_ofNat, ← Nat.mul_mod, Nat.mod_add_mod, Nat.mod_eq_of_lt hmul]

/-- All bytes of a command are in the slot of the sender. -/
theorem slot_of_sent (hnode : node < setup.numNodes) (hp : p < setup.numPeers)
    (hchunk : chunk < setup.totalChunks) {addr : Nat}
    (haddr : addr ∈ Set.Ico (setup.sendCmd node dev chunk p).remoteOffset.toNat
      ((setup.sendCmd node dev chunk p).remoteOffset.toNat +
        (setup.sendCmd node dev chunk p).bytes.toNat)) :
    addr / setup.preTokensBytes = setup.senderSlot node (setup.peerRank node p) := by
  rw [remoteOffset_sendCmd hnode hp hchunk, bytes_sendCmd hchunk, Set.mem_Ico,
    Nat.add_assoc] at haddr
  rcases Nat.exists_eq_add_of_le haddr.1 with ⟨k, rfl⟩
  have hin := chunk_end_le hchunk (by omega : k < setup.chunkLen chunk)
  rw [Nat.add_assoc, place_div hin]

end Commands

/-- Two different nodes that send to one node use different tiles there, and bytes that do
    not overlap, whatever chunks they send. -/
theorem senders_apart {setup : Setup} {a b pa pb ca cb : Nat} (ha : a < setup.numNodes)
    (hb : b < setup.numNodes) (hne : a ≠ b) (hpa : pa < setup.numPeers) (hpb : pb < setup.numPeers)
    (hto : setup.peerRank a pa = setup.peerRank b pb) (hca : ca < setup.totalChunks)
    (hcb : cb < setup.totalChunks) (dev dev' : Nat) :
    let x := setup.sendCmd a dev ca pa
    let y := setup.sendCmd b dev' cb pb
    x.tileId ≠ y.tileId ∧
      Disjoint (Set.Ico x.remoteOffset.toNat (x.remoteOffset.toNat + x.bytes.toNat))
        (Set.Ico y.remoteOffset.toNat (y.remoteOffset.toNat + y.bytes.toNat)) := by
  intro x y
  have hr := (peerRank_lt ha hpa).2.1
  have hslots : setup.senderSlot a (setup.peerRank a pa) ≠
      setup.senderSlot b (setup.peerRank b pb) := by
    rw [← hto]
    exact fun h => hne (senderSlot_inj ha hb hr h)
  refine ⟨?_, ?_⟩
  · intro h
    have hidx := congrArg BitVec.toNat h
    rw [tileId_sendCmd ha hpa hca, tileId_sendCmd hb hpb hcb] at hidx
    exact hslots (place_inj hca hcb hidx).1
  · rw [Set.disjoint_left]
    -- A byte of both would be in both slots.
    intro off hx hy
    exact hslots ((slot_of_sent ha hpa hca hx).symm.trans (slot_of_sent hb hpb hcb hy))

/-! ## Tokens -/

section Tokens

variable {setup : Setup} {tok : Nat}

/-- A token is within the tokens of its sender. -/
theorem token_byte_lt (htok : tok < setup.numLocalTokens) {k : Nat} (hk : k < setup.tokenBytes) :
    tok * setup.tokenBytes + k < setup.preTokensBytes := by
  have hall : setup.preTokensBytes = setup.numLocalTokens * setup.tokenBytes := by
    rw [Setup.preTokensBytes, Setup.tokenBytes, Nat.mul_assoc]
  rw [hall]
  exact place_lt htok hk

/-- Every byte of the tokens is in a chunk. -/
theorem chunk_of_byte {off : Nat} (hoff : off < setup.preTokensBytes) :
    off / chunkBytes < setup.totalChunks ∧
      off % chunkBytes < setup.chunkLen (off / chunkBytes) := by
  have hpos : 0 < chunkBytes := by decide
  have hdm := Nat.div_add_mod' off chunkBytes
  have hmod := Nat.mod_lt off hpos
  refine ⟨?_, ?_⟩
  · rw [Nat.div_lt_iff_lt_mul hpos]
    exact Nat.lt_of_lt_of_le hoff (le_rounds_mul hpos)
  · unfold Setup.chunkLen
    omega

/-- Every byte of a token is in a chunk that is waited for. -/
theorem byte_awaited {k : Nat} (hk : k < setup.tokenBytes) :
    (tok * setup.tokenBytes + k) / chunkBytes ∈ setup.awaitedChunks tok := by
  have hoff : setup.byteOff tok = tok * setup.tokenBytes := by
    rw [Setup.byteOff, Setup.tokenBytes, Nat.mul_assoc]
  have hend : setup.byteEnd tok = tok * setup.tokenBytes + (setup.tokenBytes - 1) := by
    have hpos := setup.hidden_pos
    rw [Setup.byteEnd, hoff, Setup.tokenBytes]
    omega
  have hfirst : setup.byteOff tok / chunkBytes ≤ (tok * setup.tokenBytes + k) / chunkBytes :=
    Nat.div_le_div_right (by omega)
  have hlast : (tok * setup.tokenBytes + k) / chunkBytes ≤ setup.byteEnd tok / chunkBytes :=
    Nat.div_le_div_right (by omega)
  rw [Setup.awaitedChunks, List.mem_range'_1]
  omega

/-- The row of a token in the slot of its sender. -/
theorem peerTokenIdx_mul (node : Nat) (s : Source setup) :
    setup.peerTokenIdx node s * setup.tokenBytes =
      setup.senderSlot s.srcNode node * setup.preTokensBytes + s.srcToken * setup.tokenBytes := by
  rw [Setup.peerTokenIdx, Setup.preTokensBytes, Setup.tokenBytes]
  ring

end Tokens

end DispatchGemm

end MKernel
