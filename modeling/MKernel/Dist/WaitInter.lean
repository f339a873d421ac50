import Mathlib.Tactic.LinearCombination
import MKernel.Internode.Efa.Requests

/-!
# The Arrival Word of a Tile

Where the proxy of a peer announces a tile that was sent with `put_inter`, and where
`wait_inter` looks for it.

In the flat layout the proxy writes the arrival word with the number of the tile, and
words are 4 bytes each. `wait_inter` splits the tile over the channels, and the flags
of the channels lie one behind the other, with 128 bytes to a flag. Both begin at the
same address for tile 0. For any other tile it takes a coincidence (`agrees_iff_place`), and
for all tiles of a buffer there would have to be only one (`all_agree_iff`).

## Main definitions

* `Attachment`: The flags of a buffer, as `attach_channels_proxy` divides them.
* `waitInter`: The word that `wait_inter` polls.
* `putInter`: The command that `put_inter` pushes.
* `Agrees`: The word that is polled is the word that is written.

## Theorems

* `agrees_iff_place`: When the two are the same for a tile.
* `all_agree_iff`: When they are the same for all tiles.
* `notified_iff`: Both.
* `not_notified_second`: The second tile of a buffer.
-/

namespace MKernel

namespace Dist

namespace WaitInter

open MKernel.Internode MKernel.Internode.Efa

/-- `SendMode` -/
inductive SendMode where
  | dmabufDirect
  | staging
  | stridedGather
deriving DecidableEq

def SendMode.toByte : SendMode → BitVec 8
  | .dmabufDirect => 1
  | .staging => 0
  | .stridedGather => 2

/-- `sizeof(TileFlag)`: a word and its padding. -/
def tileFlagBytes : Nat := 128

/-- The channels of a buffer and their flags. The flags of all tiles are in memory. -/
structure Attachment where
  /-- `NUM_CHANNELS` -/
  numChannels : Nat
  tilesPerChannel : Nat
  arrivedFlags : BitVec 64
  mode : SendMode
  fits : numChannels * tilesPerChannel * tileFlagBytes < 2 ^ 64

namespace Attachment

variable (a : Attachment)

/-- The tiles there are flags for. -/
def tiles : Nat := a.numChannels * a.tilesPerChannel

/-- `channels[c].arrived` -/
def arrived (c : Nat) : BitVec 64 :=
  a.arrivedFlags + BitVec.ofNat 64 (c * a.tilesPerChannel * tileFlagBytes)

/-- `c` and `t` of `wait_inter`. -/
def channel (tileId : Nat) : Nat := if 0 < a.numChannels then tileId % a.numChannels else 0

def tileOfChannel (tileId : Nat) : Nat :=
  if 0 < a.numChannels then tileId / a.numChannels else tileId

/-- The word that `wait_inter` polls. -/
def waitInter (tileId : Nat) : BitVec 64 :=
  a.arrived (a.channel tileId) + BitVec.ofNat 64 (a.tileOfChannel tileId * tileFlagBytes)

/-- `put_inter` -/
def putInter (dstNode : Int) (localOff remoteOff : BitVec 64) (bytes imm laneId : BitVec 32) :
    TransferCmd :=
  { TransferCmd.zero with
    cmdType := .write
    dstRank := BitVec.ofInt 8 dstNode
    tileId := imm
    bytes := bytes
    localOffset := localOff
    remoteOffset := remoteOff
    laneId := laneId.setWidth 16
    srcView := a.mode.toByte }

end Attachment

/-- The arrival words that the requests of a command write in the flat layout. -/
def written (setup : Setup) (peer : PerPeerProxyData) (dstQpn : BitVec 32) (p : Polled) :
    List (BitVec 64) :=
  ((flatRequests setup peer dstQpn p).filter fun wr => wr.role = .flag p).map (·.remoteAddr)

/-- Whatever else is sent with a tile, the one arrival word that the proxy of a peer writes
    for it is the word that is polled. -/
def Agrees (a : Attachment) (setup : Setup) (peer : PerPeerProxyData) (tileId : Nat) : Prop :=
  ∀ dstQpn dstNode localOff remoteOff bytes laneId p,
    p.cmd = a.putInter dstNode localOff remoteOff bytes (BitVec.ofNat 32 tileId) laneId →
      written setup peer dstQpn p = [a.waitInter tileId]

/-! ## The words -/

variable {a : Attachment} {setup : Setup} {peer : PerPeerProxyData} {tileId : Nat}

/-- One word is written for a command, with the number of its tile. -/
theorem written_eq (dstQpn : BitVec 32) (p : Polled) :
    written setup peer dstQpn p = [peer.remoteFlagsAddr + 4 * p.cmd.tileId.setWidth 64] := by
  simp [written, flatRequests, dataRequest, stagedRequest]

/-- The flags of a channel lie behind those of the channels before it. -/
theorem waitInter_eq (a : Attachment) (tileId : Nat) :
    a.waitInter tileId = a.arrivedFlags + BitVec.ofNat 64
      ((a.channel tileId * a.tilesPerChannel + a.tileOfChannel tileId) * tileFlagBytes) := by
  rw [Attachment.waitInter, Attachment.arrived, BitVec.add_assoc, ← BitVec.ofNat_add, Nat.add_mul]

/-- Every tile has its own flag. -/
theorem flag_lt (h : tileId < a.tiles) :
    a.channel tileId * a.tilesPerChannel + a.tileOfChannel tileId < a.tiles := by
  unfold Attachment.tiles at h ⊢
  have hpos : 0 < a.numChannels := by
    rcases Nat.eq_zero_or_pos a.numChannels with hzero | hpos
    · rw [hzero, Nat.zero_mul] at h
      exact absurd h (Nat.not_lt_zero _)
    · exact hpos
  rw [Attachment.channel, Attachment.tileOfChannel, if_pos hpos, if_pos hpos]
  have hmod : tileId % a.numChannels + 1 ≤ a.numChannels := Nat.mod_lt _ hpos
  have hdiv : tileId / a.numChannels < a.tilesPerChannel := Nat.div_lt_of_lt_mul h
  calc tileId % a.numChannels * a.tilesPerChannel + tileId / a.numChannels
      < tileId % a.numChannels * a.tilesPerChannel + a.tilesPerChannel :=
        Nat.add_lt_add_left hdiv _
    _ = (tileId % a.numChannels + 1) * a.tilesPerChannel := by rw [Nat.add_mul, Nat.one_mul]
    _ ≤ a.numChannels * a.tilesPerChannel := Nat.mul_le_mul_right _ hmod

/-! ## When they agree -/

/-- The 4 bytes of a word and the 128 of a flag have to come to the same. -/
theorem agrees_iff_mul (hbase : peer.remoteFlagsAddr = a.arrivedFlags) (htile : tileId < a.tiles)
    (hint : tileId < 2 ^ 31) : Agrees a setup peer tileId ↔
      tileId = (a.channel tileId * a.tilesPerChannel + a.tileOfChannel tileId) * 32 := by
  have hflag := flag_lt htile
  have hfits := a.fits
  rw [← Attachment.tiles, tileFlagBytes] at hfits
  have hword (p : Polled) (himm : p.cmd.tileId = BitVec.ofNat 32 tileId) (dstQpn : BitVec 32) :
      written setup peer dstQpn p = [a.waitInter tileId] ↔
        tileId = (a.channel tileId * a.tilesPerChannel + a.tileOfChannel tileId) * 32 := by
    rw [written_eq, waitInter_eq, hbase, himm, List.singleton_inj, BitVec.add_right_inj,
      BitVec.toNat_inj.symm, tileFlagBytes]
    have hfour : (4 : BitVec 64).toNat = 4 := rfl
    simp only [BitVec.toNat_mul, BitVec.toNat_setWidth, BitVec.toNat_ofNat, hfour]
    omega
  constructor
  · intro h
    exact (hword ⟨0, 0, a.putInter 0 0 0 0 (BitVec.ofNat 32 tileId) 0⟩ rfl 0).mp
      (h 0 0 0 0 0 0 _ rfl)
  · intro heq dstQpn dstNode localOff remoteOff bytes laneId p hp
    exact (hword p (by rw [hp]; rfl) dstQpn).mpr heq

/-- A tile agrees when its part among the tiles of a channel makes up for its channel. Tile 0
    always does. -/
theorem agrees_iff_place (hbase : peer.remoteFlagsAddr = a.arrivedFlags) (htile : tileId < a.tiles)
    (hint : tileId < 2 ^ 31) : Agrees a setup peer tileId ↔
      (tileId / a.numChannels * ((a.numChannels : Int) - 32) : Int) =
        tileId % a.numChannels * (32 * (a.tilesPerChannel : Int) - 1) := by
  have hpos : 0 < a.numChannels := by
    rcases Nat.eq_zero_or_pos a.numChannels with hzero | hpos
    · rw [Attachment.tiles, hzero, Nat.zero_mul] at htile
      exact absurd htile (Nat.not_lt_zero _)
    · exact hpos
  rw [agrees_iff_mul hbase htile hint, Attachment.channel, Attachment.tileOfChannel, if_pos hpos,
    if_pos hpos]
  have hsplit : (a.numChannels : Int) * (tileId / a.numChannels) + tileId % a.numChannels =
      tileId :=
    Int.mul_ediv_add_emod _ _
  rw [← Int.natCast_inj]
  push_cast
  constructor
  · intro heq
    linear_combination heq + hsplit
  · intro heq
    linear_combination heq - hsplit

/-- The second tile of a buffer never agrees. -/
theorem all_agree_iff (hbase : peer.remoteFlagsAddr = a.arrivedFlags) :
    (∀ tileId < a.tiles, tileId < 2 ^ 31 → Agrees a setup peer tileId) ↔ a.tiles ≤ 1 := by
  constructor
  · intro h
    by_contra hmore
    have hone := (agrees_iff_mul hbase (by omega) (by decide)).mp (h 1 (by omega) (by decide))
    omega
  · intro hle tileId htile hint
    refine (agrees_iff_mul hbase htile hint).mpr ?_
    have hflag := flag_lt htile
    omega

/-- For the tile ids of a buffer, which word is polled and which is written: when they are the
    same for one tile, and when for all. -/
theorem notified_iff (a : Attachment) (setup : Setup) (peer : PerPeerProxyData)
    (hbase : peer.remoteFlagsAddr = a.arrivedFlags) :
    (∀ tileId < a.tiles, tileId < 2 ^ 31 → (Agrees a setup peer tileId ↔
      (tileId / a.numChannels * ((a.numChannels : Int) - 32) : Int) =
        tileId % a.numChannels * (32 * (a.tilesPerChannel : Int) - 1))) ∧
      ((∀ tileId < a.tiles, tileId < 2 ^ 31 → Agrees a setup peer tileId) ↔ a.tiles ≤ 1) :=
  ⟨fun _ htile hint => agrees_iff_place hbase htile hint, all_agree_iff hbase⟩

/-- A proxy in the flat layout, with one QP and one peer. -/
def flatSetup : Setup := Setup.ofMode
  { fifo := 0
    fifos := none
    numFifos := 1
    numQps := 1
    globalNumQps := 1
    logicalQueuesPerQp := 1
    localDataAddr := 0x400000
    localDataLkey := 4
    clocalDataAddr := 0x600000
    clocalDataLkey := 6
    directDmabufEnabled := true
    localArrivalCount := 32
    flagStaging := ⟨64, 0x500000, 5⟩
    useArrivalQueue := false
    remoteQueueStride := 0
    enableRemoteTail := false
    epoch := 1
    maxInflight := 0
    sqDepth := 0
    pipelineEnabled := false
    numPeers := 1
    perPeer := fun _ => ⟨1, fun _ => 0x40, 0x100000, 1, 0x200000, 2, 0, 0, 0x300000, 3⟩
    peerSlotByRank := none } .remoteFlag

/-- Eight channels of four tiles each, over the flags the peer writes to. -/
def eight : Attachment := ⟨8, 4, 0x200000, .dmabufDirect, by decide⟩

/-- Tile 1 is written 4 bytes after the first word, and awaited 512 bytes after it. -/
theorem not_notified_second : ¬ Agrees eight flatSetup (flatSetup.cfg.perPeer 0) 1 ∧
    written flatSetup (flatSetup.cfg.perPeer 0) 0 ⟨0, 0, eight.putInter 1 0 0 4096 1 0⟩ =
      [0x200004] ∧
    eight.waitInter 1 = 0x200200 := by
  refine ⟨fun h => ?_, by decide, by decide⟩
  have heq := h 0 1 0 0 4096 0 ⟨0, 0, eight.putInter 1 0 0 4096 1 0⟩ rfl
  revert heq
  decide

/-- Of these tiles only tile 0 is announced where it is awaited. -/
theorem notified_iff_eight : Agrees eight flatSetup (flatSetup.cfg.perPeer 0) 0 ∧
    ¬ ∀ tileId < eight.tiles, tileId < 2 ^ 31 →
      Agrees eight flatSetup (flatSetup.cfg.perPeer 0) tileId := by
  have hiff := notified_iff eight flatSetup (flatSetup.cfg.perPeer 0) rfl
  refine ⟨(hiff.1 0 (by decide) (by decide)).mpr (by decide), fun h => ?_⟩
  exact absurd (hiff.2.mp h) (by decide)

end WaitInter

end Dist

end MKernel
