import Mathlib.Data.Fin.VecNotation
import Mathlib.Tactic.FinCases

/-!
# Inter-node Commands

The command a device thread hands to the host proxy, and its layout in
memory.

A `TransferCmd` is 48 bytes, six 8-byte words, and no multi-byte field
crosses a word boundary. The layout matters because the FIFO moves words: the
five payload words are stored first, word 0 last, and the host takes the
record as complete once the lowest byte of word 0, the command type, is not
`EMPTY`. `words` and `ofWords` are the two directions of that layout on a
little-endian machine, and `ofWords_words` says nothing is lost on the way.

The arrival metadata helpers are here too: an arrival word packs the first
tile and the number of tiles of one transfer, and zero is left free as the
sentinel for "not ready".

## Main definitions

* `CmdType`: The kinds of command a slot can hold.
* `TransferCmd`: One command of the device-to-host FIFO.
* `Slot`: The 48 bytes of one FIFO slot, as six words.
* `words`, `ofWords`: A command laid out in a slot, and read back.
* `packArrivalWork`: The arrival word of one transfer.
* `ForwardNotify`, `FlagStaging`: Records the proxies share.
* `peerRankForSlot`, `slotAtPeer`: Peer slots in ring order.

## Theorems

* `ofWords_words`: Reading a laid-out command gives the command back.
* `words_injective`: Two commands with the same bytes are the same command.
* `cmdTypeByte_words`: The lowest byte of word 0 is the command type.
-/

namespace MKernel

namespace Internode

/-- `enum class CmdType : uint8_t`. -/
inductive CmdType where
  | empty
  | write
  | fence
  | barrierNotify
  deriving DecidableEq, Repr

/-- The byte an enumerator is stored as. -/
def CmdType.toByte : CmdType → BitVec 8
  | .empty => 0
  | .write => 1
  | .fence => 2
  | .barrierNotify => 3

/-- The enumerator a byte stands for, if any. -/
def CmdType.ofByte (b : BitVec 8) : Option CmdType :=
  if b = 0 then some .empty
  else if b = 1 then some .write
  else if b = 2 then some .fence
  else if b = 3 then some .barrierNotify
  else none

@[simp] theorem CmdType.ofByte_toByte (t : CmdType) : CmdType.ofByte t.toByte = some t := by
  cases t <;> rfl

theorem CmdType.toByte_eq_zero_iff (t : CmdType) : t.toByte = 0 ↔ t = .empty := by
  cases t <;> decide

/-- One command of the device-to-host FIFO, field by field. -/
structure TransferCmd where
  cmdType : CmdType
  dstRank : BitVec 8
  laneId : BitVec 16
  tileId : BitVec 32
  remoteOffset : BitVec 64
  localOffset : BitVec 64
  bytes : BitVec 32
  srcView : BitVec 8
  reserved0 : BitVec 8
  rowSpan : BitVec 16
  rowCount : BitVec 16
  pad : BitVec 48
  enqueueDeviceNs : BitVec 64
  deriving DecidableEq, Repr

/-- A value-initialised command, `TransferCmd cmd{}`. -/
def TransferCmd.zero : TransferCmd where
  cmdType := .empty
  dstRank := 0
  laneId := 0
  tileId := 0
  remoteOffset := 0
  localOffset := 0
  bytes := 0
  srcView := 0
  reserved0 := 0
  rowSpan := 0
  rowCount := 0
  pad := 0
  enqueueDeviceNs := 0

/-- `sizeof(TransferCmd) / sizeof(uint64_t)`. -/
def kCmdWords : Nat := 6

/-- The 48 bytes of one FIFO slot, as six 8-byte words. -/
abbrev Slot := Fin 6 → BitVec 64

/-- The byte the host polls: the lowest byte of word 0. -/
def cmdTypeByte (w : Slot) : BitVec 8 := (w 0).extractLsb' 0 8

/-- A field placed in a word, `lo` bits up. -/
def atBit {n : Nat} (lo : Nat) (x : BitVec n) : BitVec 64 := x.setWidth 64 <<< lo

theorem getElem_atBit_self {n : Nat} (lo i : Nat) (x : BitVec n) (hi : i < n)
    (h : lo + i < 64) : (atBit lo x)[lo + i] = x[i] := by
  simp [atBit, hi]

theorem getElem_atBit_zero {n : Nat} (i : Nat) (x : BitVec n) (hi : i < n) (h : i < 64) :
    (atBit 0 x)[i] = x[i] := by
  have hself := getElem_atBit_self 0 i x hi (by omega)
  simpa only [Nat.zero_add] using hself

/-- A field has no bits beyond its end. -/
theorem getElem_atBit_ge {n : Nat} (lo j : Nat) (x : BitVec n) (hj : j < 64)
    (h : lo + n ≤ j) : (atBit lo x)[j] = false := by
  have hx : x.getLsbD (j - lo) = false := BitVec.getLsbD_of_ge x _ (by omega)
  simp [atBit, hx]

/-- A field has no bits below its start. -/
theorem getElem_atBit_lt {n : Nat} (lo j : Nat) (x : BitVec n) (hj : j < 64) (h : j < lo) :
    (atBit lo x)[j] = false := by
  simp [atBit, h]

/-- A command laid out in memory, lowest byte first. -/
def TransferCmd.words (c : TransferCmd) : Slot :=
  ![atBit 0 c.cmdType.toByte ||| atBit 8 c.dstRank ||| atBit 16 c.laneId ||| atBit 32 c.tileId,
    c.remoteOffset,
    c.localOffset,
    atBit 0 c.bytes ||| atBit 32 c.srcView ||| atBit 40 c.reserved0 ||| atBit 48 c.rowSpan,
    atBit 0 c.rowCount ||| atBit 16 c.pad,
    c.enqueueDeviceNs]

/-- The command a slot's bytes spell, if the type byte is an enumerator. -/
def TransferCmd.ofWords (w : Slot) : Option TransferCmd :=
  (CmdType.ofByte (cmdTypeByte w)).map fun t =>
    { cmdType := t
      dstRank := (w 0).extractLsb' 8 8
      laneId := (w 0).extractLsb' 16 16
      tileId := (w 0).extractLsb' 32 32
      remoteOffset := w 1
      localOffset := w 2
      bytes := (w 3).extractLsb' 0 32
      srcView := (w 3).extractLsb' 32 8
      reserved0 := (w 3).extractLsb' 40 8
      rowSpan := (w 3).extractLsb' 48 16
      rowCount := (w 4).extractLsb' 0 16
      pad := (w 4).extractLsb' 16 48
      enqueueDeviceNs := w 5 }

theorem cmdTypeByte_words (c : TransferCmd) : cmdTypeByte c.words = c.cmdType.toByte := by
  simp only [cmdTypeByte, TransferCmd.words, Matrix.cons_val_zero]
  ext i hi
  -- The other three fields of word 0 start at bit 8 or above.
  simp (disch := omega) [getElem_atBit_zero, getElem_atBit_lt]

/-- Reading a laid-out command gives the command back: every field sits
    inside one word, at the offset it is read from. -/
theorem ofWords_words (c : TransferCmd) : TransferCmd.ofWords c.words = some c := by
  rw [TransferCmd.ofWords, cmdTypeByte_words, CmdType.ofByte_toByte, Option.map_some,
    Option.some.injEq]
  cases c
  simp only [TransferCmd.words]
  -- Bit by bit: in its own range a word shows one field, the others have no bits there.
  congr 1 <;> (ext i hi; simp (disch := omega) [getElem_atBit_self, getElem_atBit_zero,
    getElem_atBit_lt, getElem_atBit_ge])

theorem words_injective : Function.Injective TransferCmd.words := by
  intro a b h
  have hab : some a = some b := by rw [← ofWords_words a, ← ofWords_words b, h]
  exact Option.some.inj hab

/-- `pack_arrival_work`: the first tile plus one in the low 24 bits, the
    number of tiles minus one above them. -/
def packArrivalWork (firstTileId numTiles : BitVec 32) : BitVec 32 :=
  -- No tiles count as one, so the field holds the number less one.
  let numTiles := if numTiles = 0 then 1 else numTiles
  (firstTileId + 1) ||| ((numTiles - 1) <<< 24)

/-- `unpack_arrival_first_tile`. -/
def unpackArrivalFirstTile (packed : BitVec 32) : BitVec 32 := (packed &&& 0x00FFFFFF) - 1

/-- `unpack_arrival_num_tiles`. -/
def unpackArrivalNumTiles (packed : BitVec 32) : BitVec 32 := ((packed >>> 24) &&& 0xFF) + 1

/-- `kTileBytes`. -/
def kTileBytes : BitVec 32 := 128 * 256 * 2

/-- The number of tiles the bytes of a command span. -/
def runTiles (bytes : BitVec 32) : BitVec 32 := (bytes + kTileBytes - 1) / kTileBytes

/-- `ForwardNotify`: what a sender tells a ring neighbour to pass on. -/
structure ForwardNotify where
  bytes : BitVec 32
  localOffset : BitVec 64
  tileId : BitVec 32
  laneId : BitVec 16
  reserved0 : BitVec 8
  srcView : BitVec 8
  epoch : BitVec 32
  reserved1 : BitVec 64
  deriving DecidableEq, Repr

def kMaxExchangeQPs : Nat := 24

/-- The staging ring for small payloads: its length, its address and its local
    key. -/
structure FlagStaging where
  count : Nat
  hostPtr : BitVec 64
  lkey : BitVec 32

/-- The address of a slot of the staging ring. -/
def FlagStaging.slotAddr (staging : FlagStaging) (slot : Nat) : BitVec 64 :=
  staging.hostPtr + 4 * BitVec.ofNat 64 slot

/-- `peer_rank_for_slot`: slot 0 is the next rank, and so on around the ring. -/
def peerRankForSlot (nodeIdx numNodes peerSlot : Int) : Int :=
  let r := nodeIdx + 1 + peerSlot
  if numNodes ≤ r then r - numNodes else r

/-- `slot_at_peer`: this rank's slot in `peerRank`'s table. -/
def slotAtPeer (myRank peerRank numNodes : Int) : Int :=
  let slot := myRank - peerRank - 1
  if slot < 0 then slot + numNodes else slot

end Internode

end MKernel
