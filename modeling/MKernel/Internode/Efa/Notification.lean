import MKernel.Core.Spread
import MKernel.Internode.Efa.Receives

/-!
# The Layout of a Notification

What the kernel of a receiver reads in the arrival word of a WRITE, in either
mode of the proxy.

The kernel looks at the words of a logical queue one after the other, and takes
from each the first tile and the number of tiles of a transfer. With a flag of
its own, a WRITE is announced by exactly such a word, in the next slot of its
queue: the tile in the low 24 bits and the count in the eight above, so both must
fit. With immediate data, all that travels is the tile, and the proxy of the
receiver turns it into the epoch, in the word that has the number of the tile. To
the kernel this is a word like any other, of whatever queue and slot has that
place, and the epoch reads as a tile and a count. The two agree by coincidence
only (`decodes_iff`).

A request reads the ring of staged words when the NIC executes it. Here that is
while the word is still the one that was staged for it.

## Main definitions

* `drainTurn`: What the kernel makes of the word at the head of a queue.
* `tileCount`: The number of tiles of a transfer.
* `announce`: A receiver once the requests of a WRITE were executed.
* `Legible`: The condition that the kernel reads the WRITE's tile and count.

## Theorems

* `drainTurn_eq_some_iff`: When a word reads as a tile and a count.
* `packArrivalWork_toNat`: The arrival word of a transfer that fits, as a number.
* `postBatch_cons`: A WRITE in a batch is posted like one alone.
* `announce_remoteFlag`, `announce_writeImm`: The word of a WRITE, and its place.
* `decodes_iff`: When the kernel reads the tile and the count of the WRITE.
-/

namespace MKernel

namespace Internode

namespace Efa

open MKernel.Core

/-! ## The kernel -/

/-- The index of a slot of a logical queue, in the 32 bits that sender and kernel
    compute it in. -/
def arrivalIndex (remoteQueueStride : BitVec 32) (q : Nat) (slot : BitVec 32) : Nat :=
  (BitVec.ofNat 32 q * remoteQueueStride + slot).toNat

/-- One turn of `gemm_ar_drain_arrival_queue_publish_flags`: the first tile and
    the number of tiles that the word at the head of a queue tells of. -/
def drainTurn (arrivalFlags : Nat → BitVec 32) (remoteQueueStride : BitVec 32) (q : Nat)
    (qHead : BitVec 32) : Option (Int × Int) :=
  -- The head has not left the words of its queue.
  if qHead.toInt < remoteQueueStride.toInt then
    let flagVal := arrivalFlags (arrivalIndex remoteQueueStride q qHead)
    -- Nothing has arrived in the slot.
    if flagVal = 0 then none
    else
      let firstTile := (unpackArrivalFirstTile flagVal).toInt
      let firstTile := if firstTile < 0 then 0 else firstTile
      let workTiles := (unpackArrivalNumTiles flagVal).toInt
      let workTiles := if workTiles < 1 then 1 else workTiles
      some (firstTile, workTiles)
  else none

/-- The number of tiles of a transfer. -/
def tileCount (bytes : BitVec 32) : Nat := rounds bytes.toNat kTileBytes.toNat

/-- The first tile a word tells of, as the kernel takes it. -/
theorem firstTile_eq (word : BitVec 32) :
    (if (unpackArrivalFirstTile word).toInt < 0 then 0 else (unpackArrivalFirstTile word).toInt) =
      ((word.toNat % 2 ^ 24 - 1 : Nat) : Int) := by
  have hlow : (word &&& 0x00FFFFFF).toNat = word.toNat % 2 ^ 24 := by
    rw [BitVec.toNat_and]
    exact Nat.and_two_pow_sub_one_eq_mod word.toNat 24
  rw [unpackArrivalFirstTile, BitVec.toInt_eq_toNat_cond, BitVec.toNat_sub, hlow]
  have hone : (1 : BitVec 32).toNat = 1 := rfl
  rw [hone]
  by_cases hzero : word.toNat % 2 ^ 24 = 0
  · -- Less one, no tile is all ones, which is negative.
    rw [hzero]
    decide
  · -- Any other is below 2^24 and so not negative.
    split <;> split <;> omega

theorem numTiles_eq (word : BitVec 32) :
    (if (unpackArrivalNumTiles word).toInt < 1 then 1 else (unpackArrivalNumTiles word).toInt) =
      ((word.toNat / 2 ^ 24 + 1 : Nat) : Int) := by
  have hlt := word.isLt
  have hhigh : ((word >>> 24) &&& 0xFF).toNat = word.toNat / 2 ^ 24 := by
    rw [BitVec.toNat_and, BitVec.toNat_ushiftRight, Nat.shiftRight_eq_div_pow]
    exact (Nat.and_two_pow_sub_one_eq_mod _ 8).trans (Nat.mod_eq_of_lt (by omega))
  have hone : (1 : BitVec 32).toNat = 1 := rfl
  rw [unpackArrivalNumTiles, BitVec.toInt_eq_toNat_cond, BitVec.toNat_add, hhigh, hone]
  -- A byte and one more is positive, so the bound below does nothing.
  split <;> split <;> omega

/-- A word reads as a tile and a count exactly if there is one, and its fields,
    with the offsets of the encoding, are these. -/
theorem drainTurn_eq_some_iff {arrivalFlags : Nat → BitVec 32} {remoteQueueStride : BitVec 32}
    {q : Nat} {qHead word : BitVec 32} {tile count : Nat}
    (h : arrivalFlags (arrivalIndex remoteQueueStride q qHead) = word) :
    drainTurn arrivalFlags remoteQueueStride q qHead = some ((tile : Int), (count : Int)) ↔
      qHead.toInt < remoteQueueStride.toInt ∧ word ≠ 0 ∧ word.toNat % 2 ^ 24 - 1 = tile ∧
        word.toNat / 2 ^ 24 + 1 = count := by
  unfold drainTurn
  dsimp only
  rw [h]
  by_cases hhead : qHead.toInt < remoteQueueStride.toInt
  · rw [if_pos hhead, and_iff_right hhead]
    by_cases hword : word = 0
    · rw [if_pos hword]
      exact iff_of_false (by simp only [reduceCtorEq, not_false_eq_true]) fun hw => hw.1 hword
    · rw [if_neg hword, and_iff_right hword, firstTile_eq, numTiles_eq, Option.some.injEq,
        Prod.mk.injEq, Int.ofNat_inj, Int.ofNat_inj]
  · rw [if_neg hhead]
    exact iff_of_false (by simp only [reduceCtorEq, not_false_eq_true]) fun hw => hhead hw.1

/-- The arrival word of a transfer whose tile fits: the tile less, the count
    above, cut to a byte. -/
theorem packArrivalWork_toNat {t n : BitVec 32} (h : t.toNat + 1 < 2 ^ 24) :
    (packArrivalWork t n).toNat = 2 ^ 24 * ((max 1 n.toNat - 1) % 2 ^ 8) + (t.toNat + 1) := by
  have hfirst : (t + 1).toNat = t.toNat + 1 := by
    rw [BitVec.toNat_add]
    exact Nat.mod_eq_of_lt (Nat.lt_trans h (by decide))
  have hnum : ((if n = 0 then 1 else n) - 1).toNat = max 1 n.toNat - 1 := by
    by_cases hn : n = 0
    · rw [if_pos hn, hn]
      rfl
    · have hpos : n.toNat ≠ 0 := fun hzero => hn (BitVec.eq_of_toNat_eq hzero)
      have hlt := n.isLt
      rw [if_neg hn, BitVec.toNat_sub]
      have hone : (1 : BitVec 32).toNat = 1 := rfl
      omega
  have hshift : (((if n = 0 then 1 else n) - 1) <<< 24).toNat =
      2 ^ 24 * ((max 1 n.toNat - 1) % 2 ^ 8) := by
    -- The shift drops all but the last eight bits of the count.
    rw [BitVec.toNat_shiftLeft, hnum, Nat.shiftLeft_eq]
    omega
  change ((t + (1 : BitVec 32)) ||| (((if n = 0 then 1 else n) - 1) <<< 24)).toNat = _
  -- The two fields have no bit in common, so the disjunction is a sum.
  rw [BitVec.toNat_or, hfirst, hshift, Nat.or_comm]
  exact (Nat.two_pow_add_eq_or_of_lt h _).symm

/-! ## The way of a notification -/

section Notified

variable (sender receiver : Setup) (peer : PerPeerProxyData)

/-- A request is executed at the receiver. The word of a flag is written to its
    place among the arrival words; immediate data becomes a receive completion,
    and step 3 of the receiver's proxy takes it. -/
def arrive (staging : Nat → BitVec 32) (w : World) (wr : WorkRequest) : World :=
  match wr.role, wr.imm with
  | .flag _, _ =>
      let word := (wr.remoteAddr - peer.remoteFlagsAddr).toNat / 4
      let slot := (wr.addr - sender.cfg.flagStaging.hostPtr).toNat / 4
      { w with localArrival := Function.update w.localArrival word (staging slot) }
  | .dataImm p, some imm => reap receiver w (.inr ⟨0, imm, p⟩)
  | _, _ => w

/-- The receiver once the requests of a WRITE were executed. -/
def announce (dstQpn epoch : BitVec 32) (fs : FlagState) (w : World) (p : Polled) : World :=
  let r := postBatch sender peer dstQpn epoch fs [p]
  r.1.foldl (arrive sender receiver peer r.2.staging) w

/-- With immediate data, the word in the place the kernel looks at: the epoch if
    it is the place of the tile, and what was there before if it is another. -/
def immWord (w : World) (p : Polled) (head : BitVec 32) : BitVec 32 :=
  let i := arrivalIndex sender.cfg.remoteQueueStride (sender.logicalQueue p.cmd) head
  if p.cmd.tileId.toNat = i ∧ i < receiver.cfg.localArrivalCount then w.epoch
  else w.localArrival i

/-- The tile and the count of a WRITE fit into a word of its own, and with
    immediate data the epoch, or an older word, happens to read as the two. Either
    way the slot is one of the queue's. -/
def Legible (w : World) (p : Polled) (head : BitVec 32) : Prop :=
  head.toInt < sender.cfg.remoteQueueStride.toInt ∧
    match sender.notifyMode with
    | .remoteFlag =>
        p.cmd.tileId.toNat + 1 < 2 ^ 24 ∧ 0 < p.cmd.bytes.toNat ∧ p.cmd.bytes.toNat ≤ 2 ^ 24
    | .writeImm =>
        let word := immWord sender receiver w p head
        word ≠ 0 ∧ word.toNat % 2 ^ 24 - 1 = p.cmd.tileId.toNat ∧
          word.toNat / 2 ^ 24 + 1 = tileCount p.cmd.bytes

instance (w : World) (p : Polled) (head : BitVec 32) :
    Decidable (Legible sender receiver w p head) := by
  unfold Legible
  cases sender.notifyMode <;> infer_instance

end Notified

section Facts

variable {sender receiver : Setup} {peer : PerPeerProxyData} {dstQpn epoch : BitVec 32}
  {fs : FlagState} {w : World} {p : Polled}

/-- A batch posts for its first WRITE what a batch of its own would, and goes on
    from there with the others. So one WRITE in any state stands for all. -/
theorem postBatch_cons (hqueue : sender.cfg.useArrivalQueue = true) (ps : List Polled) :
    postBatch sender peer dstQpn epoch fs (p :: ps) =
      let r := postBatch sender peer dstQpn epoch fs [p]
      let r' := postBatch sender peer dstQpn epoch r.2 ps
      (r.1 ++ r'.1, r'.2) := by
  cases hmode : sender.notifyMode with
  | remoteFlag =>
      -- No epoch is staged in the arrival-queue layout, before the first or later.
      simp only [postBatch, hmode, postRemoteFlagBatch, hqueue, if_true, remoteFlagLoop,
        List.append_nil]
  | writeImm =>
      simp only [postBatch, hmode, postWriteImmBatch, List.map_cons, List.map_nil,
        List.singleton_append]

/-- An address in an array of words gives its index back. -/
theorem index_of_addr (base : BitVec 64) {i : Nat} (h : i < 2 ^ 32) :
    (base + 4 * BitVec.ofNat 64 i - base).toNat / 4 = i := by
  rw [BitVec.add_comm, BitVec.add_sub_cancel, BitVec.toNat_mul, BitVec.toNat_ofNat]
  have hfour : (4 : BitVec 64).toNat = 4 := rfl
  rw [hfour]
  omega

/-- A slot of an even ring is not the slot after it. -/
theorem stage_slot_ne {count : Nat} (hring : 2 ∣ count) (cursor : BitVec 32) :
    cursor.toNat % count ≠ (cursor + 1).toNat % count := by
  intro h
  -- Modulo two the ring does not matter, and a step changes the parity.
  have hparity := congrArg (· % 2) h
  simp only [Nat.mod_mod_of_dvd _ hring, BitVec.toNat_add] at hparity
  have hone : (1 : BitVec 32).toNat = 1 := rfl
  omega

/-- The arrival word of a WRITE with a flag of its own is the packed one, in the
    next slot of its queue. -/
theorem announce_remoteFlag (hmode : sender.notifyMode = .remoteFlag)
    (hqueue : sender.cfg.useArrivalQueue = true) (hring : 2 ∣ sender.cfg.flagStaging.count) :
    (announce sender receiver peer dstQpn epoch fs w p).localArrival =
      Function.update w.localArrival
        (arrivalIndex sender.cfg.remoteQueueStride (sender.logicalQueue p.cmd)
          (fs.senderSeq (sender.logicalQueue p.cmd)))
        (packArrivalWork p.cmd.tileId (runTiles p.cmd.bytes)) := by
  -- The request names ring slot and arrival word by address; both are found again.
  have hslot : fs.stagingCursor.toNat % sender.cfg.flagStaging.count < 2 ^ 32 :=
    Nat.lt_of_le_of_lt (Nat.mod_le _ _) fs.stagingCursor.isLt
  have hword : ∀ x : BitVec 32,
      (peer.remoteFlagsAddr + 4 * x.setWidth 64 - peer.remoteFlagsAddr).toNat / 4 = x.toNat := by
    intro x
    rw [← BitVec.ofNat_toNat]
    exact index_of_addr _ x.isLt
  simp only [announce, postBatch, hmode, postRemoteFlagBatch, hqueue, if_true, remoteFlagLoop,
    remoteFlagRequests, queueRequests, List.append_nil]
  split
  · -- The tail's word is staged in another slot.
    simp only [List.foldl_cons, List.foldl_nil, arrive, dataRequest, stagedRequest, hword,
      FlagState.stage, FlagStaging.slotAddr, index_of_addr _ hslot, arrivalIndex]
    rw [Function.update_of_ne (stage_slot_ne hring _), Function.update_self]
  · simp only [List.foldl_cons, List.foldl_nil, arrive, dataRequest, stagedRequest, hword,
      FlagState.stage, FlagStaging.slotAddr, index_of_addr _ hslot, arrivalIndex]
    rw [Function.update_self]

/-- With immediate data, the word of the tile becomes the epoch, if there is such
    a word. -/
theorem announce_writeImm (hmode : sender.notifyMode = .writeImm) (i : Nat) :
    (announce sender receiver peer dstQpn epoch fs w p).localArrival i =
      if p.cmd.tileId.toNat = i ∧ i < receiver.cfg.localArrivalCount then w.epoch
      else w.localArrival i := by
  -- The receiver turns the bytes of the immediate value back.
  have htile : (⟨0, htonl p.cmd.tileId, p⟩ : Recv).tile = p.cmd.tileId.toNat := by
    simp only [Recv.tile, htonl_htonl]
  simp only [announce, postBatch, hmode, postWriteImmBatch, List.map_cons, List.map_nil,
    List.foldl_cons, List.foldl_nil, arrive, writeImmRequest, reap_recv_word, htile]
  exact if_congr and_comm rfl rfl

theorem kTileBytes_toNat : kTileBytes.toNat = 2 ^ 16 := rfl

/-- The tiles of a WRITE of no more than 256 are counted without overflow. -/
theorem runTiles_toNat {bytes : BitVec 32} (h : bytes.toNat ≤ 2 ^ 24) :
    (runTiles bytes).toNat = tileCount bytes := by
  have hone : (1 : BitVec 32).toNat = 1 := rfl
  -- The sum that rounds up stays below 2^32.
  rw [runTiles, BitVec.toNat_udiv, BitVec.toNat_sub, BitVec.toNat_add, kTileBytes_toNat, hone,
    tileCount, rounds, kTileBytes_toNat]
  omega

/-- A packed word gives its tile and its count back exactly if both fit. -/
theorem packed_iff (tileId bytes : BitVec 32) :
    (packArrivalWork tileId (runTiles bytes) ≠ 0 ∧
      (packArrivalWork tileId (runTiles bytes)).toNat % 2 ^ 24 - 1 = tileId.toNat ∧
      (packArrivalWork tileId (runTiles bytes)).toNat / 2 ^ 24 + 1 = tileCount bytes) ↔
    tileId.toNat + 1 < 2 ^ 24 ∧ 0 < bytes.toNat ∧ bytes.toNat ≤ 2 ^ 24 := by
  constructor
  · -- Whatever the word is, its fields are no larger than these.
    rintro ⟨-, hfirst, hcount⟩
    have hlt := (packArrivalWork tileId (runTiles bytes)).isLt
    have hle : tileCount bytes ≤ 2 ^ 8 := by omega
    rw [tileCount, kTileBytes_toNat, rounds_le_iff (by decide)] at hle
    refine ⟨by omega, Nat.pos_of_ne_zero fun hzero => ?_, hle⟩
    rw [tileCount, hzero, rounds_zero (by decide)] at hcount
    omega
  · rintro ⟨htile, hpos, hle⟩
    -- What fits: some tile, and no more than a byte and one can count.
    have hmany : 1 ≤ tileCount bytes := by
      rw [Nat.one_le_iff_ne_zero]
      intro hzero
      have hnone := (rounds_le_iff (by decide)).mp (Nat.le_of_eq hzero)
      omega
    have hfew : tileCount bytes ≤ 2 ^ 8 := by
      rw [tileCount, kTileBytes_toNat, rounds_le_iff (by decide)]
      exact hle
    have hword := packArrivalWork_toNat (n := runTiles bytes) htile
    rw [runTiles_toNat hle] at hword
    refine ⟨fun hzero => ?_, by omega, by omega⟩
    rw [hzero] at hword
    have hnone : (0 : BitVec 32).toNat = 0 := rfl
    omega

end Facts

/-- In the arrival-queue layout, the kernel that looks for a WRITE in its queue
    reads the tile and the count of the WRITE exactly if it is legible. -/
theorem decodes_iff {sender : Setup} (hqueue : sender.cfg.useArrivalQueue = true)
    (hring : 2 ∣ sender.cfg.flagStaging.count) (receiver : Setup) (peer : PerPeerProxyData)
    (dstQpn epoch : BitVec 32) (fs : FlagState) (w : World) (p : Polled) (head : BitVec 32)
    (hhead : sender.notifyMode = .remoteFlag → head = fs.senderSeq (sender.logicalQueue p.cmd)) :
    drainTurn (announce sender receiver peer dstQpn epoch fs w p).localArrival
        sender.cfg.remoteQueueStride (sender.logicalQueue p.cmd) head =
      some ((p.cmd.tileId.toNat : Int), (tileCount p.cmd.bytes : Int)) ↔
    Legible sender receiver w p head := by
  unfold Legible
  cases hmode : sender.notifyMode with
  | remoteFlag =>
      -- The word was written to the slot that the kernel looks at.
      have hword : (announce sender receiver peer dstQpn epoch fs w p).localArrival
          (arrivalIndex sender.cfg.remoteQueueStride (sender.logicalQueue p.cmd) head) =
            packArrivalWork p.cmd.tileId (runTiles p.cmd.bytes) := by
        rw [announce_remoteFlag hmode hqueue hring, hhead hmode, Function.update_self]
      rw [drainTurn_eq_some_iff hword, packed_iff]
  | writeImm => exact drainTurn_eq_some_iff (announce_writeImm hmode _)

section Sample

/-- The proxies of two nodes, with queues of 16 words, in either mode. -/
def queueSetupIn (mode : NotifyMode) : Setup :=
  Setup.ofMode { sampleConfig with useArrivalQueue := true, remoteQueueStride := 16 } mode

/-- A WRITE of the tile with the number 5, to the first queue. -/
def writeFive : Polled := ⟨0, 0, writeCmd 0 5⟩

/-- What the kernel reads for the WRITE of tile 5, in the slot of a number. -/
def readFive (mode : NotifyMode) (head : BitVec 32) : Option (Int × Int) :=
  drainTurn (announce (queueSetupIn mode) (queueSetupIn mode) samplePeer 0x40 1 FlagState.init
    (init (queueSetupIn mode)) writeFive).localArrival 16 0 head

theorem decodes_iff_writeFive :
    (readFive .remoteFlag 0 = some (5, 1) ↔
      Legible (queueSetupIn .remoteFlag) (queueSetupIn .remoteFlag)
        (init (queueSetupIn .remoteFlag)) writeFive 0) ∧
    (readFive .writeImm 5 = some (5, 1) ↔
      Legible (queueSetupIn .writeImm) (queueSetupIn .writeImm)
        (init (queueSetupIn .writeImm)) writeFive 5) :=
  ⟨decodes_iff rfl (by decide) _ _ _ _ _ _ _ _ fun _ => rfl,
    decodes_iff rfl (by decide) _ _ _ _ _ _ _ _ fun h => absurd h (by decide)⟩

/-- With immediate data the kernel finds nothing in the slot of the WRITE, and in
    the place of its tile the epoch, which reads as tile 0. There is no slot in
    which it would read tile 5. -/
theorem epoch_misread : readFive .remoteFlag 0 = some (5, 1) ∧ readFive .writeImm 0 = none ∧
    readFive .writeImm 5 = some (0, 1) ∧ ∀ head, readFive .writeImm head ≠ some (5, 1) := by
  refine ⟨by decide +kernel, by decide +kernel, by decide +kernel, fun head h => ?_⟩
  have hsome : readFive .writeImm head = some (((5 : Nat) : Int), ((1 : Nat) : Int)) := h
  -- Such a word is not zero. Only the epoch is not, and it reads as tile 0.
  rcases (drainTurn_eq_some_iff (announce_writeImm rfl _)).mp hsome with ⟨-, hword, htile, -⟩
  split at htile
  · exact absurd htile (by decide)
  · rename_i hother
    rw [if_neg hother] at hword
    exact hword rfl

end Sample

end Efa

end Internode

end MKernel
