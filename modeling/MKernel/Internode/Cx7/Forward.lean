import MKernel.Internode.Cx7.Routing
import MKernel.Internode.Peers

/-!
# Forwarding by the Proxies

What a proxy forwards when it is notified of an arrival, and with which sizes.

A notification tells of an arrival slot. The proxy takes it apart: the arrival slots of a node
are divided into virtual slots of `total_chunks` each, and these into a bank for every step and
a peer slot. It puts together the slot that the same shard has at the next node, in the next
bank. The size of a virtual slot is not told to the proxy. `create_session` divides the number
of arrival slots by that of virtual slots. But this number has been rounded up, to as many for
each logical queue.

## Main definitions

* `Session.totalArrivalSlots`: The number of arrival slots, rounded up.
* `Session.proxyTotalChunks`, `Session.proxyAHalfBytes`: The sizes a proxy is started with.
* `Session.forwardConfig`: A configuration with these sizes.
* `forwardVirtual`: The virtual slot a proxy forwards to.

## Theorems

* `le_proxyTotalChunks`: The size is not too small.
* `makeForwardCmdFromNotify_eq`: The command of a proxy, in numbers.
-/

namespace MKernel

namespace Internode

namespace Cx7

open MKernel.Core

/-- Division of an `int` that is not negative. -/
theorem natCast_tdiv (a b : Nat) : (a : Int).tdiv b = (a / b : Nat) :=
  Int.natCast_tdiv_eq_ediv.trans (Int.natCast_ediv a b).symm

theorem natCast_tmod (a b : Nat) : (a : Int).tmod b = (a % b : Nat) :=
  (Int.tmod_eq_emod_of_nonneg (Int.natCast_nonneg a)).trans (Int.natCast_emod a b).symm

namespace Session

variable (s : Session)

/-- `total_arrival_slots`, for a session of so many tiles. -/
def totalArrivalSlots (numTiles : Int) : Int :=
  s.logicalQueueStride numTiles * s.totalLogicalQueues

/-- `num_remote_peers * ring_banks`, with `enable_forward_notify` as the proxy has it. -/
def virtualSlots (enableForwardNotify : Bool) : Int :=
  let ringBanks := if enableForwardNotify = true ∧ 1 < s.cfg.numPeers then s.cfg.numPeers else 1
  max 1 (s.cfg.numPeers * ringBanks)

/-- `pcfg.total_chunks`. -/
def proxyTotalChunks (enableForwardNotify : Bool) (numTiles : Int) : Int :=
  (s.totalArrivalSlots numTiles).tdiv (s.virtualSlots enableForwardNotify)

/-- `pcfg.a_half_bytes`. -/
def proxyAHalfBytes (enableForwardNotify : Bool) (localGpuBufSize : BitVec 64) : BitVec 64 :=
  localGpuBufSize / BitVec.ofInt 64 (s.virtualSlots enableForwardNotify)

/-- A configuration in which the proxies forward, in a session of so many tiles and with a
    local buffer of that size. -/
def forwardConfig (rest : ProxyConfig) (numTiles : Int) (localGpuBufSize : BitVec 64) :
    ProxyConfig :=
  { rest with
    useArrivalQueue := false
    enableForwardNotify := true
    localForwardNotify := true
    forwardNotifySlots := s.totalArrivalSlots numTiles
    totalChunks := s.proxyTotalChunks true numTiles
    aHalfBytes := s.proxyAHalfBytes true localGpuBufSize }

section Sizes

variable {s}

theorem totalLogicalQueues_pos (s : Session) : 0 < s.totalLogicalQueues := by
  have hlogical : 0 < s.logicalQueuesPerQp := by
    simp only [logicalQueuesPerQp]
    split <;> split <;> omega
  exact Nat.mul_pos s.numQps_pos hlogical

/-- Tiles are rounded up to the same number for each logical queue. -/
theorem totalArrivalSlots_eq {n : Nat} (hn : 0 < n) :
    s.totalArrivalSlots n = (rounds n s.totalLogicalQueues * s.totalLogicalQueues : Nat) := by
  have hq := s.totalLogicalQueues_pos
  have hone : 0 < rounds n s.totalLogicalQueues := by
    by_contra hzero
    have hle := (rounds_le_iff hq).mp (Nat.le_of_not_lt hzero)
    omega
  have hcast : (n : Int) + s.totalLogicalQueues - 1 = (n + s.totalLogicalQueues - 1 : Nat) := by
    omega
  have hstride : s.logicalQueueStride n = (rounds n s.totalLogicalQueues : Nat) := by
    rw [logicalQueueStride, hcast, natCast_tdiv, ← rounds]
    omega
  rw [totalArrivalSlots, hstride]
  push_cast
  rfl

theorem virtualSlots_eq (hmany : 1 < s.numPeers) :
    s.virtualSlots true = (s.numPeers * s.numPeers : Nat) := by
  have hpos := Nat.mul_pos s.numPeers_pos' s.numPeers_pos'
  have hcast : s.cfg.numPeers = (s.numPeers : Int) := by
    unfold numPeers at hmany ⊢
    omega
  have hmany' : 1 < s.cfg.numPeers := by omega
  simp only [virtualSlots, hmany', and_self, if_true]
  rw [hcast, ← Int.natCast_mul]
  omega

/-- The size of a virtual slot, as the proxy has it. -/
theorem proxyTotalChunks_eq (hmany : 1 < s.numPeers) {n : Nat} (hn : 0 < n) :
    s.proxyTotalChunks true n =
      (rounds n s.totalLogicalQueues * s.totalLogicalQueues / (s.numPeers * s.numPeers) : Nat) := by
  rw [proxyTotalChunks, totalArrivalSlots_eq hn, virtualSlots_eq hmany, natCast_tdiv]

/-- It is not too small. -/
theorem le_proxyTotalChunks (hmany : 1 < s.numPeers) {chunks : Nat} (hchunks : 0 < chunks) :
    (chunks : Int) ≤ s.proxyTotalChunks true (chunks * (s.numPeers * s.numPeers) : Nat) := by
  have hsq := Nat.mul_pos s.numPeers_pos' s.numPeers_pos'
  rw [proxyTotalChunks_eq hmany (Nat.mul_pos hchunks hsq), Int.ofNat_le,
    Nat.le_div_iff_mul_le hsq]
  exact le_rounds_mul s.totalLogicalQueues_pos

/-- All virtual slots of that size are arrival slots. -/
theorem proxyTotalChunks_mul_le (hmany : 1 < s.numPeers) {n : Nat} (hn : 0 < n) :
    s.proxyTotalChunks true n * (s.numPeers * s.numPeers : Nat) < n + s.totalLogicalQueues := by
  have hq := s.totalLogicalQueues_pos
  have hround : rounds n s.totalLogicalQueues * s.totalLogicalQueues ≤
      n + s.totalLogicalQueues - 1 := Nat.div_mul_le_self _ _
  have hdiv := Nat.div_mul_le_self (rounds n s.totalLogicalQueues * s.totalLogicalQueues)
    (s.numPeers * s.numPeers)
  rw [proxyTotalChunks_eq hmany hn, ← Int.natCast_mul]
  omega

/-- It is right where rounding up adds less than one slot for each virtual slot. -/
theorem proxyTotalChunks_eq_iff (hmany : 1 < s.numPeers) {chunks : Nat} (hchunks : 0 < chunks) :
    s.proxyTotalChunks true (chunks * (s.numPeers * s.numPeers) : Nat) = chunks ↔
      rounds (chunks * (s.numPeers * s.numPeers)) s.totalLogicalQueues * s.totalLogicalQueues <
        (chunks + 1) * (s.numPeers * s.numPeers) := by
  have hsq := Nat.mul_pos s.numPeers_pos' s.numPeers_pos'
  have hle := le_proxyTotalChunks hmany hchunks
  rw [proxyTotalChunks_eq hmany (Nat.mul_pos hchunks hsq), Int.ofNat_le] at hle
  rw [proxyTotalChunks_eq hmany (Nat.mul_pos hchunks hsq), Int.ofNat_inj,
    ← Nat.div_lt_iff_lt_mul hsq]
  omega

/-- The size of a shard is right, for a buffer of as many as there are virtual slots. -/
theorem proxyAHalfBytes_eq (hmany : 1 < s.numPeers) {bytes : Nat}
    (hfit : bytes * (s.numPeers * s.numPeers) < 2 ^ 64) :
    s.proxyAHalfBytes true (BitVec.ofNat 64 (bytes * (s.numPeers * s.numPeers))) =
      BitVec.ofNat 64 bytes := by
  have hsq := Nat.mul_pos s.numPeers_pos' s.numPeers_pos'
  have hpeers := Nat.mul_le_mul s.numPeers_le' s.numPeers_le'
  have hsmall : s.numPeers * s.numPeers < 2 ^ 64 := Nat.lt_of_le_of_lt hpeers (by decide)
  have hbytes : bytes < 2 ^ 64 := Nat.lt_of_le_of_lt (Nat.le_mul_of_pos_right _ hsq) hfit
  apply BitVec.eq_of_toNat_eq
  rw [proxyAHalfBytes, virtualSlots_eq hmany, BitVec.ofInt_natCast, BitVec.toNat_udiv,
    BitVec.toNat_ofNat, BitVec.toNat_ofNat, BitVec.toNat_ofNat, Nat.mod_eq_of_lt hfit,
    Nat.mod_eq_of_lt hsmall, Nat.mod_eq_of_lt hbytes, Nat.mul_div_cancel _ hsq]

end Sizes

end Session

/-- `dst_virtual`, for the virtual slot of a notification. What is in the next node's own slot
    here is taken to have the slot after the last there. -/
def forwardVirtual (numPeers srcVirtual : Nat) : Nat :=
  let srcSlot := srcVirtual % numPeers
  let srcBank := srcVirtual / numPeers
  (if srcSlot = 0 then numPeers else srcSlot - 1) + numPeers * (srcBank + 1)

/-- But for that slot, the virtual slot moves on by one less than there are peers. -/
theorem forwardVirtual_of_ne {numPeers v : Nat} (hpos : 0 < numPeers) (h : v % numPeers ≠ 0) :
    forwardVirtual numPeers v = v + (numPeers - 1) := by
  have hdm := Nat.div_add_mod v numPeers
  rw [forwardVirtual, if_neg h, Nat.mul_succ]
  omega

theorem forwardVirtual_of_eq {numPeers v : Nat} (h : v % numPeers = 0) :
    forwardVirtual numPeers v = v + 2 * numPeers := by
  have hdm := Nat.div_add_mod v numPeers
  rw [forwardVirtual, if_pos h, Nat.mul_succ]
  omega

/-- The slot a proxy computes for the next node. -/
theorem slotAtPeer_next {numPeers rank slot : Nat} (hrank : rank < numPeers + 1)
    (hslot : slot < numPeers) :
    slotAtPeer (peerRankForSlot rank (numPeers + 1 : Nat) slot)
      (peerRankForSlot rank (numPeers + 1 : Nat) 0) (numPeers + 1 : Nat) =
        (if slot = 0 then numPeers else slot - 1 : Nat) := by
  simp only [slotAtPeer, peerRankForSlot]
  split <;> split <;> split <;> split <;> omega

/-- The command of a proxy, for a notification of an arrival slot that an `int` can hold. -/
theorem makeForwardCmdFromNotify_eq (setup : Setup) {numPeers rank chunks bytes : Nat}
    {n : ForwardNotify} (hnodes : setup.cfg.numNodes = (numPeers + 1 : Nat))
    (hrank : setup.cfg.rank = rank) (hlt : rank < numPeers + 1) (hpeers : 0 < numPeers)
    (hchunks : setup.cfg.totalChunks = chunks) (hpos : 0 < chunks) (hsmall : chunks < 2 ^ 32)
    (hbytes : setup.cfg.aHalfBytes = BitVec.ofNat 64 bytes) (hfit : bytes < 2 ^ 64)
    (htile : n.tileId.toNat < 2 ^ 31) :
    let cmd := setup.makeForwardCmdFromNotify n
    let v := forwardVirtual numPeers (n.tileId.toNat / chunks)
    cmd.tileId = BitVec.ofNat 32 (v * chunks + n.tileId.toNat % chunks) ∧
      cmd.remoteOffset =
        BitVec.ofNat 64 (v * bytes + n.localOffset.toNat % bytes % 2 ^ 32) ∧
      cmd.bytes = n.bytes := by
  intro cmd v
  -- The tile is an `int`, so the division of the source is that of naturals.
  have hsrc : n.tileId.toInt.tdiv (chunks : Int) = (n.tileId.toNat / chunks : Nat) := by
    rw [BitVec.toInt_eq_toNat_of_lt (by omega), natCast_tdiv]
  have hcast : ((numPeers + 1 : Nat) : Int) - 1 = (numPeers : Int) := by omega
  -- The slot at the next node is the one of the virtual node.
  have hdst : slotAtPeer (peerRankForSlot rank (numPeers + 1 : Nat)
        ((n.tileId.toNat / chunks % numPeers : Nat) : Int))
      (peerRankForSlot rank (numPeers + 1 : Nat) 0) (numPeers + 1 : Nat) +
        (numPeers : Int) * ((n.tileId.toNat / chunks / numPeers : Nat) + 1) = (v : Int) := by
    rw [slotAtPeer_next hlt (Nat.mod_lt _ hpeers)]
    simp only [v, forwardVirtual]
    push_cast
    rfl
  have hchunk : n.tileId % BitVec.ofInt 32 (chunks : Int) =
      BitVec.ofNat 32 (n.tileId.toNat % chunks) := by
    apply BitVec.eq_of_toNat_eq
    rw [BitVec.ofInt_natCast, BitVec.toNat_umod, BitVec.toNat_ofNat, BitVec.toNat_ofNat,
      Nat.mod_eq_of_lt hsmall,
      Nat.mod_eq_of_lt (Nat.lt_trans (Nat.mod_lt _ hpos) hsmall)]
  -- The offset in the shard is cut off to 32 bits here.
  have hbase : ((n.localOffset % BitVec.ofNat 64 bytes).setWidth 32).setWidth 64 =
      BitVec.ofNat 64 (n.localOffset.toNat % bytes % 2 ^ 32) := by
    apply BitVec.eq_of_toNat_eq
    rw [BitVec.toNat_setWidth_of_le (by decide), BitVec.toNat_setWidth, BitVec.toNat_umod,
      BitVec.toNat_ofNat, BitVec.toNat_ofNat, Nat.mod_eq_of_lt hfit,
      Nat.mod_eq_of_lt (by omega : n.localOffset.toNat % bytes % 2 ^ 32 < 2 ^ 64)]
  refine ⟨?_, ?_, rfl⟩
  · simp only [cmd, Setup.makeForwardCmdFromNotify, hnodes, hrank, hchunks, hsrc, hcast,
      natCast_tdiv, natCast_tmod, hdst, hchunk]
    rw [← Int.natCast_mul, BitVec.ofInt_natCast, ← BitVec.ofNat_add]
  · simp only [cmd, Setup.makeForwardCmdFromNotify, hnodes, hrank, hchunks, hsrc, hcast,
      natCast_tdiv, natCast_tmod, hdst, hbytes, hbase]
    rw [BitVec.ofInt_natCast, ← BitVec.ofNat_mul, ← BitVec.ofNat_add]

end Cx7

end Internode

end MKernel
