import MKernel.Internode.Cx7.Routing

/-!
# Pairing the QPs of a Channelised Session

How `create_session` connects its QPs to those of the other nodes.

Each node goes through its peer slots on its own. For the peer in a slot it
points a block of its QPs, one after the other, at a block of the peer's: its own
block is that of the slot, and the peer's block is the one the peer keeps for
this node. The two nodes number each other differently, so one side computes
from its slot what the other side computes from another slot, and nothing is
exchanged that would show a difference. A connection stands only where the two
sides have pointed at each other.

Slots count around the ring. If a node finds a peer `k + 1` ranks ahead, the
peer finds the node the rest of the way round, so the slots at the two ends add
up to the same number for every pair (`remoteSlot_eq`). That makes the pairing
symmetric (`channelized_pairing`).

## Main definitions

* `Connection`: A local QP, and the QP of another node it is pointed at.
* `Session.connections`: The connections of a session, in the order made.
* `Session.atRank`: The session of another node with the same configuration.

## Theorems

* `numPeers_mul_qpsPerPeer_le`: The blocks of all peers fit into the QPs.
* `map_localQp_connections`: Every QP of a block is pointed once.
* `channelized_pairing`: QPs are pointed at each other in pairs.
-/

namespace MKernel

/-- Blocks of one width, one after the other, are a range. -/
theorem range_blocks (width n : Nat) :
    (List.range n).flatMap (fun i => (List.range width).map fun k => i * width + k) =
      List.range (n * width) := by
  induction n with
  | zero => rw [Nat.zero_mul]; rfl
  | succ n ih =>
      rw [List.range_succ, List.flatMap_append, ih, List.flatMap_singleton, Nat.succ_mul,
        List.range_add]

namespace Internode

namespace Cx7

/-- A local QP, and the QP of another node it is pointed at. -/
structure Connection where
  localQp : Nat
  peerRank : Int
  remoteQp : Int
  deriving DecidableEq, Repr

namespace Session

variable (s : Session)

/-- `remote_slot`: this node's slot at the peer in a slot. -/
def remoteSlot (peerSlot : Nat) : Int :=
  if s.cfg.numPeers = 1 then 0
  else slotAtPeer s.cfg.rank (s.peerRankForLocalSlot peerSlot) (s.cfg.numPeers + 1)

def remoteQpBase (peerSlot : Nat) : Int :=
  if s.cfg.channelizeGpuPeers then s.remoteSlot peerSlot * s.qpsPerPeer else 0

/-- The QPs pointed at the peer in a slot. -/
def connectSlot (peerSlot : Nat) : List Connection :=
  (List.range (s.localQpEnd peerSlot - s.localQpBase peerSlot)).map fun k =>
    { localQp := s.localQpBase peerSlot + k
      peerRank := s.peerRankForLocalSlot peerSlot
      remoteQp := s.remoteQpBase peerSlot + k }

/-- The QP transitions of `create_session`. -/
def connections : List Connection := (List.range s.numPeers).flatMap s.connectSlot

/-- The session of another node with the same configuration. -/
def atRank (rank : Int) : Session where
  cfg := { s.cfg with rank := rank }
  numPeers_pos := s.numPeers_pos
  numPeers_le := s.numPeers_le

@[simp] theorem numPeers_atRank (rank : Int) : (s.atRank rank).numPeers = s.numPeers := rfl

@[simp] theorem qpsPerPeer_atRank (rank : Int) : (s.atRank rank).qpsPerPeer = s.qpsPerPeer := rfl

/-- The blocks of all peers fit into the QPs. -/
theorem numPeers_mul_qpsPerPeer_le (hc : s.cfg.channelizeGpuPeers = true) :
    s.numPeers * s.qpsPerPeer ≤ s.numQps := by
  have hpos := s.numPeers_pos'
  have hle : s.numPeers ≤ s.numQps := by
    by_cases h : 1 < s.numPeers
    · exact (s.numQps_of_channelized hc h).1
    · have := s.numQps_pos
      omega
  have hdiv : 1 ≤ s.numQps / s.numPeers := (Nat.one_le_div_iff hpos).mpr hle
  simp only [qpsPerPeer, hc, if_true, Nat.max_eq_right hdiv]
  exact Nat.mul_div_le _ _

/-- Slots that are there hold whole blocks. -/
theorem localQpEnd_sub (hc : s.cfg.channelizeGpuPeers = true) {slot : Nat}
    (hslot : slot < s.numPeers) : s.localQpEnd slot - s.localQpBase slot = s.qpsPerPeer := by
  have hall := s.numPeers_mul_qpsPerPeer_le hc
  have hblock : (slot + 1) * s.qpsPerPeer ≤ s.numPeers * s.qpsPerPeer :=
    Nat.mul_le_mul_right _ hslot
  rw [Nat.succ_mul] at hblock
  simp only [localQpEnd, localQpBase, hc, if_true]
  omega

/-- Every QP of a block is pointed once, block after block. -/
theorem map_localQp_connections (hc : s.cfg.channelizeGpuPeers = true) :
    s.connections.map (·.localQp) = List.range (s.numPeers * s.qpsPerPeer) := by
  rw [← range_blocks, connections, List.map_flatMap]
  refine List.flatMap_congr ?_
  intro slot hslot
  rw [connectSlot, List.map_map, s.localQpEnd_sub hc (List.mem_range.mp hslot)]
  simp only [localQpBase, hc, if_true]
  rfl

/-- The slots at the two ends of a connection add up to the last slot. -/
theorem remoteSlot_eq (hr : s.cfg.peerRanks = none) {slot : Nat} (hslot : slot < s.numPeers) :
    s.remoteSlot slot = (s.numPeers - 1 - slot : Nat) := by
  have hpos := s.numPeers_pos
  unfold numPeers at hslot ⊢
  simp only [remoteSlot, peerRankForLocalSlot, hr]
  by_cases h1 : s.cfg.numPeers = 1
  · rw [if_pos h1]
    omega
  · rw [if_neg h1, slotAtPeer_peerRankForSlot _ _ _ (by omega) (by omega)]
    omega

/-- What the QPs of a channelised session are pointed at. -/
theorem mem_connections (hc : s.cfg.channelizeGpuPeers = true) (hr : s.cfg.peerRanks = none)
    {c : Connection} :
    c ∈ s.connections ↔ ∃ slot < s.numPeers, ∃ k < s.qpsPerPeer,
      c = ⟨slot * s.qpsPerPeer + k, peerRankForSlot s.cfg.rank (s.cfg.numPeers + 1) slot,
        ((s.numPeers - 1 - slot) * s.qpsPerPeer + k : Nat)⟩ := by
  simp only [connections, List.mem_flatMap, List.mem_range]
  refine exists_congr fun slot => and_congr_right fun hslot => ?_
  rw [connectSlot, s.localQpEnd_sub hc hslot]
  simp only [List.mem_map, List.mem_range, localQpBase, remoteQpBase, hc, if_true,
    s.remoteSlot_eq hr hslot, peerRankForLocalSlot, hr]
  refine exists_congr fun k => and_congr_right fun _ => ?_
  rw [eq_comm]
  push_cast
  rfl

/-- Going on to the peer's peer in the other slot leads back. -/
theorem peerRankForSlot_back {rank numPeers : Int} (h0 : 0 ≤ rank) (hlt : rank < numPeers + 1)
    {slot : Nat} (hslot : (slot : Int) < numPeers) :
    peerRankForSlot (peerRankForSlot rank (numPeers + 1) slot) (numPeers + 1)
      (numPeers.toNat - 1 - slot : Nat) = rank := by
  simp only [peerRankForSlot]
  split <;> split <;> omega

/-- A node that is pointed at points back. -/
theorem connections_back (hc : s.cfg.channelizeGpuPeers = true) (hr : s.cfg.peerRanks = none)
    {a b : Int} (ha0 : 0 ≤ a) (ha : a < s.cfg.numPeers + 1) {i j : Nat}
    (h : ⟨i, b, j⟩ ∈ (s.atRank a).connections) : ⟨j, a, i⟩ ∈ (s.atRank b).connections := by
  rcases ((s.atRank a).mem_connections hc hr).mp h with ⟨slot, hslot, k, hk, heq⟩
  injection heq with hi hb hj
  simp only [numPeers_atRank, qpsPerPeer_atRank, Nat.cast_inj] at hslot hk hi hj
  refine ((s.atRank b).mem_connections hc hr).mpr
    ⟨s.numPeers - 1 - slot, by simp only [numPeers_atRank]; omega, k, hk, ?_⟩
  -- The block of the peer's slot is where this side has pointed, and the other way round.
  have hback : s.numPeers - 1 - (s.numPeers - 1 - slot) = slot := by omega
  simp only [numPeers_atRank, qpsPerPeer_atRank, hback, ← hi, ← hj]
  congr 1
  unfold numPeers at hslot
  rw [hb]
  exact (peerRankForSlot_back ha0 ha (by omega)).symm

/-- In a channelised job two nodes point the same QPs at each other, and each
    QP of a block is pointed exactly once. -/
theorem channelized_pairing (hc : s.cfg.channelizeGpuPeers = true)
    (hr : s.cfg.peerRanks = none) :
    (∀ a b : Int, 0 ≤ a → a < s.cfg.numPeers + 1 → 0 ≤ b → b < s.cfg.numPeers + 1 →
      ∀ i j : Nat, ⟨i, b, j⟩ ∈ (s.atRank a).connections ↔ ⟨j, a, i⟩ ∈ (s.atRank b).connections) ∧
    ∀ a : Int, 0 ≤ a → a < s.cfg.numPeers + 1 → ∀ qp < s.numPeers * s.qpsPerPeer,
      ((s.atRank a).connections.map (·.localQp)).count qp = 1 := by
  refine ⟨?_, ?_⟩
  · intro a b ha0 ha hb0 hb i j
    exact ⟨s.connections_back hc hr ha0 ha, s.connections_back hc hr hb0 hb⟩
  · intro a _ _ qp hqp
    rw [(s.atRank a).map_localQp_connections hc]
    exact List.count_eq_one_of_mem List.nodup_range (List.mem_range.mpr hqp)

end Session

/-- Three nodes that ask for 18 QPs. -/
def ringOfThree : Session where
  cfg :=
    { rank := 0
      numPeers := 2
      peerRanks := none
      numQps := 18
      logicalQueuesPerQp := 1
      numProxyThreads := 2
      channelizeGpuPeers := true }
  numPeers_pos := by decide
  numPeers_le := by decide

/-- With three nodes, QP 2 of the first leads to the second's QP 11, and back. -/
theorem ringOfThree_pairing :
    (⟨2, 1, 11⟩ ∈ (ringOfThree.atRank 0).connections ↔
      ⟨11, 0, 2⟩ ∈ (ringOfThree.atRank 1).connections) ∧
    ((ringOfThree.atRank 0).connections.map (·.localQp)).count 17 = 1 := by
  have h := ringOfThree.channelized_pairing rfl rfl
  exact ⟨h.1 0 1 (by decide) (by decide) (by decide) (by decide) 2 11,
    h.2 0 (by decide) (by decide) 17 (by decide)⟩

end Cx7

end Internode

end MKernel
