import MKernel.Core.Spread
import MKernel.Internode.Types

/-!
# Nodes and their Peers

Who is in whose peer slot, counted over all nodes.

Every node numbers the others by peer slots, in ring order from its own rank.
So a node is in a given slot of exactly one other node, and a sum over all
senders and all their slots, of what is sent to one receiver, is a sum over the
slots alone. Ranks travel in a byte, which is wide enough for a session.

## Theorems

* `slotAtPeer_peerRankForSlot`: The slots at the two ends of a connection.
* `count_peerRankForSlot`: A node is in a given slot of one other node.
* `dstRank_eq_iff`: The byte in a command tells the receiver.
* `dstRank_inj`: And, with the slot, the sender.
* `sum_senders`: What one receiver is sent, summed over the senders.
-/

namespace MKernel

namespace Internode

open MKernel.Core

variable {N r p : Nat}

theorem peerRankForSlot_mem {n : Nat} (hn : n < N) (hp : p < N - 1) :
    0 ≤ peerRankForSlot n N p ∧ peerRankForSlot n N p < N := by
  simp only [peerRankForSlot]
  split <;> omega

/-- No node is a peer of its own. -/
theorem peerRankForSlot_ne (n : Nat) (hp : p < N - 1) :
    peerRankForSlot n N p ≠ n := by
  simp only [peerRankForSlot]
  split <;> omega

/-- On either side of a connection the peer slots count around the ring. -/
theorem slotAtPeer_peerRankForSlot (rank numNodes peerSlot : Int) (h : 0 ≤ peerSlot)
    (hlt : peerSlot < numNodes - 1) :
    slotAtPeer rank (peerRankForSlot rank numNodes peerSlot) numNodes =
      numNodes - 2 - peerSlot := by
  simp only [slotAtPeer, peerRankForSlot]
  split <;> split <;> omega

/-- A node is in a given peer slot of exactly one other node. -/
theorem count_peerRankForSlot (hr : r < N) (hp : p < N - 1) :
    Nat.count (fun n => peerRankForSlot n N p = r) N = 1 := by
  refine count_eq_one (i := if p < r then r - 1 - p else r + N - 1 - p)
    (by split <;> omega) fun n hn => ?_
  simp only [peerRankForSlot]
  split <;> split <;> omega

/-- The slot a node finds another in tells which of the two it is. -/
theorem peerRankForSlot_inj {n n' : Nat} (hn : n < N) (hn' : n' < N)
    (h : peerRankForSlot n N p = peerRankForSlot n' N p) : n = n' := by
  simp only [peerRankForSlot] at h
  split at h <;> split at h <;> omega

/-- A byte tells ranks below 256 apart. -/
theorem rankByte_inj {a b : Int} (ha : 0 ≤ a ∧ a < 2 ^ 8) (hb : 0 ≤ b ∧ b < 2 ^ 8) :
    BitVec.ofInt 8 a = BitVec.ofInt 8 b ↔ a = b := by
  constructor
  · intro h
    have hnat := congrArg BitVec.toNat h
    simp only [BitVec.toNat_ofInt] at hnat
    omega
  · intro h
    rw [h]

/-- Around the ring there is one node so many slots before another. -/
theorem exists_peerRankForSlot (hr : r < N) (hp : p < N - 1) :
    ∃ n < N, peerRankForSlot n N p = r := by
  have hone := count_peerRankForSlot hr hp
  by_contra hnone
  push Not at hnone
  rw [Nat.count_of_forall_not fun n hn => hnone n hn] at hone
  exact absurd hone (by decide)

/-- A rank of a small job fits into the byte of a command. -/
theorem dstRank_eq_iff {n : Nat} (hN : N ≤ 2 ^ 8) (hn : n < N) (hr : r < N) (hp : p < N - 1) :
    BitVec.ofInt 8 (peerRankForSlot n N p) = BitVec.ofNat 8 r ↔ peerRankForSlot n N p = r := by
  have hrange := peerRankForSlot_mem hn hp
  rw [← BitVec.ofInt_natCast]
  exact rankByte_inj ⟨hrange.1, by omega⟩ ⟨by omega, by omega⟩

/-- The rank in a command for a peer slot tells who sent it. -/
theorem dstRank_inj {n n' : Nat} (hN : N ≤ 2 ^ 8) (hn : n < N) (hn' : n' < N) (hp : p < N - 1)
    (h : BitVec.ofInt 8 (peerRankForSlot n N p) = BitVec.ofInt 8 (peerRankForSlot n' N p)) :
    n = n' := by
  have hr := peerRankForSlot_mem hn hp
  have hr' := peerRankForSlot_mem hn' hp
  exact peerRankForSlot_inj hn hn'
    ((rankByte_inj ⟨hr.1, by omega⟩ ⟨hr'.1, by omega⟩).mp h)

/-- What one receiver is sent from a peer slot, with the senders summed over:
    `A n` says that node `n` sends it, and `C` that it is sent at all. -/
theorem sum_senders (hr : r < N) (hp : p < N - 1) {A : Nat → Prop} [DecidablePred A] {C : Prop}
    [Decidable C] (h : ∀ n < N, A n ↔ peerRankForSlot n N p = r ∧ C) :
    ∑ n ∈ Finset.range N, (if A n then 1 else 0) = if C then 1 else 0 := by
  rw [sum_range_ite]
  by_cases hC : C
  · rw [if_pos hC, ← count_peerRankForSlot hr hp]
    exact count_congr fun n hn => (h n hn).trans (and_iff_left hC)
  · rw [if_neg hC]
    exact Nat.count_of_forall_not fun n hn hA => hC ((h n hn).mp hA).2

end Internode

end MKernel
