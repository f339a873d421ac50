import MKernel.Internode.Efa.Session

/-!
# The Table of Peer Slots

Slots and ranks around the ring, and what an EFA session makes of them.

`peer_rank_for_slot` and `slot_at_peer` count in opposite directions: one goes from a
node to the rank in one of its slots, the other from a rank to its slot at a node. On
one node they are inverse to each other, whatever the number of nodes (`peerSlots`).

A session uses neither. It counts the ranks of its peers with a remainder, and enters
them one by one into a table that leads from a rank to its slot. Without ranks from
its caller it counts as the kernels do, and the table has for every other node what
`slot_at_peer` gives, and nothing else (`ringOrder`).

## Main definitions

* `PeerSlots`: What holds of slots and ranks.
* `Session.peerSlotTable`: The table as it is entered.
* `Session.RingOrder`: A session agrees with the kernels.

## Theorems

* `peerSlots`: Slots and ranks are inverse to each other.
* `peerSlotByRank_eq_table`: What the proxies look up is the table.
* `ringOrder`: A session without ranks of its own agrees.
-/

namespace MKernel

namespace Internode

/-! ## Slots and ranks -/

/-- Slots and ranks among a number of nodes. The slots of a node are those below the
    number of its peers. -/
structure PeerSlots (N : Int) : Prop where
  rank_mem : ∀ a p : Int, 0 ≤ a → a < N → 0 ≤ p → p < N - 1 →
    (0 ≤ peerRankForSlot a N p ∧ peerRankForSlot a N p < N) ∧ peerRankForSlot a N p ≠ a
  slot_mem : ∀ a b : Int, 0 ≤ a → a < N → 0 ≤ b → b < N → a ≠ b →
    0 ≤ slotAtPeer b a N ∧ slotAtPeer b a N < N - 1
  rank_of_slot : ∀ a b : Int, 0 ≤ a → a < N → 0 ≤ b → b < N → a ≠ b →
    peerRankForSlot a N (slotAtPeer b a N) = b
  slot_of_rank : ∀ a p : Int, 0 ≤ a → a < N → 0 ≤ p → p < N - 1 →
    slotAtPeer (peerRankForSlot a N p) a N = p
  rank_inj_slot : ∀ a p q : Int, 0 ≤ a → a < N → 0 ≤ p → p < N - 1 → 0 ≤ q → q < N - 1 →
    peerRankForSlot a N p = peerRankForSlot a N q → p = q
  rank_inj_node : ∀ a b p : Int, 0 ≤ a → a < N → 0 ≤ b → b < N → 0 ≤ p → p < N - 1 →
    peerRankForSlot a N p = peerRankForSlot b N p → a = b
  slot_inj_rank : ∀ a b c : Int, 0 ≤ a → a < N → 0 ≤ b → b < N → 0 ≤ c → c < N → a ≠ c → b ≠ c →
    slotAtPeer a c N = slotAtPeer b c N → a = b
  slot_inj_peer : ∀ a b c : Int, 0 ≤ a → a < N → 0 ≤ b → b < N → 0 ≤ c → c < N → a ≠ c → b ≠ c →
    slotAtPeer c a N = slotAtPeer c b N → a = b

section Ring

variable {N a b c p : Int}

theorem slotAtPeer_mem (ha : 0 ≤ a) (haN : a < N) (hb : 0 ≤ b) (hbN : b < N) (hne : a ≠ b) :
    0 ≤ slotAtPeer b a N ∧ slotAtPeer b a N < N - 1 := by
  simp only [slotAtPeer]
  split <;> omega

theorem peerRankForSlot_slotAtPeer (hb : 0 ≤ b) (hbN : b < N) :
    peerRankForSlot a N (slotAtPeer b a N) = b := by
  simp only [peerRankForSlot, slotAtPeer]
  split <;> split <;> omega

/-- The slot of the rank in a slot. -/
theorem slotAtPeer_of_slot (hp : 0 ≤ p) (hpN : p < N - 1) :
    slotAtPeer (peerRankForSlot a N p) a N = p := by
  simp only [slotAtPeer, peerRankForSlot]
  split <;> split <;> omega

/-- Two nodes find a third in different slots. -/
theorem slotAtPeer_inj_peer (ha : 0 ≤ a) (haN : a < N) (hb : 0 ≤ b) (hbN : b < N)
    (h : slotAtPeer c a N = slotAtPeer c b N) : a = b := by
  simp only [slotAtPeer] at h
  split at h <;> split at h <;> omega

theorem peerSlots (N : Int) : PeerSlots N where
  rank_mem a p ha haN hp hpN := by
    simp only [peerRankForSlot]
    split <;> omega
  slot_mem _ _ ha haN hb hbN hne := slotAtPeer_mem ha haN hb hbN hne
  rank_of_slot _ _ _ _ hb hbN _ := peerRankForSlot_slotAtPeer hb hbN
  slot_of_rank _ _ _ _ hp hpN := slotAtPeer_of_slot hp hpN
  rank_inj_slot a p q _ _ hp hpN hq hqN h := by
    -- Both slots are the one of the same rank.
    rw [← slotAtPeer_of_slot (a := a) hp hpN, h]
    exact slotAtPeer_of_slot hq hqN
  rank_inj_node a b p ha haN hb hbN hp hpN h := by
    simp only [peerRankForSlot] at h
    split at h <;> split at h <;> omega
  slot_inj_rank a b c ha haN hb hbN _ _ _ _ h := by
    -- Both ranks are the one in the same slot.
    rw [← peerRankForSlot_slotAtPeer (a := c) ha haN, h]
    exact peerRankForSlot_slotAtPeer hb hbN
  slot_inj_peer _ _ _ ha haN hb hbN _ _ _ _ h := slotAtPeer_inj_peer ha haN hb hbN h

end Ring

namespace Efa

open Cx7 (kMaxPeers)

namespace Session

variable (s : Session)

/-! ## The table -/

/-- One round of the loop that fills the table. -/
def enterPeer (table : Int → Int) (p : Nat) : Int → Int :=
  if 0 ≤ s.peerRank p ∧ s.peerRank p ≤ kMaxPeers then Function.update table (s.peerRank p) p
  else table

/-- The table, with so many slots entered. -/
def entered (n : Nat) : Int → Int := (List.range n).foldl s.enterPeer fun _ => -1

/-- `peer_slot_by_rank`, which has an entry for each rank up to `kMaxPeers`. -/
def peerSlotTable : Int → Int := s.entered s.numPeers

/-- A session has the ring order of the kernels. -/
structure RingOrder : Prop where
  peerRank_eq : ∀ p < s.numPeers,
    s.peerRank p = peerRankForSlot s.cfg.rank (s.cfg.numPeers + 1) p
  table_peer : ∀ r : Int, 0 ≤ r → r < s.cfg.numPeers + 1 → r ≠ s.cfg.rank →
    s.peerSlotTable r = slotAtPeer r s.cfg.rank (s.cfg.numPeers + 1)
  /-- The session's own rank has no slot, nor has a rank that is no node's. -/
  table_other : ∀ r : Int, r = s.cfg.rank ∨ r < 0 ∨ s.cfg.numPeers + 1 ≤ r →
    s.peerSlotTable r = -1
  /-- The proxies look ranks up in this table. -/
  lookup : ∀ rank : BitVec 8, s.peerSlotByRank rank = s.peerSlotTable rank.toNat

variable {s}

theorem entered_succ (n : Nat) : s.entered (n + 1) = s.enterPeer (s.entered n) n := by
  rw [entered, List.range_succ, List.foldl_append]
  rfl

/-- The entry of a rank is the last slot it is found in. -/
theorem entered_eq (n : Nat) (r : Int) :
    s.entered n r = match (List.range n).reverse.find? fun p =>
        s.peerRank p = r ∧ 0 ≤ r ∧ r ≤ kMaxPeers with
      | some p => (p : Int)
      | none => -1 := by
  induction n with
  | zero => rfl
  | succ n ih =>
      rw [entered_succ, enterPeer, List.range_succ, List.reverse_append, List.reverse_singleton,
        List.singleton_append, List.find?_cons]
      by_cases hr : s.peerRank n = r
      · rw [hr]
        by_cases hin : 0 ≤ r ∧ r ≤ kMaxPeers
        · rw [if_pos hin, Function.update_self, decide_eq_true ⟨rfl, hin⟩]
        · rw [if_neg hin, ih, decide_eq_false fun h => hin h.2]
      · rw [decide_eq_false fun h => hr h.1, ← ih]
        split
        · exact Function.update_of_ne (Ne.symm hr) _ _
        · rfl

/-- What the proxies look up is the table. -/
theorem peerSlotByRank_eq_table (rank : BitVec 8) :
    s.peerSlotByRank rank = s.peerSlotTable rank.toNat := by
  have hentered : (fun p => decide (s.peerRank p = rank.toNat ∧ rank.toNat ≤ kMaxPeers)) =
      fun p => decide (s.peerRank p = rank.toNat ∧ 0 ≤ (rank.toNat : Int) ∧
        (rank.toNat : Int) ≤ kMaxPeers) := by
    simp only [Int.natCast_nonneg, true_and, Nat.cast_le]
  rw [peerSlotTable, entered_eq]
  exact congrArg (fun f => match (List.range s.numPeers).reverse.find? f with
    | some p => (p : Int)
    | none => -1) hentered

section Ring

variable (hr : s.cfg.peerRanks = none) (h0 : 0 ≤ s.cfg.rank) (hlt : s.cfg.rank < s.cfg.numPeers + 1)

include hr h0 hlt

/-- With so many slots entered, the table has the ranks in these slots. -/
theorem entered_ring {n : Nat} (hn : n ≤ s.numPeers) (r : Int) :
    s.entered n r =
      if (0 ≤ r ∧ r < s.cfg.numPeers + 1) ∧ r ≠ s.cfg.rank ∧
        slotAtPeer r s.cfg.rank (s.cfg.numPeers + 1) < n then
        slotAtPeer r s.cfg.rank (s.cfg.numPeers + 1)
      else -1 := by
  have hmax := s.numPeers_le
  have hcast : (s.numPeers : Int) = s.cfg.numPeers := by
    have hpos := s.numPeers_pos
    unfold numPeers
    omega
  induction n with
  | zero =>
      refine (if_neg ?_).symm
      rintro ⟨hmem, hne, hslot⟩
      have hnonneg := (slotAtPeer_mem h0 hlt hmem.1 hmem.2 hne.symm).1
      omega
  | succ n ih =>
      have hslots : (n : Int) < s.cfg.numPeers + 1 - 1 := by omega
      have hrank := s.peerRank_eq hr h0 hlt hn
      rcases (peerSlots (s.cfg.numPeers + 1)).rank_mem s.cfg.rank n h0 hlt (by omega) hslots with
        ⟨hmem, hne⟩
      rw [entered_succ, enterPeer, hrank, if_pos ⟨hmem.1, by omega⟩]
      by_cases heq : r = peerRankForSlot s.cfg.rank (s.cfg.numPeers + 1) n
      · -- The rank whose slot this is.
        have hslot := slotAtPeer_of_slot (a := s.cfg.rank) (Int.natCast_nonneg n) hslots
        rw [heq, Function.update_self, hslot, if_pos ⟨hmem, hne, by omega⟩]
      · rw [Function.update_of_ne heq, ih (by omega)]
        refine if_congr (and_congr_right fun hin => and_congr_right fun _ => ?_) rfl rfl
        have hnot : slotAtPeer r s.cfg.rank (s.cfg.numPeers + 1) ≠ n := by
          intro hslot
          rw [← hslot] at heq
          exact heq (peerRankForSlot_slotAtPeer hin.1 hin.2).symm
        omega

/-- A session that is given no ranks counts its peers as the kernels do, and its table
    has the slots the kernels have. -/
theorem ringOrder : s.RingOrder where
  peerRank_eq _ hp := s.peerRank_eq hr h0 hlt hp
  table_peer r hr0 hrN hne := by
    have hcast : (s.numPeers : Int) = s.cfg.numPeers := by
      have hpos := s.numPeers_pos
      unfold numPeers
      omega
    have hslot := (slotAtPeer_mem h0 hlt hr0 hrN hne.symm).2
    rw [peerSlotTable, entered_ring hr h0 hlt (Nat.le_refl _)]
    exact if_pos ⟨⟨hr0, hrN⟩, hne, by omega⟩
  table_other r hout := by
    rw [peerSlotTable, entered_ring hr h0 hlt (Nat.le_refl _)]
    refine if_neg ?_
    rintro ⟨hmem, hne, _⟩
    omega
  lookup := peerSlotByRank_eq_table

end Ring

end Session

/-- The arithmetic of slots and ranks, and the sessions that share it. -/
theorem peer_slots_agree : (∀ N : Int, 2 ≤ N → PeerSlots N) ∧
    ∀ s : Session, s.cfg.peerRanks = none → 0 ≤ s.cfg.rank →
      s.cfg.rank < s.cfg.numPeers + 1 → s.RingOrder :=
  ⟨fun N _ => peerSlots N, fun _ hr h0 hlt => Session.ringOrder hr h0 hlt⟩

section Sample

/-- The second of four nodes. -/
def secondOfFour : Session where
  cfg :=
    { rank := 1
      numPeers := 3
      peerRanks := none
      numTiles := 12
      maxInflight := 256
      numQps := 4
      logicalQueuesPerQp := 1
      numProxyThreads := 1
      useArrivalQueue := true
      numRails := 2 }
  env := fun _ => none
  numPeers_pos := by decide
  numPeers_le := by decide

/-- Its peers, and the slots its table has for the four ranks. -/
theorem peer_slots_agree_four : PeerSlots 4 ∧ secondOfFour.RingOrder ∧
    (List.range 3).map secondOfFour.peerRank = [2, 3, 0] ∧
    [0, 1, 2, 3].map secondOfFour.peerSlotTable = [2, -1, 0, 1] :=
  ⟨peer_slots_agree.1 4 (by decide),
    peer_slots_agree.2 secondOfFour rfl (by decide) (by decide), by decide, by decide⟩

end Sample

end Efa

end Internode

end MKernel
