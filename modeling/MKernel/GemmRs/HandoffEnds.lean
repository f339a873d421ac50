import MKernel.Core.SmallNumbers
import MKernel.Core.Tally
import MKernel.GemmRs.HandoffOnce

/-!
# The Send Loops End

Why no sending CTA of `gemm_rs` looks for a chunk for ever, and what the handoff
promises in all.

No step of a compute CTA waits for anything, and there are only so many
(`computeLeft`). Once the compute CTAs are through, all bits have been set. From then
on every step of a sending CTA brings it closer to its end (`sendLeft`): there is a
bit in its queue as long as it has not posted all its chunks, so it comes to one
after two rounds at most, and nobody sets a bit between its load of a word and its
compare-and-swap but once.

The promise is for shapes whose row blocks are divided evenly among the GPUs, and
launches with a sending CTA (`handed_on`). With row blocks left over, a chunk may be
announced with a tile missing. And the GPU that sets the bit is the last to add to
the count of the chunk, which need not be the one that was the last to count its
tiles (`handed_on_limits`).

## Main definitions

* `computeLeft`, `sendLeft`: How many steps are left.
* `Layout`: What is promised of the words and the two maps.
* `HandedOn`: What is promised of every state.

## Theorems

* `compute_down`, `send_down`: Every step leads down.
* `handed_on`: The promise holds.
* `handed_on_limits`: It needs the conditions.
-/

namespace MKernel

namespace GemmRs

namespace Handoff

open MKernel.Core MKernel.GemmAr

variable {setup : Setup}

/-! ## Counting down -/

/-- How many steps the CTA still has to take for the tile it is at. -/
def Phase.left : Phase → Nat
  | .tile => 0
  | .signalling _ _ => 2
  | .setting _ _ => 1

/-- No more steps than these are left to a compute CTA, -/
def ctaLeft (w : World setup) (k : CtaId setup) : Nat :=
  3 * (setup.shape.numBlocks - (w.walk k.1).next k.2) + (w.phase k).left

/-- and to all of them. -/
def computeLeft (w : World setup) : Nat := ∑ k, ctaLeft w k

/-- A word from here to the end of the queue has a bit. -/
def World.Ahead (w : World setup) (k : SendId setup) (i : Nat) : Prop :=
  ∃ i' < setup.queueWords, i ≤ i' ∧ w.word k i' ≠ 0

instance (w : World setup) (k : SendId setup) (i : Nat) : Decidable (w.Ahead k i) :=
  inferInstanceAs (Decidable (∃ i' < setup.queueWords, i ≤ i' ∧ w.word k i' ≠ 0))

/-- How many steps a sending CTA takes at most until it has a chunk. -/
def scanLeft (w : World setup) (k : SendId setup) : Nat :=
  match (w.sender k).pc with
  | .scanning i =>
      3 + (setup.queueWords - i) + if w.Ahead k i then 0 else setup.queueWords + 2
  | .claiming i old => if w.word k i = old then 1 else 2
  | .posting _ => 0
  | .ended => 0

/-- No more steps than these are left to a sending CTA when all bits are set, -/
def senderLeft (w : World setup) (k : SendId setup) : Nat :=
  (setup.myChunksTotal k.2 - (w.sender k).posted) * (2 * setup.queueWords + 8) + scanLeft w k

/-- and to all of them. -/
def sendLeft (w : World setup) : Nat := ∑ k, senderLeft w k

/-- The steps of the compute CTAs. -/
def Action.computes : Action setup → Bool
  | .send _ => false
  | _ => true

section Steps

variable {w w' : World setup}

/-- A compute CTA that takes a tile has one less. -/
theorem next_advance (k j : CtaId setup) :
    ((w.advance k).walk j.1).next j.2 =
      if j = k then (w.walk k.1).next k.2 + setup.numCompSms else (w.walk j.1).next j.2 := by
  simp only [World.advance]
  by_cases hd : j.1 = k.1
  · rw [hd, Function.update_self, Strided.advance]
    refine if_congr ?_ rfl rfl
    exact ⟨fun hc => Prod.ext hd hc, fun h => by rw [h]⟩
  · rw [Function.update_of_ne hd, if_neg fun h => hd (by rw [h])]

/-- Taking a tile, and owing the two steps for its chunk or nothing. -/
theorem ctaLeft_advance {k : CtaId setup} {p : Phase} (hphase : w.phase k = .tile)
    (ht : (w.walk k.1).next k.2 < setup.shape.numBlocks) (hwalk : w'.walk = (w.advance k).walk)
    (hp : w'.phase = Function.update w.phase k p) (hleft : p.left ≤ 2) :
    computeLeft w' < computeLeft w := by
  have hpos := setup.numCompSms_pos
  refine sum_lt_of_one k ?_ fun j hj => ?_
  · rw [ctaLeft, ctaLeft, hwalk, next_advance, if_pos rfl, hp, Function.update_self, hphase,
      Phase.left]
    omega
  · rw [ctaLeft, ctaLeft, hwalk, next_advance, if_neg hj, hp, Function.update_of_ne hj]

/-- Going on for the chunk of a tile. -/
theorem ctaLeft_phase {k : CtaId setup} {p : Phase} (hwalk : w'.walk = w.walk)
    (hp : w'.phase = Function.update w.phase k p) (hleft : p.left < (w.phase k).left) :
    computeLeft w' < computeLeft w := by
  refine sum_lt_of_one k ?_ fun j hj => ?_
  · rw [ctaLeft, ctaLeft, hwalk, hp, Function.update_self]
    exact Nat.add_lt_add_left hleft _
  · rw [ctaLeft, ctaLeft, hwalk, hp, Function.update_of_ne hj]

/-- Sending does not change what is left to compute. -/
theorem send_same {k : SendId setup} (hstep : sendStep w k = some w') :
    w'.walk = w.walk ∧ w'.phase = w.phase := by
  unfold sendStep at hstep
  cases hpc : (w.sender k).pc with
  | scanning i =>
      simp only [hpc] at hstep
      split at hstep <;> cases hstep <;> exact ⟨rfl, rfl⟩
  | claiming i old =>
      simp only [hpc] at hstep
      split at hstep <;> cases hstep <;> exact ⟨rfl, rfl⟩
  | posting idx =>
      simp only [hpc] at hstep
      cases hstep
      exact ⟨rfl, rfl⟩
  | ended =>
      simp only [hpc] at hstep
      exact absurd hstep (by simp only [reduceCtorEq, not_false_eq_true])

/-- Every step of a compute CTA leads down, and no other leads up. -/
theorem compute_down {a : Action setup} (hstep : step w a = some w') :
    computeLeft w' + (if a.computes then 1 else 0) ≤ computeLeft w := by
  cases a with
  | count k =>
      refine Nat.succ_le_of_lt ?_
      simp only [step] at hstep
      split at hstep
      · rename_i hpc
        -- If the tile was not the last one, the CTA stays where it was.
        have hsame : w.phase = Function.update w.phase k .tile := by
          rw [← hpc.1]
          exact (Function.update_eq_self k w.phase).symm
        split at hstep
        · split at hstep
          · cases hstep
            -- The last tile of a chunk is followed by the count and by the bit.
            exact ctaLeft_advance hpc.1 hpc.2 rfl rfl (Nat.le_refl 2)
          · cases hstep
            exact ctaLeft_advance hpc.1 hpc.2 rfl hsame (Nat.zero_le 2)
        · cases hstep
          exact ctaLeft_advance hpc.1 hpc.2 rfl hsame (Nat.zero_le 2)
      · exact absurd hstep (by simp only [reduceCtorEq, not_false_eq_true])
  | signal k =>
      refine Nat.succ_le_of_lt ?_
      simp only [step] at hstep
      split at hstep
      · rename_i row chunkCol hpc
        split at hstep
        · cases hstep
          refine ctaLeft_phase (k := k) rfl rfl ?_
          rw [hpc]
          -- A count that is not the last saves the bit.
          split <;> simp only [Phase.left, Nat.one_lt_two, Nat.zero_lt_two]
        · exact absurd hstep (by simp only [reduceCtorEq, not_false_eq_true])
      · exact absurd hstep (by simp only [reduceCtorEq, not_false_eq_true])
  | setBit k =>
      refine Nat.succ_le_of_lt ?_
      simp only [step] at hstep
      split at hstep
      · rename_i row chunkCol hpc
        split at hstep
        · cases hstep
          refine ctaLeft_phase (k := k) rfl rfl ?_
          rw [hpc]
          exact Nat.zero_lt_one
        · exact absurd hstep (by simp only [reduceCtorEq, not_false_eq_true])
      · exact absurd hstep (by simp only [reduceCtorEq, not_false_eq_true])
  | send k =>
      rw [step] at hstep
      -- The sending CTAs leave the walks alone.
      rcases send_same hstep with ⟨hwalk, hphase⟩
      simp only [computeLeft, ctaLeft, hwalk, hphase, Action.computes, Bool.false_eq_true, if_false,
        Nat.add_zero, Nat.le_refl]

/-- A sending CTA that has posted all its chunks has left. -/
theorem QueueInv.ended_of_all (h : QueueInv w) {k : SendId setup}
    (hall : ∀ y ∈ ownPosts k, y ∈ w.posts) : (w.sender k).pc = .ended := by
  rw [h.ended_iff, h.posted_eq, ← card_ownPosts]
  refine Nat.le_of_eq (Eq.symm ?_)
  refine (countP_eq_card_iff h.posts_nodup h.mem_ownPosts fun y hy => ?_).mpr hall
  rcases Finset.mem_image.mp hy with ⟨idx, _, rfl⟩
  rfl

/-- When all bits have been set, a sending CTA that is still looking has one in its
    queue. -/
theorem Inv.exists_bit (h : Inv w) (hc : w.Computed) {k : SendId setup}
    (hend : (w.sender k).pc ≠ .ended) (hpost : ∀ idx, (w.sender k).pc ≠ .posting idx) :
    w.Ahead k 0 := by
  have hmore : ¬ ∀ y ∈ ownPosts k, y ∈ w.posts := fun hall => hend (h.queues.ended_of_all hall)
  push Not at hmore
  rcases hmore with ⟨y, hy, hnot⟩
  rcases mem_ownPosts_iff.mp hy with ⟨hsend, x, rfl, rfl⟩
  have hidx := idxOf_lt hsend x
  have hglobal := global_idxOf hsend x
  -- Its chunk is in the custody of someone, who has the same bit.
  rcases h.queues.kept (place x) (h.counts.all_set hc x) with hout | ⟨⟨j, idx⟩ | j, hheld⟩
  · rcases List.mem_map.mp hout with ⟨z, hz, hplace⟩
    rcases h.queues.posts_mine z hz with ⟨idx, hlt, heq⟩
    rw [heq, ← hglobal] at hplace
    rcases idx_inj hlt hidx hplace with ⟨hj, rfl⟩
    refine absurd hz ?_
    have hzeq : z = (sendIdOf hsend x, (x.rbInSlice.val, x.chunkCol.val)) := by
      refine Prod.ext hj (heq.trans ?_)
      rw [hj]
      simp only [sendIdOf, idxOf, sendPlace_queueIdx x.chunkCol.isLt]
    rw [hzeq]
    exact hnot
  · simp only [World.held] at hheld
    split at hheld
    · rename_i hbit
      rw [← hglobal, Option.some.injEq] at hheld
      rcases idx_inj (h.queues.mine j idx hbit) hidx hheld with ⟨rfl, rfl⟩
      refine ⟨_, hbit.1, Nat.zero_le _, fun hzero => ?_⟩
      have hset := hbit.2
      rw [hzero] at hset
      simp only [BitVec.ofNat_eq_ofNat, BitVec.getLsbD_zero, Bool.false_eq_true] at hset
    · exact absurd hheld (by simp only [reduceCtorEq, not_false_eq_true])
  · simp only [World.held] at hheld
    split at hheld
    · rename_i idx hpc
      rw [← hglobal, Option.some.injEq] at hheld
      rcases idx_inj (h.queues.posting j idx hpc) hidx hheld with ⟨rfl, -⟩
      exact absurd hpc (hpost idx)
    · exact absurd hheld (by simp only [reduceCtorEq, not_false_eq_true])

/-- What is left to a sending CTA depends on its own queue only. -/
theorem senderLeft_congr (h : QueueInv w) {j : SendId setup} (hs : w'.sender j = w.sender j)
    (hword : ∀ i < setup.queueWords, w'.word j i = w.word j i) :
    senderLeft w' j = senderLeft w j := by
  rw [senderLeft, senderLeft, scanLeft, scanLeft, hs]
  cases hpc : (w.sender j).pc with
  | scanning i =>
      have hahead : w'.Ahead j i ↔ w.Ahead j i := by
        refine exists_congr fun i' => and_congr_right fun hi' => ?_
        rw [hword i' hi']
      simp only [if_congr hahead rfl rfl]
  | claiming i old =>
      simp only [hword i (h.claiming j i old hpc).1]
  | posting idx => rfl
  | ended => rfl

/-- The sending CTA that moves has less left, and the others are where they were. -/
theorem sendLeft_lt (h : QueueInv w) {k : SendId setup}
    (hother : ∀ j, j ≠ k → w'.sender j = w.sender j)
    (hword : ∀ j, j ≠ k → ∀ i < setup.queueWords, w'.word j i = w.word j i)
    (hk : senderLeft w' k < senderLeft w k) : sendLeft w' < sendLeft w :=
  sum_lt_of_one k hk fun j hj => senderLeft_congr h (hother j hj) (hword j hj)

/-- A sending CTA that only goes to another place. -/
theorem sendLeft_goto (h : QueueInv w) {k : SendId setup} {p : SendPc}
    (hk : scanLeft (w.setSender k { w.sender k with pc := p }) k < scanLeft w k) :
    sendLeft (w.setSender k { w.sender k with pc := p }) < sendLeft w := by
  refine sendLeft_lt (k := k) h (fun j hj => ?_) (fun _ _ _ _ => rfl) ?_
  · rw [sender_setSender, if_neg hj]
  · rw [senderLeft, senderLeft, sender_setSender, if_pos rfl]
    exact Nat.add_lt_add_left hk _

theorem scanLeft_goto {k : SendId setup} (p : SendPc) :
    scanLeft (w.setSender k { w.sender k with pc := p }) k =
      match p with
      | .scanning i =>
          3 + (setup.queueWords - i) + if w.Ahead k i then 0 else setup.queueWords + 2
      | .claiming i old => if w.word k i = old then 1 else 2
      | .posting _ => 0
      | .ended => 0 := by
  rw [scanLeft, sender_setSender, if_pos rfl]
  rfl

/-- The rest of a scan is no longer than two rounds. -/
theorem scanLeft_le (w : World setup) (k : SendId setup) :
    scanLeft w k ≤ 2 * setup.queueWords + 5 := by
  rw [scanLeft]
  split
  · split <;> omega
  · split <;> omega
  · exact Nat.zero_le _
  · exact Nat.zero_le _

/-- When all bits have been set, every step of a sending CTA leads down. -/
theorem send_down (h : Inv w) (hc : w.Computed) {k : SendId setup}
    (hstep : sendStep w k = some w') : sendLeft w' < sendLeft w := by
  unfold sendStep at hstep
  cases hpc : (w.sender k).pc with
  | scanning i =>
      have hahead := h.exists_bit hc (k := k)
        (by simp only [hpc, ne_eq, reduceCtorEq, not_false_eq_true])
        (fun _ => by simp only [hpc, ne_eq, reduceCtorEq, not_false_eq_true])
      simp only [hpc] at hstep
      split at hstep
      · rename_i hi
        cases hstep
        refine sendLeft_goto h.queues ?_
        rw [scanLeft_goto, scanLeft, hpc]
        by_cases hzero : w.word k i = 0
        · -- The word has no bit, so what is ahead is behind it.
          have hnext : w.Ahead k (i + 1) ↔ w.Ahead k i := by
            constructor
            · rintro ⟨i', hi', hle, hne⟩
              exact ⟨i', hi', Nat.le_of_succ_le hle, hne⟩
            · rintro ⟨i', hi', hle, hne⟩
              refine ⟨i', hi', Nat.lt_of_le_of_ne hle ?_, hne⟩
              rintro rfl
              exact hne hzero
          simp only [SendPc.look, if_pos hzero, if_congr hnext rfl rfl]
          omega
        · simp only [SendPc.look, if_neg hzero, if_true]
          omega
      · rename_i hi
        cases hstep
        refine sendLeft_goto h.queues ?_
        rw [scanLeft_goto, scanLeft, hpc]
        -- The round is over, and there is a bit in the next one.
        have hnone : ¬ w.Ahead k i := by
          rintro ⟨i', hi', hle, -⟩
          omega
        simp only [if_pos hahead, if_neg hnone]
        omega
  | claiming i old =>
      rcases h.queues.claiming k i old hpc with ⟨hi, hne, hsub⟩
      simp only [hpc] at hstep
      split at hstep
      · rename_i hword
        rcases h.queues.take hpc hword with ⟨hlt, -⟩
        rw [if_pos hlt] at hstep
        cases hstep
        refine sendLeft_lt (k := k) h.queues (fun j hj => ?_) (fun j hj i' hi' => ?_) ?_
        · exact (sender_setSender (w := w.setWord k.1 _ _) _ j).trans (if_neg hj)
        · exact (word_setWord hi hi' _).trans (if_neg fun h' => hj h'.1)
        · have hsender : (w.take k i old).sender k =
              { w.sender k with pc := .posting (i * 32 + lowest old) } :=
            (sender_setSender (w := w.setWord k.1 _ _) _ k).trans (if_pos rfl)
          have hnew : senderLeft (w.take k i old) k =
              (setup.myChunksTotal k.2 - (w.sender k).posted) * (2 * setup.queueWords + 8) := by
            rw [senderLeft, scanLeft, hsender]
            rfl
          refine lt_of_eq_of_lt hnew ?_
          rw [senderLeft, scanLeft, hpc]
          simp only [if_pos hword]
          omega
      · rename_i hword
        cases hstep
        refine sendLeft_goto h.queues ?_
        -- The word has the bits the CTA knows of.
        have hword' : w.word k i ≠ 0 := by
          intro hzero
          have hbit := hsub _ (ffs_pos hne)
          rw [hzero] at hbit
          simp only [BitVec.ofNat_eq_ofNat, BitVec.getLsbD_zero, Bool.false_eq_true] at hbit
        rw [scanLeft_goto, scanLeft, hpc]
        simp only [SendPc.look, if_neg hword', if_true, if_neg hword]
        omega
  | posting idx =>
      have hmore : (w.sender k).posted < setup.myChunksTotal k.2 := by
        by_contra hge
        have hended := (h.queues.ended_iff k).mpr (Nat.le_of_not_lt hge)
        rw [hpc] at hended
        exact absurd hended (by simp only [reduceCtorEq, not_false_eq_true])
      simp only [hpc] at hstep
      cases hstep
      refine sendLeft_lt (k := k) h.queues (fun j hj => ?_) (fun _ _ _ _ => rfl) ?_
      · exact (sender_setSender (w := w) _ j).trans (if_neg hj)
      · have hsender : (w.post k idx).sender k = setup.loop k ((w.sender k).posted + 1) :=
          (sender_setSender (w := w) _ k).trans (if_pos rfl)
        have hle := scanLeft_le (w.post k idx) k
        have hnew : senderLeft (w.post k idx) k =
            (setup.myChunksTotal k.2 - ((w.sender k).posted + 1)) * (2 * setup.queueWords + 8) +
              scanLeft (w.post k idx) k := by
          rw [senderLeft, hsender]
          rfl
        refine lt_of_eq_of_lt hnew ?_
        have hsplit : setup.myChunksTotal k.2 - (w.sender k).posted =
            setup.myChunksTotal k.2 - ((w.sender k).posted + 1) + 1 := by omega
        rw [senderLeft, hsplit, Nat.succ_mul (setup.myChunksTotal k.2 - ((w.sender k).posted + 1))]
        omega
  | ended =>
      simp only [hpc] at hstep
      exact absurd hstep (by simp only [reduceCtorEq, not_false_eq_true])

end Steps

/-! ## Going on -/

section Progress

variable {w : World setup}

/-- A compute CTA that is not through can go on. -/
theorem Inv.compute_goes (h : Inv w) (k : CtaId setup)
    (hk : ¬ (w.phase k = .tile ∧ setup.shape.numBlocks ≤ (w.walk k.1).next k.2)) :
    ∃ a w', Action.computes a = true ∧ step w a = some w' := by
  cases hphase : w.phase k with
  | tile =>
      have hlt : (w.walk k.1).next k.2 < setup.shape.numBlocks :=
        Nat.lt_of_not_le fun hle => hk ⟨hphase, hle⟩
      have hsome : (step w (.count k)).isSome := by
        simp only [step]
        rw [if_pos ⟨hphase, hlt⟩]
        split
        · split <;> rfl
        · rfl
      rcases Option.isSome_iff_exists.mp hsome with ⟨w', hw'⟩
      exact ⟨.count k, w', rfl, hw'⟩
  | signalling row chunkCol =>
      rcases h.counts.signalled_place hphase with ⟨x, hx, -⟩
      cases hx
      -- The owner exists, so the word can be written.
      have howner : x.row / setup.shape.rowBlocksPerSlice < setup.shape.numDevices := by
        rw [x.row_div]
        exact x.owner.isLt
      have hsome : (step w (.signal k)).isSome := by
        simp only [step, hphase]
        rw [dif_pos howner]
        rfl
      rcases Option.isSome_iff_exists.mp hsome with ⟨w', hw'⟩
      exact ⟨.signal k, w', rfl, hw'⟩
  | setting row chunkCol =>
      rcases h.counts.setting_place hphase with ⟨x, hx, -⟩
      cases hx
      have howner : x.row / setup.shape.rowBlocksPerSlice < setup.shape.numDevices := by
        rw [x.row_div]
        exact x.owner.isLt
      have hsome : (step w (.setBit k)).isSome := by
        simp only [step, hphase]
        rw [dif_pos howner]
        rfl
      rcases Option.isSome_iff_exists.mp hsome with ⟨w', hw'⟩
      exact ⟨.setBit k, w', rfl, hw'⟩

/-- A sending CTA that has not left can go on. -/
theorem send_goes {k : SendId setup} (hend : (w.sender k).pc ≠ .ended) :
    ∃ w', step w (.send k) = some w' := by
  refine Option.isSome_iff_exists.mp ?_
  rw [step, sendStep]
  cases hpc : (w.sender k).pc with
  | scanning i =>
      simp only
      split <;> rfl
  | claiming i old =>
      simp only
      split <;> rfl
  | posting idx => rfl
  | ended => exact absurd hpc hend

/-- Sending goes on when the compute CTAs are through, and they stay so. -/
theorem computed_step (hc : w.Computed) {w' : World setup} {a : Action setup}
    (hstep : step w a = some w') : (∃ k, a = .send k) ∧ w'.Computed := by
  cases a with
  | count k =>
      simp only [step] at hstep
      split at hstep
      · rename_i hpc
        exact absurd (hc k).2 (Nat.not_le_of_lt hpc.2)
      · exact absurd hstep (by simp only [reduceCtorEq, not_false_eq_true])
  | signal k =>
      simp only [step, (hc k).1] at hstep
      exact absurd hstep (by simp only [reduceCtorEq, not_false_eq_true])
  | setBit k =>
      simp only [step, (hc k).1] at hstep
      exact absurd hstep (by simp only [reduceCtorEq, not_false_eq_true])
  | send k =>
      rcases send_same (by rwa [step] at hstep) with ⟨hwalk, hphase⟩
      exact ⟨⟨k, rfl⟩, fun j => by
        rw [hwalk, hphase]
        exact hc j⟩

/-- All sending CTAs have left. -/
def World.Ended (w : World setup) : Prop := ∀ k, (w.sender k).pc = .ended

/-- Every run can be brought to its end. -/
theorem exists_end (ha : setup.shape.Aligned) (hsend : 0 < setup.numSendSms) (h : Inv w) :
    ∃ w', Reaches step always w w' ∧ w'.Computed ∧ w'.Ended := by
  have hinv : ∀ {u v : World setup}, Inv u → Reaches step always u v → Inv v := fun hu huv =>
    invariant_of_reaches Inv (fun _ _ _ hs _ hstep => inv_step ha hsend hs hstep) huv hu
  -- First the compute CTAs come to the end of their tiles,
  have hfirst : ∃ u, Reaches step always w u ∧ u.Computed := by
    refine exists_goal computeLeft fun u hu hnot => ?_
    rcases not_forall.mp hnot with ⟨k, hk⟩
    rcases (hinv h hu).compute_goes k hk with ⟨a, v, ha', hstep⟩
    refine ⟨a, v, trivial, hstep, ?_⟩
    have hdown := compute_down hstep
    rw [if_pos ha'] at hdown
    omega
  rcases hfirst with ⟨u, hu, hcomputed⟩
  -- and then the sending CTAs to that of their chunks.
  have hsecond : ∃ v, Reaches step always u v ∧ (Inv v → v.Computed → v.Ended) := by
    refine exists_goal sendLeft fun v _ hnot => ?_
    push Not at hnot
    rcases hnot with ⟨hv, hc, hmore⟩
    rcases not_forall.mp hmore with ⟨k, hk⟩
    rcases send_goes hk with ⟨v', hstep⟩
    exact ⟨Action.send k, v', trivial, hstep, send_down hv hc (by rwa [step] at hstep)⟩
  rcases hsecond with ⟨v, hv, hgoal⟩
  have hc : v.Computed :=
    invariant_of_reaches World.Computed (fun _ _ _ hs _ hstep => (computed_step hs hstep).2) hv
      hcomputed
  exact ⟨v, reaches_trans hu hv, hc, hgoal (hinv (hinv h hu) hv) hc⟩

end Progress

/-! ## What is promised -/

/-- What is promised of the words and of the two maps between chunks and bits. -/
structure Layout (setup : Setup) : Prop where
  /-- What the setter makes of a chunk, the sender makes the chunk of. -/
  sender_of_setter : ∀ rb < setup.shape.rowBlocksPerSlice, ∀ col < setup.shape.chunksPerRow,
    queueIdx setup.shape setup.numSendSms rb col < setup.myChunksTotal (rb % setup.numSendSms) ∧
      setup.sendPlace (rb % setup.numSendSms) (queueIdx setup.shape setup.numSendSms rb col) =
        (rb, col)
  /-- And the other way round. -/
  setter_of_sender : ∀ sendId < setup.numSendSms, ∀ idx < setup.myChunksTotal sendId,
    let x := setup.sendPlace sendId idx
    x.1 < setup.shape.rowBlocksPerSlice ∧ x.2 < setup.shape.chunksPerRow ∧
      x.1 % setup.numSendSms = sendId ∧ queueIdx setup.shape setup.numSendSms x.1 x.2 = idx
  /-- All bits of a sender are in its queue, -/
  in_queue : ∀ sendId < setup.numSendSms, ∀ idx < setup.myChunksTotal sendId,
    idx / 32 < setup.queueWords
  /-- no two queues have a word in common, -/
  queues_apart : ∀ sendId sendId' i i', i < setup.queueWords → i' < setup.queueWords →
    queueWord setup.shape setup.numSendSms sendId i =
      queueWord setup.shape setup.numSendSms sendId' i' → sendId = sendId' ∧ i = i'
  /-- and none has one in common with the counts. -/
  counts_apart : ∀ (x : Chunk setup.shape) sendId i,
    setup.shape.flatChunk x.row x.chunkCol < queueWord setup.shape setup.numSendSms sendId i

theorem layout (hsend : 0 < setup.numSendSms) : Layout setup where
  sender_of_setter _ hrb _ hcol :=
    ⟨queueIdx_lt_myChunksTotal hsend hrb hcol, sendPlace_queueIdx hcol⟩
  setter_of_sender _ hs _ hidx := queueIdx_sendPlace hs hidx
  in_queue _ hs _ hidx := myChunksTotal_le hs hidx
  queues_apart _ _ _ _ hi hi' h := queueWord_inj hi hi' h
  counts_apart x sendId i := flatChunk_lt x sendId i

/-- A chunk was posted by the sending CTA that owns its row block. -/
def World.Posted (w : World setup) (hsend : 0 < setup.numSendSms) (x : Chunk setup.shape) : Prop :=
  (sendIdOf hsend x, (x.rbInSlice.val, x.chunkCol.val)) ∈ w.posts

/-- What is promised of a state. -/
structure HandedOn (hsend : 0 < setup.numSendSms) (w : World setup) : Prop where
  /-- A chunk's bit is set once at most, -/
  set_once : w.announced.Nodup
  /-- by the GPU that is the last to add to the count of the chunk, which all GPUs have
      done once, after counting all tiles of the chunk, -/
  set_last : ∀ y ∈ w.sets, w.Last y ∧
    ∀ d, w.signalled.count (d, y.2) = 1 ∧ w.Counted (d, y.2)
  /-- and when all tiles are counted it has been set. -/
  set_all : w.Computed → ∀ x : Chunk setup.shape, place x ∈ w.announced
  /-- A chunk is posted once at most, -/
  posted_once : w.posted.Nodup
  /-- after its bit was set, by the sending CTA that owns its row block. -/
  posted_own : ∀ y ∈ w.posts, ∃ x : Chunk setup.shape,
    y = (sendIdOf hsend x, (x.rbInSlice.val, x.chunkCol.val)) ∧ place x ∈ w.announced
  /-- A sending CTA has left exactly if it has posted its own chunks. -/
  ended_iff : ∀ k, (w.sender k).pc = .ended ↔ ∀ x, sendIdOf hsend x = k → w.Posted hsend x
  /-- A compute CTA that is not through can go on, and there are only so many steps. -/
  compute_goes : ¬ w.Computed → ∃ a w', Action.computes a = true ∧ step w a = some w'
  compute_ends : ∀ as w', run step always as w = some w' →
    as.countP Action.computes ≤ computeLeft w
  /-- A sending CTA that has not left can go on, and when the others are through there
      are only so many steps. -/
  send_goes : ∀ k, (w.sender k).pc ≠ .ended → ∃ w', step w (.send k) = some w'
  send_ends : w.Computed → ∀ as w', run step always as w = some w' → as.length ≤ sendLeft w
  /-- So the end can be reached, and there all chunks are posted. -/
  finishes : ∃ w', Reaches step always w w' ∧ w'.Computed ∧ w'.Ended
  finished : w.Ended → ∀ x, w.Posted hsend x

theorem handedOn_of_inv (ha : setup.shape.Aligned) (hsend : 0 < setup.numSendSms) {w : World setup}
    (h : Inv w) : HandedOn hsend w := by
  -- A CTA ends when it has posted as many chunks as it has, and it has posted none twice.
  have hown : ∀ k, (w.sender k).pc = .ended ↔ ∀ x, sendIdOf hsend x = k → w.Posted hsend x := by
    intro k
    constructor
    · rintro hend x rfl
      exact h.queues.ended hend _ (mem_ownPosts_iff.mpr ⟨hsend, x, rfl, rfl⟩)
    · intro hall
      refine h.queues.ended_of_all fun y hy => ?_
      rcases mem_ownPosts_iff.mp hy with ⟨_, x, hx, rfl⟩
      rw [← hx]
      exact hall x hx
  exact {
    set_once := h.counts.setting.nodup
    set_last := fun y hy => by
      rcases (h.counts.setting.taken_of_out _ (List.mem_map_of_mem hy)).1 with ⟨x, hx⟩
      -- The bit was set by the last one to count, at which all GPUs were counted with all their
      -- tiles.
      refine ⟨h.counts.last_set y hy, fun d => ?_⟩
      have hin : place x ∈ w.announced := by
        rw [← hx]
        exact List.mem_map_of_mem hy
      rw [hx]
      rcases h.counts.all_counted hin d with ⟨hmem, hcounted⟩
      exact ⟨List.count_eq_one_of_mem h.counts.signalling.nodup hmem, hcounted⟩
    set_all := h.counts.all_set
    posted_once := h.queues.sending.nodup
    posted_own := fun y hy => by
      rcases mem_ownPosts_iff.mp (h.queues.mem_ownPosts y hy rfl) with ⟨_, x, hx, heq⟩
      refine ⟨x, heq.trans (by rw [← hx]), ?_⟩
      have hout := h.queues.sending.taken_of_out _ (List.mem_map_of_mem hy)
      rw [heq, ← hx] at hout
      exact hout
    ended_iff := hown
    compute_goes := fun hnot => by
      rcases not_forall.mp hnot with ⟨k, hk⟩
      exact h.compute_goes k hk
    -- Each step of a compute CTA leads down, and the others do not lead up.
    compute_ends := fun as w' hrun =>
      run_countP_le computeLeft Action.computes (I := fun _ => True) (fun _ _ _ _ _ _ => trivial)
        (fun _ _ _ _ _ hstep => compute_down hstep) as w w' trivial hrun
    send_goes := fun k hk => send_goes hk
    send_ends := fun hc as w' hrun => by
      -- When the compute CTAs are through, so does every step that is left.
      have hlen : as.countP (fun _ => true) ≤ sendLeft w := by
        refine run_countP_le (I := fun v => Inv v ∧ v.Computed) sendLeft _
          (fun u a v hu _ hstep =>
            ⟨inv_step ha hsend hu.1 hstep, (computed_step hu.2 hstep).2⟩)
          (fun u a v hu _ hstep => ?_) as w w' ⟨h, hc⟩ hrun
        rcases (computed_step hu.2 hstep).1 with ⟨k, rfl⟩
        exact send_down hu.1 hu.2 (by rwa [step] at hstep)
      rwa [List.countP_true] at hlen
    finishes := exists_end ha hsend h
    finished := fun hend x => (hown (sendIdOf hsend x)).mp (hend _) x rfl }

/-- In shapes whose row blocks are divided evenly, and with a sending CTA: the words and
    the maps are as they should be, and in every state of every run each chunk is handed
    on and posted once, and the loops end. -/
theorem handed_on (ha : setup.shape.Aligned) (hsend : 0 < setup.numSendSms) :
    Layout setup ∧ ∀ w, Reaches step always (init setup) w → HandedOn hsend w :=
  ⟨layout hsend, fun _ hrun => handedOn_of_inv ha hsend (inv_of_reaches ha hsend hrun)⟩

section Sample

/-- Two GPUs with a row block each and one chunk in it, two compute CTAs and one
    sending CTA on each. -/
def twoGpus : Setup where
  shape := ⟨256, 256, 2, 0⟩
  numCompSms := 2
  numSendSms := 1
  numDevices_lt := two_lt_two_pow
  numCompSms_pos := Nat.two_pos

/-- A compute CTA and a sending CTA of a GPU. -/
def cta (d c : Fin 2) : CtaId twoGpus := (d, c)
def sender (d : Fin 2) : SendId twoGpus := (d, (0 : Fin 1))

/-- The first GPU counts its part of its chunk before the second one does, but adds to
    the count of the chunk after it, and sets the bit. -/
def overtaken : List (Action twoGpus) :=
  [.count (cta 0 0), .count (cta 1 1), .signal (cta 1 1), .signal (cta 0 0), .setBit (cta 0 0)]

/-- Both sending CTAs look at a word without a bit, and then post. -/
def handedRun : List (Action twoGpus) :=
  [Action.send (sender 0), .send (sender 0), .send (sender 0), .send (sender 1)] ++ overtaken ++
  [Action.count (cta 0 1), .signal (cta 0 1), .count (cta 1 0), .signal (cta 1 0),
    .setBit (cta 1 0)] ++
  List.replicate 4 (Action.send (sender 0)) ++ List.replicate 4 (Action.send (sender 1))

/-- Where this leads to. -/
def handed : World twoGpus := (run step always handedRun (init twoGpus)).get (by decide +kernel)

theorem handed_on_twoGpus : Layout twoGpus ∧ @HandedOn twoGpus (by decide) handed ∧
    handed.posts = [(sender 0, (0, 0)), (sender 1, (0, 0))] := by
  have hrun : Reaches step always (init twoGpus) handed :=
    reaches_of_run handedRun _ _ (Option.some_get _).symm
  have hpromise := @handed_on twoGpus (by decide) (by decide)
  exact ⟨hpromise.1, hpromise.2 handed hrun, by decide +kernel⟩

/-- Three row blocks of two tiles on two GPUs. -/
def threeRows : Setup where
  shape := ⟨384, 512, 2, 0⟩
  numCompSms := 3
  numSendSms := 1
  numDevices_lt := two_lt_two_pow
  numCompSms_pos := by decide

def rowCta (d : Fin 2) (c : Fin 3) : CtaId threeRows := (d, c)

/-- The first GPU has its fifth task, a tile of the row left over, for one of the chunk
    of the second row block, and has not counted the other tile of it yet. -/
def leftOver : List (Action threeRows) :=
  [.count (rowCta 0 1), .count (rowCta 0 1), .count (rowCta 0 2), .signal (rowCta 0 2),
    .count (rowCta 1 0), .count (rowCta 1 1), .signal (rowCta 1 1), .setBit (rowCta 1 1)]

def early : World threeRows := (run step always leftOver (init threeRows)).get (by decide +kernel)

def late : World twoGpus := (run step always overtaken (init twoGpus)).get (by decide +kernel)

/-- No sending CTA. -/
def noSenders : Setup where
  shape := ⟨256, 256, 2, 0⟩
  numCompSms := 2
  numSendSms := 0
  numDevices_lt := two_lt_two_pow
  numCompSms_pos := Nat.two_pos

/-- With a row block left over a bit is set for a chunk that a GPU has not counted all
    tiles of. The GPU that sets a bit need not be the last that has counted them. And
    without a sending CTA nothing is posted. -/
theorem handed_on_limits :
    (∃ w, Reaches step always (init threeRows) w ∧ ∃ y ∈ w.sets, ∃ d, ¬ w.Counted (d, y.2)) ∧
      (∃ w, Reaches step always (init twoGpus) w ∧ ∃ y ∈ w.sets,
        (w.counted.filter fun z => z.2 = y.2).getLast? ≠ some y) ∧
      ∀ w, Reaches step always (init noSenders) w → w.posts = [] := by
  refine ⟨⟨early, reaches_of_run leftOver _ _ (Option.some_get _).symm, ((1 : Fin 2), (1, 0)),
    by decide +kernel, (0 : Fin 2), ?_⟩,
    ⟨late, reaches_of_run overtaken _ _ (Option.some_get _).symm, ((0 : Fin 2), (0, 0)),
      by decide +kernel, by decide +kernel⟩, fun w _ => ?_⟩
  · rintro ⟨-, hall⟩
    have hvisited : ¬ (early.walk (0 : Fin 2)).Visited 3 := by decide +kernel
    exact hvisited (hall 3 (by decide) (by decide))
  · exact List.eq_nil_iff_forall_not_mem.mpr fun y _ => y.1.2.elim0

end Sample

end Handoff

end GemmRs

end MKernel
