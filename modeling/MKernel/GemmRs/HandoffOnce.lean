import MKernel.Core.Ballot
import MKernel.Core.Custody
import MKernel.GemmRs.Accumulate
import MKernel.GemmRs.Handoff

/-!
# Every Chunk Is Handed On Once

What the counts and bits of `gemm_rs` promise, in whatever order the CTAs run.

A chunk passes through three stages. A GPU that has counted all of its tiles is in
the custody of the CTA that counted the last one, until that CTA has added to the
count on the owner. The chunk is in the custody of the CTA that made the count the
number of GPUs, until the bit is set. From then on it is in the custody of its
bit, and of the sending CTA that took the bit, until it is posted. Nothing is taken
twice in any of them and nothing is lost.

Two things make the stages fit together. As many tasks of a GPU are in a chunk as it
has tiles, which needs the row blocks to be divided evenly among the GPUs. And the
bit of a chunk is one that the sending CTA takes for the same chunk.

## Main definitions

* `CountInv`: The counts, up to the bit of a chunk.
* `QueueInv`: The bits, up to the post of a chunk.

## Theorems

* `inv_step`: Every step keeps both.
* `CountInv.all_set`: When all tiles are counted, all bits have been set.
* `QueueInv.ended`: A sending CTA that has left has posted its chunks.
-/

namespace MKernel

namespace GemmRs

namespace Handoff

open MKernel.Core MKernel.GemmAr
open MKernel.GemmRs.Accumulate (entries mem_entries card_entries)

variable {setup : Setup}

theorem eq_of_place {s : Shape} {x y : Chunk s} (h : place x = place y) : x = y :=
  Chunk.eq_of_row (Prod.mk.inj h).1 (Fin.ext (Prod.mk.inj h).2)

/-- The chunk a CTA has still to count its GPU for. -/
def Phase.signals : Phase → Option (Nat × Nat)
  | .signalling row chunkCol => some (row, chunkCol)
  | _ => none

/-- The chunk a CTA has still to set the bit of. -/
def Phase.sets : Phase → Option (Nat × Nat)
  | .setting row chunkCol => some (row, chunkCol)
  | _ => none

/-- The row block of the output and the column of a chunk of a GPU's slice. -/
def Setup.global (setup : Setup) (d : Fin setup.shape.numDevices) (x : Nat × Nat) : Nat × Nat :=
  (d * setup.shape.rowBlocksPerSlice + x.1, x.2)

namespace World

variable (w : World setup)

/-- A GPU has counted all tiles of a chunk. -/
def Counted (y : Fin setup.shape.numDevices × (Nat × Nat)) : Prop :=
  (∃ x : Chunk setup.shape, y.2 = place x) ∧
    ∀ t < setup.shape.numBlocks, chunkOfTask setup.shape y.1 t = y.2 → (w.walk y.1).Visited t

/-- All GPUs have added to the count of a chunk. -/
def Signalled (p : Nat × Nat) : Prop :=
  (∃ x : Chunk setup.shape, p = place x) ∧ ∀ y ∈ entries setup.shape.numDevices p, y ∈ w.signalled

/-- A GPU was the last that added to the count of a chunk. -/
def Last (y : Fin setup.shape.numDevices × (Nat × Nat)) : Prop :=
  (w.signalled.filter fun z => z.2 = y.2).getLast? = some y

/-- A bit in the queue of a sending CTA is set. -/
def QueueBit (k : SendId setup) (idx : Nat) : Prop :=
  idx / 32 < setup.queueWords ∧ (w.word k (idx / 32)).getLsbD (idx % 32) = true

instance (k : SendId setup) (idx : Nat) : Decidable (w.QueueBit k idx) :=
  inferInstanceAs (Decidable (_ ∧ _))

/-- The chunk a CTA has still to count its GPU for, with the GPU. -/
def owes (k : CtaId setup) : Option (Fin setup.shape.numDevices × (Nat × Nat)) :=
  (w.phase k).signals.map (Prod.mk k.1)

/-- The chunk in the custody of a bit, or of a sending CTA. -/
def held : (SendId setup × Nat) ⊕ SendId setup → Option (Nat × Nat)
  | .inl (k, idx) =>
      if w.QueueBit k idx then some (setup.global k.1 (setup.sendPlace k.2 idx)) else none
  | .inr k =>
      match (w.sender k).pc with
      | .posting idx => some (setup.global k.1 (setup.sendPlace k.2 idx))
      | _ => none

/-- The chunks that were posted, by their places in the output. -/
def posted : List (Nat × Nat) := w.posts.map fun y => setup.global y.1.1 y.2

/-- The chunks whose bits were set. -/
def announced : List (Nat × Nat) := w.sets.map Prod.snd

end World

/-- What holds of the counts. -/
structure CountInv (w : World setup) : Prop where
  done_eq : ∀ d (x : Chunk setup.shape), w.compGemmDone d (setup.shape.flatChunk x.row x.chunkCol) =
    (((w.walk d).seen setup.shape.numBlocks).filter
      (fun t => chunkOfTask setup.shape d t = place x)).card
  mem_counted : ∀ y, y ∈ w.counted ↔ w.Counted y
  signalling : Custody w.owes (· ∈ w.counted) w.signalled
  signalling_kept : Kept w.owes (· ∈ w.counted) w.signalled
  ready_eq : ∀ x : Chunk setup.shape,
    w.readyChunk x.owner (setup.shape.flatChunk x.row x.chunkCol) =
      BitVec.ofNat 32 (w.signalled.countP fun y => y.2 = place x)
  setting : Custody (fun k => (w.phase k).sets) w.Signalled w.announced
  setting_kept : Kept (fun k => (w.phase k).sets) w.Signalled w.announced
  last_setting : ∀ k p, (w.phase k).sets = some p → w.Last (k.1, p)
  last_set : ∀ y ∈ w.sets, w.Last y

/-- What holds of the bits and of the sending CTAs. -/
structure QueueInv (w : World setup) : Prop where
  sending : Custody w.held (· ∈ w.announced) w.posted
  kept : Kept w.held (· ∈ w.announced) w.posted
  mine : ∀ k idx, w.QueueBit k idx → idx < setup.myChunksTotal k.2
  posting : ∀ k idx, (w.sender k).pc = .posting idx → idx < setup.myChunksTotal k.2
  claiming : ∀ k i old, (w.sender k).pc = .claiming i old → i < setup.queueWords ∧ old ≠ 0 ∧
    ∀ b, old.getLsbD b = true → (w.word k i).getLsbD b = true
  posted_eq : ∀ k, (w.sender k).posted = w.posts.countP fun y => y.1 = k
  posts_mine : ∀ y ∈ w.posts, ∃ idx < setup.myChunksTotal y.1.2, y.2 = setup.sendPlace y.1.2 idx
  ended_iff : ∀ k, (w.sender k).pc = .ended ↔ setup.myChunksTotal k.2 ≤ (w.sender k).posted

/-! ## Places and words -/

section Words

variable {w : World setup}

/-- The count of a chunk is in no queue. -/
theorem word_setWord_flat (d : Fin setup.shape.numDevices) (x : Chunk setup.shape) (v : BitVec 32)
    (k : SendId setup) (i : Nat) :
    (w.setWord d (setup.shape.flatChunk x.row x.chunkCol) v).word k i = w.word k i := by
  simp only [World.word, World.setWord, update_word]
  exact if_neg fun h => Nat.ne_of_gt (flatChunk_lt x k.2 i) h.2

/-- A word of a queue is no count. -/
theorem flat_setWord_queue (d : Fin setup.shape.numDevices) (sendId i : Nat) (v : BitVec 32)
    (e : Fin setup.shape.numDevices) (x : Chunk setup.shape) :
    (w.setWord d (queueWord setup.shape setup.numSendSms sendId i) v).readyChunk e
        (setup.shape.flatChunk x.row x.chunkCol) =
      w.readyChunk e (setup.shape.flatChunk x.row x.chunkCol) := by
  simp only [World.setWord, update_word]
  exact if_neg fun h => Nat.ne_of_lt (flatChunk_lt x sendId i) h.2

/-- One count changes. -/
theorem flat_setWord (d e : Fin setup.shape.numDevices) (x y : Chunk setup.shape) (v : BitVec 32)
    (hd : e = d ∨ place x ≠ place y) :
    (w.setWord e (setup.shape.flatChunk x.row x.chunkCol) v).readyChunk d
        (setup.shape.flatChunk y.row y.chunkCol) =
      if place x = place y then v
      else w.readyChunk d (setup.shape.flatChunk y.row y.chunkCol) := by
  simp only [World.setWord, update_word, flat_eq_iff]
  refine if_congr ⟨fun h => h.2.symm, fun h => ⟨?_, h.symm⟩⟩ rfl rfl
  exact (hd.resolve_right (not_not_intro h)).symm

/-- One word of one queue changes. -/
theorem word_setWord {k j : SendId setup} {i i' : Nat} (hi : i < setup.queueWords)
    (hi' : i' < setup.queueWords) (v : BitVec 32) :
    (w.setWord k.1 (queueWord setup.shape setup.numSendSms k.2 i) v).word j i' =
      if j = k ∧ i' = i then v else w.word j i' := by
  simp only [World.word, World.setWord, update_word]
  refine if_congr ⟨fun h => ?_, fun h => ?_⟩ rfl rfl
  · rcases queueWord_inj hi' hi h.2 with ⟨hid, hii⟩
    exact ⟨Prod.ext h.1 (Fin.ext hid), hii⟩
  · rw [h.1, h.2]
    exact ⟨rfl, rfl⟩

theorem ffs_pos {x : BitVec 32} (hx : x ≠ 0) : x.getLsbD (lowest x) = true := by
  rw [lowest, ffs, if_neg hx, Nat.add_sub_cancel]
  exact BitVec.getLsbD_true_ctz_of_ne_zero hx

theorem lowest_lt {x : BitVec 32} (hx : x ≠ 0) : lowest x < 32 :=
  BitVec.lt_of_getLsbD (ffs_pos hx)

/-- One bit is taken out of the word. -/
theorem getLsbD_desired {x : BitVec 32} (hx : x ≠ 0) {b : Nat} :
    (desired x).getLsbD b = true ↔ x.getLsbD b = true ∧ b ≠ lowest x := by
  have hbit := voters_bit (lowest_lt hx)
  have hvote : (1#32 <<< lowest x).getLsbD b = true ↔ b = lowest x := by
    rw [← mem_voters, hbit, Finset.mem_singleton]
  rw [desired, BitVec.getLsbD_and, BitVec.getLsbD_not, Bool.and_eq_true, Bool.and_eq_true,
    decide_eq_true_eq, Bool.not_eq_true', ← Bool.not_eq_true, hvote]
  constructor
  · rintro ⟨hb, _, hne⟩
    exact ⟨hb, hne⟩
  · rintro ⟨hb, hne⟩
    exact ⟨hb, BitVec.lt_of_getLsbD hb, hne⟩

end Words

/-! ## Counting -/

section Counts

variable {w : World setup} {k : CtaId setup}

/-- A GPU has counted all tiles of a chunk when it has counted as many as the chunk
    has. -/
theorem counted_iff (ha : setup.shape.Aligned) (d : Fin setup.shape.numDevices)
    (x : Chunk setup.shape) : w.Counted (d, place x) ↔
      (((w.walk d).seen setup.shape.numBlocks).filter
        (fun t => chunkOfTask setup.shape d t = place x)).card = x.tiles := by
  have hsub : ((w.walk d).seen setup.shape.numBlocks).filter
      (fun t => chunkOfTask setup.shape d t = place x) ⊆
      (Finset.range setup.shape.numBlocks).filter
        (fun t => chunkOfTask setup.shape d t = place x) :=
    Finset.filter_subset_filter _ (Finset.filter_subset _ _)
  have hall := card_tasks ha d x
  constructor
  · rintro ⟨-, hvisited⟩
    rw [← hall]
    refine congrArg Finset.card (Finset.Subset.antisymm hsub fun t ht => ?_)
    rw [Finset.mem_filter, Finset.mem_range] at ht
    rw [Finset.mem_filter, Strided.mem_seen]
    exact ⟨⟨ht.1, hvisited t ht.1 ht.2⟩, ht.2⟩
  · intro hcard
    -- As many seen as there are, so all are seen.
    refine ⟨⟨x, rfl⟩, fun t ht hchunk => ?_⟩
    have hmem : t ∈ (Finset.range setup.shape.numBlocks).filter
        (fun t => chunkOfTask setup.shape d t = place x) :=
      Finset.mem_filter.mpr ⟨Finset.mem_range.mpr ht, hchunk⟩
    rw [← Finset.eq_of_subset_of_card_le hsub (Nat.le_of_eq (hall.trans hcard.symm)),
      Finset.mem_filter, Strided.mem_seen] at hmem
    exact hmem.1.2

/-- A compute CTA takes its next tile. -/
def World.advance (w : World setup) (k : CtaId setup) : World setup :=
  { w with walk := Function.update w.walk k.1 ((w.walk k.1).advance k.2) }

/-- The tile is one more of its chunk, and of no other. -/
theorem card_advance (ht : (w.walk k.1).next k.2 < setup.shape.numBlocks) {x : Chunk setup.shape}
    (hx : chunkOfTask setup.shape k.1 ((w.walk k.1).next k.2) = place x)
    (d : Fin setup.shape.numDevices) (y : Chunk setup.shape) :
    ((((w.advance k).walk d).seen setup.shape.numBlocks).filter
      (fun t => chunkOfTask setup.shape d t = place y)).card =
    (((w.walk d).seen setup.shape.numBlocks).filter
      (fun t => chunkOfTask setup.shape d t = place y)).card +
      if d = k.1 ∧ place x = place y then 1 else 0 := by
  simp only [World.advance]
  by_cases hd : d = k.1
  · rw [hd, Function.update_self, Strided.card_filter_advance _ _ ht, hx]
    exact congrArg _ (if_congr (and_iff_right rfl).symm rfl rfl)
  · rw [Function.update_of_ne hd, if_neg fun h => hd h.1, Nat.add_zero]

/-- A chunk that a GPU has counted by then was counted before, or is the chunk of the
    tile. -/
theorem counted_advance (ha : setup.shape.Aligned)
    (ht : (w.walk k.1).next k.2 < setup.shape.numBlocks) {x : Chunk setup.shape}
    (hx : chunkOfTask setup.shape k.1 ((w.walk k.1).next k.2) = place x)
    (y : Fin setup.shape.numDevices × (Nat × Nat)) :
    (w.advance k).Counted y ↔
      w.Counted y ∨ y = (k.1, place x) ∧ (w.advance k).Counted (k.1, place x) := by
  by_cases hy : y = (k.1, place x)
  · -- The tile was not counted before.
    have hnew : ¬ w.Counted (k.1, place x) := by
      rintro ⟨-, hall⟩
      exact Strided.next_notMem_seen _ k.2 _ (Strided.mem_seen.mpr ⟨ht, hall _ ht hx⟩)
    rw [hy]
    exact ⟨fun h => Or.inr ⟨rfl, h⟩, fun h => h.elim (fun h' => absurd h' hnew) And.right⟩
  · rw [or_iff_left fun h => hy h.1]
    by_cases hplace : ∃ z : Chunk setup.shape, y.2 = place z
    · rcases hplace with ⟨z, hz⟩
      have heq : y = (y.1, place z) := Prod.ext rfl hz
      rw [heq, counted_iff ha, counted_iff ha, card_advance ht hx, if_neg, Nat.add_zero]
      rintro ⟨hd, hxz⟩
      exact hy (Prod.ext hd (hz.trans hxz.symm))
    · exact iff_of_false (fun h => hplace h.1) fun h => hplace h.1

/-- A CTA that goes to a place owes what it owes there. -/
theorem owes_setPhase (p : Phase) (j : CtaId setup) :
    (w.setPhase k p).owes j = if j = k then p.signals.map (Prod.mk k.1) else w.owes j := by
  simp only [World.owes, World.setPhase]
  by_cases hj : j = k
  · rw [hj, Function.update_self, if_pos rfl]
  · rw [Function.update_of_ne hj, if_neg hj]

theorem sets_setPhase (p : Phase) (j : CtaId setup) :
    ((w.setPhase k p).phase j).sets = if j = k then p.sets else (w.phase j).sets := by
  simp only [World.setPhase]
  by_cases hj : j = k
  · rw [hj, Function.update_self, if_pos rfl]
  · rw [Function.update_of_ne hj, if_neg hj]

/-- The tile is counted for its chunk. -/
theorem CountInv.done_advance (h : CountInv w)
    (ht : (w.walk k.1).next k.2 < setup.shape.numBlocks) {x : Chunk setup.shape}
    (hx : chunkOfTask setup.shape k.1 ((w.walk k.1).next k.2) = place x)
    (d : Fin setup.shape.numDevices) (y : Chunk setup.shape) :
    Function.update w.compGemmDone k.1
        (Function.update (w.compGemmDone k.1) (setup.shape.flatChunk x.row x.chunkCol)
          (w.compGemmDone k.1 (setup.shape.flatChunk x.row x.chunkCol) + 1)) d
        (setup.shape.flatChunk y.row y.chunkCol) =
      ((((w.advance k).walk d).seen setup.shape.numBlocks).filter
        (fun t => chunkOfTask setup.shape d t = place y)).card := by
  rw [card_advance ht hx, ← h.done_eq]
  by_cases hd : d = k.1
  · rw [hd, Function.update_self]
    by_cases hxy : place x = place y
    · rw [← (flat_eq_iff x y).mpr hxy, Function.update_self, if_pos ⟨rfl, hxy⟩]
    · rw [if_neg fun h' => hxy h'.2, Nat.add_zero]
      exact Function.update_of_ne (fun h' => hxy ((flat_eq_iff y x).mp h').symm) _ _
  · rw [Function.update_of_ne hd, if_neg fun h' => hd h'.1, Nat.add_zero]

/-- Counting a tile that is not the last of its chunk. -/
theorem CountInv.count (h : CountInv w) (ha : setup.shape.Aligned)
    (ht : (w.walk k.1).next k.2 < setup.shape.numBlocks) {x : Chunk setup.shape}
    (hx : chunkOfTask setup.shape k.1 ((w.walk k.1).next k.2) = place x)
    (hmore : w.compGemmDone k.1 (setup.shape.flatChunk x.row x.chunkCol) + 1 ≠ x.tiles) :
    CountInv { w.advance k with
      compGemmDone := Function.update w.compGemmDone k.1
        (Function.update (w.compGemmDone k.1) (setup.shape.flatChunk x.row x.chunkCol)
          (w.compGemmDone k.1 (setup.shape.flatChunk x.row x.chunkCol) + 1)) } := by
  have hnone : ¬ (w.advance k).Counted (k.1, place x) := by
    rw [counted_iff ha, card_advance ht hx, if_pos ⟨rfl, rfl⟩, ← h.done_eq]
    exact hmore
  exact { h with
    done_eq := h.done_advance ht hx
    mem_counted := fun y => by
      refine (h.mem_counted y).trans (Iff.trans ?_ (counted_advance ha ht hx y).symm)
      exact (or_iff_left fun hy => hnone hy.2).symm }

/-- Counting the last tile of a chunk. -/
theorem CountInv.countLast (h : CountInv w) (ha : setup.shape.Aligned) (hphase : w.phase k = .tile)
    (ht : (w.walk k.1).next k.2 < setup.shape.numBlocks) {x : Chunk setup.shape}
    (hx : chunkOfTask setup.shape k.1 ((w.walk k.1).next k.2) = place x)
    (hlast : w.compGemmDone k.1 (setup.shape.flatChunk x.row x.chunkCol) + 1 = x.tiles) :
    CountInv { (w.advance k).setPhase k (.signalling x.row x.chunkCol) with
      compGemmDone := Function.update w.compGemmDone k.1
        (Function.update (w.compGemmDone k.1) (setup.shape.flatChunk x.row x.chunkCol)
          (w.compGemmDone k.1 (setup.shape.flatChunk x.row x.chunkCol) + 1))
      counted := w.counted ++ [(k.1, place x)] } := by
  -- The tile was the last one of the chunk that the GPU had not counted.
  have hall : (w.advance k).Counted (k.1, place x) := by
    rw [counted_iff ha, card_advance ht hx, if_pos ⟨rfl, rfl⟩, ← h.done_eq]
    exact hlast
  -- It could not be counted before, since the task had not been taken.
  have hnew : (k.1, place x) ∉ w.counted := by
    rw [h.mem_counted]
    rintro ⟨-, hvisited⟩
    exact Strided.next_notMem_seen _ k.2 _ (Strided.mem_seen.mpr ⟨ht, hvisited _ ht hx⟩)
  have hmem : ∀ y, y ∈ w.counted ++ [(k.1, place x)] ↔ y ∈ w.counted ∨ y = (k.1, place x) :=
    fun y => by rw [List.mem_append, List.mem_singleton]
  -- The CTA owes nothing yet, so that it can take this on.
  have hnone : w.owes k = none := by
    rw [World.owes, hphase]
    rfl
  have hother : ∀ j, j ≠ k →
      (w.setPhase k (.signalling x.row x.chunkCol)).owes j = w.owes j := fun j hj => by
    rw [owes_setPhase, if_neg hj]
  have hself : (w.setPhase k (.signalling x.row x.chunkCol)).owes k = some (k.1, place x) := by
    rw [owes_setPhase, if_pos rfl]
    rfl
  have hsets : ∀ j, ((w.setPhase k (.signalling x.row x.chunkCol)).phase j).sets =
      (w.phase j).sets := fun j => by
    rw [sets_setPhase]
    by_cases hj : j = k
    · rw [if_pos hj, hj, hphase]
      rfl
    · rw [if_neg hj]
  exact {
    done_eq := h.done_advance ht hx
    mem_counted := fun y => by
      refine (hmem y).trans (Iff.trans ?_ (counted_advance ha ht hx y).symm)
      rw [h.mem_counted]
      exact or_congr Iff.rfl (and_iff_left hall).symm
    signalling := h.signalling.claim hnew hother hself hmem
    signalling_kept := h.signalling_kept.claim hnone hother hself hmem
    ready_eq := h.ready_eq
    setting := h.setting.congr hsets fun _ => Iff.rfl
    setting_kept := h.setting_kept.congr hsets fun _ => Iff.rfl
    last_setting := fun j p hj => h.last_setting j p ((hsets j).symm.trans hj)
    last_set := h.last_set }

/-- What a CTA is about to count its GPU for is a chunk. -/
theorem CountInv.signalled_place (h : CountInv w) {row chunkCol : Nat}
    (hphase : w.phase k = .signalling row chunkCol) :
    ∃ x : Chunk setup.shape, (row, chunkCol) = place x ∧ w.owes k = some (k.1, place x) := by
  have howes : w.owes k = some (k.1, (row, chunkCol)) := by
    rw [World.owes, hphase]
    rfl
  have hcounted := h.signalling.taken_of_held k _ howes
  rw [h.mem_counted] at hcounted
  rcases hcounted.1 with ⟨x, hx⟩
  exact ⟨x, hx, by rw [howes, ← hx]⟩

/-- The chunk a CTA is about to set the bit of is one all GPUs have counted. -/
theorem CountInv.setting_place (h : CountInv w) {row chunkCol : Nat}
    (hphase : w.phase k = .setting row chunkCol) :
    ∃ x : Chunk setup.shape, (row, chunkCol) = place x ∧ (w.phase k).sets = some (place x) := by
  have hsets : (w.phase k).sets = some (row, chunkCol) := by
    rw [hphase]
    rfl
  rcases (h.setting.taken_of_held k _ hsets).1 with ⟨x, hx⟩
  exact ⟨x, hx, by rw [hsets, ← hx]⟩

/-- A list with one more entry has one more of a kind if the entry is of it. -/
theorem countP_place (y : Fin setup.shape.numDevices × (Nat × Nat)) (p : Nat × Nat) :
    (w.signalled ++ [y]).countP (fun z => z.2 = p) =
      w.signalled.countP (fun z => z.2 = p) + if y.2 = p then 1 else 0 := by
  rw [List.countP_append, List.countP_singleton]
  simp only [decide_eq_true_eq]

/-- After a GPU is counted, all are if the count was one less than their number. -/
theorem signalled_concat (h : CountInv w) {x : Chunk setup.shape}
    (howes : w.owes k = some (k.1, place x)) {l : World setup}
    (hl : l.signalled = w.signalled ++ [(k.1, place x)]) (p : Nat × Nat) :
    l.Signalled p ↔ w.Signalled p ∨ p = place x ∧
      w.readyChunk x.owner (setup.shape.flatChunk x.row x.chunkCol) =
        BitVec.ofNat 32 (setup.shape.numDevices - 1) := by
  have hnew : (k.1, place x) ∉ w.signalled := h.signalling.notMem_of_held k _ howes
  have hmem : ∀ y, y ∈ l.signalled ↔ y ∈ w.signalled ∨ y = (k.1, place x) := fun y => by
    rw [hl, List.mem_append, List.mem_singleton]
  by_cases hp : p = place x
  · -- The count is that of the GPUs, of which this one is new.
    have hnodup : l.signalled.Nodup := by
      rw [hl, ← List.concat_eq_append]
      exact h.signalling.nodup.concat hnew
    have hnot : ¬ w.Signalled p := by
      rintro ⟨-, hall⟩
      exact hnew (hall _ (mem_entries.mpr hp.symm))
    rw [or_iff_right hnot, and_iff_right hp, h.ready_eq]
    have hcard := countP_eq_card_iff (p := fun z => z.2 = p)
      (S := entries setup.shape.numDevices p) hnodup (fun y _ hy => mem_entries.mpr hy)
      fun y hy => mem_entries.mp hy
    have hle := countP_le_card (p := fun z => z.2 = p) (S := entries setup.shape.numDevices p)
      hnodup fun y _ hy => mem_entries.mpr hy
    rw [card_entries, hl, countP_place, if_pos hp.symm] at hle hcard
    -- The word does not wrap, because the number of GPUs fits into it.
    have hD := setup.numDevices_lt
    have hword : BitVec.ofNat 32 (w.signalled.countP fun z => z.2 = place x) =
        BitVec.ofNat 32 (setup.shape.numDevices - 1) ↔
          w.signalled.countP (fun z => z.2 = p) + 1 = setup.shape.numDevices := by
      rw [← BitVec.toNat_inj, BitVec.toNat_ofNat, BitVec.toNat_ofNat, hp] at *
      omega
    rw [hword, hcard, World.Signalled, and_iff_right ⟨x, hp⟩, hl]
  · -- Another chunk has the same GPUs as before.
    rw [or_iff_left fun h' => hp h'.1]
    refine and_congr Iff.rfl (forall₂_congr fun y hy => ?_)
    rw [hmem, or_iff_left]
    rintro rfl
    exact hp (mem_entries.mp hy).symm

/-- Whoever was the last for a chunk stays it, if another one is counted. -/
theorem last_concat {y z : Fin setup.shape.numDevices × (Nat × Nat)} {l : World setup}
    (hl : l.signalled = w.signalled ++ [z]) (hne : z.2 ≠ y.2) (h : w.Last y) : l.Last y := by
  rw [World.Last, hl, List.filter_append, List.filter_singleton, decide_eq_false hne, cond_false,
    List.append_nil]
  exact h

/-- The world after a GPU is counted for a chunk. -/
def World.countGpu (w : World setup) (k : CtaId setup) (x : Chunk setup.shape) : World setup :=
  let flatChunk := setup.shape.flatChunk x.row x.chunkCol
  let readyPrev := w.readyChunk x.owner flatChunk
  { (w.setPhase k
      (if readyPrev = BitVec.ofNat 32 (setup.shape.numDevices - 1) then .setting x.row x.chunkCol
      else .tile)).setWord x.owner flatChunk (readyPrev + 1) with
    signalled := w.signalled ++ [(k.1, place x)] }

/-- Counting a GPU for a chunk it has counted all tiles of. -/
theorem CountInv.signal (h : CountInv w) {x : Chunk setup.shape}
    (howes : w.owes k = some (k.1, place x)) : CountInv (w.countGpu k x) := by
  have hnew : (k.1, place x) ∉ w.signalled := h.signalling.notMem_of_held k _ howes
  have hnone : (w.phase k).sets = none := by
    unfold World.owes at howes
    cases hphase : w.phase k with
    | tile => rfl
    | signalling row chunkCol => rfl
    | setting row chunkCol =>
        rw [hphase] at howes
        exact absurd howes (by simp only [Phase.signals, Option.map_none, reduceCtorEq,
          not_false_eq_true])
  -- The CTA is then at another place that owes no count, and before a bit if it was the last.
  have hgive : (w.countGpu k x).owes k = none := by
    refine (owes_setPhase _ k).trans ?_
    rw [if_pos rfl]
    split <;> rfl
  have hother : ∀ j, j ≠ k → (w.countGpu k x).owes j = w.owes j := fun j hj => by
    refine (owes_setPhase _ j).trans ?_
    rw [if_neg hj]
  have hsets : ∀ j, j ≠ k → ((w.countGpu k x).phase j).sets = (w.phase j).sets := fun j hj => by
    refine (sets_setPhase _ j).trans ?_
    rw [if_neg hj]
  have hself : ((w.countGpu k x).phase k).sets =
      if w.readyChunk x.owner (setup.shape.flatChunk x.row x.chunkCol) =
        BitVec.ofNat 32 (setup.shape.numDevices - 1) then some (place x) else none := by
    refine (sets_setPhase _ k).trans ?_
    rw [if_pos rfl]
    split <;> rfl
  have hall := signalled_concat h howes (l := w.countGpu k x) rfl
  -- No bit was set for the chunk, and none is about to be.
  have hold : ∀ p, w.Signalled p → place x ≠ p := by
    rintro p ⟨-, hmem⟩ rfl
    exact hnew (hmem _ (mem_entries.mpr rfl))
  have hkept : ∀ y, w.Signalled y.2 → w.Last y → (w.countGpu k x).Last y := fun y hy hlast =>
    last_concat rfl (hold _ hy) hlast
  have hset : ∀ y ∈ w.sets, (w.countGpu k x).Last y := fun y hy =>
    hkept y (h.setting.taken_of_out _ (List.mem_map_of_mem hy)) (h.last_set y hy)
  have hready : ∀ y : Chunk setup.shape,
      (w.countGpu k x).readyChunk y.owner (setup.shape.flatChunk y.row y.chunkCol) =
        BitVec.ofNat 32 ((w.countGpu k x).signalled.countP fun z => z.2 = place y) := fun y => by
    have hword := flat_setWord (w := w) y.owner x.owner x y
      (w.readyChunk x.owner (setup.shape.flatChunk x.row x.chunkCol) + 1) (by
        by_cases hxy : place x = place y
        · exact Or.inl (by rw [eq_of_place hxy])
        · exact Or.inr hxy)
    refine hword.trans ?_
    simp only [World.countGpu, countP_place]
    by_cases hxy : place x = place y
    · rw [if_pos hxy, if_pos hxy, h.ready_eq, BitVec.ofNat_add, hxy]
      rfl
    · rw [if_neg hxy, if_neg hxy, Nat.add_zero]
      exact h.ready_eq y
  by_cases hlast : w.readyChunk x.owner (setup.shape.flatChunk x.row x.chunkCol) =
      BitVec.ofNat 32 (setup.shape.numDevices - 1)
  · rw [if_pos hlast] at hself
    have htaken : ∀ p, (w.countGpu k x).Signalled p ↔ w.Signalled p ∨ p = place x := fun p => by
      rw [hall, and_iff_left hlast]
    have hfresh : ¬ w.Signalled (place x) := fun h' => hold _ h' rfl
    exact {
      done_eq := h.done_eq
      mem_counted := h.mem_counted
      signalling := h.signalling.release howes hother hgive
      signalling_kept := h.signalling_kept.release howes hother
      ready_eq := hready
      setting := h.setting.claim hfresh hsets hself htaken
      setting_kept := h.setting_kept.claim hnone hsets hself htaken
      last_setting := fun j p hj => by
        by_cases hjk : j = k
        · rw [hjk, hself] at hj
          cases hj
          rw [hjk, World.Last]
          simp only [World.countGpu, List.filter_append, List.filter_singleton, decide_true,
            cond_true, List.getLast?_append, List.getLast?_singleton, Option.some_or]
        · rw [hsets j hjk] at hj
          exact hkept _ (h.setting.taken_of_held j p hj) (h.last_setting j p hj)
      last_set := hset }
  · rw [if_neg hlast] at hself
    have htaken : ∀ p, (w.countGpu k x).Signalled p ↔ w.Signalled p := fun p => by
      rw [hall, or_iff_left fun h' => hlast h'.2]
    have hsame : ∀ j, ((w.countGpu k x).phase j).sets = (w.phase j).sets := fun j => by
      by_cases hj : j = k
      · rw [hj, hself, hnone]
      · exact hsets j hj
    exact {
      done_eq := h.done_eq
      mem_counted := h.mem_counted
      signalling := h.signalling.release howes hother hgive
      signalling_kept := h.signalling_kept.release howes hother
      ready_eq := hready
      setting := h.setting.congr hsame htaken
      setting_kept := h.setting_kept.congr hsame htaken
      last_setting := fun j p hj => by
        rw [hsame j] at hj
        exact hkept _ (h.setting.taken_of_held j p hj) (h.last_setting j p hj)
      last_set := hset }

/-- The world after the bit of a chunk is set. -/
def World.setReady (w : World setup) (k : CtaId setup) (x : Chunk setup.shape) : World setup :=
  let word := bitmapWord setup.shape setup.numSendSms x.rbInSlice x.chunkCol
  let bit := 1#32 <<< bitmapBit setup.shape setup.numSendSms x.rbInSlice x.chunkCol
  { (w.setPhase k .tile).setWord x.owner word (w.readyChunk x.owner word ||| bit) with
    sets := w.sets ++ [(k.1, place x)] }

/-- Setting the bit of a chunk all GPUs are counted for. -/
theorem CountInv.setReady (h : CountInv w) {x : Chunk setup.shape}
    (hx : (w.phase k).sets = some (place x)) : CountInv (w.setReady k x) := by
  -- The CTA is about to set the bit, so it does not owe a count.
  have hnone : w.owes k = none := by
    unfold World.owes
    cases hphase : w.phase k with
    | tile => rfl
    | signalling row chunkCol =>
        rw [hphase] at hx
        exact absurd hx (by simp only [Phase.sets, reduceCtorEq, not_false_eq_true])
    | setting row chunkCol => rfl
  have howes : ∀ j, (w.setReady k x).owes j = w.owes j := fun j => by
    refine (owes_setPhase _ j).trans ?_
    by_cases hj : j = k
    · rw [if_pos hj, hj, hnone]
      rfl
    · rw [if_neg hj]
  have hother : ∀ j, j ≠ k → ((w.setReady k x).phase j).sets = (w.phase j).sets := fun j hj => by
    refine (sets_setPhase _ j).trans ?_
    rw [if_neg hj]
  have hgive : ((w.setReady k x).phase k).sets = none := by
    refine (sets_setPhase _ k).trans ?_
    rw [if_pos rfl]
    rfl
  have hout : (w.setReady k x).announced = w.announced ++ [place x] := by
    simp only [World.announced, World.setReady, List.map_append, List.map_cons, List.map_nil]
  exact { h with
    signalling := h.signalling.congr howes fun _ => Iff.rfl
    signalling_kept := h.signalling_kept.congr howes fun _ => Iff.rfl
    -- The bit is in a word behind the counts.
    ready_eq := fun y =>
      (flat_setWord_queue (w := w) x.owner _ _ _ y.owner y).trans (h.ready_eq y)
    setting := by
      rw [hout]
      exact h.setting.release hx hother hgive
    setting_kept := by
      rw [hout]
      exact h.setting_kept.release hx hother
    -- Who is about to set a bit has counted the last GPU, and the world after has the same
    -- counts.
    last_setting := fun j p hj => by
      by_cases hjk : j = k
      · rw [hjk, hgive] at hj
        exact absurd hj (by simp only [reduceCtorEq, not_false_eq_true])
      · rw [hother j hjk] at hj
        exact h.last_setting j p hj
    last_set := fun y hy => by
      rcases List.mem_append.mp hy with hold | hnew
      · exact h.last_set y hold
      · rw [List.mem_singleton.mp hnew]
        exact h.last_setting k _ hx }

end Counts

/-! ## Sending -/

section Sends

variable {w w' : World setup} {k : SendId setup}

theorem queueBit_congr (hword : ∀ k i, w'.word k i = w.word k i) (j : SendId setup) (idx : Nat) :
    w'.QueueBit j idx ↔ w.QueueBit j idx := by
  rw [World.QueueBit, World.QueueBit, hword]

/-- What becomes of custody if neither the words nor the sending CTAs change. -/
theorem held_congr (hword : ∀ k i, w'.word k i = w.word k i) (hsender : w'.sender = w.sender)
    (j : (SendId setup × Nat) ⊕ SendId setup) : w'.held j = w.held j := by
  rcases j with ⟨j, idx⟩ | j
  · exact if_congr (queueBit_congr hword j idx) rfl rfl
  · simp only [World.held, hsender]

/-- Counting does not touch the queues. -/
theorem QueueInv.congr (h : QueueInv w) (hword : ∀ k i, w'.word k i = w.word k i)
    (hsender : w'.sender = w.sender) (hsets : w'.sets = w.sets) (hposts : w'.posts = w.posts) :
    QueueInv w' := by
  have hannounced : w'.announced = w.announced := by
    rw [World.announced, World.announced, hsets]
  have hposted : w'.posted = w.posted := by
    rw [World.posted, World.posted, hposts]
  exact {
    sending := by
      rw [hannounced, hposted]
      exact h.sending.congr (held_congr hword hsender) fun _ => Iff.rfl
    kept := by
      rw [hannounced, hposted]
      exact h.kept.congr (held_congr hword hsender) fun _ => Iff.rfl
    mine := fun j idx hbit => h.mine j idx ((queueBit_congr hword j idx).mp hbit)
    posting := by
      rw [hsender]
      exact h.posting
    claiming := fun j i old hpc => by
      rw [hsender] at hpc
      rw [hword]
      exact h.claiming j i old hpc
    posted_eq := by
      rw [hsender, hposts]
      exact h.posted_eq
    posts_mine := by
      rw [hposts]
      exact h.posts_mine
    ended_iff := by
      rw [hsender]
      exact h.ended_iff }

/-- The sending CTA that is to post a chunk. -/
def sendIdOf (hsend : 0 < setup.numSendSms) (x : Chunk setup.shape) : SendId setup :=
  (x.owner, ⟨x.rbInSlice % setup.numSendSms, Nat.mod_lt _ hsend⟩)

/-- The place of its bit. -/
def idxOf (x : Chunk setup.shape) : Nat :=
  queueIdx setup.shape setup.numSendSms x.rbInSlice x.chunkCol

theorem global_idxOf (hsend : 0 < setup.numSendSms) (x : Chunk setup.shape) :
    setup.global (sendIdOf hsend x).1 (setup.sendPlace (sendIdOf hsend x).2 (idxOf x)) =
      place x := by
  simp only [sendIdOf, idxOf, sendPlace_queueIdx x.chunkCol.isLt]
  rfl

theorem idxOf_lt (hsend : 0 < setup.numSendSms) (x : Chunk setup.shape) :
    idxOf x < setup.myChunksTotal (sendIdOf hsend x).2 :=
  queueIdx_lt_myChunksTotal hsend x.rbInSlice.isLt x.chunkCol.isLt

/-- What a bit stands for is a chunk, and the bit is that of the chunk. -/
theorem exists_chunk_of_idx {idx : Nat} (hidx : idx < setup.myChunksTotal k.2) :
    ∃ (hsend : 0 < setup.numSendSms) (x : Chunk setup.shape),
      sendIdOf hsend x = k ∧ idxOf x = idx ∧
        setup.sendPlace k.2 idx = (x.rbInSlice.val, x.chunkCol.val) ∧
        setup.global k.1 (setup.sendPlace k.2 idx) = place x := by
  rcases queueIdx_sendPlace k.2.isLt hidx with ⟨hrb, hcol, hmod, heq⟩
  exact ⟨Nat.lt_of_le_of_lt (Nat.zero_le _) k.2.isLt, ⟨k.1, ⟨_, hrb⟩, ⟨_, hcol⟩⟩,
    Prod.ext rfl (Fin.ext hmod), heq, rfl, rfl⟩

/-- Two bits that stand for one chunk are the same. -/
theorem idx_inj {j : SendId setup} {idx idx' : Nat} (hidx : idx < setup.myChunksTotal k.2)
    (hidx' : idx' < setup.myChunksTotal j.2)
    (h : setup.global k.1 (setup.sendPlace k.2 idx) = setup.global j.1 (setup.sendPlace j.2 idx')) :
    k = j ∧ idx = idx' := by
  rcases exists_chunk_of_idx hidx with ⟨_, x, hk, hx, _, hplace⟩
  rcases exists_chunk_of_idx hidx' with ⟨_, y, hj, hy, _, hplace'⟩
  have hxy := eq_of_place (hplace.symm.trans (h.trans hplace'))
  rw [← hk, ← hj, ← hx, ← hy, hxy]
  exact ⟨rfl, rfl⟩

/-- The bits of a word that is set to another one. -/
theorem queueBit_setWord {j : SendId setup} {i idx : Nat} (hi : i < setup.queueWords)
    (v : BitVec 32) :
    (w.setWord k.1 (queueWord setup.shape setup.numSendSms k.2 i) v).QueueBit j idx ↔
      if j = k ∧ idx / 32 = i then v.getLsbD (idx % 32) = true else w.QueueBit j idx := by
  by_cases hidx : idx / 32 < setup.queueWords
  · rw [World.QueueBit, World.QueueBit, word_setWord hi hidx, and_iff_right hidx,
      and_iff_right hidx]
    split <;> rfl
  · have hne : ¬ (j = k ∧ idx / 32 = i) := fun h => hidx (h.2 ▸ hi)
    rw [if_neg hne]
    exact iff_of_false (fun h => hidx h.1) fun h => hidx h.1

/-- Two places in a queue, by their words and bits. -/
theorem idx_eq_iff {idx i b : Nat} (hb : b < 32) :
    idx = i * 32 + b ↔ idx / 32 = i ∧ idx % 32 = b := by
  omega

/-- Setting the bit of a chunk sets one bit of one queue. -/
theorem queueBit_setReady (hsend : 0 < setup.numSendSms) (c : CtaId setup) (x : Chunk setup.shape)
    (j : SendId setup) (idx : Nat) :
    (w.setReady c x).QueueBit j idx ↔
      w.QueueBit j idx ∨ j = sendIdOf hsend x ∧ idx = idxOf x := by
  have hin := myChunksTotal_le (sendIdOf hsend x).2.isLt (idxOf_lt hsend x)
  have hset : (w.setReady c x).QueueBit j idx ↔ (w.setWord (sendIdOf hsend x).1
      (queueWord setup.shape setup.numSendSms (sendIdOf hsend x).2 (idxOf x / 32))
      (w.word (sendIdOf hsend x) (idxOf x / 32) ||| 1#32 <<< (idxOf x % 32))).QueueBit j idx :=
    Iff.rfl
  rw [hset, queueBit_setWord hin]
  -- In the same word only this bit is new.
  have hlt : idxOf x % 32 < 32 := Nat.mod_lt _ (by decide)
  by_cases hjw : j = sendIdOf hsend x ∧ idx / 32 = idxOf x / 32
  · rw [if_pos hjw, ← mem_voters, voters_or, voters_bit hlt, Finset.mem_union, mem_voters,
      Finset.mem_singleton, World.QueueBit, hjw.1, hjw.2, and_iff_right hin, and_iff_right rfl]
    have hsame : idx % 32 = idxOf x % 32 ↔ idx = idxOf x := by
      have hword := hjw.2
      omega
    rw [hsame]
  · rw [if_neg hjw, or_iff_left]
    rintro ⟨hj, rfl⟩
    exact hjw ⟨hj, rfl⟩

/-- A bit is set, of a chunk that has none. -/
theorem QueueInv.setReady (h : QueueInv w) (hsend : 0 < setup.numSendSms) {c : CtaId setup}
    {x : Chunk setup.shape} (hnew : place x ∉ w.announced) : QueueInv (w.setReady c x) := by
  have hbit := fun j idx => queueBit_setReady (w := w) hsend c x j idx
  have hglobal := global_idxOf hsend x
  -- The chunk is new, so its bit is not set and nobody can hold it for the bit.
  have hnone : w.held (.inl (sendIdOf hsend x, idxOf x)) = none := by
    by_contra hsome
    rcases Option.ne_none_iff_exists'.mp hsome with ⟨p, hp⟩
    have htaken := h.sending.taken_of_held _ _ hp
    simp only [World.held] at hp
    split at hp
    · cases hp
      rw [hglobal] at htaken
      exact hnew htaken
    · exact absurd hp (by simp only [reduceCtorEq, not_false_eq_true])
  have hother : ∀ j, j ≠ .inl (sendIdOf hsend x, idxOf x) →
      (w.setReady c x).held j = w.held j := by
    rintro (⟨j, idx⟩ | j) hj
    · refine if_congr ?_ rfl rfl
      rw [hbit, or_iff_left]
      rintro ⟨rfl, rfl⟩
      exact hj rfl
    · rfl
  have hself : (w.setReady c x).held (.inl (sendIdOf hsend x, idxOf x)) = some (place x) := by
    refine (if_pos ((hbit _ _).mpr (Or.inr ⟨rfl, rfl⟩))).trans ?_
    rw [hglobal]
  have hmem : ∀ p, p ∈ (w.setReady c x).announced ↔ p ∈ w.announced ∨ p = place x := fun p => by
    simp only [World.announced, World.setReady, List.map_append, List.map_cons, List.map_nil,
      List.mem_append, List.mem_singleton]
  exact { h with
    sending := h.sending.claim hnew hother hself hmem
    kept := h.kept.claim hnone hother hself hmem
    mine := fun j idx hset => by
      rcases (hbit j idx).mp hset with hold | ⟨rfl, rfl⟩
      · exact h.mine j idx hold
      · exact idxOf_lt hsend x
    -- A word that was read may have got bits since, but lost none.
    claiming := fun j i old hpc => by
      rcases h.claiming j i old hpc with ⟨hi, hne, hsub⟩
      refine ⟨hi, hne, fun b hb => ?_⟩
      have hlt : b < 32 := BitVec.lt_of_getLsbD hb
      have hold : w.QueueBit j (i * 32 + b) := by
        rw [World.QueueBit, ((idx_eq_iff hlt).mp rfl).1, ((idx_eq_iff hlt).mp rfl).2]
        exact ⟨hi, hsub b hb⟩
      have hafter := (hbit j (i * 32 + b)).mpr (Or.inl hold)
      rw [World.QueueBit, ((idx_eq_iff hlt).mp rfl).1, ((idx_eq_iff hlt).mp rfl).2] at hafter
      exact hafter.2 }

/-- What holds of every sending CTA holds of it after one has moved. -/
theorem sender_setSender (t : Sender) (j : SendId setup) :
    (w.setSender k t).sender j = if j = k then t else w.sender j := by
  simp only [World.setSender]
  by_cases hj : j = k
  · rw [hj, Function.update_self, if_pos rfl]
  · rw [Function.update_of_ne hj, if_neg hj]

/-- What a sending CTA goes for when it has looked at a word. -/
theorem look_claiming {i i' : Nat} {v old : BitVec 32} (h : SendPc.look i v = .claiming i' old) :
    i' = i ∧ old = v ∧ v ≠ 0 := by
  unfold SendPc.look at h
  split at h
  · exact absurd h (by simp only [reduceCtorEq, not_false_eq_true])
  · rename_i hv
    cases h
    exact ⟨rfl, rfl, hv⟩

theorem look_ne (i : Nat) (v : BitVec 32) :
    (∀ idx, SendPc.look i v ≠ .posting idx) ∧ SendPc.look i v ≠ .ended := by
  unfold SendPc.look
  split <;> exact ⟨fun _ => by simp only [ne_eq, reduceCtorEq, not_false_eq_true],
    by simp only [ne_eq, reduceCtorEq, not_false_eq_true]⟩

/-- A sending CTA without a chunk goes on looking for one. -/
theorem QueueInv.goto (h : QueueInv w) {p : SendPc}
    (hold : ∀ idx, (w.sender k).pc ≠ .posting idx) (hnew : ∀ idx, p ≠ .posting idx)
    (hend : (w.sender k).pc ≠ .ended) (hend' : p ≠ .ended)
    (hclaim : ∀ i old, p = .claiming i old → i < setup.queueWords ∧ old ≠ 0 ∧
      ∀ b, old.getLsbD b = true → (w.word k i).getLsbD b = true) :
    QueueInv (w.setSender k { w.sender k with pc := p }) := by
  -- Neither the old place nor the new one is that of a CTA with a chunk.
  have hheld : ∀ j, (w.setSender k { w.sender k with pc := p }).held j = w.held j := by
    rintro (⟨j, idx⟩ | j)
    · rfl
    · simp only [World.held, sender_setSender]
      by_cases hj : j = k
      · rw [if_pos hj, hj]
        have hleft : (match p with
            | .posting idx => some (setup.global k.1 (setup.sendPlace k.2 idx))
            | _ => none) = none := by
          split
          · rename_i idx
            exact absurd rfl (hnew idx)
          · rfl
        have hright : (match (w.sender k).pc with
            | .posting idx => some (setup.global k.1 (setup.sendPlace k.2 idx))
            | _ => none) = none := by
          split
          · rename_i idx hpc
            exact absurd hpc (hold idx)
          · rfl
        exact hleft.trans hright.symm
      · rw [if_neg hj]
  exact { h with
    sending := h.sending.congr hheld fun _ => Iff.rfl
    kept := h.kept.congr hheld fun _ => Iff.rfl
    posting := fun j idx hpc => by
      rw [sender_setSender] at hpc
      split at hpc
      · exact absurd hpc (hnew idx)
      · exact h.posting j idx hpc
    claiming := fun j i old hpc => by
      rw [sender_setSender] at hpc
      split at hpc
      · rename_i hj
        rw [hj]
        exact hclaim i old hpc
      · exact h.claiming j i old hpc
    posted_eq := fun j => by
      rw [sender_setSender]
      split
      · rename_i hj
        rw [hj]
        exact h.posted_eq k
      · exact h.posted_eq j
    ended_iff := fun j => by
      rw [sender_setSender]
      split
      · rename_i hj
        rw [hj]
        exact iff_of_false hend' fun hle => hend ((h.ended_iff k).mpr hle)
      · exact h.ended_iff j }

/-- The world after a sending CTA has taken the lowest bit of a word. -/
def World.take (w : World setup) (k : SendId setup) (i : Nat) (old : BitVec 32) : World setup :=
  (w.setWord k.1 (queueWord setup.shape setup.numSendSms k.2 i) (desired old)).setSender k
    { w.sender k with pc := .posting (i * 32 + lowest old) }

/-- A sending CTA takes a bit. -/
theorem QueueInv.take (h : QueueInv w) {i : Nat} {old : BitVec 32}
    (hpc : (w.sender k).pc = .claiming i old) (hword : w.word k i = old) :
    i * 32 + lowest old < setup.myChunksTotal k.2 ∧ QueueInv (w.take k i old) := by
  rcases h.claiming k i old hpc with ⟨hi, hne, -⟩
  have hlow := lowest_lt hne
  have hidx : (i * 32 + lowest old) / 32 = i ∧ (i * 32 + lowest old) % 32 = lowest old :=
    (idx_eq_iff hlow).mp rfl
  have hset : w.QueueBit k (i * 32 + lowest old) := by
    rw [World.QueueBit, hidx.1, hidx.2, hword]
    exact ⟨hi, ffs_pos hne⟩
  have hlt := h.mine k _ hset
  refine ⟨hlt, ?_⟩
  -- One bit is cleared and no other.
  have hbit : ∀ j idx, (w.take k i old).QueueBit j idx ↔
      w.QueueBit j idx ∧ ¬ (j = k ∧ idx = i * 32 + lowest old) := fun j idx => by
    have hafter : (w.take k i old).QueueBit j idx ↔ (w.setWord k.1
      (queueWord setup.shape setup.numSendSms k.2 i) (desired old)).QueueBit j idx := Iff.rfl
    rw [hafter, queueBit_setWord hi, idx_eq_iff hlow]
    by_cases hjw : j = k ∧ idx / 32 = i
    · rw [if_pos hjw, getLsbD_desired hne, World.QueueBit, hjw.1, hjw.2, hword, and_iff_right hi,
        and_iff_right rfl, and_iff_right rfl]
    · rw [if_neg hjw]
      exact (and_iff_left fun hj => hjw ⟨hj.1, hj.2.1⟩).symm
  have hsender : ∀ j, (w.take k i old).sender j = if j = k then
      { w.sender k with pc := .posting (i * 32 + lowest old) } else w.sender j :=
    fun j => sender_setSender (w := w.setWord k.1 _ _) _ j
  have hheld : w.held (.inl (k, i * 32 + lowest old)) =
      some (setup.global k.1 (setup.sendPlace k.2 (i * 32 + lowest old))) := if_pos hset
  have hnone : w.held (.inr k) = none := by
    simp only [World.held, hpc]
  have hgive : (w.take k i old).held (.inl (k, i * 32 + lowest old)) = none :=
    if_neg fun hb => ((hbit _ _).mp hb).2 ⟨rfl, rfl⟩
  have htake : (w.take k i old).held (.inr k) =
      some (setup.global k.1 (setup.sendPlace k.2 (i * 32 + lowest old))) := by
    simp only [World.held, hsender, if_true]
  have hother : ∀ j, j ≠ .inl (k, i * 32 + lowest old) → j ≠ .inr k →
      (w.take k i old).held j = w.held j := by
    rintro (⟨j, idx⟩ | j) hj hj'
    · refine if_congr ?_ rfl rfl
      rw [hbit, and_iff_left]
      rintro ⟨rfl, rfl⟩
      exact hj rfl
    · have hjk : j ≠ k := fun heq => hj' (by rw [heq])
      simp only [World.held, hsender, if_neg hjk]
  exact {
    sending := h.sending.hand hheld hother hgive htake
    kept := h.kept.hand hheld hnone hother htake
    mine := fun j idx hb => h.mine j idx ((hbit j idx).mp hb).1
    posting := fun j idx hj => by
      rw [hsender] at hj
      split at hj
      · rename_i hjk
        cases hj
        rw [hjk]
        exact hlt
      · exact h.posting j idx hj
    claiming := fun j i' v hj => by
      rw [hsender] at hj
      split at hj
      · exact absurd hj (by simp only [reduceCtorEq, not_false_eq_true])
      · rename_i hjk
        rcases h.claiming j i' v hj with ⟨hi', hne', hsub⟩
        refine ⟨hi', hne', fun b hb => ?_⟩
        have hsame := word_setWord (w := w) (k := k) (j := j) hi hi' (desired old)
        rw [if_neg fun h' => hjk h'.1] at hsame
        exact (congrArg (fun v => v.getLsbD b) hsame).trans (hsub b hb)
    posted_eq := fun j => by
      rw [hsender]
      split
      · rename_i hjk
        rw [hjk]
        exact h.posted_eq k
      · exact h.posted_eq j
    posts_mine := h.posts_mine
    ended_iff := fun j => by
      rw [hsender]
      split
      · rename_i hjk
        rw [hjk]
        refine iff_of_false (by simp only [reduceCtorEq, not_false_eq_true]) fun hle => ?_
        have hended := (h.ended_iff k).mpr hle
        rw [hpc] at hended
        exact absurd hended (by simp only [reduceCtorEq, not_false_eq_true])
      · exact h.ended_iff j }

/-- The world after a post. -/
def World.post (w : World setup) (k : SendId setup) (idx : Nat) : World setup :=
  let x := setup.sendPlace k.2 idx
  let globalChunkId := x.1 * setup.shape.chunksPerRow + x.2
  { w.setSender k (setup.loop k ((w.sender k).posted + 1)) with
    senderDone := Function.update w.senderDone k.1
      (Function.update (w.senderDone k.1) globalChunkId 1)
    posts := w.posts ++ [(k, x)] }

theorem loop_pc (k : SendId setup) (n : Nat) :
    (setup.loop k n).pc = .ended ∧ setup.myChunksTotal k.2 ≤ n ∨
      (setup.loop k n).pc = .scanning 0 ∧ n < setup.myChunksTotal k.2 := by
  by_cases hn : n < setup.myChunksTotal k.2
  · exact Or.inr ⟨if_pos hn, hn⟩
  · exact Or.inl ⟨if_neg hn, Nat.le_of_not_lt hn⟩

/-- A sending CTA posts the chunk it has taken the bit of. -/
theorem QueueInv.post (h : QueueInv w) {idx : Nat} (hpc : (w.sender k).pc = .posting idx) :
    QueueInv (w.post k idx) := by
  have hidx := h.posting k idx hpc
  have hsender : ∀ j, (w.post k idx).sender j =
      if j = k then setup.loop k ((w.sender k).posted + 1) else w.sender j :=
    fun j => sender_setSender (w := w) _ j
  have hheld : w.held (.inr k) = some (setup.global k.1 (setup.sendPlace k.2 idx)) := by
    simp only [World.held, hpc]
  -- After the post the CTA looks on or has ended, and holds nothing.
  have hgive : (w.post k idx).held (.inr k) = none := by
    simp only [World.held, hsender, if_true]
    rcases loop_pc k ((w.sender k).posted + 1) with ⟨hl, _⟩ | ⟨hl, _⟩ <;> rw [hl]
  have hother : ∀ j, j ≠ .inr k → (w.post k idx).held j = w.held j := by
    rintro (⟨j, i⟩ | j) hj
    · rfl
    · have hjk : j ≠ k := fun heq => hj (by rw [heq])
      simp only [World.held, hsender, if_neg hjk]
  have hposted : (w.post k idx).posted =
      w.posted ++ [setup.global k.1 (setup.sendPlace k.2 idx)] := by
    simp only [World.posted, World.post, List.map_append, List.map_cons, List.map_nil]
  exact { h with
    sending := by
      rw [hposted]
      exact h.sending.release hheld hother hgive
    kept := by
      rw [hposted]
      exact h.kept.release hheld hother
    -- It is not at a post any more, and the others are where they were.
    posting := fun j i hj => by
      rw [hsender] at hj
      split at hj
      · -- The loop goes on to a scan or to its end.
        rcases loop_pc k ((w.sender k).posted + 1) with ⟨hl, _⟩ | ⟨hl, _⟩ <;> rw [hl] at hj <;>
          exact absurd hj (by simp only [reduceCtorEq, not_false_eq_true])
      · exact h.posting j i hj
    claiming := fun j i old hj => by
      rw [hsender] at hj
      split at hj
      · rcases loop_pc k ((w.sender k).posted + 1) with ⟨hl, _⟩ | ⟨hl, _⟩ <;> rw [hl] at hj <;>
          exact absurd hj (by simp only [reduceCtorEq, not_false_eq_true])
      · exact h.claiming j i old hj
    posted_eq := fun j => by
      rw [hsender]
      simp only [World.post, List.countP_append, List.countP_singleton, decide_eq_true_eq]
      by_cases hj : j = k
      · rw [if_pos hj, hj, if_pos rfl, ← h.posted_eq k]
        rfl
      · rw [if_neg hj, if_neg (Ne.symm hj), Nat.add_zero]
        exact h.posted_eq j
    posts_mine := fun y hy => by
      rcases List.mem_append.mp hy with hold | hnew
      · exact h.posts_mine y hold
      · rw [List.mem_singleton.mp hnew]
        exact ⟨idx, hidx, rfl⟩
    ended_iff := fun j => by
      rw [hsender]
      split
      · rename_i hj
        rw [hj]
        rcases loop_pc k ((w.sender k).posted + 1) with ⟨hl, hle⟩ | ⟨hl, hlt⟩
        · exact iff_of_true hl hle
        · rw [hl]
          exact iff_of_false (by simp only [reduceCtorEq, not_false_eq_true]) (Nat.not_le_of_lt hlt)
      · exact h.ended_iff j }

/-- A step of a sending CTA. -/
theorem QueueInv.send (h : QueueInv w) (hstep : sendStep w k = some w') : QueueInv w' := by
  unfold sendStep at hstep
  cases hpc : (w.sender k).pc with
  | scanning i =>
      simp only [hpc] at hstep
      split at hstep
      · rename_i hi
        cases hstep
        -- A word without a bit is passed, and one with a bit is to be claimed.
        refine h.goto (fun _ => by simp only [hpc, ne_eq, reduceCtorEq, not_false_eq_true])
          (look_ne i _).1 (by simp only [hpc, ne_eq, reduceCtorEq, not_false_eq_true])
          (look_ne i _).2 fun i' old hlook => ?_
        rcases look_claiming hlook with ⟨rfl, rfl, hne⟩
        exact ⟨hi, hne, fun _ hb => hb⟩
      · cases hstep
        -- At the end of the words it begins again.
        exact h.goto (fun _ => by simp only [hpc, ne_eq, reduceCtorEq, not_false_eq_true])
          (fun _ => by simp only [ne_eq, reduceCtorEq, not_false_eq_true])
          (by simp only [hpc, ne_eq, reduceCtorEq, not_false_eq_true])
          (by simp only [ne_eq, reduceCtorEq, not_false_eq_true])
          fun _ _ hno => absurd hno (by simp only [reduceCtorEq, not_false_eq_true])
  | claiming i old =>
      simp only [hpc] at hstep
      split at hstep
      · rename_i hword
        -- The word is what it was read as, so the exchange takes the bit.
        rcases h.take hpc hword with ⟨hlt, htake⟩
        rw [if_pos hlt] at hstep
        cases hstep
        exact htake
      · cases hstep
        -- The word has changed, and the exchange returned what it is now.
        refine h.goto (fun _ => by simp only [hpc, ne_eq, reduceCtorEq, not_false_eq_true])
          (look_ne i _).1 (by simp only [hpc, ne_eq, reduceCtorEq, not_false_eq_true])
          (look_ne i _).2 fun i' v hlook => ?_
        rcases look_claiming hlook with ⟨rfl, rfl, hne⟩
        exact ⟨(h.claiming k _ old hpc).1, hne, fun _ hb => hb⟩
  | posting idx =>
      simp only [hpc] at hstep
      cases hstep
      exact h.post hpc
  | ended =>
      simp only [hpc] at hstep
      exact absurd hstep (by simp only [reduceCtorEq, not_false_eq_true])

/-- The counts do not change by it. -/
theorem CountInv.send (h : CountInv w) (hstep : sendStep w k = some w') : CountInv w' := by
  unfold sendStep at hstep
  cases hpc : (w.sender k).pc with
  | scanning i =>
      simp only [hpc] at hstep
      split at hstep <;> cases hstep <;> exact { h with }
  | claiming i old =>
      simp only [hpc] at hstep
      -- The exchange changes a queue, not the flat words.
      split at hstep
      · cases hstep
        exact { h with
          ready_eq := fun x =>
            (flat_setWord_queue (w := w) k.1 k.2 i _ x.owner x).trans (h.ready_eq x) }
      · cases hstep
        exact { h with }
  | posting idx =>
      simp only [hpc] at hstep
      cases hstep
      exact { h with }
  | ended =>
      simp only [hpc] at hstep
      exact absurd hstep (by simp only [reduceCtorEq, not_false_eq_true])

end Sends

/-! ## Runs -/

/-- What holds in every state. -/
structure Inv (w : World setup) : Prop where
  counts : CountInv w
  queues : QueueInv w

theorem countInv_init (ha : setup.shape.Aligned) : CountInv (init setup) where
  done_eq d x := by
    simp only [init, Strided.seen_start, Finset.filter_empty, Finset.card_empty]
  mem_counted y := by
    refine iff_of_false List.not_mem_nil fun hy => ?_
    rcases hy.1 with ⟨x, hx⟩
    -- A chunk has a tile, and none is counted.
    have heq : y = (y.1, place x) := Prod.ext rfl hx
    rw [heq, counted_iff ha] at hy
    have hpos := tilesThisChunk_pos x.chunkCol.isLt
    simp only [init, Strided.seen_start, Finset.filter_empty, Finset.card_empty, Chunk.tiles] at hy
    omega
  signalling := Custody.init fun _ => rfl
  signalling_kept := Kept.init fun _ => List.not_mem_nil
  ready_eq _ := rfl
  setting := Custody.init fun _ => rfl
  setting_kept := by
    refine Kept.init ?_
    rintro p ⟨⟨x, rfl⟩, hall⟩
    exact List.not_mem_nil (hall (x.owner, place x) (mem_entries.mpr rfl))
  last_setting _ _ h := absurd h (by simp only [init, Phase.sets, reduceCtorEq, not_false_eq_true])
  last_set _ h := absurd h List.not_mem_nil

theorem queueInv_init : QueueInv (init setup) := by
  have hbit : ∀ k idx, ¬ (init setup).QueueBit k idx := by
    rintro k idx ⟨-, hset⟩
    simp only [World.word, init, BitVec.ofNat_eq_ofNat, BitVec.getLsbD_zero,
      Bool.false_eq_true] at hset
  -- A CTA without chunks has ended at launch, and the others begin to scan.
  have hpc : ∀ k, ((init setup).sender k).pc = .ended ∧ setup.myChunksTotal k.2 ≤ 0 ∨
      ((init setup).sender k).pc = .scanning 0 ∧ 0 < setup.myChunksTotal k.2 := fun k => loop_pc k 0
  have hheld : ∀ j, (init setup).held j = none := by
    rintro (⟨k, idx⟩ | k)
    · exact if_neg (hbit k idx)
    · simp only [World.held]
      rcases hpc k with ⟨hk, _⟩ | ⟨hk, _⟩ <;> rw [hk]
  exact {
    sending := Custody.init hheld
    kept := Kept.init fun _ => List.not_mem_nil
    mine := fun k idx hset => absurd hset (hbit k idx)
    posting := fun k idx h => by
      rcases hpc k with ⟨hk, _⟩ | ⟨hk, _⟩ <;> rw [hk] at h <;>
        exact absurd h (by simp only [reduceCtorEq, not_false_eq_true])
    claiming := fun k i old h => by
      rcases hpc k with ⟨hk, _⟩ | ⟨hk, _⟩ <;> rw [hk] at h <;>
        exact absurd h (by simp only [reduceCtorEq, not_false_eq_true])
    posted_eq := fun _ => rfl
    posts_mine := fun _ h => absurd h List.not_mem_nil
    ended_iff := fun k => by
      rcases hpc k with ⟨hk, hle⟩ | ⟨hk, hlt⟩
      · exact iff_of_true hk hle
      · rw [hk]
        exact iff_of_false (by simp only [reduceCtorEq, not_false_eq_true])
          (Nat.not_le_of_lt hlt) }

/-- In an aligned shape with a sending CTA, every step keeps the invariant. -/
theorem inv_step (ha : setup.shape.Aligned) (hsend : 0 < setup.numSendSms) {w w' : World setup}
    (h : Inv w) {a : Action setup} (hstep : step w a = some w') : Inv w' := by
  cases a with
  | count k =>
      simp only [step] at hstep
      split at hstep
      · rename_i hpc
        -- The shape is aligned, so the tile belongs to a chunk.
        rcases exists_chunk ha k.1 hpc.2 with ⟨x, hx⟩
        simp only [hx] at hstep
        split at hstep
        · rename_i hlast
          cases hstep
          exact ⟨h.counts.countLast ha hpc.1 hpc.2 hx hlast,
            h.queues.congr (fun _ _ => rfl) rfl rfl rfl⟩
        · rename_i hmore
          cases hstep
          exact ⟨h.counts.count ha hpc.2 hx hmore, h.queues.congr (fun _ _ => rfl) rfl rfl rfl⟩
      · exact absurd hstep (by simp only [reduceCtorEq, not_false_eq_true])
  | signal k =>
      simp only [step] at hstep
      split at hstep
      · rename_i row chunkCol hpc
        rcases h.counts.signalled_place hpc with ⟨x, hx, howes⟩
        cases hx
        have hrow := x.row_div
        split at hstep
        · rename_i howner
          -- The owner that is computed from the row is that of the chunk.
          have hfin : (⟨_, howner⟩ : Fin setup.shape.numDevices) = x.owner := Fin.ext hrow
          rw [hfin] at hstep
          cases hstep
          exact ⟨h.counts.signal howes,
            h.queues.congr (word_setWord_flat (w := w) x.owner x _) rfl rfl rfl⟩
        · exact absurd hstep (by simp only [reduceCtorEq, not_false_eq_true])
      · exact absurd hstep (by simp only [reduceCtorEq, not_false_eq_true])
  | setBit k =>
      simp only [step] at hstep
      split at hstep
      · rename_i row chunkCol hpc
        rcases h.counts.setting_place hpc with ⟨x, hx, hsets⟩
        cases hx
        have hrow := x.row_div
        -- So is the row block in the slice.
        have hrb : x.row - x.row / setup.shape.rowBlocksPerSlice *
            setup.shape.rowBlocksPerSlice = x.rbInSlice := by
          rw [hrow]
          exact Nat.add_sub_cancel_left _ _
        split at hstep
        · rename_i howner
          have hfin : (⟨_, howner⟩ : Fin setup.shape.numDevices) = x.owner := Fin.ext hrow
          rw [hfin, hrb] at hstep
          cases hstep
          exact ⟨h.counts.setReady hsets,
            -- The chunk has no bit, because the CTA still has it in custody.
            h.queues.setReady hsend (h.counts.setting.notMem_of_held k _ hsets)⟩
        · exact absurd hstep (by simp only [reduceCtorEq, not_false_eq_true])
      · exact absurd hstep (by simp only [reduceCtorEq, not_false_eq_true])
  | send k =>
      rw [step] at hstep
      exact ⟨h.counts.send hstep, h.queues.send hstep⟩

theorem inv_of_reaches (ha : setup.shape.Aligned) (hsend : 0 < setup.numSendSms)
    {w : World setup} (h : Reaches step always (init setup) w) : Inv w :=
  invariant_of_reaches Inv (fun _ _ _ hs _ hstep => inv_step ha hsend hs hstep) h
    ⟨countInv_init ha, queueInv_init⟩

/-! ## What is left at the end -/

/-- Every compute CTA is through with its tiles, and owes nothing. -/
def World.Computed (w : World setup) : Prop :=
  ∀ k : CtaId setup, w.phase k = .tile ∧ setup.shape.numBlocks ≤ (w.walk k.1).next k.2

variable {w : World setup}

/-- When all tiles are counted, all bits have been set. -/
theorem CountInv.all_set (h : CountInv w) (hc : w.Computed) (x : Chunk setup.shape) :
    place x ∈ w.announced := by
  have hsignalled : ∀ d, (d, place x) ∈ w.signalled := by
    intro d
    refine h.signalling_kept.mem_out (fun k => ?_) ?_
    · rw [World.owes, (hc k).1]
      rfl
    · rw [h.mem_counted]
      refine ⟨⟨x, rfl⟩, fun t ht _ => ?_⟩
      have hcta : t % setup.numCompSms < setup.numCompSms := Nat.mod_lt _ setup.numCompSms_pos
      exact ⟨⟨_, hcta⟩, rfl, Nat.lt_of_lt_of_le ht (hc (d, ⟨_, hcta⟩)).2⟩
  refine h.setting_kept.mem_out (fun k => ?_) ⟨⟨x, rfl⟩, fun y hy => ?_⟩
  · rw [(hc k).1]
    rfl
  · have heq : y = (y.1, place x) := Prod.ext rfl (mem_entries.mp hy)
    rw [heq]
    exact hsignalled y.1

/-- A GPU whose bit was set was the last, after all of them had counted the chunk. -/
theorem CountInv.all_counted (h : CountInv w) {x : Chunk setup.shape}
    (hx : place x ∈ w.announced) (d : Fin setup.shape.numDevices) :
    (d, place x) ∈ w.signalled ∧ w.Counted (d, place x) := by
  have hin := (h.setting.taken_of_out _ hx).2 (d, place x) (mem_entries.mpr rfl)
  exact ⟨hin, (h.mem_counted _).mp (h.signalling.taken_of_out _ hin)⟩

/-- The posts a sending CTA is to make. -/
def ownPosts (k : SendId setup) : Finset (SendId setup × (Nat × Nat)) :=
  (Finset.range (setup.myChunksTotal k.2)).image fun idx => (k, setup.sendPlace k.2 idx)

theorem card_ownPosts (k : SendId setup) : (ownPosts k).card = setup.myChunksTotal k.2 := by
  rw [ownPosts, Finset.card_image_of_injOn, Finset.card_range]
  intro idx hidx idx' hidx' heq
  rw [Finset.mem_coe, Finset.mem_range] at hidx hidx'
  exact (idx_inj hidx hidx' (congrArg (setup.global k.1) (Prod.mk.inj heq).2)).2

theorem mem_ownPosts_iff {k : SendId setup} {y : SendId setup × (Nat × Nat)} :
    y ∈ ownPosts k ↔ ∃ (hsend : 0 < setup.numSendSms) (x : Chunk setup.shape),
      sendIdOf hsend x = k ∧
      y = (k, (x.rbInSlice.val, x.chunkCol.val)) := by
  simp only [ownPosts, Finset.mem_image, Finset.mem_range]
  constructor
  · rintro ⟨idx, hidx, rfl⟩
    rcases exists_chunk_of_idx hidx with ⟨hsend, x, hk, _, hplace, _⟩
    exact ⟨hsend, x, hk, by rw [hplace]⟩
  · rintro ⟨hsend, x, rfl, rfl⟩
    refine ⟨idxOf x, idxOf_lt hsend x, ?_⟩
    simp only [sendIdOf, idxOf, sendPlace_queueIdx x.chunkCol.isLt]

theorem QueueInv.posts_nodup (h : QueueInv w) : w.posts.Nodup :=
  List.Nodup.of_map _ h.sending.nodup

theorem QueueInv.mem_ownPosts (h : QueueInv w) {k : SendId setup} :
    ∀ y ∈ w.posts, y.1 = k → y ∈ ownPosts k := by
  rintro y hy rfl
  rcases h.posts_mine y hy with ⟨idx, hidx, heq⟩
  exact Finset.mem_image.mpr ⟨idx, Finset.mem_range.mpr hidx, Prod.ext rfl heq.symm⟩

/-- A sending CTA posts no more than its chunks. -/
theorem QueueInv.posted_le (h : QueueInv w) (k : SendId setup) :
    (w.sender k).posted ≤ setup.myChunksTotal k.2 := by
  rw [h.posted_eq, ← card_ownPosts]
  exact countP_le_card h.posts_nodup h.mem_ownPosts

/-- When it has left it has posted all of them. -/
theorem QueueInv.ended (h : QueueInv w) {k : SendId setup} (hpc : (w.sender k).pc = .ended) :
    ∀ y ∈ ownPosts k, y ∈ w.posts := by
  have hfull : w.posts.countP (fun y => y.1 = k) = (ownPosts k).card := by
    rw [card_ownPosts, ← h.posted_eq]
    exact Nat.le_antisymm (h.posted_le k) ((h.ended_iff k).mp hpc)
  refine (countP_eq_card_iff h.posts_nodup h.mem_ownPosts fun y hy => ?_).mp hfull
  rcases Finset.mem_image.mp hy with ⟨idx, _, rfl⟩
  rfl

end Handoff

end GemmRs

end MKernel
