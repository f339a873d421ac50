import MKernel.Core.SmallNumbers
import MKernel.GemmAr.DynamicReduce

/-!
# Every Chunk Is Reduced Once

What the dynamic reduce promises, in whatever order its CTAs run.

A chunk's way has two stages. From its claim to its reduction it is in the
custody of the CTA that claimed it, of a place in the queue, or of the CTA that
took it from there; from then to its publication, of the CTA that reduced it.
Nothing is claimed twice, because the flag is 1 only once: the intra-node
all-reduce sets it when it counts the last tile, and counts no tile twice. So
nothing is published twice, the counter is the number of chunks published, and
it reaches the number of chunks only when all are (`reduced_once`).

## Main definitions

* `Intra.Done`: All tiles of a chunk are counted.
* `World.held`, `World.publishes`: Who has a chunk, before and after it is reduced.
* `Inv`: The invariant that carries the proof.
* `ReducedOnce`: What is promised.

## Theorems

* `intra_tile`, `intra_zero`, `intra_flag`: The steps of the intra-node
  all-reduce keep their share of the invariant.
* `inv_reduce`, `inv_progress`: The steps of the other CTAs keep all of it.
* `reduced_once`: The promise holds in every state.
-/

namespace MKernel

namespace GemmAr

namespace DynamicReduce

open MKernel.Core MKernel.Internode

variable {setup : Setup}

/-! ## The intra-node all-reduce -/

/-- All tiles of a chunk of the slice are counted. -/
def Intra.Done (a : Intra setup) (c : Nat) : Prop :=
  c < setup.totalChunks ∧
    ∀ t < setup.shape.totalTilesPerDevice, setup.chunkId t = c → a.walk.Visited t

/-- The chunk whose count an intra-AR CTA has still to zero. -/
def Phase.toZero : Phase → Option Nat
  | .resetting c => some c
  | _ => none

/-- The chunk whose count or flag an intra-AR CTA has still to set. -/
def Phase.owes : Phase → Option Nat
  | .resetting c => some c
  | .flagging c => some c
  | .tile => none

/-- How many tiles are counted that lie in a column of chunks of a row block. -/
def Intra.counted (a : Intra setup) (row col : Nat) : Nat :=
  ((a.walk.seen setup.shape.totalTilesPerDevice).filter
    (fun t => setup.shape.chunkOfTile t = (row, col))).card

/-- A chunk is flagged once, when all its tiles are counted. -/
structure IntraInv (a : Intra setup) : Prop where
  settling : Settling a.Done (fun o => (a.phase o).toZero) (fun o => (a.phase o).owes) a.zeroed
    a.localDone
  counts : ∀ row < setup.shape.rowBlocksPerSlice, ∀ col < setup.shape.chunksPerRow,
    ¬ a.Done (setup.shape.flatChunk row col) →
      a.tilesDone (setup.shape.flatChunk row col) = a.counted row col

section IntraSteps

variable {a : Intra setup} {o : Fin setup.numIntraArSms}

/-- The tiles of a chunk are those of its row block and column. -/
theorem chunkId_eq_iff {t row col : Nat} (ht : t < setup.shape.totalTilesPerDevice)
    (hcol : col < setup.shape.chunksPerRow) :
    setup.chunkId t = setup.shape.flatChunk row col ↔ setup.shape.chunkOfTile t = (row, col) := by
  rw [Setup.chunkId, flatChunk_inj (chunkOfTile_lt ht).2 hcol]
  constructor
  · rintro ⟨hr, hc⟩
    exact Prod.ext hr hc
  · intro h
    rw [h]
    exact ⟨rfl, rfl⟩

/-- A chunk is done when as many tiles are counted as it has. -/
theorem done_iff {row col : Nat} (hrow : row < setup.shape.rowBlocksPerSlice)
    (hcol : col < setup.shape.chunksPerRow) :
    a.Done (setup.shape.flatChunk row col) ↔
      a.counted row col = setup.shape.tilesThisChunk col := by
  have hsub : (a.walk.seen setup.shape.totalTilesPerDevice).filter
      (fun t => setup.shape.chunkOfTile t = (row, col)) ⊆
      (Finset.range setup.shape.totalTilesPerDevice).filter
        (fun t => setup.shape.chunkOfTile t = (row, col)) :=
    Finset.filter_subset_filter _ (Finset.filter_subset _ _)
  rw [Intra.counted, ← card_tiles_at hrow hcol]
  constructor
  · -- All tiles of the chunk are seen, so the two sets are one.
    rintro ⟨-, hall⟩
    refine congrArg Finset.card (Finset.Subset.antisymm hsub fun t ht => ?_)
    rw [Finset.mem_filter, Finset.mem_range] at ht
    rw [Finset.mem_filter, Strided.mem_seen]
    exact ⟨⟨ht.1, hall t ht.1 ((chunkId_eq_iff ht.1 hcol).mpr ht.2)⟩, ht.2⟩
  · intro hcard
    -- A subset with as many elements is the whole set.
    refine ⟨flatChunk_lt hrow hcol, fun t ht hid => ?_⟩
    have hmem : t ∈ (Finset.range setup.shape.totalTilesPerDevice).filter
        (fun t => setup.shape.chunkOfTile t = (row, col)) :=
      Finset.mem_filter.mpr ⟨Finset.mem_range.mpr ht, (chunkId_eq_iff ht hcol).mp hid⟩
    rw [← Finset.eq_of_subset_of_card_le hsub (Nat.le_of_eq hcard.symm), Finset.mem_filter,
      Strided.mem_seen] at hmem
    exact hmem.1.2

/-- At launch no chunk is done: each has a tile. -/
theorem intraInv_init (scanStart : Fin setup.numReduce → Nat) :
    IntraInv (init setup scanStart).intra := by
  have hcounted : ∀ row col, (init setup scanStart).intra.counted row col = 0 := by
    intro row col
    simp only [Intra.counted, init, Strided.seen_start, Finset.filter_empty, Finset.card_empty]
  have hnone : ∀ c, ¬ (init setup scanStart).intra.Done c := by
    intro c hc
    rcases exists_flatChunk hc.1 with ⟨row, hrow, col, hcol, rfl⟩
    have htiles := tilesThisChunk_pos hcol
    rw [done_iff hrow hcol, hcounted] at hc
    omega
  exact ⟨Settling.init hnone, fun row _ col _ _ => (hcounted row col).symm⟩

/-- One phase of one CTA. -/
theorem update_phase {α : Type*} (f : Phase → α) (g : Fin setup.numIntraArSms → Phase)
    (p : Phase) : (fun e => f (Function.update g o p e)) =
      Function.update (fun e => f (g e)) o (f p) :=
  Function.comp_update f g o p

theorem countTile_phase : (a.countTile o).phase = Function.update a.phase o
    (if a.tilesDone (setup.chunkId (a.walk.next o)) + 1 =
        setup.shape.tilesThisChunk (setup.shape.chunkOfTile (a.walk.next o)).2 then
      .resetting (setup.chunkId (a.walk.next o)) else .tile) := rfl

/-- A tile is counted for its chunk. The last one of a chunk sends the CTA to zero
    the count. -/
theorem intra_tile (h : IntraInv a) (hphase : a.phase o = .tile)
    (ht : a.walk.next o < setup.shape.totalTilesPerDevice) : IntraInv (a.countTile o) := by
  rcases chunkOfTile_lt ht with ⟨hrow, hcol⟩
  -- The tile was not counted, so its chunk is not done.
  have hnew : ¬ a.Done (setup.chunkId (a.walk.next o)) := by
    rintro ⟨-, hall⟩
    have hvisited := hall _ ht rfl
    exact Strided.next_notMem_seen a.walk o _ (Strided.mem_seen.mpr ⟨ht, hvisited⟩)
  have hcounted : ∀ row col, (a.countTile o).counted row col = a.counted row col +
      if setup.shape.chunkOfTile (a.walk.next o) = (row, col) then 1 else 0 :=
    fun row col => Strided.card_filter_advance a.walk o ht _
  have hprev := h.counts _ hrow _ hcol hnew
  have hself := hcounted (setup.shape.chunkOfTile (a.walk.next o)).1
    (setup.shape.chunkOfTile (a.walk.next o)).2
  rw [if_pos rfl, ← hprev] at hself
  have hdone : ∀ x, (a.countTile o).Done x ↔ a.Done x ∨ x = setup.chunkId (a.walk.next o) ∧
      (a.countTile o).Done (setup.chunkId (a.walk.next o)) := by
    intro x
    by_cases hx : x = setup.chunkId (a.walk.next o)
    · rw [hx]
      exact ⟨fun hd => Or.inr ⟨rfl, hd⟩, fun hd => hd.elim (fun hd' => absurd hd' hnew) And.right⟩
    · rw [or_iff_left fun hd => hx hd.1]
      by_cases hlt : x < setup.totalChunks
      · rcases exists_flatChunk hlt with ⟨row, hrow', col, hcol', rfl⟩
        rw [done_iff hrow' hcol', done_iff hrow' hcol', hcounted, if_neg, Nat.add_zero]
        intro heq
        refine hx ?_
        rw [Setup.chunkId, heq]
      · exact iff_of_false (fun hd => hlt hd.1) fun hd => hlt hd.1
  have hlast : (a.countTile o).Done (setup.chunkId (a.walk.next o)) ↔
      a.tilesDone (setup.chunkId (a.walk.next o)) + 1 =
        setup.shape.tilesThisChunk (setup.shape.chunkOfTile (a.walk.next o)).2 := by
    rw [Setup.chunkId, done_iff hrow hcol, hself]
  have hnone : (a.phase o).toZero = none ∧ (a.phase o).owes = none := by
    rw [hphase]
    exact ⟨rfl, rfl⟩
  refine ⟨?_, fun row hrow' col hcol' hnd => ?_⟩
  · by_cases hfull : (a.countTile o).Done (setup.chunkId (a.walk.next o))
    · have hdone' : ∀ x, (a.countTile o).Done x ↔
          a.Done x ∨ x = setup.chunkId (a.walk.next o) := fun x => by
        rw [hdone x, and_iff_left hfull]
      have hsteps := h.settling.complete (d := o) hnone.2 hnew hdone'
      rw [countTile_phase, if_pos (hlast.mp hfull), update_phase, update_phase]
      exact hsteps
    · have hsame : Function.update a.phase o .tile = a.phase := by
        rw [← hphase]
        exact Function.update_eq_self o _
      rw [countTile_phase, if_neg fun heq => hfull (hlast.mpr heq), hsame]
      exact h.settling.congr fun x => by rw [hdone x, or_iff_left fun hd => hfull hd.2]
  · rw [hcounted]
    have hnd' : ¬ a.Done (setup.shape.flatChunk row col) := fun hd =>
      hnd ((hdone _).mpr (Or.inl hd))
    by_cases heq : setup.shape.chunkOfTile (a.walk.next o) = (row, col)
    · rw [if_pos heq, ← h.counts row hrow' col hcol' hnd']
      simp only [Intra.countTile, heq, Function.update_self]
    · rw [if_neg heq, Nat.add_zero, ← h.counts row hrow' col hcol' hnd']
      refine Function.update_of_ne (fun hflat => heq ?_) _ _
      rcases (flatChunk_inj hcol' hcol).mp hflat with ⟨hr, hc⟩
      exact Prod.ext hr.symm hc.symm

/-- The count of a chunk that is done is zeroed. -/
theorem intra_zero (h : IntraInv a) {c : Nat} (hphase : a.phase o = .resetting c) :
    IntraInv { a with
      tilesDone := Function.update a.tilesDone c 0
      zeroed := a.zeroed ++ [c]
      phase := Function.update a.phase o (.flagging c) } := by
  have hzero : (a.phase o).toZero = some c := by
    rw [hphase]
    rfl
  have howes : (a.phase o).owes = some c := by
    rw [hphase]
    rfl
  refine ⟨?_, fun row hrow col hcol hnd => ?_⟩
  · have hsame : Function.update (fun e => (a.phase e).owes) o (Phase.flagging c).owes =
        fun e => (a.phase e).owes := by
      rw [show (Phase.flagging c).owes = (a.phase o).owes from howes.symm]
      exact Function.update_eq_self o _
    rw [update_phase, update_phase, hsame]
    exact h.settling.count hzero
  · -- A chunk that is not done keeps its count.
    have hdone := h.settling.complete_of_owing o c howes
    refine (Function.update_of_ne (fun heq => hnd ?_) _ _).trans (h.counts row hrow col hcol hnd)
    rw [heq]
    exact hdone

/-- It is flagged. -/
theorem intra_flag (h : IntraInv a) {c : Nat} (hphase : a.phase o = .flagging c) :
    IntraInv { a with
      localDone := a.localDone ++ [c]
      phase := Function.update a.phase o .tile } := by
  have hnone : (a.phase o).toZero = none := by
    rw [hphase]
    rfl
  have howes : (a.phase o).owes = some c := by
    rw [hphase]
    rfl
  refine ⟨?_, h.counts⟩
  have hsame : Function.update (fun e => (a.phase e).toZero) o Phase.tile.toZero =
      fun e => (a.phase e).toZero := by
    rw [show Phase.tile.toZero = (a.phase o).toZero from hnone.symm]
    exact Function.update_eq_self o _
  rw [update_phase, update_phase, hsame]
  exact h.settling.announce hnone howes

end IntraSteps

/-! ## The invariant of the reduce -/

/-- Who can have a chunk before it is reduced: a receive-progress CTA, a place of
    the queue, or a reducing CTA. -/
abbrev Holder (setup : Setup) := (Fin setup.numRecvProgress ⊕ Nat) ⊕ Fin setup.numReduce

/-- The chunk each of them has. -/
def held (m : Memory) (reducer : Fin setup.numReduce → Reducer)
    (progress : Fin setup.numRecvProgress → ProgressPc) : Holder setup → Option Nat
  | .inl (.inl p) => (progress p).held
  | .inl (.inr pos) => if m.rqHead ≤ pos then m.queued[pos]? else none
  | .inr r => (reducer r).pc.held m.queued

/-- What holds of the memory of the reduce and of its CTAs, given the arrivals and
    the chunks flagged so far. -/
structure WorkInv (setup : Setup) (arrived : Nat → BitVec 32) (localDone : List Nat) (m : Memory)
    (reducer : Fin setup.numReduce → Reducer)
    (progress : Fin setup.numRecvProgress → ProgressPc) : Prop where
  flag_eq : ∀ c, m.localDoneFlag c = if c ∈ m.claimed then 2 else if c ∈ localDone then 1 else 0
  claimed_nodup : m.claimed.Nodup
  claimed_ready : ∀ c ∈ m.claimed, c ∈ localDone ∧ arrived c ≠ 0 ∧ c < setup.totalChunks
  reducer_sees : ∀ r c, (reducer r).pc.sees setup = some c → arrived c ≠ 0 ∧ c < setup.totalChunks
  progress_sees : ∀ p c, (progress p).sees = some c → arrived c ≠ 0 ∧ c < setup.totalChunks
  reducing : Custody (held m reducer progress) (· ∈ m.claimed) m.reduced
  publishing : Custody (fun r => (reducer r).pc.publishes) (· ∈ m.reduced) m.published
  published_eq : m.publishedChunks = m.published.length
  tail_eq : m.rqTail = m.queued.length
  head_le : m.rqHead ≤ m.rqTail
  reducer_head : ∀ r h, (reducer r).pc.head = some h → h < m.rqTail
  reducer_popped : ∀ r h, (reducer r).pc = .popped h → h < m.rqHead
  queued_nodup : m.queued.Nodup
  queued_claimed : ∀ c ∈ m.queued, c ∈ m.claimed
  unqueued : ∀ p c, (progress p).held = some c → c ∉ m.queued
  storing : ∀ p c pos, progress p = .storing c pos → m.queued[pos]? = some c
  entries : ∀ (pos c : Nat), m.queued[pos]? = some c →
    m.rqEntries (pos % setup.remoteRqCapacity) = 0 ∨
      m.rqEntries (pos % setup.remoteRqCapacity) = c + 1
  free : ∀ pos, m.queued.length ≤ pos → pos < setup.remoteRqCapacity → m.rqEntries pos = 0
  returned : ∀ r, (reducer r).pc = .returned → ∀ c < setup.totalChunks, c ∈ m.published

section WorkSteps

variable {arrived : Nat → BitVec 32} {localDone : List Nat} {m m' : Memory}
  {reducer : Fin setup.numReduce → Reducer} {progress : Fin setup.numRecvProgress → ProgressPc}
  {r : Fin setup.numReduce} {p : Fin setup.numRecvProgress} {x : Reducer} {pc' : ProgressPc}

theorem workInv_init (scanStart : Fin setup.numReduce → Nat) :
    WorkInv setup (fun _ => 0) [] Memory.init (init setup scanStart).reducer
      (init setup scanStart).progress where
  flag_eq _ := rfl
  claimed_nodup := List.nodup_nil
  claimed_ready _ hc := absurd hc List.not_mem_nil
  reducer_sees _ _ hc := absurd hc (by simp only [init, ReducePc.sees, reduceCtorEq,
    not_false_eq_true])
  progress_sees _ _ hc := absurd hc (by simp only [init, ProgressPc.sees, reduceCtorEq,
    not_false_eq_true])
  -- No entry of the queue is below the tail, which is zero.
  reducing := Custody.init fun k => by
    rcases k with (_ | pos) | _
    · rfl
    · simp only [held, Memory.init, List.getElem?_nil]
      exact if_pos (Nat.zero_le pos)
    · rfl
  publishing := Custody.init fun _ => rfl
  published_eq := rfl
  tail_eq := rfl
  head_le := Nat.le_refl 0
  reducer_head _ _ hc := absurd hc (by simp only [init, ReducePc.head, reduceCtorEq,
    not_false_eq_true])
  reducer_popped _ _ hc := absurd hc (by simp only [init, reduceCtorEq, not_false_eq_true])
  queued_nodup := List.nodup_nil
  queued_claimed _ hc := absurd hc List.not_mem_nil
  unqueued _ _ _ := List.not_mem_nil
  storing _ _ _ hc := absurd hc (by simp only [init, reduceCtorEq, not_false_eq_true])
  entries _ _ hc := absurd hc (by simp only [Memory.init, List.getElem?_nil, reduceCtorEq,
    not_false_eq_true])
  free _ _ _ := rfl
  returned _ hc := absurd hc (by simp only [init, reduceCtorEq, not_false_eq_true])

/-- Arrivals are never taken back, so more of them do no harm. -/
theorem WorkInv.arrive (h : WorkInv setup arrived localDone m reducer progress)
    {arrived' : Nat → BitVec 32} (hmono : ∀ c, arrived c ≠ 0 → arrived' c ≠ 0) :
    WorkInv setup arrived' localDone m reducer progress :=
  { h with
    claimed_ready := fun c hc => by
      rcases h.claimed_ready c hc with ⟨hdone, harrived, hlt⟩
      exact ⟨hdone, hmono c harrived, hlt⟩
    reducer_sees := fun r c hc => (h.reducer_sees r c hc).imp_left (hmono c)
    progress_sees := fun p c hc => (h.progress_sees p c hc).imp_left (hmono c) }

/-- A chunk that was not flagged is flagged. -/
theorem WorkInv.flag (h : WorkInv setup arrived localDone m reducer progress) {c : Nat}
    (hnew : c ∉ localDone) :
    WorkInv setup arrived (localDone ++ [c])
      { m with localDoneFlag := Function.update m.localDoneFlag c 1 } reducer progress :=
  { h with
    flag_eq := fun y => by
      simp only [Function.update_apply, h.flag_eq y, List.mem_append, List.mem_singleton]
      by_cases hy : y = c
      · -- It was not claimed either.
        have hclaimed : y ∉ m.claimed := by
          rw [hy]
          exact fun hc => hnew (h.claimed_ready c hc).1
        rw [if_pos hy, if_neg hclaimed, if_pos (Or.inr hy)]
      · rw [if_neg hy]
        exact if_congr Iff.rfl rfl (if_congr (or_iff_left hy).symm rfl rfl)
    claimed_ready := fun y hy => by
      rcases h.claimed_ready y hy with ⟨hdone, hrest⟩
      exact ⟨List.mem_append_left _ hdone, hrest⟩ }

/-- A chunk whose flag reads 1 has been flagged and not claimed. -/
theorem WorkInv.claimable (h : WorkInv setup arrived localDone m reducer progress) {c : Nat}
    (hflag : m.localDoneFlag c = 1) : c ∉ m.claimed ∧ c ∈ localDone := by
  rw [h.flag_eq c] at hflag
  split at hflag
  · exact absurd hflag (by decide)
  · rename_i hclaimed
    split at hflag
    · rename_i hdone
      exact ⟨hclaimed, hdone⟩
    · exact absurd hflag (by decide)

/-- What holds of one CTA and of all others holds of all, after it has moved. -/
theorem forall_update {N : Nat} {α : Type*} {f : Fin N → α} {i : Fin N} {a : α}
    {P : Fin N → α → Prop} (ha : P i a) (hf : ∀ j, j ≠ i → P j (f j)) (j : Fin N) :
    P j (Function.update f i a j) := by
  by_cases hj : j = i
  · rw [hj, Function.update_self]
    exact ha
  · rw [Function.update_of_ne hj]
    exact hf j hj

/-- The holders other than a reducing CTA that moves. -/
theorem held_update_reducer (hhead : m'.rqHead = m.rqHead) (hqueued : m'.queued = m.queued)
    (k : Holder setup) (hk : k ≠ .inr r) :
    held m' (Function.update reducer r x) progress k = held m reducer progress k := by
  rcases k with (p | pos) | r'
  · rfl
  · simp only [held, hhead, hqueued]
  · have hr : r' ≠ r := fun heq => hk (by rw [heq])
    simp only [held, hqueued, Function.update_of_ne hr]

/-- The holders other than a receive-progress CTA that moves. -/
theorem held_update_progress (hhead : m'.rqHead = m.rqHead) (hqueued : m'.queued = m.queued)
    (k : Holder setup) (hk : k ≠ .inl (.inl p)) :
    held m' reducer (Function.update progress p pc') k = held m reducer progress k := by
  rcases k with (p' | pos) | r'
  · have hp : p' ≠ p := fun heq => hk (by rw [heq])
    simp only [held, Function.update_of_ne hp]
  · simp only [held, hhead, hqueued]
  · simp only [held, hqueued]

/-- A claim makes the chunk the claimed one, and it was not. -/
theorem WorkInv.mem_claim (c y : Nat) : y ∈ (m.claim c).claimed ↔ y ∈ m.claimed ∨ y = c := by
  simp only [Memory.claim, List.mem_append, List.mem_singleton]

/-- What a claim by either kind of CTA keeps. -/
theorem WorkInv.claim_flags (h : WorkInv setup arrived localDone m reducer progress) {c : Nat}
    (hflag : m.localDoneFlag c = 1) (hsees : arrived c ≠ 0 ∧ c < setup.totalChunks) :
    (∀ y, (m.claim c).localDoneFlag y =
      if y ∈ (m.claim c).claimed then 2 else if y ∈ localDone then 1 else 0) ∧
      (m.claim c).claimed.Nodup ∧
      ∀ y ∈ (m.claim c).claimed, y ∈ localDone ∧ arrived y ≠ 0 ∧ y < setup.totalChunks := by
  rcases h.claimable hflag with ⟨hfresh, hdone⟩
  refine ⟨fun y => ?_, ?_, fun y hy => ?_⟩
  · -- The claim moves the flag of this chunk from one to two.
    simp only [Memory.claim, Function.update_apply, h.flag_eq y, List.mem_append,
      List.mem_singleton]
    by_cases hy : y = c
    · rw [if_pos hy, if_pos (Or.inr hy)]
    · rw [if_neg hy]
      exact if_congr (or_iff_left hy).symm rfl rfl
  · simp only [Memory.claim]
    rw [← List.concat_eq_append]
    exact h.claimed_nodup.concat hfresh
  · rw [WorkInv.mem_claim] at hy
    rcases hy with hy | rfl
    · exact h.claimed_ready y hy
    · exact ⟨hdone, hsees⟩

/-- A place that says nothing about arrivals, the tail or the end. -/
def ReducePc.Silent (setup : Setup) (pc : ReducePc) : Prop :=
  pc.sees setup = none ∧ pc.head = none ∧ pc ≠ .returned

variable (m') in
/-- A reducing CTA that moves to a silent place, while the queue and the published
    chunks may grow. -/
theorem WorkInv.move_silent (h : WorkInv setup arrived localDone m reducer progress)
    (hx : x.pc.Silent setup) (hpop : ∀ y, x.pc = .popped y → y < m'.rqHead)
    (htail : m.rqTail ≤ m'.rqTail) (hhead : m.rqHead ≤ m'.rqHead)
    (hpublished : ∀ c ∈ m.published, c ∈ m'.published) :
    (∀ s c, (Function.update reducer r x s).pc.sees setup = some c →
        arrived c ≠ 0 ∧ c < setup.totalChunks) ∧
      (∀ s y, (Function.update reducer r x s).pc.head = some y → y < m'.rqTail) ∧
      (∀ s y, (Function.update reducer r x s).pc = .popped y → y < m'.rqHead) ∧
      ∀ s, (Function.update reducer r x s).pc = .returned →
        ∀ c < setup.totalChunks, c ∈ m'.published := by
  refine ⟨?_, ?_, ?_, ?_⟩
  · -- At a silent place the CTA says nothing of any of these, and the others say what they said.
    refine forall_update (P := fun _ (s : Reducer) => ∀ c, s.pc.sees setup = some c →
      arrived c ≠ 0 ∧ c < setup.totalChunks) (fun c hc => ?_)
      fun s _ => h.reducer_sees s
    rw [hx.1] at hc
    exact absurd hc (by simp only [reduceCtorEq, not_false_eq_true])
  · refine forall_update (P := fun _ (s : Reducer) => ∀ y, s.pc.head = some y → y < m'.rqTail)
      (fun c hc => ?_)
      fun s _ y hy => Nat.lt_of_lt_of_le (h.reducer_head s y hy) htail
    rw [hx.2.1] at hc
    exact absurd hc (by simp only [reduceCtorEq, not_false_eq_true])
  · exact forall_update (P := fun _ (s : Reducer) => ∀ y, s.pc = .popped y → y < m'.rqHead) hpop
      fun s _ y hy => Nat.lt_of_lt_of_le (h.reducer_popped s y hy) hhead
  · exact forall_update (P := fun _ (s : Reducer) => s.pc = .returned →
      ∀ c < setup.totalChunks, c ∈ m'.published) (fun hy => absurd hy hx.2.2)
      fun s _ hs c hc => hpublished c (h.returned s hs c hc)

/-- A move between places without a reduced chunk. -/
theorem WorkInv.publishing_same (h : WorkInv setup arrived localDone m reducer progress)
    (hpub : (reducer r).pc.publishes = none) (hx : x.pc.publishes = none) :
    Custody (fun s => (Function.update reducer r x s).pc.publishes) (· ∈ m.reduced) m.published :=
  h.publishing.congr (fun k => by
    by_cases hk : k = r
    · rw [hk, Function.update_self, hpub, hx]
    · rw [Function.update_of_ne hk]) fun _ => Iff.rfl

/-- A reducing CTA that looks at something keeps the invariant. -/
theorem WorkInv.reduce_look (h : WorkInv setup arrived localDone m reducer progress)
    (cursor : BitVec 32) (hheld : ∀ queued, x.pc.held queued = (reducer r).pc.held queued)
    (hpop : ∀ h, x.pc = .popped h → (reducer r).pc = .popped h) (hpub : x.pc.publishes = none)
    (hpub' : (reducer r).pc.publishes = none)
    (hsees : ∀ c, x.pc.sees setup = some c →
      (reducer r).pc.sees setup = some c ∨ arrived c ≠ 0 ∧ c < setup.totalChunks)
    (hhead : ∀ h, x.pc.head = some h → h < m.rqTail)
    (hret : x.pc = .returned → setup.totalChunks ≤ m.publishedChunks) :
    WorkInv setup arrived localDone { m with reduceCursor := cursor }
      (Function.update reducer r x) progress :=
  { h with
    reducer_sees := forall_update (P := fun _ (s : Reducer) => ∀ c, s.pc.sees setup = some c →
      arrived c ≠ 0 ∧ c < setup.totalChunks)
      (fun c hc => (hsees c hc).elim (h.reducer_sees r c) id) fun s _ => h.reducer_sees s
    reducing := h.reducing.congr (fun k => by
      by_cases hk : k = .inr r
      · rw [hk]
        simp only [held, Function.update_self]
        exact hheld m.queued
      · exact held_update_reducer rfl rfl k hk) fun _ => Iff.rfl
    publishing := h.publishing_same hpub' hpub
    reducer_head :=
      forall_update (P := fun _ (s : Reducer) => ∀ y, s.pc.head = some y → y < m.rqTail) hhead
      fun s _ => h.reducer_head s
    reducer_popped :=
      forall_update (P := fun _ (s : Reducer) => ∀ y, s.pc = .popped y → y < m.rqHead)
      (fun c hc => h.reducer_popped r c (hpop c hc)) fun s _ => h.reducer_popped s
    returned := forall_update (P := fun _ (s : Reducer) => s.pc = .returned →
        ∀ c < setup.totalChunks, c ∈ m.published) (fun hx c hc => by
        -- As many chunks are published as there are, so all are.
        have hall := hret hx
        rw [h.published_eq] at hall
        exact mem_of_length h.publishing.nodup (fun y hy => (h.claimed_ready y
          (h.reducing.taken_of_out y (h.publishing.taken_of_out y hy))).2.2) hall hc)
      fun s _ => h.returned s }

/-- A reducing CTA that claims a chunk keeps it. -/
theorem WorkInv.reduce_claim (h : WorkInv setup arrived localDone m reducer progress) {c : Nat}
    (hsees : (reducer r).pc.sees setup = some c) (hflag : m.localDoneFlag c = 1)
    (hpub : (reducer r).pc.publishes = none) (hx : x.pc = .reducing c) :
    WorkInv setup arrived localDone (m.claim c) (Function.update reducer r x) progress := by
  have hsilent : x.pc.Silent setup := by
    rw [hx]
    exact ⟨rfl, rfl, by simp only [ne_eq, reduceCtorEq, not_false_eq_true]⟩
  -- A CTA that reduces has let go of what it saw.
  rcases h.move_silent (m.claim c) (r := r) hsilent
    (fun y hy => by rw [hx] at hy; exact absurd hy (by simp only [reduceCtorEq, not_false_eq_true]))
    (Nat.le_refl _) (Nat.le_refl _) (fun _ hy => hy) with ⟨hs, hh, hp, hr⟩
  rcases h.claim_flags hflag (h.reducer_sees r c hsees) with ⟨hf, hn, hready⟩
  exact { h with
    flag_eq := hf
    claimed_nodup := hn
    claimed_ready := hready
    reducer_sees := hs
    reducing := h.reducing.claim (h.claimable hflag).1 (held_update_reducer rfl rfl)
      (by simp only [held, Function.update_self, hx, ReducePc.held]) (WorkInv.mem_claim c)
    publishing := h.publishing_same hpub (by rw [hx]; rfl)
    reducer_head := hh
    reducer_popped := hp
    queued_claimed := fun y hy => (WorkInv.mem_claim c y).mpr (Or.inl (h.queued_claimed y hy))
    returned := hr }

/-- A reducing CTA that moves the head takes the chunk that was first. -/
theorem WorkInv.reduce_pop (h : WorkInv setup arrived localDone m reducer progress)
    (hpc : (reducer r).pc = .tailLoaded m.rqHead) (hx : x.pc = .popped m.rqHead) :
    WorkInv setup arrived localDone { m with rqHead := m.rqHead + 1 }
      (Function.update reducer r x) progress := by
  have hlt : m.rqHead < m.rqTail := h.reducer_head r m.rqHead (by rw [hpc]; rfl)
  have hlen : m.rqHead < m.queued.length := by
    rw [← h.tail_eq]
    exact hlt
  have hfirst : m.queued[m.rqHead]? = some m.queued[m.rqHead] := List.getElem?_eq_getElem hlen
  have hsilent : x.pc.Silent setup := by
    rw [hx]
    exact ⟨rfl, rfl, by simp only [ne_eq, reduceCtorEq, not_false_eq_true]⟩
  rcases h.move_silent { m with rqHead := m.rqHead + 1 } (r := r) hsilent
    (fun y hy => by
      rw [hx] at hy
      cases hy
      exact Nat.lt_succ_self _)
    (Nat.le_refl _) (Nat.le_succ _) (fun _ hy => hy) with ⟨hs, hh, hp, hr⟩
  exact { h with
    reducer_sees := hs
    reducing := by
      refine h.reducing.hand (h := .inl (.inr m.rqHead)) (g := .inr r) (c := m.queued[m.rqHead])
        ?_ ?_ ?_ ?_
      · simp only [held, Nat.le_refl, if_true, hfirst]
      · -- The places behind the first keep their chunks.
        intro k hk hkr
        rcases k with (q | pos) | s
        · rfl
        · have hpos : pos ≠ m.rqHead := fun heq => hk (by rw [heq])
          simp only [held]
          exact if_congr (by omega) rfl rfl
        · have hsr : s ≠ r := fun heq => hkr (by rw [heq])
          simp only [held, Function.update_of_ne hsr]
      · simp only [held]
        exact if_neg (by omega)
      · simp only [held, Function.update_self, hx, ReducePc.held, hfirst]
    publishing := h.publishing_same (by rw [hpc]; rfl) (by rw [hx]; rfl)
    head_le := hlt
    reducer_head := hh
    reducer_popped := hp
    returned := hr }

/-- It finds the chunk it has taken. -/
theorem WorkInv.reduce_entry (h : WorkInv setup arrived localDone m reducer progress) {head : Nat}
    (hpc : (reducer r).pc = .popped head)
    (hentry : m.rqEntries (head % setup.remoteRqCapacity) ≠ 0)
    (hx : x.pc = .reducing (m.rqEntries (head % setup.remoteRqCapacity) - 1)) :
    WorkInv setup arrived localDone m (Function.update reducer r x) progress := by
  have hlt := h.reducer_popped r head hpc
  have hlen : head < m.queued.length := by
    have hle := h.head_le
    rw [h.tail_eq] at hle
    omega
  -- The place below the tail has been queued, and its entry is there.
  have hchunk : m.queued[head]? = some m.queued[head] := List.getElem?_eq_getElem hlen
  have hvalue := (h.entries head _ hchunk).resolve_left hentry
  have hsilent : x.pc.Silent setup := by
    rw [hx]
    exact ⟨rfl, rfl, by simp only [ne_eq, reduceCtorEq, not_false_eq_true]⟩
  rcases h.move_silent m (r := r) hsilent
    (fun y hy => by rw [hx] at hy; exact absurd hy (by simp only [reduceCtorEq, not_false_eq_true]))
    (Nat.le_refl _) (Nat.le_refl _) (fun _ hy => hy) with ⟨hs, hh, hp, hr⟩
  exact { h with
    reducer_sees := hs
    -- The chunk goes from the place in the queue to the CTA.
    reducing := h.reducing.congr (fun k => by
      by_cases hk : k = .inr r
      · rw [hk]
        simp only [held, Function.update_self, hx, hpc, ReducePc.held, hchunk, hvalue,
          Nat.add_sub_cancel]
      · exact held_update_reducer rfl rfl k hk) fun _ => Iff.rfl
    publishing := h.publishing_same (by rw [hpc]; rfl) (by rw [hx]; rfl)
    reducer_head := hh
    reducer_popped := hp
    returned := hr }

/-- A reduced chunk passes from the first stage to the second. -/
theorem WorkInv.reduce_reduce (h : WorkInv setup arrived localDone m reducer progress) {c : Nat}
    (hpc : (reducer r).pc = .reducing c) (hx : x.pc = .publishing c) :
    WorkInv setup arrived localDone { m with reduced := m.reduced ++ [c] }
      (Function.update reducer r x) progress := by
  have hheld : held m reducer progress (.inr r) = some c := by
    simp only [held, hpc, ReducePc.held]
  have hsilent : x.pc.Silent setup := by
    rw [hx]
    exact ⟨rfl, rfl, by simp only [ne_eq, reduceCtorEq, not_false_eq_true]⟩
  rcases h.move_silent { m with reduced := m.reduced ++ [c] } (r := r) hsilent
    (fun y hy => by rw [hx] at hy; exact absurd hy (by simp only [reduceCtorEq, not_false_eq_true]))
    (Nat.le_refl _) (Nat.le_refl _) (fun _ hy => hy) with ⟨hs, hh, hp, hr⟩
  exact { h with
    reducer_sees := hs
    -- The chunk leaves the first stage as it enters the second.
    reducing := h.reducing.release hheld (held_update_reducer rfl rfl)
      (by simp only [held, Function.update_self, hx, ReducePc.held])
    publishing := h.publishing.claim (h := r) (c := c) (h.reducing.notMem_of_held _ c hheld)
      (fun k hk => by rw [Function.update_of_ne hk]) (by rw [Function.update_self, hx]; rfl)
      fun y => by rw [List.mem_append, List.mem_singleton]
    reducer_head := hh
    reducer_popped := hp
    returned := hr }

/-- It publishes its chunk. -/
theorem WorkInv.reduce_publish (h : WorkInv setup arrived localDone m reducer progress) {c : Nat}
    (hpc : (reducer r).pc = .publishing c) (hx : x.pc = .top) :
    WorkInv setup arrived localDone { m with
      publishedChunks := m.publishedChunks + 1
      published := m.published ++ [c] } (Function.update reducer r x) progress := by
  have hsilent : x.pc.Silent setup := by
    rw [hx]
    exact ⟨rfl, rfl, by simp only [ne_eq, reduceCtorEq, not_false_eq_true]⟩
  -- At the top of the loop a CTA knows nothing of any chunk.
  rcases h.move_silent { m with
      publishedChunks := m.publishedChunks + 1
      published := m.published ++ [c] } (r := r) hsilent
    (fun y hy => by rw [hx] at hy; exact absurd hy (by simp only [reduceCtorEq, not_false_eq_true]))
    (Nat.le_refl _) (Nat.le_refl _) (fun _ hy => List.mem_append_left _ hy) with ⟨hs, hh, hp, hr⟩
  exact { h with
    reducer_sees := hs
    reducing := h.reducing.congr (fun k => by
      by_cases hk : k = .inr r
      · rw [hk]
        simp only [held, Function.update_self, hx, hpc, ReducePc.held]
      · exact held_update_reducer rfl rfl k hk) fun _ => Iff.rfl
    -- The count takes the chunk off its hands.
    publishing := h.publishing.release (h := r) (c := c) (by rw [hpc]; rfl)
      (fun k hk => by rw [Function.update_of_ne hk]) (by rw [Function.update_self, hx]; rfl)
    published_eq := by
      rw [List.length_append, h.published_eq]
      rfl
    reducer_head := hh
    reducer_popped := hp
    returned := hr }

/-- Every step of a reducing CTA keeps the invariant. -/
theorem WorkInv.reduce (h : WorkInv setup arrived localDone m reducer progress)
    (heff : ReduceEffect setup arrived m (reducer r).pc m' x.pc) :
    WorkInv setup arrived localDone m' (Function.update reducer r x) progress := by
  generalize hx : x.pc = pc' at heff
  cases heff with
  | look cursor pc' hheld hpop hpub hpub' hsees hhead hret =>
      subst hx
      exact h.reduce_look cursor hheld hpop hpub hpub' hsees hhead hret
  | claim c hsees hflag hheld hpub => exact h.reduce_claim hsees hflag hpub hx
  | pop hpc => exact h.reduce_pop hpc hx
  | entry head hpc hentry => exact h.reduce_entry hpc hentry hx
  | reduce c hpc => exact h.reduce_reduce hpc hx
  | publish c hpc => exact h.reduce_publish hpc hx

variable (m' pc') in
/-- A receive-progress CTA that moves to a place where it has no place in the queue
    and has seen nothing new. -/
theorem WorkInv.progress_places (h : WorkInv setup arrived localDone m reducer progress)
    (hsees : ∀ c, pc'.sees = some c → arrived c ≠ 0 ∧ c < setup.totalChunks)
    (hstore : ∀ c pos, pc' = .storing c pos → m'.queued[pos]? = some c)
    (hqueued : ∀ (pos c : Nat), m.queued[pos]? = some c → m'.queued[pos]? = some c) :
    (∀ q c, (Function.update progress p pc' q).sees = some c →
        arrived c ≠ 0 ∧ c < setup.totalChunks) ∧
      ∀ q c pos, Function.update progress p pc' q = .storing c pos → m'.queued[pos]? = some c := by
  constructor
  · exact forall_update (P := fun _ (q : ProgressPc) => ∀ c, q.sees = some c →
      arrived c ≠ 0 ∧ c < setup.totalChunks) hsees fun q _ => h.progress_sees q
  · exact forall_update (P := fun _ (q : ProgressPc) => ∀ c pos, q = .storing c pos →
      m'.queued[pos]? = some c) hstore fun q _ c pos hq => hqueued pos c (h.storing q c pos hq)

/-- A receive-progress CTA that looks at something. -/
theorem WorkInv.progress_look (h : WorkInv setup arrived localDone m reducer progress)
    (hheld : pc'.held = none) (hheld' : (progress p).held = none)
    (hstore : ∀ c pos, pc' ≠ .storing c pos)
    (hsees : ∀ c, pc'.sees = some c →
      (progress p).sees = some c ∨ arrived c ≠ 0 ∧ c < setup.totalChunks) :
    WorkInv setup arrived localDone m reducer (Function.update progress p pc') := by
  rcases h.progress_places m _ (p := p) (fun c hc => (hsees c hc).elim (h.progress_sees p c) id)
    (fun c pos hc => absurd hc (hstore c pos)) (fun _ _ hc => hc) with ⟨hs, hst⟩
  exact { h with
    progress_sees := hs
    reducing := h.reducing.congr (fun k => by
      by_cases hk : k = .inl (.inl p)
      · rw [hk]
        simp only [held, Function.update_self, hheld, hheld']
      · exact held_update_progress rfl rfl k hk) fun _ => Iff.rfl
    unqueued := forall_update (P := fun _ (q : ProgressPc) => ∀ c, q.held = some c → c ∉ m.queued)
      (fun c hc => absurd hc (by rw [hheld]; simp only [reduceCtorEq, not_false_eq_true]))
      fun q _ => h.unqueued q
    storing := hst }

/-- A receive-progress CTA that claims a chunk has it, outside the queue. -/
theorem WorkInv.progress_claim (h : WorkInv setup arrived localDone m reducer progress) {c : Nat}
    (hsees : (progress p).sees = some c) (hflag : m.localDoneFlag c = 1) :
    WorkInv setup arrived localDone (m.claim c) reducer
      (Function.update progress p (.claimed c)) := by
  rcases h.progress_places (m.claim c) (.claimed c) (p := p)
    (fun y hy => absurd hy (by simp only [ProgressPc.sees, reduceCtorEq, not_false_eq_true]))
    (fun y pos hy => absurd hy (by simp only [reduceCtorEq, not_false_eq_true]))
    (fun _ _ hc => hc) with ⟨hs, hst⟩
  -- The chunk it saw has arrived, and is fresh because its flag is one.
  rcases h.claim_flags hflag (h.progress_sees p c hsees) with ⟨hf, hn, hready⟩
  exact { h with
    flag_eq := hf
    claimed_nodup := hn
    claimed_ready := hready
    progress_sees := hs
    reducing := h.reducing.claim (h.claimable hflag).1 (held_update_progress rfl rfl)
      (by simp only [held, Function.update_self, ProgressPc.held]) (WorkInv.mem_claim c)
    queued_claimed := fun y hy => (WorkInv.mem_claim c y).mpr (Or.inl (h.queued_claimed y hy))
    -- What was claimed just now is not in the queue yet.
    unqueued := forall_update (P := fun _ (q : ProgressPc) => ∀ y, q.held = some y → y ∉ m.queued)
      (fun y hy hmem => by
        cases hy
        exact (h.claimable hflag).1 (h.queued_claimed _ hmem)) fun q _ => h.unqueued q
    storing := hst }

/-- What is at the places of a queue that got one more. -/
theorem getElem?_concat {l : List Nat} {c pos y : Nat} (h : (l ++ [c])[pos]? = some y) :
    l[pos]? = some y ∨ pos = l.length ∧ y = c := by
  by_cases hpos : pos < l.length
  · rw [List.getElem?_append_left hpos] at h
    exact Or.inl h
  · rw [List.getElem?_append_right (Nat.not_lt.mp hpos)] at h
    have hlt := (List.getElem?_eq_some_iff.mp h).1
    rw [List.length_singleton] at hlt
    have heq : pos = l.length := by omega
    rw [heq, Nat.sub_self] at h
    exact Or.inr ⟨heq, (Option.some.inj h).symm⟩

/-- The queue has fewer places in use than there are chunks. -/
theorem WorkInv.queued_le (h : WorkInv setup arrived localDone m reducer progress) :
    m.queued.length ≤ setup.totalChunks :=
  length_le h.queued_nodup fun c hc => (h.claimed_ready c (h.queued_claimed c hc)).2.2

/-- So no two places in use share an entry. -/
theorem WorkInv.place_mod (h : WorkInv setup arrived localDone m reducer progress) {pos : Nat}
    (hpos : pos < m.queued.length) : pos % setup.remoteRqCapacity = pos :=
  Nat.mod_eq_of_lt (Nat.lt_of_lt_of_le hpos (Nat.le_trans h.queued_le setup.capacity_ge))

/-- A receive-progress CTA takes the next place of the queue for its chunk. -/
theorem WorkInv.progress_reserve (h : WorkInv setup arrived localDone m reducer progress) {c : Nat}
    (hpc : progress p = .claimed c) :
    WorkInv setup arrived localDone
      { m with rqTail := m.rqTail + 1, queued := m.queued ++ [c] } reducer
      (Function.update progress p (.storing c m.rqTail)) := by
  have hnew : c ∉ m.queued := h.unqueued p c (by rw [hpc]; rfl)
  have hheld : held m reducer progress (.inl (.inl p)) = some c := by
    simp only [held, hpc, ProgressPc.held]
  have hnodup : (m.queued ++ [c]).Nodup := by
    rw [← List.concat_eq_append]
    exact h.queued_nodup.concat hnew
  have hclaimed : ∀ y ∈ m.queued ++ [c], y ∈ m.claimed := by
    intro y hy
    rw [List.mem_append, List.mem_singleton] at hy
    rcases hy with hy | rfl
    · exact h.queued_claimed y hy
    · exact h.reducing.taken_of_held _ y hheld
  -- The queue has room for the chunk, so its place was never used.
  have hroom : m.queued.length < setup.remoteRqCapacity := by
    have hle := length_le hnodup fun y hy => (h.claimed_ready y (hclaimed y hy)).2.2
    rw [List.length_append, List.length_singleton] at hle
    exact Nat.lt_of_lt_of_le hle setup.capacity_ge
  have hzero : m.rqEntries (m.queued.length % setup.remoteRqCapacity) = 0 := by
    rw [Nat.mod_eq_of_lt hroom]
    exact h.free _ (Nat.le_refl _) hroom
  have hkeep : ∀ (pos y : Nat), m.queued[pos]? = some y → (m.queued ++ [c])[pos]? = some y := by
    intro pos y hy
    rw [List.getElem?_append_left (List.getElem?_eq_some_iff.mp hy).1]
    exact hy
  have hlast : (m.queued ++ [c])[m.rqTail]? = some c := by
    rw [h.tail_eq, List.getElem?_append_right (Nat.le_refl _), Nat.sub_self]
    rfl
  rcases h.progress_places { m with rqTail := m.rqTail + 1, queued := m.queued ++ [c] }
    (.storing c m.rqTail) (p := p)
    (fun y hy => absurd hy (by simp only [ProgressPc.sees, reduceCtorEq, not_false_eq_true]))
    (fun y pos hy => by
      cases hy
      exact hlast) hkeep with ⟨hs, hst⟩
  exact { h with
    progress_sees := hs
    reducing := by
      refine h.reducing.hand (h := .inl (.inl p)) (g := .inl (.inr m.rqTail)) hheld ?_ ?_ ?_
      · intro k hk hkt
        rcases k with (q | pos) | s
        · have hq : q ≠ p := fun heq => hk (by rw [heq])
          simp only [held, Function.update_of_ne hq]
        · -- The places before the new one keep their chunks, and those behind have none.
          have hpos : pos ≠ m.queued.length := fun heq => hkt (by rw [heq, ← h.tail_eq])
          have hsame : (m.queued ++ [c])[pos]? = m.queued[pos]? := by
            by_cases hlt : pos < m.queued.length
            · exact List.getElem?_append_left hlt
            · have hend : (m.queued ++ [c]).length ≤ pos := by
                rw [List.length_append, List.length_singleton]
                omega
              rw [List.getElem?_eq_none hend, List.getElem?_eq_none (Nat.not_lt.mp hlt)]
          simp only [held, hsame]
        · -- A place that was taken is one of those before.
          cases hpop : (reducer s).pc with
          | popped y =>
              have hlt := h.reducer_popped s y hpop
              have hle := h.head_le
              have heq := h.tail_eq
              simp only [held, hpop, ReducePc.held]
              exact List.getElem?_append_left (by omega)
          | _ => simp only [held, hpop, ReducePc.held]
      · simp only [held, Function.update_self, ProgressPc.held]
      · simp only [held, hlast]
        exact if_pos h.head_le
    tail_eq := by
      rw [List.length_append, h.tail_eq]
      rfl
    head_le := Nat.le_succ_of_le h.head_le
    reducer_head := fun s y hy => Nat.lt_succ_of_lt (h.reducer_head s y hy)
    queued_nodup := hnodup
    queued_claimed := hclaimed
    unqueued := by
      intro q y hy hmem
      by_cases hq : q = p
      · rw [hq, Function.update_self] at hy
        exact absurd hy (by simp only [ProgressPc.held, reduceCtorEq, not_false_eq_true])
      · rw [Function.update_of_ne hq] at hy
        rw [List.mem_append, List.mem_singleton] at hmem
        rcases hmem with hmem | rfl
        · exact h.unqueued q y hy hmem
        · -- Two CTAs cannot have the same chunk.
          have hsame := h.reducing.holder_inj (.inl (.inl q)) (.inl (.inl p)) y hy hheld
          exact hq (Sum.inl.inj (Sum.inl.inj hsame))
    storing := hst
    entries := fun pos y hy => by
      rcases getElem?_concat hy with hy | ⟨rfl, rfl⟩
      · exact h.entries pos y hy
      · exact Or.inl hzero
    free := fun pos hpos => by
      simp only [List.length_append, List.length_singleton] at hpos
      exact h.free pos (by omega) }

/-- It stores the entry of its place. -/
theorem WorkInv.progress_store (h : WorkInv setup arrived localDone m reducer progress)
    {c pos next : Nat} (hpc : progress p = .storing c pos) :
    WorkInv setup arrived localDone
      { m with rqEntries := Function.update m.rqEntries (pos % setup.remoteRqCapacity) (c + 1) }
      reducer (Function.update progress p (.scanning next)) := by
  have hplace := h.storing p c pos hpc
  have hpos := (List.getElem?_eq_some_iff.mp hplace).1
  rcases h.progress_places
    { m with rqEntries := Function.update m.rqEntries (pos % setup.remoteRqCapacity) (c + 1) }
    (.scanning next) (p := p)
    (fun y hy => absurd hy (by simp only [ProgressPc.sees, reduceCtorEq, not_false_eq_true]))
    (fun y pos hy => absurd hy (by simp only [reduceCtorEq, not_false_eq_true]))
    (fun _ _ hc => hc) with ⟨hs, hst⟩
  exact { h with
    progress_sees := hs
    -- The chunk goes from the CTA to the place in the queue.
    reducing := h.reducing.congr (fun k => by
      by_cases hk : k = .inl (.inl p)
      · rw [hk]
        simp only [held, Function.update_self, hpc, ProgressPc.held]
      · exact held_update_progress rfl rfl k hk) fun _ => Iff.rfl
    unqueued := forall_update (P := fun _ (q : ProgressPc) => ∀ y, q.held = some y → y ∉ m.queued)
      (fun y hy => absurd hy (by simp only [ProgressPc.held, reduceCtorEq, not_false_eq_true]))
      fun q _ => h.unqueued q
    storing := hst
    entries := fun pos' y hy => by
      have hpos' := (List.getElem?_eq_some_iff.mp hy).1
      by_cases heq : pos' = pos
      · rw [heq, hplace] at hy
        cases hy
        rw [heq]
        simp only [Function.update_self]
        exact Or.inr trivial
      · -- The queue is never longer than its ring, so no two of its places are in one entry.
        have hne : pos' % setup.remoteRqCapacity ≠ pos % setup.remoteRqCapacity := by
          rw [h.place_mod hpos', h.place_mod hpos]
          exact heq
        simp only [Function.update_of_ne hne]
        exact h.entries pos' y hy
    -- A place behind the tail is in another entry as well.
    free := fun pos' hle hlt => by
      have hend : m.queued.length ≤ pos' := hle
      have hne : pos' ≠ pos % setup.remoteRqCapacity := by
        rw [h.place_mod hpos]
        omega
      simp only [Function.update_of_ne hne]
      exact h.free pos' hle hlt }

/-- Every step of a receive-progress CTA keeps the invariant. -/
theorem WorkInv.step_progress (h : WorkInv setup arrived localDone m reducer progress)
    (heff : ProgressEffect setup arrived m (progress p) m' pc') :
    WorkInv setup arrived localDone m' reducer (Function.update progress p pc') := by
  cases heff with
  | look _ hheld hheld' hstore hsees => exact h.progress_look hheld hheld' hstore hsees
  | claim c hsees hflag => exact h.progress_claim hsees hflag
  | reserve c hpc => exact h.progress_reserve hpc
  | store c pos next hpc => exact h.progress_store hpc

end WorkSteps

/-! ## All CTAs -/

/-- The invariant of a GPU. -/
structure Inv (w : World setup) : Prop where
  arrivals : Arrivals.Inv setup.drainage w.arr
  intra : IntraInv w.intra
  work : WorkInv setup w.arr.mem.remoteArrivedFlag w.intra.localDone w.mem w.reducer w.progress

/-- What is promised of the chunks of a slice. -/
structure ReducedOnce (w : World setup) : Prop where
  /-- A chunk is claimed, reduced and published at most once, and in this order. -/
  claimed_nodup : w.mem.claimed.Nodup
  reduced_nodup : w.mem.reduced.Nodup
  published_nodup : w.mem.published.Nodup
  reduced_claimed : ∀ c ∈ w.mem.reduced, c ∈ w.mem.claimed
  published_reduced : ∀ c ∈ w.mem.published, c ∈ w.mem.reduced
  /-- A claimed chunk is one of the slice, its tiles are all counted and its flag was
      set, and the parts of all peers are recorded. -/
  ready : ∀ c ∈ w.mem.claimed, c < setup.totalChunks ∧ w.intra.Done c ∧ c ∈ w.intra.localDone ∧
    w.arr.mem.Complete setup.drainage c
  /-- The counter counts publications, and never more than there are chunks. -/
  published_eq : w.mem.publishedChunks = w.mem.published.length
  published_le : w.mem.publishedChunks ≤ setup.totalChunks
  /-- A reducing CTA leaves only when all chunks are published. -/
  returned : ∀ r, (w.reducer r).pc = .returned → ∀ c < setup.totalChunks, c ∈ w.mem.published

/-- A step of a drainer takes no flag back. -/
theorem flag_mono {l : Arrivals.Drainage} {D : Type*} [DecidableEq D] {s s' : Arrivals.State D}
    {a : Arrivals.Action D} (h : Arrivals.step l s a = some s') (c : Nat)
    (hc : s.mem.remoteArrivedFlag c ≠ 0) : s'.mem.remoteArrivedFlag c ≠ 0 := by
  cases a with
  | take d flagVal =>
      rw [Arrivals.step] at h
      split at h
      · cases h
        exact hc
      · exact absurd h (by simp only [reduceCtorEq, not_false_eq_true])
  | turn d =>
      rw [Arrivals.step] at h
      rcases Option.map_eq_some_iff.mp h with ⟨⟨m, p⟩, hr, rfl⟩
      rcases Arrivals.turn_cases hr with ⟨-, -, -, queue, rfl⟩ | ⟨_, _, rfl, rfl⟩ |
        ⟨_, _, _, _, rfl⟩ | ⟨x, _, _, _, rfl⟩
      · exact hc
      · exact hc
      · exact hc
      · -- Only the step that flags a chunk touches the flags.
        simp only [Function.update_apply]
        split
        · decide
        · exact hc

theorem inv_init (scanStart : Fin setup.numReduce → Nat) : Inv (init setup scanStart) :=
  ⟨Arrivals.inv_init, intraInv_init scanStart, workInv_init scanStart⟩

/-- Every step of any CTA keeps the invariant. -/
theorem inv_step {w w' : World setup} (h : Inv w) {a : Action setup} (hstep : step w a = some w') :
    Inv w' := by
  cases a with
  | drain d word =>
      rw [step] at hstep
      split at hstep
      · rcases Option.map_eq_some_iff.mp hstep with ⟨arr, harr, rfl⟩
        rcases Arrivals.sound_step rfl h.arrivals harr with ⟨e, m, p, rfl, hsound⟩
        exact ⟨hsound.1, h.intra, h.work.arrive (flag_mono harr)⟩
      · exact absurd hstep (by simp only [reduceCtorEq, not_false_eq_true])
  | tile o =>
      rw [step] at hstep
      split at hstep
      · rename_i hguard
        cases hstep
        exact ⟨h.arrivals, intra_tile h.intra hguard.1 hguard.2, h.work⟩
      · exact absurd hstep (by simp only [reduceCtorEq, not_false_eq_true])
  | finish o =>
      rw [step] at hstep
      cases hphase : w.intra.phase o with
      | tile =>
          rw [hphase] at hstep
          exact absurd hstep (by simp only [reduceCtorEq, not_false_eq_true])
      | resetting c =>
          rw [hphase] at hstep
          cases hstep
          exact ⟨h.arrivals, intra_zero h.intra hphase, h.work⟩
      | flagging c =>
          rw [hphase] at hstep
          cases hstep
          -- The CTA owes the flag, so nobody has set it.
          have hnew : c ∉ w.intra.localDone := fun hc =>
            ((h.intra.settling.mem_announced c).mp hc).2 o (by rw [hphase]; rfl)
          exact ⟨h.arrivals, intra_flag h.intra hphase, h.work.flag hnew⟩
  | reduce r =>
      rw [step] at hstep
      split at hstep
      · rcases Option.map_eq_some_iff.mp hstep with ⟨x, hx, rfl⟩
        exact ⟨h.arrivals, h.intra, h.work.reduce (reduceStep_effect hx)⟩
      · exact absurd hstep (by simp only [reduceCtorEq, not_false_eq_true])
  | progress p =>
      rw [step] at hstep
      split at hstep
      · rcases Option.map_eq_some_iff.mp hstep with ⟨x, hx, rfl⟩
        exact ⟨h.arrivals, h.intra, h.work.step_progress (progressStep_effect hx)⟩
      · exact absurd hstep (by simp only [reduceCtorEq, not_false_eq_true])

/-- A flag that is set tells of a complete chunk. -/
theorem complete_of_flag {l : Arrivals.Drainage} {D : Type*} {s : Arrivals.State D}
    (h : Arrivals.CountedOnce l s) {c : Nat} (hc : s.mem.remoteArrivedFlag c ≠ 0) :
    s.mem.Complete l c := by
  rw [h.flag_eq c] at hc
  split at hc
  · rename_i hmem
    exact ((h.settling.mem_announced c).mp hmem).1
  · exact absurd rfl hc

theorem reducedOnce_of_inv {w : World setup} (h : Inv w) : ReducedOnce w where
  claimed_nodup := h.work.claimed_nodup
  reduced_nodup := h.work.reducing.nodup
  published_nodup := h.work.publishing.nodup
  reduced_claimed := h.work.reducing.taken_of_out
  published_reduced := h.work.publishing.taken_of_out
  ready := fun c hc => by
    rcases h.work.claimed_ready c hc with ⟨hdone, harrived, hlt⟩
    exact ⟨hlt, ((h.intra.settling.mem_announced c).mp hdone).1, hdone,
      complete_of_flag h.arrivals.once harrived⟩
  published_eq := h.work.published_eq
  published_le := by
    rw [h.work.published_eq]
    exact length_le h.work.publishing.nodup fun c hc => (h.work.claimed_ready c
      (h.work.reducing.taken_of_out c (h.work.publishing.taken_of_out c hc))).2.2
  returned := h.work.returned

/-- In every state of every run, in each of the three paths: a chunk is claimed,
    reduced and published at most once, after it was flagged and all parts have
    arrived, and no reducing CTA leaves before all are published. -/
theorem reduced_once {scanStart : Fin setup.numReduce → Nat} {w : World setup}
    (h : Reaches step always (init setup scanStart) w) : ReducedOnce w :=
  reducedOnce_of_inv (invariant_of_reaches Inv (fun _ _ _ hs _ hstep => inv_step hs hstep) h
    (inv_init scanStart))

section Sample

/-- Three nodes, and on the GPU two chunks of two tiles and two CTAs of each kind, with the
    queue. -/
def twoChunks : Setup where
  shape := ⟨256, 512, 1, 0⟩
  numPeers := 2
  numIntraArSms := 2
  numReduce := 2
  numRecvProgress := 2
  path := .recvReadyQueue
  remoteRqCapacity := 16
  numPeers_le := two_le_thirtyOne
  capacity_ge := by decide

instance : NeZero twoChunks.numIntraArSms := neZero_two

instance : NeZero twoChunks.numReduce := neZero_two

instance : NeZero twoChunks.numRecvProgress := neZero_two

/-- Steps of a CTA of either kind. -/
def reduces (r : Fin twoChunks.numReduce) (k : Nat) : List (Action twoChunks) :=
  List.replicate k (.reduce r)

def progresses (p : Fin twoChunks.numRecvProgress) (k : Nat) : List (Action twoChunks) :=
  List.replicate k (.progress p)

/-- A receive-progress CTA takes a word, or goes on with it. -/
def drains (p : Fin twoChunks.numRecvProgress) (word : Option (BitVec 32)) : Action twoChunks :=
  .drain (.inr p) word

/-- All tiles are counted, while the words of both peers are drained side by side. -/
def bothArrive : List (Action twoChunks) :=
  [drains 0 (some (packArrivalWork 0 2)), drains 1 (some (packArrivalWork 4 2)), .tile 1, .tile 0,
    .finish 0, drains 0 none, drains 1 none, .finish 0, drains 0 none, drains 1 none, .tile 1,
    drains 0 (some (packArrivalWork 6 2)), drains 1 none, drains 1 none, .tile 0, .finish 0,
    .finish 0, drains 1 (some (packArrivalWork 2 2)), drains 1 none, drains 0 none, drains 0 none,
    drains 0 none, drains 0 none, drains 1 none]

/-- Each receive-progress CTA claims a chunk, and CTA 1 has the first place of the queue. Both
    reducing CTAs see that one, and CTA 0 gets it before its entry is there. CTA 1 tries again,
    and gets the other. In the end all leave. -/
def bothReduce : List (Action twoChunks) :=
  progresses 0 4 ++ progresses 1 5 ++ reduces 0 3 ++ reduces 1 3 ++ reduces 0 2 ++
  progresses 0 1 ++ progresses 1 1 ++ reduces 1 5 ++ progresses 0 1 ++ reduces 0 3 ++
  reduces 1 6 ++ reduces 0 3 ++ progresses 0 3 ++ progresses 1 3

theorem reduced_once_twoChunks : ∃ w,
    Reaches step always (init twoChunks fun _ => 0) w ∧ w.mem.published = [1, 0] ∧
      ((w.reducer 0).pc = .returned ∧ (w.reducer 1).pc = .returned) ∧ ReducedOnce w := by
  have hrun : (run step always (bothArrive ++ bothReduce) (init twoChunks fun _ => 0)).map
      (fun w => (w.mem.published, (w.reducer 0).pc, (w.reducer 1).pc)) =
        some ([1, 0], .returned, .returned) := by decide +kernel
  rcases Option.map_eq_some_iff.mp hrun with ⟨w, hw, hobserved⟩
  rcases Prod.mk.inj hobserved with ⟨hpublished, hpcs⟩
  have hreach := reaches_of_run _ _ _ hw
  exact ⟨w, hreach, hpublished, Prod.mk.inj hpcs, reduced_once hreach⟩

end Sample

end DynamicReduce

end GemmAr

end MKernel
