import Mathlib.Data.Int.CardIntervalMod
import MKernel.Core.SmallNumbers
import MKernel.GemmRs.PeerAccumStages

/-!
# Every Part Is Added Once

What the incremental reduce of `gemm_rs` promises, in whatever order its CTAs run.

Every step of a CTA or a drainer keeps the stages of `PeerAccumStages`. So each
part of a chunk the node owns is recorded, put into the queue, drawn and added
once, and the queues, which drop what does not fit, have room for all of them
(`added_once`). A chunk is made ready by the CTA that counted the last of its
parts, and by that one only. What is written to the output has every peer's part
once, in the order in which the CTAs took the lock for them, and no CTA leaves before
the chunks of the node are written: the exit test asks for as many as the node owns
(`card_owned`). The parts stand on top of all the tiles of the node's own GPUs, unless
`sender_done` was set before these had landed.

## Main definitions

* `AddedOnce`, `ReducedParts`: What is promised.

## Theorems

* `inv_cta`, `inv_drain`: Every step keeps the invariant.
* `card_owned`: The number of chunks a node owns.
* `added_once`: Every part is added once, and nothing is dropped.
* `reduced_parts`: The output has every peer's part once, and nobody leaves early.
-/

namespace MKernel

namespace GemmRs

namespace PeerAccum

open MKernel.Core MKernel.Internode

variable {V W : Type*} {setup : Setup} {recvBuf : Nat → Nat → V} {hadd2 : V → V → V}
  {storeAdd : V → W → V} {staging : Nat → V} {tiles : Nat → List W}

/-! ## A step of a CTA -/

section Cta

variable {w : World V W setup} {r : Fin setup.numReduce} {m : Memory V} {pc : Pc V}

/-- An entry that is there is the part of its place. -/
theorem Inv.peerEntry (h : Inv recvBuf hadd2 storeAdd staging tiles w) {head : Nat}
    (hentry : w.mem.peerAccumQueue head ≠ 0) :
    ∃ x, setup.Part x ∧ w.queue[head]? = some x ∧
      decodePeerAccumWork (w.mem.peerAccumQueue head) = (x.1, (x.2 : Int)) := by
  rcases h.parts.entries head with hzero | ⟨x, hx, heq⟩
  · exact absurd hzero hentry
  · have hpart := h.parts.bounds x (h.parts.recorded.custody.taken_of_out x
      (List.mem_of_getElem? hx))
    have hlt := setup.chunks_lt
    have hle := setup.numPeers_le
    refine ⟨x, hpart, hx, ?_⟩
    rw [heq]
    refine decode_encode (by have := hpart.1; omega) ?_
    have hchunk : x.2 < setup.rowBlocksPerSlice * setup.chunksPerRow := hpart.2.1
    omega

/-- The chunks that are ready are of this launch. -/
theorem Inv.part_of_readied (h : Inv recvBuf hadd2 storeAdd staging tiles w) {c : Nat}
    (hc : c ∈ w.mem.readied) : AllCounted setup w.mem.counted c ∧ c < setup.totalChunks ∧
      setup.receiverOwnsChunk c = true := by
  have hall := ((h.counts.settling.mem_announced c).mp hc).1
  have hadded := h.counts.counting.custody.taken_of_out _ (hall 0 setup.numPeers_pos)
  exact ⟨hall, (h.parts.part_of_mem_added hadded).2⟩

/-- A chunk that is written has all its parts added. -/
theorem Inv.added_of_written (h : Inv recvBuf hadd2 storeAdd staging tiles w) {c : Nat}
    (hc : c ∈ w.mem.written) : ∀ p < setup.numPeers, (p, c) ∈ w.mem.added := fun p hp =>
  h.counts.counting.custody.taken_of_out _
    ((h.part_of_readied (h.reads.queued.custody.taken_of_out c hc)).1 p hp)

theorem Inv.sent_of_written (h : Inv recvBuf hadd2 storeAdd staging tiles w) {c : Nat}
    (hc : c ∈ w.mem.written) : w.mem.senderDone c = true :=
  h.locks.added_sent (0, c) (h.added_of_written hc 0 setup.numPeers_pos)

/-- Nobody has the lock of a chunk that is written in order to add to it. -/
theorem Inv.adding_of_written (h : Inv recvBuf hadd2 storeAdd staging tiles w) {c : Nat}
    (hc : c ∈ w.mem.written) (s : Fin setup.numReduce) (p : Nat) :
    (w.cta s).adding ≠ some (p, c) := by
  intro hs
  have hpart : (w.cta s).part w.queue = some (p, c) := part_of_adding hs
  have hqueue : (p, c) ∈ w.queue := h.parts.queued.custody.taken_of_held (.inr s) (p, c) hpart
  have hbound := h.parts.bounds _ (h.parts.recorded.custody.taken_of_out _ hqueue)
  exact h.parts.notMem_added hpart (h.added_of_written hc p hbound.1)

/-- Every step of a CTA keeps the invariant. -/
theorem inv_cta (h : Inv recvBuf hadd2 storeAdd staging tiles w)
    (he : Effect setup recvBuf hadd2 w.peerAccumTail w.mem (w.cta r) m pc) :
    Inv recvBuf hadd2 storeAdd staging tiles
      { w with mem := m, cta := Function.update w.cta r pc } := by
  cases he with
  | look _ hsame hsent hstore hpeer hready hreturn =>
      refine ⟨h.parts.quiet rfl (hsame.part _) hpeer,
        h.locks.quiet rfl hsame.inside hsame.adding hsent, h.sums.quiet hstore,
        h.counts.quiet rfl hsame.toCount hsame.toMark hsame.owes,
        h.reads.quiet rfl (hsame.chunk _) (fun i hi => ?_) hsame.toEnter hsame.toProcess hreturn⟩
      rw [← h.reads.tail_eq]
      exact hready i hi
  -- Each step concerns one or two of the accounts, and is quiet for the others.
  | popReady hpc =>
      exact ⟨h.parts.quiet hpc, h.locks.quiet hpc, h.sums.quiet, h.counts.quiet hpc,
        h.reads.pop hpc⟩
  | readyEntry head _ hpc hentry hgood =>
      -- The entry is that of a chunk of this launch.
      have hchunk : ∃ c, w.mem.readied[head]? = some c ∧ pc = .awaitingReduced c := by
        rcases h.reads.entries head with hzero | ⟨c, hc, heq⟩
        · exact absurd hzero hentry
        · have hpart := h.part_of_readied (List.mem_of_getElem? hc)
          rw [heq, Nat.add_sub_cancel] at hgood
          exact ⟨c, hc, hgood hpart.2.1 hpart.2.2⟩
      rcases hchunk with ⟨c, hc, rfl⟩
      exact ⟨h.parts.quiet hpc, h.locks.quiet hpc, h.sums.quiet, h.counts.quiet hpc,
        h.reads.quiet hpc hc.symm⟩
  | popPeer hpc =>
      exact ⟨h.parts.pop hpc, h.locks.quiet hpc, h.sums.quiet, h.counts.quiet hpc,
        h.reads.quiet hpc⟩
  | peerEntry head _ hpc hentry hgood =>
      rcases h.peerEntry hentry with ⟨⟨p, c⟩, hpart, hx, hdecode⟩
      cases hgood p c hdecode hpart.1 hpart.2.1 hpart.2.2
      exact ⟨h.parts.quiet hpc hx.symm, h.locks.quiet hpc, h.sums.quiet, h.counts.quiet hpc,
        h.reads.quiet hpc⟩
  | lock p c hpc hfree =>
      exact ⟨h.parts.quiet hpc, h.locks.lock hpc hfree, h.sums.quiet, h.counts.quiet hpc,
        h.reads.quiet hpc⟩
  | load p c hpc =>
      exact ⟨h.parts.quiet hpc,
        h.locks.quiet hpc rfl rfl fun _ hx => Or.inl hx, h.sums.load,
        h.counts.quiet hpc, h.reads.quiet hpc⟩
  | add p c v hpc =>
      have hfresh := h.parts.notMem_added (r := r) (p := p) (c := c) (by rw [hpc]; rfl)
      -- A chunk that is written has its parts already.
      have hnew : c ∉ w.mem.written := fun hc =>
        h.adding_of_written hc r p (by rw [hpc]; rfl)
      exact ⟨h.parts.add hpc _, h.locks.add hpc _, h.sums.add h.locks hpc hnew,
        h.counts.add hpc hfresh _, h.reads.quiet hpc⟩
  | unlock p c hpc =>
      exact ⟨h.parts.quiet hpc, h.locks.unlock hpc, h.sums.quiet, h.counts.quiet hpc,
        h.reads.quiet hpc⟩
  | count p c hpc =>
      have hcount := h.counts.count hpc fun x hx => (h.parts.part_of_mem_added hx).1
      by_cases hfull : w.mem.peerAccumDoneCount c + 1 = setup.numPeers
      · rw [if_pos hfull] at hcount ⊢
        exact ⟨h.parts.quiet hpc, h.locks.quiet hpc, h.sums.quiet, hcount, h.reads.quiet hpc⟩
      · rw [if_neg hfull] at hcount ⊢
        exact ⟨h.parts.quiet hpc, h.locks.quiet hpc, h.sums.quiet, hcount, h.reads.quiet hpc⟩
  | mark c hpc =>
      exact ⟨h.parts.quiet hpc, h.locks.quiet hpc, h.sums.quiet, h.counts.mark hpc _,
        h.reads.quiet hpc⟩
  | reserve c hpc =>
      -- Whoever holds the announcement of a chunk is the only one to make it.
      have hfresh : c ∉ w.mem.readied := fun hc =>
        ((h.counts.settling.mem_announced c).mp hc).2 r (by rw [hpc]; rfl)
      exact ⟨h.parts.quiet hpc, h.locks.quiet hpc, h.sums.quiet, h.counts.reserve hpc _ _,
        h.reads.reserve hpc hfresh⟩
  | enter c slot queue hpc hqueue =>
      rw [hqueue]
      exact ⟨h.parts.quiet hpc, h.locks.quiet hpc, h.sums.quiet, h.counts.quiet hpc,
        h.reads.enter hpc⟩
  | write c hpc =>
      exact ⟨h.parts.quiet hpc, h.locks.quiet hpc, h.sums.write, h.counts.quiet hpc,
        h.reads.write hpc⟩
  | process c hpc =>
      exact ⟨h.parts.quiet hpc, h.locks.quiet hpc, h.sums.quiet, h.counts.quiet hpc,
        h.reads.process hpc⟩

end Cta

/-! ## A step of a drainer -/

section Drain

variable {w : World V W setup} {d : Drainer setup}

/-- A run of tiles starts in a row block of the slice. -/
theorem ofWord_rb_lt (flagVal : BitVec 32) :
    (Arrivals.Cursor.ofWord setup.drainage flagVal).rb < setup.rowBlocksPerSlice := by
  have hpos : 0 < setup.rowBlocksPerSlice * setup.colBlocks :=
    Nat.mul_pos setup.rows_pos setup.cols_pos
  simp only [Arrivals.Cursor.ofWord, Setup.drainage, Arrivals.gemmRsDrainage]
  generalize (if (unpackArrivalFirstTile flagVal).toInt < 0 then (0 : Int)
    else (unpackArrivalFirstTile flagVal).toInt).toNat = t
  rw [Nat.mul_comm (t / _), ← Nat.mod_eq_sub_mul_div]
  exact Nat.div_lt_of_lt_mul (Nat.mul_comm setup.rowBlocksPerSlice _ ▸ Nat.mod_lt t hpos)

/-- The chunk a live run is at is one of the slice. -/
theorem chunkId_lt {c : Arrivals.Cursor} (hrb : c.rb < setup.rowBlocksPerSlice)
    (hlive : c.Live setup.drainage) : c.chunkId setup.drainage < setup.totalChunks := by
  have hcol : c.colStart < setup.chunkTiles * setup.chunksPerRow := by
    have hle := setup.cols_le
    have hlt : c.colStart < setup.colBlocks := hlive.1.2
    rw [Nat.mul_comm]
    omega
  have hplace : c.colStart / setup.chunkTiles < setup.chunksPerRow := Nat.div_lt_of_lt_mul hcol
  calc c.chunkId setup.drainage
      = c.rb * setup.chunksPerRow + c.colStart / setup.chunkTiles := rfl
    _ < c.rb * setup.chunksPerRow + setup.chunksPerRow := Nat.add_lt_add_left hplace _
    _ = (c.rb + 1) * setup.chunksPerRow := (Nat.succ_mul _ _).symm
    _ ≤ setup.rowBlocksPerSlice * setup.chunksPerRow := Nat.mul_le_mul_right _ hrb

/-- The place of one drainer. -/
theorem drainer_same {pc : Arrivals.Pc} (hsame : recordedPart pc = recordedPart (w.arr.pc d)) :
    (fun e => recordedPart (Function.update w.arr.pc d pc e)) =
      fun e => recordedPart (w.arr.pc e) := by
  refine (Function.comp_update recordedPart w.arr.pc d pc).trans ?_
  rw [hsame]
  exact Function.update_eq_self d _

theorem drainer_cursors (h : Parts setup w.arr w.toStore w.mem w.cta) {pc : Arrivals.Pc}
    (hpc : ∀ c, pc.cursor = some c → c.peerSlot < setup.numPeers ∧ c.rb < setup.rowBlocksPerSlice)
    (e : Drainer setup) (c : Arrivals.Cursor)
    (hc : (Function.update w.arr.pc d pc e).cursor = some c) :
    c.peerSlot < setup.numPeers ∧ c.rb < setup.rowBlocksPerSlice := by
  by_cases he : e = d
  · rw [he, Function.update_self] at hc
    exact hpc c hc
  · rw [Function.update_of_ne he] at hc
    exact h.cursors e c hc

/-- A drainer goes on without recording a part. -/
theorem Parts.drain_quiet (h : Parts setup w.arr w.toStore w.mem w.cta) {pc : Arrivals.Pc}
    {mem : Arrivals.Memory} (hmask : mem.remoteArrivedPeerMask = w.arr.mem.remoteArrivedPeerMask)
    (hqueue : mem.peerAccumQueue = w.arr.mem.peerAccumQueue)
    (hsame : recordedPart pc = recordedPart (w.arr.pc d))
    (hpc : ∀ c, pc.cursor = some c → c.peerSlot < setup.numPeers ∧ c.rb < setup.rowBlocksPerSlice) :
    Parts setup { mem := mem, pc := Function.update w.arr.pc d pc } w.toStore w.mem w.cta where
  recorded := by
    -- Neither the masks nor the queue change, nor what this drainer has recorded.
    rw [hmask, hqueue, drainer_same hsame]
    exact h.recorded
  bounds := by
    rw [hmask]
    exact h.bounds
  cursors := drainer_cursors h hpc
  entries := by
    rw [hqueue]
    exact h.entries
  storing := by
    rw [hqueue]
    exact h.storing
  head_le := by
    rw [hqueue]
    exact h.head_le
  places := by
    rw [hqueue]
    exact h.places
  queued := by
    rw [hqueue]
    exact h.queued

/-- It records a part. -/
theorem Parts.drain_record (h : Parts setup w.arr w.toStore w.mem w.cta) {c : Arrivals.Cursor}
    (hc : w.arr.pc d = .covering c) (hlive : c.Live setup.drainage)
    (howns : setup.drainage.ownsChunk (c.chunkId setup.drainage) = true) :
    Parts setup
      { mem := w.arr.mem.record (c.chunkId setup.drainage) c.peerBit
        pc := Function.update w.arr.pc d (Arrivals.afterRecord setup.drainage c
          (w.arr.mem.remoteArrivedPeerMask (c.chunkId setup.drainage))) }
      w.toStore w.mem w.cta := by
  rcases h.cursors d c (by rw [hc]; rfl) with ⟨hslot, hrb⟩
  have hbit : voters c.peerBit = {c.peerSlot} := Arrivals.voters_peerBit (l := setup.drainage) hslot
  have hpart : setup.Part (c.peerSlot, c.chunkId setup.drainage) :=
    ⟨hslot, chunkId_lt hrb hlive, howns⟩
  have htaken : ∀ x : Nat × Nat, x.1 ∈ voters
      ((w.arr.mem.record (c.chunkId setup.drainage) c.peerBit).remoteArrivedPeerMask x.2) ↔
      x.1 ∈ voters (w.arr.mem.remoteArrivedPeerMask x.2) ∨
        x = (c.peerSlot, c.chunkId setup.drainage) := by
    rintro ⟨p, y⟩
    rw [Arrivals.voters_record]
    by_cases hy : y = c.chunkId setup.drainage
    · rw [if_pos hy, Finset.mem_union, hbit, Finset.mem_singleton, hy, Prod.mk.injEq,
        and_iff_left rfl]
    · rw [if_neg hy, or_iff_left fun heq => hy (congrArg Prod.snd heq)]
  have hnone : recordedPart (w.arr.pc d) = none := by
    rw [hc]
    rfl
  have hmode : setup.drainage.useIncrementalPeerReduce = true := rfl
  refine { h with
    recorded := ?_
    bounds := fun x hx => ((htaken x).mp hx).elim (h.bounds x) fun heq => heq ▸ hpart
    cursors := drainer_cursors h fun c' hc' => ?_ }
  · rw [Arrivals.afterRecord, hmode, if_pos rfl]
    by_cases hold : w.arr.mem.remoteArrivedPeerMask (c.chunkId setup.drainage) &&& c.peerBit = 0
    · -- The bit is new: the drainer has the part.
      rw [if_pos hold]
      have hfresh : c.peerSlot ∉
          voters (w.arr.mem.remoteArrivedPeerMask (c.chunkId setup.drainage)) := by
        rw [Arrivals.Cursor.peerBit, if_pos (Nat.lt_of_lt_of_le hslot setup.numPeers_le)] at hold
        exact and_bit_eq_zero_iff.mp hold
      have hclaim := h.recorded.claim (c := (c.peerSlot, c.chunkId setup.drainage)) hnone hfresh
        htaken
      exact hclaim.congr (Function.comp_update recordedPart w.arr.pc d _) fun _ => Iff.rfl
    · rw [if_neg hold]
      have hin : c.peerSlot ∈
          voters (w.arr.mem.remoteArrivedPeerMask (c.chunkId setup.drainage)) := by
        rw [Arrivals.Cursor.peerBit, if_pos (Nat.lt_of_lt_of_le hslot setup.numPeers_le),
          and_bit_eq_zero_iff, not_not] at hold
        exact hold
      refine h.recorded.congr (drainer_same hnone.symm) fun x => ?_
      rw [htaken x, or_iff_left_of_imp]
      rintro rfl
      exact hin
  · rw [Arrivals.afterRecord, hmode, if_pos rfl] at hc'
    split at hc' <;> cases hc' <;> exact ⟨hslot, hrb⟩

/-- It draws a ticket for the part it has recorded. -/
theorem Parts.drain_enqueue (h : Parts setup w.arr w.toStore w.mem w.cta) {c : Arrivals.Cursor}
    {x : Nat} (hc : w.arr.pc d = .enqueueing x c) :
    Parts setup
      { mem := { w.arr.mem with peerAccumQueue := w.arr.mem.peerAccumQueue ++ [(c.peerSlot, x)] }
        pc := Function.update w.arr.pc d (.covering c) }
      (Function.update w.toStore d (w.ticket d)) w.mem w.cta := by
  have hheld : recordedPart (w.arr.pc d) = some (c.peerSlot, x) := by
    rw [hc]
    rfl
  -- The part was not in the queue, because the drainer still had it.
  have hfresh := h.recorded.custody.notMem_of_held d _ hheld
  -- Places that were drawn before stand for the same parts.
  have hpart : ∀ r, (w.cta r).part (w.arr.mem.peerAccumQueue ++ [(c.peerSlot, x)]) =
      (w.cta r).part w.arr.mem.peerAccumQueue := by
    intro r
    cases hr : w.cta r with
    | peerPopped head => exact getElem?_concat_of_lt (h.places r head (by rw [hr]; rfl))
    | _ => rfl
  have hlength : (w.arr.mem.peerAccumQueue ++ [(c.peerSlot, x)]).length =
      w.arr.mem.peerAccumQueue.length + 1 := by
    rw [List.length_append, List.length_singleton]
  refine { h with
    recorded := ?_
    cursors := drainer_cursors h fun c' hc' => ?_
    entries := fun i => (h.entries i).concat
    storing := fun e i y he => ?_
    head_le := ?_
    places := fun r i hi => ?_
    queued := ?_ }
  · exact (h.recorded.release hheld).congr (Function.comp_update recordedPart w.arr.pc d _)
      fun _ => Iff.rfl
  · cases hc'
    exact h.cursors d c (by rw [hc]; rfl)
  · by_cases hed : e = d
    · rw [hed, Function.update_self, World.ticket, hc] at he
      cases he
      -- The ticket is the place behind the last, in which the part comes to be.
      exact getElem?_concat_length
    · rw [Function.update_of_ne hed] at he
      exact getElem?_concat (h.storing e i y he)
  · show w.mem.peerAccumHead ≤ _
    rw [hlength]
    exact Nat.le_succ_of_le h.head_le
  · rw [hlength]
    exact Nat.lt_succ_of_lt (h.places r i hi)
  · show Queued _ _ (fun r => (w.cta r).part (w.arr.mem.peerAccumQueue ++ [(c.peerSlot, x)])) _
    rw [funext hpart]
    -- The queue has a part more, which nobody has drawn.
    exact h.queued.push h.head_le hfresh

/-- Every step of a drainer keeps the invariant. -/
theorem inv_drain (h : Parts setup w.arr w.toStore w.mem w.cta) (hstore : w.toStore d = none)
    {mem : Arrivals.Memory} {pc : Arrivals.Pc}
    (hturn : Arrivals.turn setup.drainage w.arr.mem (w.arr.pc d) = some (mem, pc)) :
    Parts setup { mem := mem, pc := Function.update w.arr.pc d pc }
      (Function.update w.toStore d (w.ticket d)) w.mem w.cta := by
  have hcursor := h.cursors d
  -- Apart from the steps that record a part or draw a ticket, nothing is said of the drainer.
  have hticket : recordedPart (w.arr.pc d) = none →
      Function.update w.toStore d (w.ticket d) = w.toStore := by
    intro hnone
    have hno : w.ticket d = none := by
      rw [World.ticket]
      cases hd : w.arr.pc d with
      | enqueueing x c =>
          rw [hd] at hnone
          exact absurd hnone (by simp only [recordedPart, reduceCtorEq, not_false_eq_true])
      | _ => rfl
    rw [hno, ← hstore]
    exact Function.update_eq_self d _
  cases hd : w.arr.pc d with
  | idle =>
      rw [hd] at hturn
      exact absurd hturn (by simp only [Arrivals.turn, reduceCtorEq, not_false_eq_true])
  | covering c =>
      rw [hd] at hturn hcursor hticket
      rw [hticket rfl]
      rw [Arrivals.turn] at hturn
      split at hturn
      · -- The walk ends with the tiles of the word, and passes over chunks of other owners.
        rename_i hlive
        split at hturn
        · rename_i howns
          cases hturn
          exact h.drain_record hd hlive howns
        · cases hturn
          refine h.drain_quiet rfl rfl (by rw [hd]; rfl) fun c' hc' => ?_
          cases hc'
          exact hcursor c rfl
      · cases hturn
        exact h.drain_quiet rfl rfl (by rw [hd]; rfl) (by rintro _ ⟨⟩)
  | counting x c =>
      rw [hd] at hturn hcursor hticket
      rw [hticket rfl]
      cases hturn
      refine h.drain_quiet rfl rfl (by rw [hd]; rfl) fun c' hc' => ?_
      cases hc'
      exact hcursor c rfl
  | flagging x c =>
      rw [hd] at hturn hcursor hticket
      rw [hticket rfl]
      cases hturn
      refine h.drain_quiet rfl rfl (by rw [hd]; rfl) fun c' hc' => ?_
      cases hc'
      exact hcursor c rfl
  | enqueueing x c =>
      rw [hd] at hturn
      cases hturn
      exact h.drain_enqueue hd

end Drain

/-! ## Runs -/

section Runs

variable {w w' : World V W setup}

theorem inv_step (h : Inv recvBuf hadd2 storeAdd staging tiles w) {a : Action setup}
    (hstep : step recvBuf hadd2 storeAdd w a = some w') :
    Inv recvBuf hadd2 storeAdd staging tiles w' := by
  cases a with
  | take d word =>
      -- A drainer that takes a word has recorded nothing of it.
      rw [step] at hstep
      split at hstep
      · rcases Option.map_eq_some_iff.mp hstep with ⟨arr, harr, rfl⟩
        rw [Arrivals.step] at harr
        split at harr
        · rename_i hguard
          cases harr
          refine { h with
            parts := h.parts.drain_quiet rfl rfl (by rw [hguard.1]; rfl) fun c hc => ?_ }
          cases hc
          exact ⟨hguard.2.2, ofWord_rb_lt word⟩
        · exact absurd harr (by simp only [reduceCtorEq, not_false_eq_true])
      · exact absurd hstep (by simp only [reduceCtorEq, not_false_eq_true])
  | drain d =>
      rw [step] at hstep
      split at hstep
      · rename_i hguard
        rcases Option.map_eq_some_iff.mp hstep with ⟨arr, harr, rfl⟩
        rw [Arrivals.step] at harr
        rcases Option.map_eq_some_iff.mp harr with ⟨⟨mem, pc⟩, hturn, rfl⟩
        exact { h with parts := inv_drain h.parts hguard.2 hturn }
      · exact absurd hstep (by simp only [reduceCtorEq, not_false_eq_true])
  | enter d =>
      -- The work is written to the place that was drawn for it, which no other work has.
      rw [step] at hstep
      split at hstep
      · exact absurd hstep (by simp only [reduceCtorEq, not_false_eq_true])
      · rename_i slot p c hd
        cases hstep
        have hstoring : ∀ e i x, Function.update w.toStore d none e = some (i, x) →
            w.arr.mem.peerAccumQueue[i]? = some x := by
          intro e i x he
          by_cases hed : e = d
          · rw [hed, Function.update_self] at he
            exact absurd he (by simp only [reduceCtorEq, not_false_eq_true])
          · rw [Function.update_of_ne hed] at he
            exact h.parts.storing e i x he
        split
        · refine ⟨{ h.parts with storing := hstoring, entries := fun i => ?_ }, { h.locks with },
            { h.sums with }, { h.counts with }, { h.reads with }⟩
          show EntryOf _ _ i (Function.update w.mem.peerAccumQueue slot _ i)
          by_cases hi : i = slot
          · rw [hi, Function.update_self]
            exact Or.inr ⟨(p, c), h.parts.storing d slot (p, c) hd, rfl⟩
          · rw [Function.update_of_ne hi]
            exact h.parts.entries i
        · exact ⟨{ h.parts with storing := hstoring }, h.locks, h.sums, h.counts, h.reads⟩
  | land c i =>
      rcases Option.map_eq_some_iff.mp hstep with ⟨tile, htile, rfl⟩
      exact ⟨{ h.parts with }, { h.locks with },
        h.sums.land h.locks (fun x hx => h.sent_of_written hx) htile, { h.counts with },
        { h.reads with }⟩
  | send c =>
      -- Once the sender is done with a chunk it stays done.
      cases hstep
      have hmono : ∀ x, w.mem.senderDone x = true →
          Function.update w.mem.senderDone c true x = true := by
        intro x hx
        by_cases hxc : x = c
        · rw [hxc, Function.update_self]
        · rw [Function.update_of_ne hxc]
          exact hx
      exact ⟨{ h.parts with }, { h.locks with
        sent := fun r x hx => hmono x (h.locks.sent r x hx)
        added_sent := fun x hx => hmono x.2 (h.locks.added_sent x hx) }, h.sums.send c,
        { h.counts with }, { h.reads with }⟩
  | cta r =>
      rw [step] at hstep
      split at hstep
      · rcases Option.map_eq_some_iff.mp hstep with ⟨⟨m, pc⟩, hcta, rfl⟩
        exact inv_cta h (ctaStep_effect hcta)
      · exact absurd hstep (by simp only [reduceCtorEq, not_false_eq_true])

theorem inv_of_reaches
    (h : Reaches (step recvBuf hadd2 storeAdd) always (World.init setup staging tiles) w) :
    Inv recvBuf hadd2 storeAdd staging tiles w :=
  invariant_of_reaches (Inv recvBuf hadd2 storeAdd staging tiles)
    (fun _ _ _ hs _ hstep => inv_step hs hstep) h
    inv_init

end Runs

/-! ## What is promised -/

/-- Every part is recorded, put into the queue, drawn and added once, and nothing
    is dropped on the way. -/
structure AddedOnce (w : World V W setup) : Prop where
  queue_nodup : w.queue.Nodup
  queue_part : ∀ x ∈ w.queue, setup.Part x
  recorded_iff : ∀ x : Nat × Nat, x.1 ∈ voters (w.arr.mem.remoteArrivedPeerMask x.2) ↔
    x ∈ w.queue ∨ ∃ d, recordedPart (w.arr.pc d) = some x
  tail_le : w.peerAccumTail ≤ setup.peerAccumCap
  drawn_once : ∀ r s x, (w.cta r).part w.queue = some x → (w.cta s).part w.queue = some x → r = s
  kept : ∀ x ∈ w.queue, x ∈ w.mem.added ∨
    (∃ i, w.mem.peerAccumHead ≤ i ∧ w.queue[i]? = some x) ∨
    ∃ r, (w.cta r).part w.queue = some x
  added_nodup : w.mem.added.Nodup
  added_queue : ∀ x ∈ w.mem.added, x ∈ w.queue ∧ w.mem.senderDone x.2 = true
  alone : ∀ r s c, (w.cta r).inside = some c → (w.cta s).inside = some c → r = s
  readied_nodup : w.mem.readied.Nodup
  readied_iff : ∀ c, c ∈ w.mem.readied ↔
    (∀ p < setup.numPeers, (p, c) ∈ w.mem.counted) ∧ ∀ r, (w.cta r).owes ≠ some c
  readied_added : ∀ c ∈ w.mem.readied, ∀ p < setup.numPeers, (p, c) ∈ w.mem.added
  readyTail_le : w.mem.readyReduceTail ≤ setup.totalChunks

/-- The output has every peer's part of a chunk once, added in the order in which the
    lock was taken for them, on top of what the GPUs of the node have added themselves if
    `sender_done` was not set before that. No reducing CTA leaves before all chunks are
    written. -/
structure ReducedParts (recvBuf : Nat → Nat → V) (hadd2 : V → V → V) (storeAdd : V → W → V)
    (staging : Nat → V) (tiles : Nat → List W) (w : World V W setup) : Prop where
  written_nodup : w.mem.written.Nodup
  unwritten : ∀ c, c ∉ w.mem.written → w.mem.outputLocal c = none
  written_sent : ∀ c ∈ w.mem.written, w.mem.senderDone c = true
  written_parts : ∀ c ∈ w.mem.written, order w.mem.added c = order w.mem.locked c ∧
    (order w.mem.locked c).Perm (List.range setup.numPeers)
  written_eq : ∀ c ∈ w.mem.written, c ∉ w.landing.sentEarly →
    (w.landing.landed c).Perm (tiles c) ∧
      w.mem.outputLocal c = some (sumOf recvBuf hadd2 c
        (localSum storeAdd (staging c) (w.landing.landed c)) (order w.mem.locked c))
  processed_le : w.mem.chunksProcessed ≤ setup.doneTarget
  returned : ∀ r, w.cta r = .returned → w.mem.chunksProcessed = setup.doneTarget ∧
    ∀ c < setup.totalChunks, setup.receiverOwnsChunk c = true → c ∈ w.mem.written

section Promised

variable {w : World V W setup}

/-- The parts of a launch, without repetition, are no more than there is room for. -/
theorem length_le_cap {l : List (Nat × Nat)} (hl : l.Nodup) (hpart : ∀ x ∈ l, setup.Part x) :
    l.length ≤ setup.peerAccumCap := by
  have hsub : l.toFinset ⊆ Finset.range setup.numPeers ×ˢ Finset.range setup.totalChunks := by
    intro x hx
    have hin := hpart x (List.mem_toFinset.mp hx)
    exact Finset.mem_product.mpr ⟨Finset.mem_range.mpr hin.1, Finset.mem_range.mpr hin.2.1⟩
  have hcard := Finset.card_le_card hsub
  rw [List.toFinset_card_of_nodup hl, Finset.card_product, Finset.card_range,
    Finset.card_range] at hcard
  rw [Setup.peerAccumCap, Nat.max_eq_right setup.numPeers_pos, Nat.mul_comm]
  exact hcard

/-- The numbers below a bound with one remainder, counted as the entry point does. -/
theorem div_add_ite {b r v : Nat} (hv : v < r) :
    b / r + (if v % r < b % r then 1 else 0) = if v < b then 1 + (b - 1 - v) / r else 0 := by
  have hpos : 0 < r := by omega
  have hsplit := Nat.div_add_mod b r
  have hlt := Nat.mod_lt b hpos
  rw [Nat.mod_eq_of_lt hv]
  generalize b / r = q at hsplit ⊢
  generalize b % r = s at hsplit hlt ⊢
  by_cases hvs : v < s
  · have hrest : b - 1 - v = r * q + (s - 1 - v) := by omega
    rw [if_pos hvs, if_pos (by omega), hrest, Nat.mul_add_div hpos,
      Nat.div_eq_of_lt (by omega : s - 1 - v < r)]
    omega
  · rw [if_neg hvs]
    cases q with
    | zero =>
        rw [if_neg (by omega)]
    | succ q =>
        rw [Nat.mul_succ] at hsplit
        have hrest : b - 1 - v = r * q + (r + s - 1 - v) := by omega
        rw [if_pos (by omega), hrest, Nat.mul_add_div hpos,
          Nat.div_eq_of_lt (by omega : r + s - 1 - v < r)]
        omega

/-- The exit test asks for as many chunks as the node owns. -/
theorem card_owned : ((Finset.range setup.totalChunks).filter
    fun c => setup.receiverOwnsChunk c = true).card = setup.doneTarget := by
  cases howner : setup.useReceiverOwnerRs with
  | false =>
      rw [Finset.filter_true_of_mem, Finset.card_range, Setup.doneTarget, howner]
      · rfl
      · intro c _
        rw [Setup.receiverOwnsChunk, howner]
        rfl
  | true =>
      have hmod : ∀ c, setup.receiverOwnsChunk c = true ↔
          c ≡ setup.nodeIdx [MOD setup.numPeers + 1] := by
        intro c
        rw [Setup.receiverOwnsChunk, howner, Nat.ModEq,
          Nat.mod_eq_of_lt (Nat.lt_succ_of_le setup.nodeIdx_le)]
        simp only [Bool.not_true, Bool.false_or, beq_iff_eq]
      rw [Finset.filter_congr fun c _ => hmod c, ← Nat.count_eq_card_filter_range,
        Nat.count_modEq_card _ (Nat.succ_pos _), div_add_ite (Nat.lt_succ_of_le setup.nodeIdx_le),
        Setup.doneTarget, Setup.ownerChunksTotal, howner, Nat.max_eq_right (Nat.le_add_left 1 _)]
      rfl

/-- The peers whose parts were added to a chunk are told from its parts. -/
theorem mem_order {added : List (Nat × Nat)} {p c : Nat} : p ∈ order added c ↔ (p, c) ∈ added := by
  simp only [order, List.mem_map, List.mem_filter, decide_eq_true_eq]
  constructor
  · rintro ⟨⟨q, x⟩, ⟨hin, rfl⟩, rfl⟩
    exact hin
  · intro h
    exact ⟨(p, c), ⟨h, rfl⟩, rfl⟩

theorem nodup_order {added : List (Nat × Nat)} (h : added.Nodup) (c : Nat) :
    (order added c).Nodup := by
  refine (h.filter _).map_on fun x hx y hy heq => ?_
  rw [List.mem_filter, decide_eq_true_eq] at hx hy
  exact Prod.ext heq (hx.2.trans hy.2.symm)

/-- In every state of every run, each part is recorded, put into the queue, drawn
    and added once. -/
theorem added_once
    (h : Reaches (step recvBuf hadd2 storeAdd) always (World.init setup staging tiles) w) :
    AddedOnce w := by
  have hinv := inv_of_reaches h
  have hpart : ∀ x ∈ w.queue, setup.Part x := fun x hx =>
    hinv.parts.bounds x (hinv.parts.recorded.custody.taken_of_out x hx)
  exact
    { queue_nodup := hinv.parts.recorded.custody.nodup
      queue_part := hpart
      recorded_iff := fun x => by
        constructor
        · exact hinv.parts.recorded.kept x
        · rintro (hx | ⟨d, hd⟩)
          · exact hinv.parts.recorded.custody.taken_of_out x hx
          · exact hinv.parts.recorded.custody.taken_of_held d x hd
      tail_le := length_le_cap hinv.parts.recorded.custody.nodup hpart
      drawn_once := fun r s x hr hs =>
        -- Whoever holds a part is its only holder.
        Sum.inr.inj (hinv.parts.queued.custody.holder_inj (.inr r) (.inr s) x hr hs)
      kept := fun x hx => by
        -- A part of the queue is added, waits in its place or is with a CTA.
        rcases hinv.parts.queued.kept x hx with hout | ⟨i | r, hheld⟩
        · exact Or.inl hout
        · rw [Sum.elim_inl, waiting] at hheld
          split at hheld
          · rename_i hle
            exact Or.inr (Or.inl ⟨i, hle, hheld⟩)
          · exact absurd hheld (by simp only [reduceCtorEq, not_false_eq_true])
        · exact Or.inr (Or.inr ⟨r, hheld⟩)
      added_nodup := hinv.parts.queued.custody.nodup
      added_queue := fun x hx =>
        ⟨hinv.parts.queued.custody.taken_of_out x hx, hinv.locks.added_sent x hx⟩
      alone := hinv.locks.alone
      readied_nodup := hinv.counts.settling.announced_nodup
      readied_iff := hinv.counts.settling.mem_announced
      readied_added := fun c hc p hp => hinv.counts.counting.custody.taken_of_out _
        ((hinv.part_of_readied hc).1 p hp)
      readyTail_le := by
        rw [hinv.reads.tail_eq]
        exact length_le hinv.counts.settling.announced_nodup fun c hc =>
          (hinv.part_of_readied hc).2.1 }

/-- In every state of every run, a chunk that is written has every peer's part
    once, and a CTA leaves only when all chunks of the node are written. -/
theorem reduced_parts
    (h : Reaches (step recvBuf hadd2 storeAdd) always (World.init setup staging tiles) w) :
    ReducedParts recvBuf hadd2 storeAdd staging tiles w := by
  have hinv := inv_of_reaches h
  have howned : ∀ c ∈ w.mem.processed, c ∈ (Finset.range setup.totalChunks).filter
      fun c => setup.receiverOwnsChunk c = true := by
    intro c hc
    have hpart := hinv.part_of_readied (hinv.reads.queued.custody.taken_of_out c
      (hinv.reads.processing.custody.taken_of_out c hc))
    exact Finset.mem_filter.mpr ⟨Finset.mem_range.mpr hpart.2.1, hpart.2.2⟩
  have hsub : w.mem.processed.toFinset ⊆ (Finset.range setup.totalChunks).filter
      fun c => setup.receiverOwnsChunk c = true := fun c hc => howned c (List.mem_toFinset.mp hc)
  have hcard : w.mem.processed.toFinset.card = w.mem.chunksProcessed := by
    rw [List.toFinset_card_of_nodup hinv.reads.processing.custody.nodup, hinv.reads.processed_eq]
  have hle : w.mem.chunksProcessed ≤ setup.doneTarget := by
    rw [← hcard, ← card_owned]
    exact Finset.card_le_card hsub
  have horder : ∀ c ∈ w.mem.written, order w.mem.locked c = order w.mem.added c := fun c hc =>
    hinv.locks.order_eq c (hinv.adding_of_written hc)
  refine ⟨hinv.reads.queued.custody.nodup, hinv.reads.unwritten, fun c hc =>
    hinv.sent_of_written hc, fun c hc => ⟨(horder c hc).symm, ?_⟩, fun c hc hearly => ⟨?_, ?_⟩,
    hle, fun r hr => ?_⟩
  · rw [horder c hc, List.perm_ext_iff_of_nodup (nodup_order hinv.parts.queued.custody.nodup c)
      List.nodup_range]
    intro p
    rw [mem_order, List.mem_range]
    exact ⟨fun hp => (hinv.parts.part_of_mem_added hp).1, hinv.added_of_written hc p⟩
  · have hland := hinv.sums.landed c
    rw [hinv.sums.done c hearly (hinv.sent_of_written hc), List.append_nil] at hland
    exact hland
  · rw [hinv.sums.written_eq c hearly hc, hinv.sums.sum_eq c hearly, horder c hc]
  · -- As many chunks are counted as the node owns, so all are.
    have heq : w.mem.chunksProcessed = setup.doneTarget :=
      Nat.le_antisymm hle (hinv.reads.returned r hr)
    have hall := Finset.eq_of_subset_of_card_le hsub (by rw [hcard, heq, card_owned])
    refine ⟨heq, fun c hc hown => hinv.reads.processing.custody.taken_of_out c ?_⟩
    rw [← List.mem_toFinset, hall, Finset.mem_filter, Finset.mem_range]
    exact ⟨hc, hown⟩

end Promised

section Sample

theorem two_chunks_lt : 1 * 2 < 2 ^ 24 := by decide

/-- Three nodes, and two chunks of one tile each. Two CTAs reduce, another drains. -/
def twoPeers : Setup where
  numPeers := 2
  nodeIdx := 0
  rowBlocksPerSlice := 1
  colBlocks := 2
  chunkTiles := 1
  chunksPerRow := 2
  useReceiverOwnerRs := false
  numReduce := 2
  numRecvProgress := 1
  numPeers_pos := Nat.two_pos
  numPeers_le := two_le_thirtyOne
  nodeIdx_le := nat_zero_le_two
  rows_pos := Nat.one_pos
  cols_pos := Nat.two_pos
  chunkTiles_pos := Nat.one_pos
  cols_le := two_le_two
  chunks_lt := two_chunks_lt

/-- A word for two tiles. The drainer records the part of each and puts it into the queue. -/
def drainWord (word : BitVec 32) : List (Action twoPeers) :=
  let d : Drainer twoPeers := .inr ⟨0, Nat.one_pos⟩
  [.take d word, .drain d, .drain d, .enter d, .drain d, .drain d, .enter d, .drain d]

/-- Both peers' words and the tiles of the two GPUs come in. One CTA draws the first part
    and is held up until the other has added the rest and left the second chunk written. -/
def overtakenRun : List (Action twoPeers) :=
  drainWord (packArrivalWork 0 2) ++ [.land 0 0, .land 1 1] ++
  drainWord (packArrivalWork 2 2) ++ [.land 0 0, .land 1 0, .send 0, .send 1] ++
  List.replicate 7 (.cta ⟨0, Nat.two_pos⟩) ++ List.replicate 49 (.cta ⟨1, Nat.one_lt_two⟩) ++
  List.replicate 19 (.cta ⟨0, Nat.two_pos⟩) ++ List.replicate 3 (.cta ⟨1, Nat.one_lt_two⟩)

/-- The sums are lists here, so that the order shows. -/
def listStep (w : World (List Nat) Nat twoPeers) (a : Action twoPeers) :
    Option (World (List Nat) Nat twoPeers) :=
  step (fun p c => [10 * (p + 1) + c]) (fun accum part => accum ++ part)
    (fun accum tile => accum ++ [tile]) w a

def listStart : World (List Nat) Nat twoPeers := World.init twoPeers (fun _ => []) fun _ => [1, 2]

theorem added_once_overtaken : ∃ w, run listStep always overtakenRun listStart = some w ∧
    w.mem.added = [(0, 1), (1, 0), (1, 1), (0, 0)] ∧ AddedOnce w := by
  have hrun : (run listStep always overtakenRun listStart).map (fun w => w.mem.added) =
      some [(0, 1), (1, 0), (1, 1), (0, 0)] := by decide +kernel
  rcases Option.map_eq_some_iff.mp hrun with ⟨w, hw, hadded⟩
  exact ⟨w, hw, hadded, added_once (reaches_of_run overtakenRun listStart w hw)⟩

theorem reduced_parts_overtaken : ∃ w, run listStep always overtakenRun listStart = some w ∧
    w.mem.outputLocal 0 = some [1, 2, 20, 10] ∧ w.mem.outputLocal 1 = some [2, 1, 11, 21] ∧
      w.landing.sentEarly = [] ∧ w.cta ⟨0, Nat.two_pos⟩ = .returned ∧
        ReducedParts (fun p c => [10 * (p + 1) + c]) (fun accum part => accum ++ part)
          (fun accum tile => accum ++ [tile]) (fun _ => []) (fun _ => [1, 2]) w := by
  have hrun : (run listStep always overtakenRun listStart).map (fun w =>
      (w.mem.outputLocal 0, w.mem.outputLocal 1, w.landing.sentEarly, w.cta ⟨0, Nat.two_pos⟩)) =
      some (some [1, 2, 20, 10], some [2, 1, 11, 21], [], .returned) := by decide +kernel
  rcases Option.map_eq_some_iff.mp hrun with ⟨w, hw, hseen⟩
  simp only [Prod.mk.injEq] at hseen
  exact ⟨w, hw, hseen.1, hseen.2.1, hseen.2.2.1, hseen.2.2.2,
    reduced_parts (reaches_of_run overtakenRun listStart w hw)⟩

end Sample

end PeerAccum

end GemmRs

end MKernel
