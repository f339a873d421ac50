import MKernel.Core.Ballot
import MKernel.Core.System
import MKernel.Internode.Types

/-!
# Counting Arrivals

What the drainers of the arrival queues make of the notifications, in `gemm_ar`
and in `gemm_rs`.

A notification tells of a run of tiles that a peer has written. The drainer
walks through the chunks of the run, and records in a mask for each of them that
the peer's part is there. The mask is a ballot of the peers: whoever records the
last bit sees it from the old value of the atomic disjunction, raises
`remote_arrived_chunks` and sets `remote_arrived_flag`. These are three
instructions, and other drainers, with other notifications or with the same ones
again, may run in between. Still each chunk is counted once and flagged once,
by the drainer that recorded the last bit, and nobody else (`arrival_counted`).

`gemm_rs` has a mode in which it adds the parts of the peers one by one as they
arrive. There a drainer that records a bit puts the part into a queue of work
instead, and neither the flag nor the counter is ever touched
(`never_counted`).

## Main definitions

* `Drainage`: What a drainer reads of the launch; `gemmArDrainage` and
  `gemmRsDrainage` are those of the two operators.
* `Cursor`: Where a drainer is in a run of tiles.
* `Memory`: The masks, flags and counters, and what was done with them.
* `turn`: One atomic step of a drainer.
* `State`, `step`: Any number of drainers over one memory.
* `CountedOnce`: Complete chunks are counted and flagged once.
* `drainWord`: A drainer alone, from the word to the end of its run.

## Theorems

* `turn_cases`: What one step of a drainer can do.
* `countedOnce_of_reaches`: In every state, complete chunks are counted once.
* `arrival_counted`: And the step that completes a chunk is the one that sends
  its drainer to count it.
* `never_counted`: The other mode does neither.
* `alone_idle`: A drainer alone comes to the end of every run.
* `drainWord_one`: A run of one chunk records the peer's bit for this chunk.
-/

namespace MKernel

namespace Internode

namespace Arrivals

open MKernel.Core

/-! ## The drainer -/

/-- What a drainer reads of the launch. The two operators differ in where the
    tiles of a chunk are counted from, in the chunks they own, and in what they
    do with a part that has arrived. -/
structure Drainage where
  numPeers : Nat
  totalTilesPerDevice : Nat
  colBlocks : Nat
  chunkTiles : Nat
  chunksPerRow : Nat
  tilesThisChunk : Nat → Nat
  ownsChunk : Nat → Bool
  useIncrementalPeerReduce : Bool
  numPeers_le : numPeers ≤ 31

/-- `gemm_ar_drain_arrival_queue_publish_flags`: the tiles are counted from the
    column the run is at. -/
def gemmArDrainage (numPeers rowBlocksPerSlice colBlocks chunkTiles chunksPerRow : Nat)
    (h : numPeers ≤ 31) : Drainage where
  numPeers := numPeers
  totalTilesPerDevice := rowBlocksPerSlice * colBlocks
  colBlocks := colBlocks
  chunkTiles := chunkTiles
  chunksPerRow := chunksPerRow
  tilesThisChunk := fun colStart => min chunkTiles (colBlocks - colStart)
  ownsChunk := fun _ => true
  useIncrementalPeerReduce := false
  numPeers_le := h

/-- `gemm_rs_drain_arrival_queue_publish_flags`: the tiles are counted from the
    start of the chunk, and with `use_receiver_owner_rs` the chunks of other
    nodes are passed over. -/
def gemmRsDrainage (numPeers rowBlocksPerSlice colBlocks chunkTiles chunksPerRow nodeIdx : Nat)
    (useReceiverOwnerRs useIncrementalPeerReduce : Bool) (h : numPeers ≤ 31) : Drainage where
  numPeers := numPeers
  totalTilesPerDevice := rowBlocksPerSlice * colBlocks
  colBlocks := colBlocks
  chunkTiles := chunkTiles
  chunksPerRow := chunksPerRow
  tilesThisChunk := fun colStart =>
    let chunkStart := colStart / chunkTiles * chunkTiles
    min chunkTiles (colBlocks - chunkStart)
  ownsChunk := fun chunkId => !useReceiverOwnerRs || chunkId % (numPeers + 1) == nodeIdx
  useIncrementalPeerReduce := useIncrementalPeerReduce
  numPeers_le := h

/-- Where a drainer is in a run of tiles. -/
structure Cursor where
  peerSlot : Nat
  rb : Nat
  colStart : Nat
  workTiles : Nat
deriving DecidableEq, Repr

namespace Cursor

variable (l : Drainage)

/-- The start of the run a word tells of. -/
def ofWord (flagVal : BitVec 32) : Cursor :=
  let firstTile := (unpackArrivalFirstTile flagVal).toInt
  let firstTile := (if firstTile < 0 then 0 else firstTile).toNat
  let peerSlot := firstTile / l.totalTilesPerDevice
  let localFirstTile := firstTile - peerSlot * l.totalTilesPerDevice
  let rb := localFirstTile / l.colBlocks
  let colStart := localFirstTile - rb * l.colBlocks
  let workTiles := (unpackArrivalNumTiles flagVal).toInt
  let workTiles := (if workTiles < 1 then 1 else workTiles).toNat
  { peerSlot := peerSlot
    rb := rb
    colStart := colStart
    workTiles := min workTiles (l.colBlocks - colStart) }

variable (c : Cursor)

def chunkId : Nat := c.rb * l.chunksPerRow + c.colStart / l.chunkTiles

def consumedTiles : Nat := min c.workTiles (l.tilesThisChunk c.colStart)

/-- The loop goes on: the run has tiles left, and it does not break. -/
def Live : Prop := (0 < c.workTiles ∧ c.colStart < l.colBlocks) ∧ 0 < c.consumedTiles l

instance : Decidable (c.Live l) := inferInstanceAs (Decidable (_ ∧ _))

/-- The next chunk of the run. -/
def next : Cursor :=
  { c with
    colStart := c.colStart + c.consumedTiles l
    workTiles := c.workTiles - c.consumedTiles l }

/-- `peer_bit`. -/
def peerBit : BitVec 32 := if c.peerSlot < 31 then 1#32 <<< c.peerSlot else 0

end Cursor

/-- The masks, flags and counters. The chunks that were counted and flagged, in
    order, are kept besides: no code reads them. -/
@[ext]
structure Memory where
  remoteArrivedPeerMask : Nat → BitVec 32
  remoteArrivedFlag : Nat → BitVec 32
  remoteArrivedChunks : Nat
  peerAccumQueue : List (Nat × Nat)
  counted : List Nat
  flagged : List Nat

/-- The memory at the start of an epoch. -/
def Memory.init : Memory where
  remoteArrivedPeerMask := fun _ => 0
  remoteArrivedFlag := fun _ => 0
  remoteArrivedChunks := 0
  peerAccumQueue := []
  counted := []
  flagged := []

/-- The atomic disjunction. -/
def Memory.record (m : Memory) (chunkId : Nat) (bit : BitVec 32) : Memory :=
  { m with remoteArrivedPeerMask :=
      Function.update m.remoteArrivedPeerMask chunkId (m.remoteArrivedPeerMask chunkId ||| bit) }

/-- Where a drainer stands. -/
inductive Pc where
  /-- Between two notifications. -/
  | idle
  /-- At the head of the loop. -/
  | covering (c : Cursor)
  /-- Before `atomicAdd(remote_arrived_chunks)`, for a chunk. -/
  | counting (chunkId : Nat) (c : Cursor)
  /-- Before the store to the chunk's `remote_arrived_flag`. -/
  | flagging (chunkId : Nat) (c : Cursor)
  /-- Before the part is put into the queue of work. -/
  | enqueueing (chunkId : Nat) (c : Cursor)
deriving DecidableEq, Repr

/-- What the old mask of a chunk makes a drainer do next. -/
def afterRecord (l : Drainage) (c : Cursor) (oldMask : BitVec 32) : Pc :=
  let newMask := oldMask ||| c.peerBit
  if l.useIncrementalPeerReduce then
    if oldMask &&& c.peerBit = 0 then .enqueueing (c.chunkId l) (c.next l) else .covering (c.next l)
  else if oldMask.cpop.toNat < l.numPeers ∧ l.numPeers ≤ newMask.cpop.toNat then
    .counting (c.chunkId l) (c.next l)
  else .covering (c.next l)

/-- One atomic step of a drainer that has a notification. -/
def turn (l : Drainage) (m : Memory) : Pc → Option (Memory × Pc)
  | .idle => none
  | .covering c =>
      if c.Live l then
        if l.ownsChunk (c.chunkId l) then
          some (m.record (c.chunkId l) c.peerBit,
            afterRecord l c (m.remoteArrivedPeerMask (c.chunkId l)))
        else some (m, .covering (c.next l))
      else some (m, .idle)
  | .counting x c =>
      some ({ m with
        remoteArrivedChunks := m.remoteArrivedChunks + 1
        counted := m.counted ++ [x] }, .flagging x c)
  | .flagging x c =>
      some ({ m with
        remoteArrivedFlag := Function.update m.remoteArrivedFlag x 1
        flagged := m.flagged ++ [x] }, .covering c)
  | .enqueueing x c =>
      some ({ m with peerAccumQueue := m.peerAccumQueue ++ [(c.peerSlot, x)] }, .covering c)

/-! ## Drainers -/

variable {D : Type*} [DecidableEq D] {l : Drainage}

/-- Any number of drainers over one memory. -/
structure State (D : Type*) where
  mem : Memory
  pc : D → Pc

def State.init : State D := { mem := Memory.init, pc := fun _ => .idle }

inductive Action (D : Type*) where
  /-- A drainer takes a word off a queue. -/
  | take (d : D) (flagVal : BitVec 32)
  | turn (d : D)

/-- Which word a drainer finds is not fixed: any notification of a peer, again
    and again. -/
def step (l : Drainage) (s : State D) : Action D → Option (State D)
  | .take d flagVal =>
      if s.pc d = .idle ∧ flagVal ≠ 0 ∧ (Cursor.ofWord l flagVal).peerSlot < l.numPeers then
        some { s with pc := Function.update s.pc d (.covering (Cursor.ofWord l flagVal)) }
      else none
  | .turn d =>
      (turn l s.mem (s.pc d)).map fun r => { mem := r.1, pc := Function.update s.pc d r.2 }

/-! ## What is promised -/

/-- The chunk a drainer has still to count. -/
def Pc.toCount : Pc → Option Nat
  | .counting x _ => some x
  | _ => none

/-- The chunk a drainer has still to count or to flag. -/
def Pc.owes : Pc → Option Nat
  | .counting x _ => some x
  | .flagging x _ => some x
  | _ => none

/-- The cursor a drainer goes on from. -/
def Pc.cursor : Pc → Option Cursor
  | .idle => none
  | .covering c => some c
  | .counting _ c => some c
  | .flagging _ c => some c
  | .enqueueing _ c => some c

/-- The bits of all peers are recorded for a chunk, and there are some. -/
def Memory.Complete (l : Drainage) (m : Memory) (x : Nat) : Prop :=
  (voters (m.remoteArrivedPeerMask x)).Nonempty ∧
    voters (m.remoteArrivedPeerMask x) = Finset.range l.numPeers

/-- Each complete chunk is counted once and flagged once, but for those whose
    drainer is still at it, and nothing else is. -/
structure CountedOnce (l : Drainage) (s : State D) : Prop where
  settling : Settling (s.mem.Complete l) (fun d => (s.pc d).toCount) (fun d => (s.pc d).owes)
    s.mem.counted s.mem.flagged
  chunks_eq : s.mem.remoteArrivedChunks = s.mem.counted.length
  flag_eq : ∀ x, s.mem.remoteArrivedFlag x = if x ∈ s.mem.flagged then 1 else 0

/-- Only peers have bits. -/
structure Inv (l : Drainage) (s : State D) : Prop where
  once : CountedOnce l s
  masks : ∀ x, voters (s.mem.remoteArrivedPeerMask x) ⊆ Finset.range l.numPeers
  slots : ∀ d c, (s.pc d).cursor = some c → c.peerSlot < l.numPeers

/-! ## One step -/

@[simp] theorem next_peerSlot (c : Cursor) : (c.next l).peerSlot = c.peerSlot := rfl

theorem voters_peerBit {c : Cursor} (h : c.peerSlot < l.numPeers) :
    voters c.peerBit = {c.peerSlot} := by
  have hle := l.numPeers_le
  rw [Cursor.peerBit, if_pos (by omega)]
  exact voters_bit (by omega)

theorem voters_record (m : Memory) (x y : Nat) (bit : BitVec 32) :
    voters ((m.record x bit).remoteArrivedPeerMask y) =
      if y = x then voters (m.remoteArrivedPeerMask x) ∪ voters bit
      else voters (m.remoteArrivedPeerMask y) := by
  by_cases hy : y = x
  · simp only [hy, if_true, Memory.record, Function.update_self, voters_or]
  · simp only [if_neg hy, Memory.record, Function.update_of_ne hy]

/-- What one step of a drainer can do: nothing that counts, record a bit, count a
    chunk, or flag it. -/
theorem turn_cases {m m' : Memory} {pc pc' : Pc} (h : turn l m pc = some (m', pc')) :
    (pc.owes = none ∧ pc'.owes = none ∧ pc'.cursor.elim True (fun c => ∃ c₀,
        pc.cursor = some c₀ ∧ c.peerSlot = c₀.peerSlot) ∧
      ∃ queue, m' = { m with peerAccumQueue := queue }) ∨
    (∃ c, pc = .covering c ∧ m' = m.record (c.chunkId l) c.peerBit ∧
      pc' = afterRecord l c (m.remoteArrivedPeerMask (c.chunkId l))) ∨
    (∃ x c, pc = .counting x c ∧ pc' = .flagging x c ∧ m' = { m with
      remoteArrivedChunks := m.remoteArrivedChunks + 1
      counted := m.counted ++ [x] }) ∨
    (∃ x c, pc = .flagging x c ∧ pc' = .covering c ∧ m' = { m with
      remoteArrivedFlag := Function.update m.remoteArrivedFlag x 1
      flagged := m.flagged ++ [x] }) := by
  cases pc with
  | idle => exact absurd h (by simp only [turn, reduceCtorEq, not_false_eq_true])
  | covering c =>
      rw [turn] at h
      split at h
      · split at h
        · cases h
          exact Or.inr (Or.inl ⟨c, rfl, rfl, rfl⟩)
        · -- A chunk of another node is passed over.
          cases h
          exact Or.inl ⟨rfl, rfl, ⟨c, rfl, rfl⟩, _, rfl⟩
      · cases h
        exact Or.inl ⟨rfl, rfl, trivial, _, rfl⟩
  | counting x c =>
      cases h
      exact Or.inr (Or.inr (Or.inl ⟨x, c, rfl, rfl, rfl⟩))
  | flagging x c =>
      cases h
      exact Or.inr (Or.inr (Or.inr ⟨x, c, rfl, rfl, rfl⟩))
  | enqueueing x c =>
      cases h
      exact Or.inl ⟨rfl, rfl, ⟨c, rfl, rfl⟩, _, rfl⟩

section Complete

variable {m : Memory} {c : Cursor} {x : Nat}

/-- The two counts tell whether a record completes its chunk. -/
theorem counts_iff (hmask : voters (m.remoteArrivedPeerMask x) ⊆ Finset.range l.numPeers)
    (hslot : c.peerSlot < l.numPeers) :
    ((m.remoteArrivedPeerMask x).cpop.toNat < l.numPeers ∧
      l.numPeers ≤ (m.remoteArrivedPeerMask x ||| c.peerBit).cpop.toNat) ↔
    ¬ m.Complete l x ∧ (m.record x c.peerBit).Complete l x := by
  have hbit : ({c.peerSlot} : Finset Nat) ⊆ Finset.range l.numPeers :=
    Finset.singleton_subset_iff.mpr (Finset.mem_range.mpr hslot)
  have hfull : (Finset.range l.numPeers).Nonempty := ⟨_, Finset.mem_range.mpr hslot⟩
  -- The counts of bits say which peers have voted.
  rw [cpop_toNat, cpop_toNat, voters_or, voters_peerBit hslot,
    completes_iff Finset.subset_union_left (Finset.union_subset hmask hbit), Memory.Complete,
    Memory.Complete, voters_record, if_pos rfl, voters_peerBit hslot]
  constructor
  · rintro ⟨hnot, hall⟩
    refine ⟨fun h => hnot h.2, ?_, hall⟩
    rw [hall]
    exact hfull
  · rintro ⟨hnot, -, hall⟩
    refine ⟨fun h => hnot ⟨?_, h⟩, hall⟩
    rw [h]
    exact hfull

/-- Complete chunks stay complete, and no other chunk becomes complete. -/
theorem complete_record (hslot : c.peerSlot < l.numPeers) (y : Nat) :
    (m.record x c.peerBit).Complete l y ↔
      m.Complete l y ∨ (y = x ∧ (m.record x c.peerBit).Complete l x) := by
  by_cases hy : y = x
  · rw [hy, and_iff_right rfl]
    refine ⟨Or.inr, ?_⟩
    rintro (⟨hne, hall⟩ | h)
    · -- Nobody is missing, so one more vote adds nobody.
      have hsame : voters (m.remoteArrivedPeerMask x) ∪ {c.peerSlot} = Finset.range l.numPeers := by
        rw [hall, Finset.union_eq_left, Finset.singleton_subset_iff, Finset.mem_range]
        exact hslot
      rw [Memory.Complete, voters_record, if_pos rfl, voters_peerBit hslot, hsame, ← hall]
      exact ⟨hne, rfl⟩
    · exact h
  · have hsame : (m.record x c.peerBit).Complete l y ↔ m.Complete l y := by
      rw [Memory.Complete, voters_record, if_neg hy]
      exact Iff.rfl
    rw [hsame]
    exact (or_iff_left fun h => hy h.1).symm

end Complete

/-! ## Runs -/

section Step

variable {s s' : State D} {d : D} {p : Pc}

/-- What is said of the places of all drainers, when one of them moves. -/
theorem update_pc {α : Type*} (f : Pc → α) (g : D → Pc) (d : D) (p : Pc) :
    (fun e => f (Function.update g d p e)) = Function.update (fun e => f (g e)) d (f p) :=
  Function.comp_update f g d p

/-- A drainer that owes nothing has nothing to count. -/
theorem toCount_of_owes_none {q : Pc} (hq : q.owes = none) : q.toCount = none := by
  cases q with
  | counting x c => exact absurd hq (by simp only [Pc.owes, reduceCtorEq, not_false_eq_true])
  | idle => rfl
  | covering c => rfl
  | flagging x c => rfl
  | enqueueing x c => rfl

/-- A drainer that moves and owes nothing before or after changes no promise. -/
theorem CountedOnce.quiet (h : CountedOnce l s) (hold : (s.pc d).owes = none) (hnew : p.owes = none)
    {m : Memory} (hm : ∀ x, m.Complete l x ↔ s.mem.Complete l x)
    (hlog : m.counted = s.mem.counted ∧ m.flagged = s.mem.flagged)
    (hout : m.remoteArrivedChunks = s.mem.remoteArrivedChunks ∧
      m.remoteArrivedFlag = s.mem.remoteArrivedFlag) :
    CountedOnce l { mem := m, pc := Function.update s.pc d p } := by
  refine ⟨?_, ?_, ?_⟩
  · -- Nothing is owed before or after, so the promises are the same.
    have howes : (fun e => (Function.update s.pc d p e).owes) = fun e => (s.pc e).owes := by
      rw [update_pc Pc.owes, hnew, ← hold]
      exact Function.update_eq_self d _
    have htoCount : (fun e => (Function.update s.pc d p e).toCount) =
      fun e => (s.pc e).toCount := by
      rw [update_pc Pc.toCount, toCount_of_owes_none hnew, ← toCount_of_owes_none hold]
      exact Function.update_eq_self d _
    rw [howes, htoCount, hlog.1, hlog.2]
    exact h.settling.congr hm
  · rw [hout.1, hlog.1]
    exact h.chunks_eq
  · intro x
    rw [hout.2, hlog.2]
    exact h.flag_eq x

/-- Drainers keep the peers of their notifications. -/
theorem Inv.slots_update (h : Inv l s) (hp : ∀ c, p.cursor = some c → c.peerSlot < l.numPeers)
    (e : D) (c : Cursor) (hc : (Function.update s.pc d p e).cursor = some c) :
    c.peerSlot < l.numPeers := by
  by_cases he : e = d
  · rw [he, Function.update_self] at hc
    exact hp c hc
  · rw [Function.update_of_ne he] at hc
    exact h.slots e c hc

/-- The step of a drainer to a new place and a new memory keeps the invariant, and
    a chunk becomes complete exactly if the drainer goes on to count it. -/
def Sound (l : Drainage) (s : State D) (d : D) (m : Memory) (p : Pc) : Prop :=
  Inv l { mem := m, pc := Function.update s.pc d p } ∧
    ∀ x, ¬ s.mem.Complete l x ∧ m.Complete l x ↔ p.toCount = some x ∧ (s.pc d).toCount ≠ some x

/-- Where no chunk becomes complete, no drainer may go on to count. -/
theorem no_count {m m' : Memory} {q : Pc} (hm : ∀ x, m'.Complete l x ↔ m.Complete l x)
    (hp : p.toCount = none) (x : Nat) :
    ¬ m.Complete l x ∧ m'.Complete l x ↔ p.toCount = some x ∧ q.toCount ≠ some x := by
  rw [hm x, hp]
  exact iff_of_false (fun h => h.1 h.2) fun h => absurd h.1 (Option.some_ne_none x).symm

theorem sound_quiet (h : Inv l s) (hold : (s.pc d).owes = none) (hnew : p.owes = none)
    (hslot : ∀ c, p.cursor = some c → c.peerSlot < l.numPeers) (queue : List (Nat × Nat)) :
    Sound l s d { s.mem with peerAccumQueue := queue } p :=
  ⟨⟨h.once.quiet hold hnew (fun _ => Iff.rfl) ⟨rfl, rfl⟩ ⟨rfl, rfl⟩, h.masks, h.slots_update hslot⟩,
    no_count (fun _ => Iff.rfl) (toCount_of_owes_none hnew)⟩

theorem sound_record (hmode : l.useIncrementalPeerReduce = false) (h : Inv l s) {c : Cursor}
    (hc : s.pc d = .covering c) :
    Sound l s d (s.mem.record (c.chunkId l) c.peerBit)
      (afterRecord l c (s.mem.remoteArrivedPeerMask (c.chunkId l))) := by
  have hslot : c.peerSlot < l.numPeers := h.slots d c (by rw [hc]; rfl)
  have hmask := h.masks (c.chunkId l)
  have hold : (s.pc d).owes = none := by
    rw [hc]
    rfl
  have hmasks : ∀ x, voters ((s.mem.record (c.chunkId l) c.peerBit).remoteArrivedPeerMask x) ⊆
      Finset.range l.numPeers := by
    intro x
    rw [voters_record]
    split
    · rw [voters_peerBit hslot]
      exact Finset.union_subset hmask (Finset.singleton_subset_iff.mpr (Finset.mem_range.mpr hslot))
    · exact h.masks x
  rw [afterRecord, hmode]
  simp only [Bool.false_eq_true, if_false]
  by_cases hfull : ¬ s.mem.Complete l (c.chunkId l) ∧
      (s.mem.record (c.chunkId l) c.peerBit).Complete l (c.chunkId l)
  · -- The bit was the last one missing.
    rw [if_pos ((counts_iff hmask hslot).mpr hfull)]
    have hgrow : ∀ x, (s.mem.record (c.chunkId l) c.peerBit).Complete l x ↔
        s.mem.Complete l x ∨ x = c.chunkId l := by
      intro x
      rw [complete_record hslot, and_iff_left hfull.2]
    refine ⟨⟨⟨?_, h.once.chunks_eq, h.once.flag_eq⟩, hmasks, h.slots_update fun c' hc' => ?_⟩,
      fun x => ?_⟩
    · rw [update_pc Pc.owes, update_pc Pc.toCount]
      exact h.once.settling.complete hold hfull.1 hgrow
    · cases hc'
      exact hslot
    · rw [hgrow x, toCount_of_owes_none hold]
      constructor
      · rintro ⟨hx, hx' | rfl⟩
        · exact absurd hx' hx
        · exact ⟨rfl, (Option.some_ne_none _).symm⟩
      · rintro ⟨hx, -⟩
        cases hx
        exact ⟨hfull.1, Or.inr rfl⟩
  · rw [if_neg fun hcounts => hfull ((counts_iff hmask hslot).mp hcounts)]
    have hsame : ∀ x, (s.mem.record (c.chunkId l) c.peerBit).Complete l x ↔
        s.mem.Complete l x := by
      intro x
      rw [complete_record hslot]
      refine or_iff_left_of_imp ?_
      rintro ⟨rfl, hx⟩
      by_contra hnot
      exact hfull ⟨hnot, hx⟩
    refine ⟨⟨h.once.quiet hold rfl hsame ⟨rfl, rfl⟩ ⟨rfl, rfl⟩, hmasks,
      h.slots_update fun c' hc' => ?_⟩, no_count hsame rfl⟩
    cases hc'
    exact hslot

theorem sound_count (h : Inv l s) {x : Nat} {c : Cursor} (hc : s.pc d = .counting x c) :
    Sound l s d { s.mem with
      remoteArrivedChunks := s.mem.remoteArrivedChunks + 1
      counted := s.mem.counted ++ [x] } (.flagging x c) := by
  have hcount : (s.pc d).toCount = some x := by
    rw [hc]
    rfl
  -- The drainer goes on owing the flag.
  have howes : (fun e => (Function.update s.pc d (.flagging x c) e).owes) =
      fun e => (s.pc e).owes := by
    have hsame : Pc.owes (.flagging x c) = (s.pc d).owes := by
      rw [hc]
      rfl
    rw [update_pc Pc.owes, hsame]
    exact Function.update_eq_self d _
  refine ⟨⟨⟨?_, ?_, h.once.flag_eq⟩, h.masks, h.slots_update fun c' hc' => ?_⟩,
    no_count (fun _ => Iff.rfl) rfl⟩
  · rw [howes, update_pc Pc.toCount]
    exact h.once.settling.count hcount
  · rw [List.length_append, ← h.once.chunks_eq]
    rfl
  · cases hc'
    exact h.slots d c (by rw [hc]; rfl)

theorem sound_flag (h : Inv l s) {x : Nat} {c : Cursor} (hc : s.pc d = .flagging x c) :
    Sound l s d { s.mem with
      remoteArrivedFlag := Function.update s.mem.remoteArrivedFlag x 1
      flagged := s.mem.flagged ++ [x] } (.covering c) := by
  have hnone : (s.pc d).toCount = none := by
    rw [hc]
    rfl
  have howe : (s.pc d).owes = some x := by
    rw [hc]
    rfl
  -- The drainer counted the chunk before, so it has nothing to count now either.
  have htoCount : (fun e => (Function.update s.pc d (.covering c) e).toCount) =
      fun e => (s.pc e).toCount := by
    have hsame : Pc.toCount (.covering c) = (s.pc d).toCount := by
      rw [hnone]
      rfl
    rw [update_pc Pc.toCount, hsame]
    exact Function.update_eq_self d _
  refine ⟨⟨⟨?_, h.once.chunks_eq, fun y => ?_⟩, h.masks, h.slots_update fun c' hc' => ?_⟩,
    no_count (fun _ => Iff.rfl) rfl⟩
  · -- The drainer owes the flag of this chunk, and sets it here.
    rw [htoCount, update_pc Pc.owes]
    exact h.once.settling.announce hnone howe
  · simp only [Function.update_apply, h.once.flag_eq y, List.mem_append, List.mem_singleton]
    by_cases hy : y = x
    · rw [if_pos hy, if_pos (Or.inr hy)]
    · rw [if_neg hy]
      exact if_congr (or_iff_left hy).symm rfl rfl
  · -- It goes on behind the tile of the chunk.
    cases hc'
    exact h.slots d c (by rw [hc]; rfl)

/-- Every step of a drainer is sound. -/
theorem sound_turn (hmode : l.useIncrementalPeerReduce = false) (h : Inv l s) {m : Memory}
    (hturn : turn l s.mem (s.pc d) = some (m, p)) : Sound l s d m p := by
  rcases turn_cases hturn with ⟨hold, hnew, hcur, queue, rfl⟩ | ⟨c, hc, rfl, rfl⟩ |
    ⟨x, c, hc, rfl, rfl⟩ | ⟨x, c, hc, rfl, rfl⟩
  · refine sound_quiet h hold hnew (fun c hc => ?_) queue
    rw [hc] at hcur
    rcases hcur with ⟨c₀, hc₀, heq⟩
    rw [heq]
    exact h.slots d c₀ hc₀
  · exact sound_record hmode h hc
  · exact sound_count h hc
  · exact sound_flag h hc

/-- A notification that is taken promises nothing yet. -/
theorem sound_take (h : Inv l s) {c : Cursor} (hd : s.pc d = .idle) (hc : c.peerSlot < l.numPeers) :
    Sound l s d s.mem (.covering c) := by
  refine sound_quiet h (by rw [hd]; rfl) rfl (fun c' hc' => ?_) s.mem.peerAccumQueue
  cases hc'
  exact hc

omit [DecidableEq D] in
theorem inv_init : Inv l (State.init : State D) where
  once :=
    { settling := Settling.init fun x hx => by
        have hnone := hx.1
        simp only [State.init, Memory.init, voters_zero, Finset.not_nonempty_empty] at hnone
      chunks_eq := rfl
      flag_eq := fun _ => rfl }
  masks := fun x => by
    simp only [State.init, Memory.init, voters_zero, Finset.empty_subset]
  slots := fun _ _ hc => absurd hc (by simp only [State.init, Pc.cursor, reduceCtorEq,
    not_false_eq_true])

/-- Every step keeps the invariant, and the drainer that goes on to count a chunk
    is the one whose step completed it. -/
theorem sound_step (hmode : l.useIncrementalPeerReduce = false) (h : Inv l s) {a : Action D}
    (hstep : step l s a = some s') : ∃ e m p, s' = { mem := m, pc := Function.update s.pc e p } ∧
      Sound l s e m p := by
  cases a with
  | take d flagVal =>
      rw [step] at hstep
      split at hstep
      · rename_i hguard
        cases hstep
        exact ⟨d, _, _, rfl, sound_take h hguard.1 hguard.2.2⟩
      · exact absurd hstep (by simp only [reduceCtorEq, not_false_eq_true])
  | turn d =>
      rw [step] at hstep
      rcases Option.map_eq_some_iff.mp hstep with ⟨r, hr, rfl⟩
      exact ⟨d, r.1, r.2, rfl, sound_turn hmode h hr⟩

theorem inv_of_reaches (hmode : l.useIncrementalPeerReduce = false)
    (h : Reaches (step l) always State.init s) : Inv l s := by
  refine invariant_of_reaches (Inv l) (fun s a s' hs _ hstep => ?_) h inv_init
  rcases sound_step hmode hs hstep with ⟨e, m, p, rfl, hsound⟩
  exact hsound.1

/-- In `gemm_ar`, and in `gemm_rs` unless it adds the parts one by one, each chunk
    is counted once and flagged once, and its last bit is recorded in the very
    step that sends a drainer to do so. -/
theorem arrival_counted (hmode : l.useIncrementalPeerReduce = false)
    (h : Reaches (step l) always State.init s) :
    CountedOnce l s ∧ ∀ a s', step l s a = some s' → ∀ x,
      ¬ s.mem.Complete l x ∧ s'.mem.Complete l x ↔
        ∃ d, (s'.pc d).toCount = some x ∧ (s.pc d).toCount ≠ some x := by
  have hinv := inv_of_reaches hmode h
  refine ⟨hinv.once, fun a s' hstep x => ?_⟩
  rcases sound_step hmode hinv hstep with ⟨e, m, p, rfl, -, hcount⟩
  rw [hcount x]
  constructor
  · intro hx
    refine ⟨e, ?_, hx.2⟩
    simp only [Function.update_self]
    exact hx.1
  · -- Nobody but the drainer that moved can have come to count a chunk.
    rintro ⟨d, hd, hd'⟩
    by_cases hde : d = e
    · simp only [hde, Function.update_self] at hd
      rw [hde] at hd'
      exact ⟨hd, hd'⟩
    · simp only [Function.update_of_ne hde] at hd
      exact absurd hd hd'

/-- Where parts are added one by one, no chunk is ever counted or flagged. -/
theorem never_counted (hmode : l.useIncrementalPeerReduce = true)
    (h : Reaches (step l) always State.init s) :
    s.mem.remoteArrivedChunks = 0 ∧ ∀ x, s.mem.remoteArrivedFlag x = 0 := by
  -- No drainer ever comes to owe a chunk.
  have hnever : (∀ d, (s.pc d).owes = none) ∧ s.mem.remoteArrivedChunks = 0 ∧
      ∀ x, s.mem.remoteArrivedFlag x = 0 := by
    refine invariant_of_reaches (fun s => (∀ d, (s.pc d).owes = none) ∧
      s.mem.remoteArrivedChunks = 0 ∧ ∀ x, s.mem.remoteArrivedFlag x = 0) ?_ h
      ⟨fun _ => rfl, rfl, fun _ => rfl⟩
    rintro s a s' ⟨hnone, hchunks, hflag⟩ - hstep
    have hpc : ∀ {d p}, Pc.owes p = none → ∀ e, (Function.update s.pc d p e).owes = none := by
      intro d p hp e
      by_cases he : e = d
      · rw [he, Function.update_self]
        exact hp
      · rw [Function.update_of_ne he]
        exact hnone e
    cases a with
    | take d flagVal =>
        rw [step] at hstep
        split at hstep
        · cases hstep
          exact ⟨hpc rfl, hchunks, hflag⟩
        · exact absurd hstep (by simp only [reduceCtorEq, not_false_eq_true])
    | turn d =>
        rw [step] at hstep
        rcases Option.map_eq_some_iff.mp hstep with ⟨⟨m, p⟩, hr, rfl⟩
        have hd := hnone d
        rcases turn_cases hr with ⟨-, hnew, -, queue, rfl⟩ | ⟨c, hc, rfl, rfl⟩ |
          ⟨x, c, hc, rfl, rfl⟩ | ⟨x, c, hc, rfl, rfl⟩
        · exact ⟨hpc hnew, hchunks, hflag⟩
        · refine ⟨hpc ?_, hchunks, hflag⟩
          rw [afterRecord, hmode]
          simp only [if_true]
          split <;> rfl
        · rw [hc] at hd
          exact absurd hd (by simp only [Pc.owes, reduceCtorEq, not_false_eq_true])
        · rw [hc] at hd
          exact absurd hd (by simp only [Pc.owes, reduceCtorEq, not_false_eq_true])
  exact hnever.2

end Step

/-! ## A drainer alone -/

/-- A drainer that takes its steps without any other, no more than a number. -/
def alone (l : Drainage) : Nat → Memory → Pc → Memory × Pc
  | 0, m, pc => (m, pc)
  | n + 1, m, pc =>
      match turn l m pc with
      | none => (m, pc)
      | some r => alone l n r.1 r.2

theorem alone_succ {n : Nat} {m : Memory} {pc : Pc} {r : Memory × Pc} (h : turn l m pc = some r) :
    alone l (n + 1) m pc = alone l n r.1 r.2 := by
  rw [alone, h]

theorem alone_of_idle (n : Nat) (m : Memory) : alone l n m .idle = (m, .idle) := by
  cases n with
  | zero => rfl
  | succ n => rfl

/-- How many steps a drainer has left at most: three for each tile of its run, and
    one to leave the loop. -/
def Pc.steps : Pc → Nat
  | .idle => 0
  | .covering c => 3 * c.workTiles + 1
  | .counting _ c => 3 * c.workTiles + 3
  | .flagging _ c => 3 * c.workTiles + 2
  | .enqueueing _ c => 3 * c.workTiles + 2

/-- A drainer alone handles one word. -/
def drainWord (l : Drainage) (m : Memory) (flagVal : BitVec 32) : Memory × Pc :=
  let pc := Pc.covering (Cursor.ofWord l flagVal)
  alone l pc.steps m pc

/-- A live run gets shorter. -/
theorem next_workTiles_lt {c : Cursor} (h : c.Live l) : (c.next l).workTiles < c.workTiles := by
  have hpos := h.2
  have hle : c.consumedTiles l ≤ c.workTiles := Nat.min_le_left _ _
  simp only [Cursor.next]
  omega

theorem steps_turn {m m' : Memory} {pc pc' : Pc} (h : turn l m pc = some (m', pc')) :
    pc'.steps < pc.steps := by
  cases pc with
  | idle => exact absurd h (by simp only [turn, reduceCtorEq, not_false_eq_true])
  | covering c =>
      rw [turn] at h
      split at h
      · rename_i hlive
        -- A tile is taken, so that there are fewer.
        have hlt := next_workTiles_lt hlive
        split at h
        · cases h
          -- It may complete a chunk, which is then counted, flagged and queued.
          simp only [afterRecord]
          split <;> split <;> simp only [Pc.steps] <;> omega
        · cases h
          simp only [Pc.steps]
          omega
      · cases h
        simp only [Pc.steps]
        omega
  | counting x c =>
      cases h
      simp only [Pc.steps]
      omega
  | flagging x c =>
      cases h
      simp only [Pc.steps]
      omega
  | enqueueing x c =>
      cases h
      simp only [Pc.steps]
      omega

/-- With enough steps a drainer alone comes to the end of its run. -/
theorem alone_idle (n : Nat) (m : Memory) (pc : Pc) (h : pc.steps ≤ n) :
    (alone l n m pc).2 = .idle := by
  induction n generalizing m pc with
  | zero =>
      cases pc with
      | idle => rfl
      -- Only an idle drainer has no step left.
      | covering c => simp only [Pc.steps] at h; omega
      | counting x c => simp only [Pc.steps] at h; omega
      | flagging x c => simp only [Pc.steps] at h; omega
      | enqueueing x c => simp only [Pc.steps] at h; omega
  | succ n ih =>
      rw [alone]
      cases hturn : turn l m pc with
      | none =>
          -- Everywhere but at rest the drainer has a turn.
          cases pc with
          | idle => rfl
          | covering c =>
              rw [turn] at hturn
              split at hturn
              · split at hturn <;>
                  exact absurd hturn (by simp only [reduceCtorEq, not_false_eq_true])
              · exact absurd hturn (by simp only [reduceCtorEq, not_false_eq_true])
          | counting x c =>
            exact absurd hturn (by simp only [turn, reduceCtorEq, not_false_eq_true])
          | flagging x c =>
            exact absurd hturn (by simp only [turn, reduceCtorEq, not_false_eq_true])
          | enqueueing x c =>
              exact absurd hturn (by simp only [turn, reduceCtorEq, not_false_eq_true])
      | some r =>
          -- A turn takes one step at least of those that are left.
          have hlt := steps_turn hturn
          exact ih r.1 r.2 (by omega)

/-- What becomes of the memory when one peer's part of one chunk has arrived. -/
def Memory.arrive (l : Drainage) (m : Memory) (chunkId : Nat) (bit : BitVec 32) : Memory :=
  let oldMask := m.remoteArrivedPeerMask chunkId
  let m' := m.record chunkId bit
  if oldMask.cpop.toNat < l.numPeers ∧ l.numPeers ≤ (oldMask ||| bit).cpop.toNat then
    { m' with
      remoteArrivedChunks := m.remoteArrivedChunks + 1
      counted := m.counted ++ [chunkId]
      remoteArrivedFlag := Function.update m.remoteArrivedFlag chunkId 1
      flagged := m.flagged ++ [chunkId] }
  else m'

/-- A run of one chunk records the peer's bit for this chunk. -/
theorem drainWord_one (hmode : l.useIncrementalPeerReduce = false) {flagVal : BitVec 32}
    {c : Cursor} (hword : Cursor.ofWord l flagVal = c) (hlive : c.Live l)
    (howns : l.ownsChunk (c.chunkId l))
    (hend : (c.next l).workTiles = 0) (m : Memory) :
    drainWord l m flagVal = (m.arrive l (c.chunkId l) c.peerBit, .idle) := by
  have hdead : ¬ (c.next l).Live l := by
    rintro ⟨⟨hwork, -⟩, -⟩
    omega
  have hsteps : ∃ n, Pc.steps (.covering c) = n + 4 := by
    have hlt := next_workTiles_lt hlive
    exact ⟨3 * c.workTiles - 3, by simp only [Pc.steps]; omega⟩
  rcases hsteps with ⟨n, hn⟩
  rw [drainWord, hword, hn]
  have hrecord : turn l m (.covering c) = some (m.record (c.chunkId l) c.peerBit,
      afterRecord l c (m.remoteArrivedPeerMask (c.chunkId l))) := by
    rw [turn, if_pos hlive, if_pos howns]
  have hleave : ∀ m' : Memory, turn l m' (.covering (c.next l)) = some (m', .idle) := by
    intro m'
    rw [turn, if_neg hdead]
  rw [alone_succ hrecord, afterRecord, hmode]
  simp only [Bool.false_eq_true, if_false, Memory.arrive]
  by_cases hfull : (m.remoteArrivedPeerMask (c.chunkId l)).cpop.toNat < l.numPeers ∧
      l.numPeers ≤ (m.remoteArrivedPeerMask (c.chunkId l) ||| c.peerBit).cpop.toNat
  · -- The last bit: the chunk is counted and flagged.
    rw [if_pos hfull, if_pos hfull, alone_succ rfl, alone_succ rfl, alone_succ (hleave _),
      alone_of_idle]
    rfl
  · rw [if_neg hfull, if_neg hfull, alone_succ (hleave _), alone_of_idle]

section Sample

/-- Three nodes, and one row block of two tiles, each a chunk. -/
def threeNodes : Drainage := gemmArDrainage 2 1 2 1 2 (by decide)

/-- The first peer's notification of the first chunk comes twice, the second
    peer's is taken by the other drainer in between. -/
def racing : List (Action Bool) :=
  [.take true (packArrivalWork 0 1), .take false (packArrivalWork 2 1), .turn true, .turn false,
    .turn true, .take true (packArrivalWork 0 1), .turn true, .turn false, .turn false, .turn true]

/-- The run of the two drainers. -/
def raced : Option (State Bool) := run (step threeNodes) always racing State.init

theorem arrival_counted_racing : ∃ s, raced = some s ∧ s.mem.flagged = [0] ∧
    CountedOnce threeNodes s := by
  refine ⟨_, rfl, by decide, ?_⟩
  exact (arrival_counted (l := threeNodes) rfl (reaches_of_run racing State.init _ rfl)).1

/-- Two nodes, one chunk, parts added one by one. -/
def oneByOne : Drainage := gemmRsDrainage 1 1 1 1 1 0 false true (by decide)

/-- The only peer's bit is recorded, and nothing is counted. -/
theorem chunk_uncounted : ¬ ∀ (l : Drainage) (s : State Unit),
    Reaches (step l) always State.init s → CountedOnce l s := by
  intro h
  have hreach : Reaches (step oneByOne) always (State.init : State Unit) _ :=
    reaches_of_run [.take () (packArrivalWork 0 1), .turn (), .turn (), .turn ()] State.init _ rfl
  have hmem := ((h _ _ hreach).settling.mem_counted 0).mpr ⟨?_, ?_⟩
  · exact absurd hmem (by decide)
  · refine ⟨⟨0, ?_⟩, ?_⟩ <;> decide
  · rintro ⟨⟩
    decide

end Sample

end Arrivals

end Internode

end MKernel
