import MKernel.Core.Custody
import MKernel.Core.Strided
import MKernel.GemmAr.Decode
import MKernel.Internode.Arrivals

/-!
# The Dynamic Reduce

How the reducing CTAs of `gemm_ar` share the chunks of a slice on one GPU.

A chunk is ready when the intra-node all-reduce has set its `local_done_flag`
and all peers' parts have arrived. The flag has a third value: a CTA claims a
ready chunk with a compare-and-swap from 1 to 2, so that only one can. In two of
the paths the reducing CTAs look for chunks themselves, in a window of the
flags that starts at a common cursor or at a place of the CTA's own. In the
third the receive-progress CTAs claim the chunks and put them into a queue, from
which the reducing CTAs take them. A chunk that is reduced is counted in
`published_chunks`, and a CTA that finds nothing leaves once the counter has
reached the number of chunks.

All CTAs run side by side here, instruction by instruction on the flags, the
queue and the counters. The drainers of the arrival queues are those of
`Arrivals`; which CTAs drain depends on whether there are receive-progress CTAs.

## Main definitions

* `Setup`: The shape, the CTAs of each kind and the path.
* `Intra`: The CTAs of the intra-node all-reduce and what they count.
* `Memory`: The flags, the queue and the counters of the reduce.
* `reduceStep`, `progressStep`: One step of a CTA of either kind.
* `World`, `step`: All CTAs of a GPU.
* `ReduceEffect`, `ProgressEffect`: What a step can do to the memory.

## Theorems

* `reduceStep_effect`, `progressStep_effect`: Every step has one of the effects.
-/

namespace MKernel

namespace GemmAr

namespace DynamicReduce

open MKernel.Core MKernel.Internode

/-- How chunks find their reducing CTAs. -/
inductive Path where
  /-- `shared_reduce_my_slice_worksteal`. -/
  | worksteal
  /-- The scan loop of `shared_reduce_my_slice`. -/
  | scan
  /-- `shared_reduce_my_slice_recv_ready_queue`. -/
  | recvReadyQueue
deriving DecidableEq, Repr

/-- The shape, the CTAs and the path of a launch. The queue has room for all
    chunks. -/
structure Setup where
  shape : Shape
  numPeers : Nat
  numIntraArSms : Nat
  numReduce : Nat
  numRecvProgress : Nat
  path : Path
  remoteRqCapacity : Nat
  numPeers_le : numPeers ≤ 31
  capacity_ge : shape.totalChunks ≤ remoteRqCapacity

namespace Setup

variable (setup : Setup)

def totalChunks : Nat := setup.shape.totalChunks

/-- What the drainers read of the launch. -/
def drainage : Arrivals.Drainage :=
  Arrivals.gemmArDrainage setup.numPeers setup.shape.rowBlocksPerSlice setup.shape.colBlocks
    setup.shape.chunkTiles setup.shape.chunksPerRow setup.numPeers_le

/-- `SCAN_WIN` and `CAS_SCAN_WIN`, cut to the number of chunks. -/
def win : Nat :=
  min setup.totalChunks (match setup.path with
    | .worksteal => 16
    | .scan => 32
    | .recvReadyQueue => 0)

/-- The chunk at a place of a window. -/
def chunkAt (origin i : Nat) : Nat := (origin + i) % setup.totalChunks

/-- The chunk the intra-node all-reduce counts a tile for. -/
def chunkId (tile : Nat) : Nat :=
  let q := setup.shape.chunkOfTile tile
  setup.shape.flatChunk q.1 q.2

end Setup

/-! ## The intra-node all-reduce -/

/-- Where an intra-AR CTA stands. -/
inductive Phase where
  /-- At its next tile, or done with all. -/
  | tile
  /-- It has counted the last tile of a chunk, and zeroes the count. -/
  | resetting (c : Nat)
  /-- Before the store to the chunk's `local_done_flag`. -/
  | flagging (c : Nat)
deriving DecidableEq, Repr

/-- The intra-AR CTAs and `intra_chunk_tiles_done`. The chunks whose count was
    zeroed and those that were flagged are kept besides. -/
structure Intra (setup : Setup) where
  walk : Strided setup.numIntraArSms
  phase : Fin setup.numIntraArSms → Phase
  tilesDone : Nat → Nat
  zeroed : List Nat
  localDone : List Nat

/-- Intra-AR CTA `o` has reduced its tile and counts it. -/
def Intra.countTile {setup : Setup} (a : Intra setup) (o : Fin setup.numIntraArSms) :
    Intra setup :=
  let q := setup.shape.chunkOfTile (a.walk.next o)
  let c := setup.shape.flatChunk q.1 q.2
  let prev := a.tilesDone c
  { a with
    walk := a.walk.advance o
    tilesDone := Function.update a.tilesDone c (prev + 1)
    phase := Function.update a.phase o
      (if prev + 1 = setup.shape.tilesThisChunk q.2 then .resetting c else .tile) }

/-! ## The reduce -/

/-- `local_done_flag` and what the reduce shares. The chunks in the order they were
    claimed, reduced, published and given a place in the queue are kept besides. -/
structure Memory where
  localDoneFlag : Nat → Nat
  reduceCursor : BitVec 32
  publishedChunks : Nat
  rqHead : Nat
  rqTail : Nat
  rqEntries : Nat → Nat
  claimed : List Nat
  reduced : List Nat
  published : List Nat
  queued : List Nat

/-- The scratch as it is launched with. -/
def Memory.init : Memory where
  localDoneFlag := fun _ => 0
  reduceCursor := 0
  publishedChunks := 0
  rqHead := 0
  rqTail := 0
  rqEntries := fun _ => 0
  claimed := []
  reduced := []
  published := []
  queued := []

/-- A compare-and-swap of a chunk's flag from 1 to 2 that succeeds. -/
def Memory.claim (m : Memory) (c : Nat) : Memory :=
  { m with
    localDoneFlag := Function.update m.localDoneFlag c 2
    claimed := m.claimed ++ [c] }

/-- Where a reducing CTA stands. -/
inductive ReducePc where
  /-- At the head of the loop, where it may drain its queues. -/
  | top
  /-- Before the load of `remote_arrived_flag`, at a place of its window. -/
  | scanning (origin i : Nat)
  /-- Before the load of `local_done_flag`. -/
  | arrivedSeen (origin i : Nat)
  /-- Before the compare-and-swap. -/
  | doneSeen (origin i : Nat)
  /-- It found nothing, and is before the load of `published_chunks`. -/
  | testing
  /-- It has loaded the head of the queue. -/
  | headLoaded (head : Nat)
  /-- It has loaded the tail, which is beyond. -/
  | tailLoaded (head : Nat)
  /-- It has moved the head, and waits for the entry. -/
  | popped (head : Nat)
  /-- It reduces a chunk. -/
  | reducing (c : Nat)
  /-- Before `atomicAdd(published_chunks)`. -/
  | publishing (c : Nat)
  | returned
deriving DecidableEq, Repr

/-- A reducing CTA. In the scan path it remembers where its next scan starts. -/
structure Reducer where
  pc : ReducePc
  scanStart : Nat

/-- One step of a reducing CTA that has drained its queues. -/
def reduceStep (setup : Setup) (arrived : Nat → BitVec 32) (m : Memory) (r : Reducer) :
    Option (Memory × Reducer) :=
  match r.pc with
  | .top =>
      match setup.path with
      | .worksteal =>
          some ({ m with reduceCursor := m.reduceCursor + 1 },
            { r with pc := .scanning (m.reduceCursor.toNat % setup.totalChunks) 0 })
      | .scan => some (m, { r with pc := .scanning r.scanStart 0 })
      | .recvReadyQueue => some (m, { r with pc := .headLoaded m.rqHead })
  | .scanning origin i =>
      if i < setup.win then
        if arrived (setup.chunkAt origin i) = 0 then
          some (m, { r with pc := .scanning origin (i + 1) })
        else some (m, { r with pc := .arrivedSeen origin i })
      else
        -- A window without a chunk to claim: the next scan starts behind it.
        some (m, { pc := .testing, scanStart := (r.scanStart + setup.win) % setup.totalChunks })
  | .arrivedSeen origin i =>
      if m.localDoneFlag (setup.chunkAt origin i) ≠ 1 then
        some (m, { r with pc := .scanning origin (i + 1) })
      else some (m, { r with pc := .doneSeen origin i })
  | .doneSeen origin i =>
      let c := setup.chunkAt origin i
      if m.localDoneFlag c = 1 then
        some (m.claim c, { pc := .reducing c, scanStart := (c + 1) % setup.totalChunks })
      else some (m, { r with pc := .scanning origin (i + 1) })
  | .testing =>
      if setup.totalChunks ≤ m.publishedChunks then some (m, { r with pc := .returned })
      else some (m, { r with pc := .top })
  | .headLoaded head =>
      if m.rqTail ≤ head then some (m, { r with pc := .testing })
      else some (m, { r with pc := .tailLoaded head })
  | .tailLoaded head =>
      if m.rqHead = head then
        some ({ m with rqHead := head + 1 }, { r with pc := .popped head })
      else some (m, { r with pc := .top })
  | .popped head =>
      let encoded := m.rqEntries (head % setup.remoteRqCapacity)
      if encoded = 0 then some (m, r) else some (m, { r with pc := .reducing (encoded - 1) })
  | .reducing c =>
      some ({ m with reduced := m.reduced ++ [c] }, { r with pc := .publishing c })
  | .publishing c =>
      some ({ m with
        publishedChunks := m.publishedChunks + 1
        published := m.published ++ [c] }, { r with pc := .top })
  | .returned => none

/-- Where a receive-progress CTA stands. -/
inductive ProgressPc where
  /-- At the head of the loop, where it drains its queues. -/
  | top
  /-- In `gemm_ar_try_enqueue_recv_ready_chunks`, at a chunk. -/
  | scanning (c : Nat)
  | arrivedSeen (c : Nat)
  | doneSeen (c : Nat)
  /-- It has claimed the chunk, and is before `atomicAdd(remote_rq_tail)`. -/
  | claimed (c : Nat)
  /-- It has a place in the queue, and is before the store of the entry. -/
  | storing (c pos : Nat)
  /-- Before the load of `remote_arrived_chunks`. -/
  | testing
  /-- All parts have arrived, and it is before the load of the tail. -/
  | tailTesting
  | returned
deriving DecidableEq, Repr

/-- One step of the receive-progress CTA of a number. -/
def progressStep (setup : Setup) (arrived : Nat → BitVec 32) (arrivedChunks progressId : Nat)
    (m : Memory) (pc : ProgressPc) : Option (Memory × ProgressPc) :=
  let stride := max 1 setup.numRecvProgress
  match pc with
  | .top =>
      if setup.path = .recvReadyQueue then some (m, .scanning progressId) else some (m, .testing)
  | .scanning c =>
      if c < setup.totalChunks then
        if arrived c = 0 then some (m, .scanning (c + stride)) else some (m, .arrivedSeen c)
      else some (m, .testing)
  | .arrivedSeen c =>
      if m.localDoneFlag c ≠ 1 then some (m, .scanning (c + stride)) else some (m, .doneSeen c)
  | .doneSeen c =>
      if m.localDoneFlag c = 1 then some (m.claim c, .claimed c)
      else some (m, .scanning (c + stride))
  | .claimed c =>
      some ({ m with rqTail := m.rqTail + 1, queued := m.queued ++ [c] }, .storing c m.rqTail)
  | .storing c pos =>
      some ({ m with
        rqEntries := Function.update m.rqEntries (pos % setup.remoteRqCapacity) (c + 1) },
        .scanning (c + stride))
  | .testing =>
      if setup.totalChunks ≤ arrivedChunks then
        if setup.path = .recvReadyQueue then some (m, .tailTesting) else some (m, .returned)
      else some (m, .top)
  | .tailTesting =>
      if setup.totalChunks ≤ m.rqTail then some (m, .returned) else some (m, .top)
  | .returned => none

/-! ## All CTAs -/

/-- The CTAs that may drain arrival queues. -/
abbrev Drainer (setup : Setup) := Fin setup.numReduce ⊕ Fin setup.numRecvProgress

/-- One GPU. -/
structure World (setup : Setup) where
  arr : Arrivals.State (Drainer setup)
  intra : Intra setup
  mem : Memory
  reducer : Fin setup.numReduce → Reducer
  progress : Fin setup.numRecvProgress → ProgressPc

/-- The GPU at launch. The scans may start anywhere. -/
def init (setup : Setup) (scanStart : Fin setup.numReduce → Nat) : World setup where
  arr := Arrivals.State.init
  intra :=
    { walk := Strided.start
      phase := fun _ => .tile
      tilesDone := fun _ => 0
      zeroed := []
      localDone := [] }
  mem := Memory.init
  reducer := fun r => { pc := .top, scanStart := scanStart r }
  progress := fun _ => .top

/-- What can happen next. -/
inductive Action (setup : Setup) where
  /-- A CTA takes a word off an arrival queue, or goes on with the one it has. -/
  | drain (d : Drainer setup) (word : Option (BitVec 32))
  /-- An intra-AR CTA counts a tile. -/
  | tile (o : Fin setup.numIntraArSms)
  /-- An intra-AR CTA goes on with a chunk whose last tile it counted. -/
  | finish (o : Fin setup.numIntraArSms)
  | reduce (r : Fin setup.numReduce)
  | progress (p : Fin setup.numRecvProgress)

/-- A CTA is where it drains: reducing CTAs do if there are no receive-progress
    CTAs. -/
def World.Draining {setup : Setup} (w : World setup) : Drainer setup → Prop
  | .inl r => setup.numRecvProgress = 0 ∧ setup.path ≠ .recvReadyQueue ∧ (w.reducer r).pc = .top
  | .inr p => w.progress p = .top

instance {setup : Setup} (w : World setup) : ∀ d, Decidable (w.Draining d)
  | .inl _ => inferInstanceAs (Decidable (_ ∧ _))
  | .inr _ => inferInstanceAs (Decidable (_ = _))

/-- One step of any CTA. A CTA goes on with its loop only when it has drained. -/
def step {setup : Setup} (w : World setup) : Action setup → Option (World setup)
  | .drain d word =>
      if w.Draining d then
        (Arrivals.step setup.drainage w.arr
          (word.elim (.turn d) (Arrivals.Action.take d))).map fun arr => { w with arr := arr }
      else none
  | .tile o =>
      if w.intra.phase o = .tile ∧ w.intra.walk.next o < setup.shape.totalTilesPerDevice then
        some { w with intra := w.intra.countTile o }
      else none
  | .finish o =>
      match w.intra.phase o with
      | .tile => none
      | .resetting c =>
          some { w with intra := { w.intra with
            tilesDone := Function.update w.intra.tilesDone c 0
            zeroed := w.intra.zeroed ++ [c]
            phase := Function.update w.intra.phase o (.flagging c) } }
      | .flagging c =>
          some { w with
            intra := { w.intra with
              localDone := w.intra.localDone ++ [c]
              phase := Function.update w.intra.phase o .tile }
            mem := { w.mem with localDoneFlag := Function.update w.mem.localDoneFlag c 1 } }
  | .reduce r =>
      if w.arr.pc (.inl r) = .idle then
        (reduceStep setup w.arr.mem.remoteArrivedFlag w.mem (w.reducer r)).map fun x =>
          { w with mem := x.1, reducer := Function.update w.reducer r x.2 }
      else none
  | .progress p =>
      if w.arr.pc (.inr p) = .idle then
        (progressStep setup w.arr.mem.remoteArrivedFlag w.arr.mem.remoteArrivedChunks p w.mem
          (w.progress p)).map fun x =>
          { w with mem := x.1, progress := Function.update w.progress p x.2 }
      else none

/-! ## Effects -/

/-- The chunk whose arrival a reducing CTA has seen. -/
def ReducePc.sees (setup : Setup) : ReducePc → Option Nat
  | .arrivedSeen origin i => some (setup.chunkAt origin i)
  | .doneSeen origin i => some (setup.chunkAt origin i)
  | _ => none

/-- The place of the queue a reducing CTA has found filled. -/
def ReducePc.head : ReducePc → Option Nat
  | .tailLoaded head => some head
  | _ => none

/-- The chunk a reducing CTA has and has not reduced yet, given the chunks at the
    places of the queue. -/
def ReducePc.held (queued : List Nat) : ReducePc → Option Nat
  | .popped head => queued[head]?
  | .reducing c => some c
  | _ => none

/-- The chunk a reducing CTA has reduced and has not published yet. -/
def ReducePc.publishes : ReducePc → Option Nat
  | .publishing c => some c
  | _ => none

def ProgressPc.sees : ProgressPc → Option Nat
  | .arrivedSeen c => some c
  | .doneSeen c => some c
  | _ => none

/-- The chunk a receive-progress CTA has claimed, without a place in the queue. -/
def ProgressPc.held : ProgressPc → Option Nat
  | .claimed c => some c
  | _ => none

/-- What a step of a reducing CTA can do. -/
inductive ReduceEffect (setup : Setup) (arrived : Nat → BitVec 32) (m : Memory) (pc : ReducePc) :
    Memory → ReducePc → Prop
  /-- It looks at something. -/
  | look (cursor : BitVec 32) (pc' : ReducePc)
      (hheld : ∀ queued, pc'.held queued = pc.held queued)
      (hpop : ∀ h, pc' = .popped h → pc = .popped h)
      (hpub : pc'.publishes = none) (hpub' : pc.publishes = none)
      (hsees : ∀ c, pc'.sees setup = some c →
        pc.sees setup = some c ∨ arrived c ≠ 0 ∧ c < setup.totalChunks)
      (hhead : ∀ h, pc'.head = some h → h < m.rqTail)
      (hret : pc' = .returned → setup.totalChunks ≤ m.publishedChunks) :
      ReduceEffect setup arrived m pc { m with reduceCursor := cursor } pc'
  /-- It claims a chunk. -/
  | claim (c : Nat) (hsees : pc.sees setup = some c) (hflag : m.localDoneFlag c = 1)
      (hheld : ∀ queued, pc.held queued = none) (hpub : pc.publishes = none) :
      ReduceEffect setup arrived m pc (m.claim c) (.reducing c)
  /-- It takes the first place of the queue. -/
  | pop (hpc : pc = .tailLoaded m.rqHead) :
      ReduceEffect setup arrived m pc { m with rqHead := m.rqHead + 1 } (.popped m.rqHead)
  /-- It finds the entry there. -/
  | entry (head : Nat) (hpc : pc = .popped head)
      (hentry : m.rqEntries (head % setup.remoteRqCapacity) ≠ 0) :
      ReduceEffect setup arrived m pc m
        (.reducing (m.rqEntries (head % setup.remoteRqCapacity) - 1))
  /-- It has reduced its chunk. -/
  | reduce (c : Nat) (hpc : pc = .reducing c) :
      ReduceEffect setup arrived m pc { m with reduced := m.reduced ++ [c] } (.publishing c)
  /-- It publishes its chunk. -/
  | publish (c : Nat) (hpc : pc = .publishing c) :
      ReduceEffect setup arrived m pc { m with
        publishedChunks := m.publishedChunks + 1
        published := m.published ++ [c] } .top

/-- What a step of a receive-progress CTA can do. -/
inductive ProgressEffect (setup : Setup) (arrived : Nat → BitVec 32) (m : Memory)
    (pc : ProgressPc) : Memory → ProgressPc → Prop
  /-- It looks at something. -/
  | look (pc' : ProgressPc) (hheld : pc'.held = none) (hheld' : pc.held = none)
      (hstore : ∀ c pos, pc' ≠ .storing c pos)
      (hsees : ∀ c, pc'.sees = some c → pc.sees = some c ∨ arrived c ≠ 0 ∧ c < setup.totalChunks) :
      ProgressEffect setup arrived m pc m pc'
  /-- It claims a chunk. -/
  | claim (c : Nat) (hsees : pc.sees = some c) (hflag : m.localDoneFlag c = 1)
      (hheld : pc.held = none) :
      ProgressEffect setup arrived m pc (m.claim c) (.claimed c)
  /-- It takes a place in the queue for its chunk. -/
  | reserve (c : Nat) (hpc : pc = .claimed c) :
      ProgressEffect setup arrived m pc
        { m with rqTail := m.rqTail + 1, queued := m.queued ++ [c] } (.storing c m.rqTail)
  /-- It stores the entry. -/
  | store (c pos next : Nat) (hpc : pc = .storing c pos) :
      ProgressEffect setup arrived m pc
        { m with rqEntries :=
            Function.update m.rqEntries (pos % setup.remoteRqCapacity) (c + 1) }
        (.scanning next)

section Effects

variable {setup : Setup} {arrived : Nat → BitVec 32} {m m' : Memory}

/-- A place where a reducing CTA has no chunk. -/
def ReducePc.Idle : ReducePc → Prop
  | .popped _ | .reducing _ | .publishing _ | .returned => False
  | _ => True

/-- A place from where a reducing CTA starts to look. -/
def ReducePc.Fresh : ReducePc → Prop
  | .top | .scanning _ _ | .testing | .headLoaded _ => True
  | _ => False

theorem ReducePc.none_of_idle {pc : ReducePc} (h : pc.Idle) :
    (∀ queued, pc.held queued = none) ∧ pc.publishes = none := by
  cases pc with
  | popped | reducing | publishing | returned => exact absurd h not_false
  | _ => exact ⟨fun _ => rfl, rfl⟩

theorem ReducePc.none_of_fresh (setup : Setup) {pc : ReducePc} (h : pc.Fresh) :
    pc.Idle ∧ pc.sees setup = none ∧ pc.head = none ∧ pc ≠ .returned ∧ ∀ x, pc ≠ .popped x := by
  cases pc with
  | top | scanning | testing | headLoaded =>
      refine ⟨trivial, rfl, rfl, ?_, ?_⟩ <;>
        simp only [ne_eq, reduceCtorEq, not_false_eq_true, implies_true]
  | _ => exact absurd h not_false

/-- A step from a place without a chunk to one where nothing is known. -/
theorem ReduceEffect.look_fresh {pc pc' : ReducePc} (cursor : BitVec 32) (hpc : pc.Idle)
    (hpc' : pc'.Fresh) :
    ReduceEffect setup arrived m pc { m with reduceCursor := cursor } pc' := by
  rcases ReducePc.none_of_idle hpc with ⟨hheld, hpub⟩
  rcases ReducePc.none_of_fresh setup hpc' with ⟨hidle', hsees, hhead, hret, hpop⟩
  rcases ReducePc.none_of_idle hidle' with ⟨hheld', hpub'⟩
  refine .look cursor pc' (fun queued => (hheld' queued).trans (hheld queued).symm)
    (fun h hh => absurd hh (hpop h)) hpub' hpub (fun c hc => ?_) (fun c hc => ?_)
    (fun h => absurd h hret)
  · rw [hsees] at hc
    exact absurd hc (by simp only [reduceCtorEq, not_false_eq_true])
  · rw [hhead] at hc
    exact absurd hc (by simp only [reduceCtorEq, not_false_eq_true])

/-- A step from a place without a chunk, where it sees an arrival. -/
theorem ReduceEffect.look_seeing {pc pc' : ReducePc} (hpc : pc.Idle) (hpc' : pc'.Idle)
    (hhead : pc'.head = none) (hret : pc' ≠ .returned) (hpop : ∀ x, pc' ≠ .popped x)
    (hsees : ∀ c, pc'.sees setup = some c →
      pc.sees setup = some c ∨ arrived c ≠ 0 ∧ c < setup.totalChunks) :
    ReduceEffect setup arrived m pc m pc' := by
  rcases ReducePc.none_of_idle hpc with ⟨hheld, hpub⟩
  rcases ReducePc.none_of_idle hpc' with ⟨hheld', hpub'⟩
  refine .look m.reduceCursor pc' (fun queued => (hheld' queued).trans (hheld queued).symm)
    (fun h hh => absurd hh (hpop h)) hpub' hpub hsees (fun c hc => ?_) (fun h => absurd h hret)
  rw [hhead] at hc
  exact absurd hc (by simp only [reduceCtorEq, not_false_eq_true])

/-- Every step of a reducing CTA has one of the effects. -/
theorem reduceStep_effect {r r' : Reducer} (h : reduceStep setup arrived m r = some (m', r')) :
    ReduceEffect setup arrived m r.pc m' r'.pc := by
  rcases r with ⟨pc, start⟩
  unfold reduceStep at h
  cases pc with
  | top =>
      simp only at h
      split at h <;> cases h <;>
        exact .look_fresh _ trivial trivial
  | scanning origin i =>
      simp only at h
      split at h
      · rename_i hwin
        split at h
        · cases h
          exact .look_fresh m.reduceCursor trivial trivial
        · -- The arrival is seen, in a window that is not empty.
          rename_i harrived
          cases h
          refine .look_seeing trivial trivial rfl
            (by simp only [ne_eq, reduceCtorEq, not_false_eq_true])
            (by simp only [ne_eq, reduceCtorEq, not_false_eq_true, implies_true]) fun c hc => ?_
          cases hc
          have hpos : 0 < setup.totalChunks := by
            simp only [Setup.win] at hwin
            omega
          exact Or.inr ⟨harrived, Nat.mod_lt _ hpos⟩
      · cases h
        exact .look_fresh m.reduceCursor trivial trivial
  | arrivedSeen origin i =>
      simp only at h
      split at h
      · cases h
        exact .look_fresh m.reduceCursor trivial trivial
      · cases h
        exact .look_seeing trivial trivial rfl
          (by simp only [ne_eq, reduceCtorEq, not_false_eq_true])
          (by simp only [ne_eq, reduceCtorEq, not_false_eq_true, implies_true])
          fun c hc => Or.inl hc
  | doneSeen origin i =>
      simp only at h
      split at h
      · rename_i hflag
        cases h
        exact .claim _ rfl hflag (fun _ => rfl) rfl
      · cases h
        exact .look_fresh m.reduceCursor trivial trivial
  | testing =>
      simp only at h
      split at h
      · rename_i hall
        cases h
        exact .look m.reduceCursor _ (fun _ => rfl)
          (by simp only [reduceCtorEq, false_implies, implies_true]) rfl rfl
          (fun c hc => absurd hc (by simp only [ReducePc.sees, reduceCtorEq, not_false_eq_true]))
          (fun c hc => absurd hc (by simp only [ReducePc.head, reduceCtorEq, not_false_eq_true]))
          (fun _ => hall)
      · cases h
        exact .look_fresh m.reduceCursor trivial trivial
  | headLoaded head =>
      simp only at h
      split at h
      · cases h
        exact .look_fresh m.reduceCursor trivial trivial
      · rename_i hlt
        cases h
        refine .look m.reduceCursor _ (fun _ => rfl)
          (by simp only [reduceCtorEq, false_implies, implies_true]) rfl rfl
          (fun c hc => absurd hc (by simp only [ReducePc.sees, reduceCtorEq, not_false_eq_true]))
          (fun c hc => ?_) (by simp only [reduceCtorEq, false_implies])
        cases hc
        exact Nat.not_le.mp hlt
  | tailLoaded head =>
      simp only at h
      split at h
      · rename_i heq
        cases h
        rw [← heq]
        exact .pop rfl
      · cases h
        exact .look_fresh m.reduceCursor trivial trivial
  | popped head =>
      simp only at h
      split at h
      · -- The entry is not there yet.
        cases h
        exact .look m.reduceCursor _ (fun _ => rfl) (fun _ hh => hh) rfl rfl
          (fun c hc => absurd hc (by simp only [ReducePc.sees, reduceCtorEq, not_false_eq_true]))
          (fun c hc => absurd hc (by simp only [ReducePc.head, reduceCtorEq, not_false_eq_true]))
          (by simp only [reduceCtorEq, false_implies])
      · rename_i hentry
        cases h
        exact .entry head rfl hentry
  | reducing c =>
      cases h
      exact .reduce c rfl
  | publishing c =>
      cases h
      exact .publish c rfl
  | returned => exact absurd h (by simp only [reduceCtorEq, not_false_eq_true])

/-- A place from where a receive-progress CTA starts to look, or where it is done. -/
def ProgressPc.Fresh : ProgressPc → Prop
  | .top | .scanning _ | .testing | .tailTesting | .returned => True
  | _ => False

theorem ProgressEffect.look_fresh {pc pc' : ProgressPc} (hpc : pc.held = none)
    (hpc' : pc'.Fresh) : ProgressEffect setup arrived m pc m pc' := by
  cases pc' with
  | top | scanning | testing | tailTesting | returned =>
      refine .look _ rfl hpc ?_ fun c hc => ?_
      · simp only [ne_eq, reduceCtorEq, not_false_eq_true, implies_true]
      · exact absurd hc (by simp only [ProgressPc.sees, reduceCtorEq, not_false_eq_true])
  | _ => exact absurd hpc' not_false

/-- Every step of a receive-progress CTA has one of the effects. -/
theorem progressStep_effect {arrivedChunks id : Nat} {pc pc' : ProgressPc}
    (h : progressStep setup arrived arrivedChunks id m pc = some (m', pc')) :
    ProgressEffect setup arrived m pc m' pc' := by
  unfold progressStep at h
  cases pc with
  | top =>
      simp only at h
      split at h <;> cases h <;> exact .look_fresh rfl trivial
  | scanning c =>
      simp only at h
      split at h
      · rename_i hlt
        split at h
        · cases h
          exact .look_fresh rfl trivial
        · rename_i harrived
          cases h
          refine .look _ rfl rfl
            (by simp only [ne_eq, reduceCtorEq, not_false_eq_true, implies_true]) fun x hx => ?_
          cases hx
          -- Only a chunk that has arrived is looked at further.
          exact Or.inr ⟨harrived, hlt⟩
      · cases h
        exact .look_fresh rfl trivial
  | arrivedSeen c =>
      simp only at h
      split at h
      · cases h
        exact .look_fresh rfl trivial
      · cases h
        exact .look _ rfl rfl
          (by simp only [ne_eq, reduceCtorEq, not_false_eq_true, implies_true])
          fun x hx => Or.inl hx
  | doneSeen c =>
      simp only at h
      split at h
      · rename_i hflag
        cases h
        -- It has arrived and is done, so it can be claimed.
        exact .claim c rfl hflag rfl
      · cases h
        exact .look_fresh rfl trivial
  | claimed c =>
      cases h
      exact .reserve c rfl
  | storing c pos =>
      cases h
      exact .store c pos _ rfl
  | testing =>
      simp only at h
      split at h
      · split at h <;> cases h <;> exact .look_fresh rfl trivial
      · cases h
        exact .look_fresh rfl trivial
  | tailTesting =>
      simp only at h
      split at h <;> cases h <;> exact .look_fresh rfl trivial
  | returned => exact absurd h (by simp only [reduceCtorEq, not_false_eq_true])

end Effects

end DynamicReduce

end GemmAr

end MKernel
