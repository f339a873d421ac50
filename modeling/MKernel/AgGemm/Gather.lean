import MKernel.AgGemm.Posts
import MKernel.Core.Copying
import MKernel.Core.System

/-!
# The Gather over a Run

An iteration of the all-gather of `ag_gemm` on all nodes and GPUs, byte by byte.

A `WRITE` and the multicast store of a tile both copy bytes, one at a time and in any
order, each read when it is copied. When a `WRITE` has copied all, its tile is flagged as
arrived at the node it is for. When a store has, it is counted at the barrier. A store
begins when the tiles of both row blocks are flagged, and a row is forwarded in a step when
all stores of the row are counted.

Every byte of a receive buffer is meant for one node's shard, whatever bank it is in, as
every bank has a slot for each peer. All that is copied is copied to where it is meant to
be. So what was stored is the shard of the node that is the origin of the step, and after
the last step all shards of the other nodes are there (`stored_meant`, `gathered_of_stored`),
if the commands are for whole row blocks. Else the last byte of a shard may be of no
command (`last_byte_stale`).

The threads of a comm CTA go through their tasks in order. Here tasks begin in any order.

## Main definitions

* `Cell`: A byte of a shard or of a receive buffer.
* `Task`, `Job`: A tile of a step, and what copies bytes.
* `World`, `Action`, `step`: The memory, what is being copied, the flags and the stores.
* `meant`: What each byte is meant to be.
* `Stored`: All stores of a node are counted.
* `Gathered`: A node has the shards of all other nodes.
* `Inv`: What is flagged and stored is as meant.

## Theorems

* `same_of_valid`: What a job copies is meant to be the same.
* `inv_step`: What every step keeps.
* `gathered_of_stored`: When all is stored, all is there.
* `ring_gathers`: The slots of the ring, and what is gathered.
-/

namespace MKernel

namespace AgGemm

open MKernel.Core
open MKernel.Internode (peerRankForSlot slotAtPeer)

/-- The bytes of a row of a tile. -/
def tileRowBytes : Nat := redBlock * 2 * elemBytes

/-- A byte of the shard of a node, in `A` of the GPU that has the row, or of the receive
    buffer of a GPU, which `A_recv` is laid over. -/
inductive Cell where
  | own (node off : Nat)
  | recv (node dev addr : Nat)
deriving DecidableEq

/-- A task of a step, on a GPU. -/
structure Task where
  node : Nat
  dev : Nat
  step : Nat
  task : Nat
deriving DecidableEq

/-- What copies bytes: a `WRITE` of a GPU, or the store of a task. -/
inductive Job where
  | send (node dev : Nat) (write : Write)
  | store (t : Task)
deriving DecidableEq

namespace Setup

variable (setup : Setup)

/-- `global_row_idx`. -/
def rowIdx (t : Task) : Nat := t.task / setup.colBlocks + t.dev * setup.localRowBlocks

/-- `col_idx`. -/
def colIdx (t : Task) : Nat := t.task % setup.colBlocks

/-- `slot_row_store`. -/
def slotRowStore (t : Task) : Nat :=
  setup.slot (setup.origin t.node t.step) t.node * setup.globalRowBlocks + setup.rowIdx t

/-- `slot_row_load`. -/
def slotRowLoad (t : Task) : Nat :=
  setup.slotRowStore t + t.step * (setup.numPeers * setup.globalRowBlocks)

/-- Where a byte of a tile is in a buffer. -/
def tileAddr (row col x : Nat) : Nat :=
  (row * (rowBlock * 2) + x / tileRowBytes) * (setup.cols * elemBytes) +
    (col * tileRowBytes + x % tileRowBytes)

/-- How many bytes are copied. A store copies its tile to every GPU. -/
def size : Job → Nat
  | .send _ _ w => w.bytes
  | .store _ => setup.numDevices * commTileBytes

/-- Where a byte is copied from. -/
def src : Job → Nat → Cell
  | .send node dev w, x =>
    if w.srcView = 1 then .own node (w.localOffset + x) else .recv node dev (w.localOffset + x)
  | .store t, x =>
    .recv t.node t.dev (setup.tileAddr (setup.slotRowLoad t) (setup.colIdx t) (x % commTileBytes))

/-- Where it is copied to. -/
def dst : Job → Nat → Cell
  | .send _ dev w, x => .recv w.dstRank dev (w.remoteOffset + x)
  | .store t, x =>
    .recv t.node (x / commTileBytes)
      (setup.tileAddr (setup.slotRowStore t) (setup.colIdx t) (x % commTileBytes))

/-- The node whose shard a peer slot is for. -/
def owner (node p : Nat) : Nat := (peerRankForSlot node setup.numNodes p).toNat

/-- The task is one of a step. -/
def IsTask (t : Task) : Prop :=
  t.node < setup.numNodes ∧ t.dev < setup.numDevices ∧ t.step < setup.numPeers ∧
    t.task < setup.numLocalBlocks

instance (t : Task) : Decidable (setup.IsTask t) :=
  inferInstanceAs (Decidable (_ ∧ _ ∧ _ ∧ _))

end Setup

variable {α : Type*}

/-- The memory, what is being copied, the tiles that are flagged at each GPU, and the
    stores that are counted. -/
structure World (α : Type*) where
  mem : Cell → α
  flight : List (Transit Job)
  arrived : Nat → Nat → Nat → Bool
  stored : Task → Bool

/-- What can happen next. -/
inductive Action where
  /-- The prologue pushes a command. -/
  | phase0 (node dev comm : Nat) (write : Write)
  /-- A thread pushes a command at the end of a step. -/
  | forward (node dev step comm warp lane : Nat) (write : Write)
  /-- A task has seen its flags, and its store begins. -/
  | load (t : Task)
  /-- A byte is copied. -/
  | copy (i x : Nat)
  /-- All is copied, and the `WRITE` is flagged or the store counted. -/
  | finish (i : Nat)
deriving DecidableEq

/-- Nothing is pushed yet, and the receive buffers are of some earlier iteration. -/
def init (mem : Cell → α) : World α where
  mem := mem
  flight := []
  arrived := fun _ _ _ => false
  stored := fun _ => false

/-- All stores of a row are counted, in a step. -/
def RowStored (setup : Setup) (w : World α) (node dev step row : Nat) : Prop :=
  ∀ t < setup.numLocalBlocks, setup.rowIdx ⟨node, dev, step, t⟩ = row →
    w.stored ⟨node, dev, step, t⟩ = true

instance (setup : Setup) (w : World α) (node dev step row : Nat) :
    Decidable (RowStored setup w node dev step row) :=
  inferInstanceAs (Decidable (∀ t < _, _ → _))

/-- The tiles of both row blocks of a task are flagged. -/
def Awaited (setup : Setup) (w : World α) (t : Task) : Prop :=
  ∀ sub < 2, w.arrived t.node t.dev
    (setup.awaitTile t.node t.step (2 * setup.rowIdx t + sub)) = true

instance (setup : Setup) (w : World α) (t : Task) : Decidable (Awaited setup w t) :=
  inferInstanceAs (Decidable (∀ sub < 2, _))

namespace World

/-- A job begins. -/
def begin (w : World α) (job : Job) : World α :=
  { w with flight := w.flight ++ [Transit.start job] }

/-- What is done when all is copied. -/
def complete (w : World α) : Job → World α
  | .send _ dev write =>
    { w with
      arrived := fun n d tile =>
        if n = write.dstRank ∧ d = dev ∧ tile = write.tileId then true else w.arrived n d tile }
  | .store t => { w with stored := Function.update w.stored t true }

end World

/-- One step of an iteration. -/
def step (setup : Setup) (w : World α) : Action → Option (World α)
  | .phase0 node dev comm write =>
    if node < setup.numNodes ∧ dev < setup.numDevices ∧ comm < setup.numIntraComm ∧
        write ∈ setup.phase0Posts node dev comm then
      some (w.begin (.send node dev write))
    else
      none
  | .forward node dev step comm warp lane write =>
    -- The row blocks of a row have the row as half their number.
    if node < setup.numNodes ∧ dev < setup.numDevices ∧ comm < setup.numIntraComm ∧
        write ∈ setup.forwardPosts node dev step comm warp lane ∧
        RowStored setup w node dev step (write.rb / 2) then
      some (w.begin (.send node dev write))
    else
      none
  | .load t =>
    if setup.IsTask t ∧ Awaited setup w t then some (w.begin (.store t)) else none
  | .copy i x =>
    match w.flight[i]? with
    | none => none
    | some t =>
      if x < setup.size t.job then
        some { w with
          mem := Core.copy w.mem (setup.src t.job x) (setup.dst t.job x)
          flight := w.flight.set i (t.move x) }
      else
        none
  | .finish i =>
    match w.flight[i]? with
    | none => none
    | some t =>
      if ∀ x < setup.size t.job, t.moved x = true then
        some ({ w with flight := w.flight.eraseIdx i }.complete t.job)
      else
        none

/-- What each byte is meant to be: what the shard it is for was. -/
def meant (setup : Setup) (mem : Cell → α) : Cell → α
  | .own node off => mem (.own node off)
  | .recv node _ addr =>
    mem (.own (setup.owner node (addr / setup.aHalfBytes % setup.numPeers))
      (addr % setup.aHalfBytes))

/-- All stores of a node are counted. -/
def Stored (setup : Setup) (w : World α) (node : Nat) : Prop :=
  ∀ dev < setup.numDevices, ∀ step < setup.numPeers, ∀ t < setup.numLocalBlocks,
    w.stored ⟨node, dev, step, t⟩ = true

/-- Every GPU of a node has the shards of all other nodes. -/
def Gathered (setup : Setup) (mem : Cell → α) (w : World α) (node : Nat) : Prop :=
  ∀ o < setup.numNodes, o ≠ node → ∀ dev < setup.numDevices, ∀ off < setup.aHalfBytes,
    w.mem (.recv node dev (setup.slot o node * setup.aHalfBytes + off)) = mem (.own o off)

/-- What each action requires and does. -/
inductive Steps (setup : Setup) (w : World α) : Action → World α → Prop where
  | phase0 (node dev comm : Nat) (write : Write) (hnode : node < setup.numNodes)
      (hdev : dev < setup.numDevices) (hw : write ∈ setup.phase0Posts node dev comm) :
      Steps setup w (.phase0 node dev comm write) (w.begin (.send node dev write))
  | forward (node dev s comm warp lane : Nat) (write : Write) (hnode : node < setup.numNodes)
      (hdev : dev < setup.numDevices)
      (hw : write ∈ setup.forwardPosts node dev s comm warp lane)
      (hst : RowStored setup w node dev s (write.rb / 2)) :
      Steps setup w (.forward node dev s comm warp lane write) (w.begin (.send node dev write))
  | load (t : Task) (ht : setup.IsTask t) (hw : Awaited setup w t) :
      Steps setup w (.load t) (w.begin (.store t))
  | copy (i x : Nat) (t : Transit Job) (ht : w.flight[i]? = some t) (hx : x < setup.size t.job) :
      Steps setup w (.copy i x) { w with
        mem := Core.copy w.mem (setup.src t.job x) (setup.dst t.job x)
        flight := w.flight.set i (t.move x) }
  | finish (i : Nat) (t : Transit Job) (ht : w.flight[i]? = some t)
      (hall : ∀ x < setup.size t.job, t.moved x = true) :
      Steps setup w (.finish i) ({ w with flight := w.flight.eraseIdx i }.complete t.job)

theorem steps_of_step {setup : Setup} {w u : World α} {a : Action} (h : step setup w a = some u) :
    Steps setup w a u := by
  cases a with
  | phase0 node dev comm write =>
      by_cases hg : node < setup.numNodes ∧ dev < setup.numDevices ∧ comm < setup.numIntraComm ∧
          write ∈ setup.phase0Posts node dev comm
      · rw [step, if_pos hg, Option.some.injEq] at h
        rw [← h]
        exact .phase0 node dev comm write hg.1 hg.2.1 hg.2.2.2
      · rw [step, if_neg hg] at h
        exact absurd h (by simp only [reduceCtorEq, not_false_eq_true])
  -- A forward waits for the row in the slot of its step.
  | forward node dev s comm warp lane write =>
      by_cases hg : node < setup.numNodes ∧ dev < setup.numDevices ∧ comm < setup.numIntraComm ∧
          write ∈ setup.forwardPosts node dev s comm warp lane ∧
          RowStored setup w node dev s (write.rb / 2)
      · rw [step, if_pos hg, Option.some.injEq] at h
        rw [← h]
        exact .forward node dev s comm warp lane write hg.1 hg.2.1 hg.2.2.2.1 hg.2.2.2.2
      · rw [step, if_neg hg] at h
        exact absurd h (by simp only [reduceCtorEq, not_false_eq_true])
  | load t =>
      by_cases hg : setup.IsTask t ∧ Awaited setup w t
      · rw [step, if_pos hg, Option.some.injEq] at h
        rw [← h]
        exact .load t hg.1 hg.2
      · rw [step, if_neg hg] at h
        exact absurd h (by simp only [reduceCtorEq, not_false_eq_true])
  | copy i x =>
      cases ht : w.flight[i]? with
      | none => simp only [step, ht, reduceCtorEq] at h
      | some t =>
          simp only [step, ht] at h
          -- An element at a time is copied, in any order.
          by_cases hx : x < setup.size t.job
          · rw [if_pos hx, Option.some.injEq] at h
            rw [← h]
            exact .copy i x t ht hx
          · rw [if_neg hx] at h
            exact absurd h (by simp only [reduceCtorEq, not_false_eq_true])
  | finish i =>
      cases ht : w.flight[i]? with
      | none => simp only [step, ht, reduceCtorEq] at h
      | some t =>
          simp only [step, ht] at h
          by_cases hall : ∀ x < setup.size t.job, t.moved x = true
          · rw [if_pos hall, Option.some.injEq] at h
            rw [← h]
            exact .finish i t ht hall
          · rw [if_neg hall] at h
            exact absurd h (by simp only [reduceCtorEq, not_false_eq_true])

/-! ## Where bytes are -/

section Places

variable {setup : Setup} {n o : Nat}

theorem slot_lt (hn : n < setup.numNodes) (ho : o < setup.numNodes) (hne : o ≠ n) :
    setup.slot o n < setup.numPeers := by
  rw [slot_val hn, Setup.numPeers]
  split <;> omega

theorem owner_slot (hn : n < setup.numNodes) (ho : o < setup.numNodes) :
    setup.owner n (setup.slot o n) = o := by
  rw [Setup.owner, slot_val hn]
  simp only [peerRankForSlot]
  split <;> split <;> omega

/-- In every bank, the slot of a peer is meant for its shard. -/
theorem meant_recv (mem : Cell → α) (hn : n < setup.numNodes) (ho : o < setup.numNodes)
    (hne : o ≠ n) (dev bank : Nat) {off : Nat} (hoff : off < setup.aHalfBytes) :
    meant setup mem (.recv n dev
      ((setup.slot o n + setup.numPeers * bank) * setup.aHalfBytes + off)) = mem (.own o off) := by
  rw [meant, place_div hoff, Nat.add_mul_mod_self_left, Nat.mod_eq_of_lt (slot_lt hn ho hne),
    owner_slot hn ho, Nat.mul_comm _ setup.aHalfBytes, Nat.mul_add_mod, Nat.mod_eq_of_lt hoff]

/-- The same for what arrives in a step. -/
theorem meant_await (mem : Cell → α) (hn : n < setup.numNodes) {s : Nat}
    (hs : s < setup.numPeers) (dev : Nat) {off : Nat} (hoff : off < setup.aHalfBytes) :
    meant setup mem (.recv n dev (setup.awaitSlot n s * setup.aHalfBytes + off)) =
      mem (.own (setup.origin n s) off) :=
  meant_recv mem hn (origin_lt hn hs) (origin_ne hn hs) dev s hoff

/-- A slot is as many rows as a shard. -/
theorem tileAddr_slot (setup : Setup) (p row col x : Nat) :
    setup.tileAddr (p * setup.globalRowBlocks + row) col x =
      p * setup.aHalfBytes + setup.tileAddr row col x := by
  rw [aHalfBytes_eq, Setup.tileAddr, Setup.tileAddr, Setup.rowBytes]
  ring

theorem slotRowLoad_eq (setup : Setup) (t : Task) :
    setup.slotRowLoad t =
      setup.awaitSlot t.node t.step * setup.globalRowBlocks + setup.rowIdx t := by
  rw [Setup.slotRowLoad, Setup.slotRowStore, Setup.awaitSlot]
  ring

/-- A row is whole tiles. -/
theorem cols_eq (h : setup.Whole) : setup.cols * elemBytes = setup.colBlocks * tileRowBytes := by
  rcases h.2.1 with ⟨q, hq⟩
  have htile : tileRowBytes = 256 := rfl
  rw [Setup.colBlocks, hq, htile, elemBytes, redBlock]
  omega

/-- The bytes of a tile are bytes of its row. -/
theorem tileAddr_row (h : setup.Whole) (row : Nat) {col x : Nat} (hcol : col < setup.colBlocks)
    (hx : x < commTileBytes) :
    ∃ y < setup.rowBytes, setup.tileAddr row col x = row * setup.rowBytes + y := by
  have hin : x / tileRowBytes < rowBlock * 2 := by
    rw [Nat.div_lt_iff_lt_mul (by decide)]
    exact hx
  have hlast : col * tileRowBytes + x % tileRowBytes < setup.colBlocks * tileRowBytes :=
    place_lt hcol (Nat.mod_lt _ (by decide))
  refine ⟨x / tileRowBytes * (setup.cols * elemBytes) + (col * tileRowBytes + x % tileRowBytes),
    ?_, ?_⟩
  · rw [Setup.rowBytes, cols_eq h]
    exact place_lt hin hlast
  · rw [Setup.tileAddr, Setup.rowBytes]
    ring

/-- Every byte of a row is a byte of a tile. -/
theorem exists_tileAddr (h : setup.Whole) (row : Nat) {y : Nat} (hy : y < setup.rowBytes) :
    ∃ col < setup.colBlocks, ∃ x < commTileBytes,
      setup.tileAddr row col x = row * setup.rowBytes + y := by
  have hpos : 0 < setup.cols * elemBytes := Nat.mul_pos h.1 (by decide)
  have hrow : y / (setup.cols * elemBytes) < rowBlock * 2 := by
    rw [Nat.div_lt_iff_lt_mul hpos]
    exact hy
  have hcol : y % (setup.cols * elemBytes) / tileRowBytes < setup.colBlocks := by
    rw [Nat.div_lt_iff_lt_mul (by decide), ← cols_eq h]
    exact Nat.mod_lt _ hpos
  have hmod : y % (setup.cols * elemBytes) % tileRowBytes < tileRowBytes := Nat.mod_lt _ (by decide)
  refine ⟨_, hcol, y / (setup.cols * elemBytes) * tileRowBytes +
    y % (setup.cols * elemBytes) % tileRowBytes, place_lt hrow hmod, ?_⟩
  rw [Setup.tileAddr, place_div hmod, Nat.mul_add_mod_self_right, Nat.mod_eq_of_lt hmod,
    Nat.div_add_mod', Nat.add_mul, Nat.add_assoc, Nat.div_add_mod', Nat.mul_assoc, Setup.rowBytes]

/-- A row block is one half of its row. -/
theorem exists_block (h : setup.Whole) {row y : Nat} (hrow : row < setup.globalRowBlocks)
    (hy : y < setup.rowBytes) :
    ∃ sub < 2, ∃ x < setup.rbBytes (2 * row + sub),
      row * setup.rowBytes + y = setup.baseOffset (2 * row + sub) + x := by
  have hmul := blockBytes_mul h
  have hhalf : y / setup.blockBytes < 2 := by
    rw [Nat.div_lt_iff_lt_mul (blockBytes_pos setup), Nat.mul_comm, hmul]
    exact hy
  have hdm := Nat.div_add_mod' y setup.blockBytes
  refine ⟨y / setup.blockBytes, hhalf, y % setup.blockBytes, ?_, ?_⟩
  · rw [rbBytes_eq h (by omega)]
    exact Nat.mod_lt _ (blockBytes_pos setup)
  · rw [baseOffset_eq, ← hmul, Nat.add_mul, Nat.add_assoc, hdm]
    ring

theorem block_lt (h : setup.Whole) {rb x : Nat} (hrb : rb < 2 * setup.globalRowBlocks)
    (hx : x < setup.rbBytes rb) : setup.baseOffset rb + x < setup.aHalfBytes := by
  rw [rbBytes_eq h hrb] at hx
  rw [baseOffset_eq, aHalfBytes_eq_blocks h]
  exact place_lt hrb hx

/-- A row block in its row. -/
theorem block_row (h : setup.Whole) {rb x : Nat} (hrb : rb < 2 * setup.globalRowBlocks)
    (hx : x < setup.rbBytes rb) :
    ∃ y < setup.rowBytes, setup.baseOffset rb + x = rb / 2 * setup.rowBytes + y := by
  rw [rbBytes_eq h hrb] at hx
  refine ⟨rb % 2 * setup.blockBytes + x, ?_, ?_⟩
  · rw [← blockBytes_mul h, Nat.mul_comm _ 2]
    exact place_lt (Nat.mod_lt _ (by omega)) hx
  · have hdm := Nat.div_add_mod' rb 2
    rw [baseOffset_eq, ← blockBytes_mul h]
    calc rb * setup.blockBytes + x
        = (rb / 2 * 2 + rb % 2) * setup.blockBytes + x := by rw [hdm]
      _ = rb / 2 * (setup.blockBytes * 2) + (rb % 2 * setup.blockBytes + x) := by ring

/-- Tiles of different row blocks or steps are different. -/
theorem awaitTile_inj (h : setup.Whole) (hn : n < setup.numNodes) {s s' rb rb' : Nat}
    (hs : s < setup.numPeers) (hs' : s' < setup.numPeers) (hrb : rb < 2 * setup.globalRowBlocks)
    (hrb' : rb' < 2 * setup.globalRowBlocks)
    (heq : setup.awaitTile n s rb = setup.awaitTile n s' rb') : s = s' ∧ rb = rb' := by
  rcases place_inj (firstChunk_lt h hrb) (firstChunk_lt h hrb') heq with ⟨hslot, hfirst⟩
  refine ⟨?_, Nat.eq_of_mul_eq_mul_right (chunksPerRb_pos setup) hfirst⟩
  rw [← awaitSlot_div hn hs, hslot, awaitSlot_div hn hs']

end Places

theorem rowBlock_lt {setup : Setup} {dev k sub : Nat} (hdev : dev < setup.numDevices)
    (hk : k < setup.localRowBlocks) (hsub : sub < 2) :
    2 * (dev * setup.localRowBlocks + k) + sub < 2 * setup.globalRowBlocks := by
  have hrow : dev * setup.localRowBlocks + k < setup.globalRowBlocks := by
    rw [Setup.globalRowBlocks, Nat.mul_comm setup.localRowBlocks]
    exact place_lt hdev hk
  omega

/-! ## What every step keeps -/

/-- A job is one of the iteration. -/
inductive Valid (setup : Setup) : Job → Prop where
  | send {n d s rb : Nat} (hn : n < setup.numNodes) (hs : s < setup.numPeers)
      (hrb : rb < 2 * setup.globalRowBlocks) : Valid setup (.send n d (setup.hopWrite n d s rb))
  | store {t : Task} (ht : setup.IsTask t) : Valid setup (.store t)

/-- All that is copied is of the iteration. -/
def AllValid (setup : Setup) (w : World α) : Prop := ∀ t ∈ w.flight, Valid setup t.job

/-- What is flagged and stored is as meant, and so is what is copied. -/
structure Inv (setup : Setup) (mem : Cell → α) (w : World α) : Prop where
  own : ∀ n off, Settled (meant setup mem) w.mem (.own n off)
  sound : ∀ t ∈ w.flight, Sound setup.size setup.src setup.dst (meant setup mem) w.mem t
  arrived : ∀ n < setup.numNodes, ∀ d, ∀ s < setup.numPeers, ∀ rb < 2 * setup.globalRowBlocks,
    w.arrived n d (setup.awaitTile n s rb) = true → ∀ x < setup.rbBytes rb,
      Settled (meant setup mem) w.mem
        (.recv n d (setup.awaitSlot n s * setup.aHalfBytes + (setup.baseOffset rb + x)))
  stored : ∀ t, setup.IsTask t → w.stored t = true → ∀ x < setup.size (.store t),
    Settled (meant setup mem) w.mem (setup.dst (.store t) x)

section Tasks

variable {setup : Setup} {t : Task}

theorem colBlocks_pos (h : setup.Whole) : 0 < setup.colBlocks := by
  refine Nat.pos_of_ne_zero fun hzero => ?_
  have hcols := cols_eq h
  have hpos : 0 < setup.cols * elemBytes := Nat.mul_pos h.1 (by decide)
  rw [hzero, Nat.zero_mul] at hcols
  omega

theorem rowIdx_lt (ht : setup.IsTask t) : setup.rowIdx t < setup.globalRowBlocks := by
  have hrow : t.task / setup.colBlocks < setup.localRowBlocks :=
    Nat.div_lt_of_lt_mul (Nat.mul_comm _ _ ▸ ht.2.2.2)
  rw [Setup.rowIdx, Nat.add_comm, Setup.globalRowBlocks, Nat.mul_comm setup.localRowBlocks]
  exact place_lt ht.2.1 hrow

theorem colIdx_lt (h : setup.Whole) (t : Task) : setup.colIdx t < setup.colBlocks :=
  Nat.mod_lt _ (colBlocks_pos h)

theorem src_store (setup : Setup) (t : Task) (x : Nat) :
    setup.src (.store t) x = .recv t.node t.dev (setup.awaitSlot t.node t.step * setup.aHalfBytes +
      setup.tileAddr (setup.rowIdx t) (setup.colIdx t) (x % commTileBytes)) := by
  rw [Setup.src, slotRowLoad_eq, tileAddr_slot]

theorem dst_store (setup : Setup) (t : Task) (x : Nat) :
    setup.dst (.store t) x = .recv t.node (x / commTileBytes)
      (setup.slot (setup.origin t.node t.step) t.node * setup.aHalfBytes +
        setup.tileAddr (setup.rowIdx t) (setup.colIdx t) (x % commTileBytes)) := by
  rw [Setup.dst, Setup.slotRowStore, tileAddr_slot]

/-- The bytes of a task are bytes of its row. -/
theorem tileAddr_task (h : setup.Whole) (t : Task) (x : Nat) :
    ∃ y < setup.rowBytes,
      setup.tileAddr (setup.rowIdx t) (setup.colIdx t) (x % commTileBytes) =
        setup.rowIdx t * setup.rowBytes + y :=
  tileAddr_row h _ (colIdx_lt h t) (Nat.mod_lt x (by decide))

theorem tileAddr_lt (h : setup.Whole) (ht : setup.IsTask t) (x : Nat) :
    setup.tileAddr (setup.rowIdx t) (setup.colIdx t) (x % commTileBytes) < setup.aHalfBytes := by
  rcases tileAddr_task h t x with ⟨y, hy, haddr⟩
  rw [haddr, aHalfBytes_eq]
  exact place_lt (rowIdx_lt ht) hy

theorem src_phase0 (setup : Setup) (n d rb x : Nat) :
    setup.src (.send n d (setup.phase0Write n d rb)) x = .own n (setup.baseOffset rb + x) := by
  simp only [Setup.src, Setup.phase0Write, Setup.rbWrite, Nat.zero_add, if_true]

theorem src_forward (setup : Setup) (n d s rb x : Nat) :
    setup.src (.send n d (setup.forwardWrite n d s rb)) x =
      .recv n d (setup.slot (setup.origin n s) n * setup.aHalfBytes +
        (setup.baseOffset rb + x)) := by
  simp only [Setup.src, Setup.forwardWrite, Setup.rbWrite, Nat.add_assoc, Nat.zero_ne_one, if_false]

theorem dst_send {n s : Nat} (hn : n < setup.numNodes) (hs : s < setup.numPeers) (d rb x : Nat) :
    setup.dst (.send n d (setup.hopWrite n d s rb)) x =
      .recv (setup.nextRank n) d (setup.awaitSlot (setup.nextRank n) s * setup.aHalfBytes +
        (setup.baseOffset rb + x)) := by
  have hawait := hopWrite_awaited hn hs d rb
  rw [Setup.dst, hawait.1, hawait.2.2.1, Nat.add_assoc]

/-- Every byte of the rows of a GPU is stored by a task of it, at every GPU. -/
theorem exists_task (h : setup.Whole) {k y : Nat} (n d s : Nat) (hk : k < setup.localRowBlocks)
    (hy : y < setup.rowBytes) :
    ∃ t < setup.numLocalBlocks, setup.rowIdx ⟨n, d, s, t⟩ = d * setup.localRowBlocks + k ∧
      ∀ e < setup.numDevices, ∃ x < setup.size (.store ⟨n, d, s, t⟩),
        setup.dst (.store ⟨n, d, s, t⟩) x =
          .recv n e (setup.slot (setup.origin n s) n * setup.aHalfBytes +
            ((d * setup.localRowBlocks + k) * setup.rowBytes + y)) := by
  rcases exists_tileAddr h (d * setup.localRowBlocks + k) hy with ⟨col, hcol, x, hx, haddr⟩
  have hrow : setup.rowIdx ⟨n, d, s, k * setup.colBlocks + col⟩ = d * setup.localRowBlocks + k := by
    rw [Setup.rowIdx, place_div hcol, Nat.add_comm]
  refine ⟨k * setup.colBlocks + col, place_lt hk hcol, hrow, fun e he => ?_⟩
  refine ⟨e * commTileBytes + x, place_lt he hx, ?_⟩
  rw [dst_store, place_div hx, Nat.mul_add_mod_self_right, Nat.mod_eq_of_lt hx, hrow, Setup.colIdx,
    Nat.mul_add_mod_self_right, Nat.mod_eq_of_lt hcol, haddr]

/-- What a task loads arrived in one of the row blocks of its row. -/
theorem exists_await (h : setup.Whole) (ht : setup.IsTask t) (x : Nat) :
    ∃ sub < 2, ∃ y < setup.rbBytes (2 * setup.rowIdx t + sub),
      setup.src (.store t) x =
        .recv t.node t.dev (setup.awaitSlot t.node t.step * setup.aHalfBytes +
          (setup.baseOffset (2 * setup.rowIdx t + sub) + y)) := by
  rcases tileAddr_task h t x with ⟨y, hy, haddr⟩
  rcases exists_block h (rowIdx_lt ht) hy with ⟨sub, hsub, z, hz, hblock⟩
  refine ⟨sub, hsub, z, hz, ?_⟩
  rw [src_store, haddr, hblock]

end Tasks

section Steps

variable {setup : Setup} {mem : Cell → α} {w u : World α}

/-- What a job copies is meant to be the same. -/
theorem same_of_valid (h : setup.Whole) {job : Job} (hjob : Valid setup job) {x : Nat}
    (hx : x < setup.size job) :
    meant setup mem (setup.src job x) = meant setup mem (setup.dst job x) := by
  cases hjob with
  | @send n d s rb hn hs hrb =>
      rw [Setup.size, (hopWrite_awaited hn hs d rb).2.2.2] at hx
      have hoff := block_lt h hrb hx
      rw [dst_send hn hs, meant_await mem (nextRank_lt hn) hs d hoff, ← hopOrigin_eq hn hs]
      -- The first hop sends the node's own half, later hops what came from before.
      cases s with
      | zero => rw [Setup.hopWrite, src_phase0, meant, Setup.hopOrigin]
      | succ s =>
          have hs' := Nat.lt_of_succ_lt hs
          have hrecv := meant_recv mem hn (origin_lt hn hs') (origin_ne hn hs') d 0 hoff
          rw [Nat.mul_zero, Nat.add_zero] at hrecv
          rw [Setup.hopWrite, src_forward, Setup.hopOrigin, hrecv]
  -- A store takes from the slot that the task waits for.
  | @store t ht =>
      have hoff := tileAddr_lt h ht x
      have hrecv := meant_recv mem ht.1 (origin_lt ht.1 ht.2.2.1) (origin_ne ht.1 ht.2.2.1)
        (x / commTileBytes) 0 hoff
      rw [Nat.mul_zero, Nat.add_zero] at hrecv
      rw [src_store, dst_store, hrecv, meant_await mem ht.1 ht.2.2.1 t.dev hoff]

theorem inv_init (setup : Setup) (mem : Cell → α) : Inv setup mem (init mem) where
  own _ _ := rfl
  sound _ h := absurd h List.not_mem_nil
  arrived _ _ _ _ _ _ _ h := absurd h (by simp only [init, Bool.false_eq_true, not_false_eq_true])
  stored _ _ h := absurd h (by simp only [init, Bool.false_eq_true, not_false_eq_true])

/-- A job of the iteration begins, from bytes that are as meant. -/
theorem inv_begin (h : setup.Whole) (hi : Inv setup mem w) {job : Job} (hjob : Valid setup job)
    (hsrc : ∀ x < setup.size job, Settled (meant setup mem) w.mem (setup.src job x)) :
    Inv setup mem (w.begin job) where
  own := hi.own
  sound t ht := by
    rcases List.mem_append.mp ht with hold | hnew
    · exact hi.sound t hold
    · rw [List.mem_singleton.mp hnew]
      exact sound_begin (fun x hx => same_of_valid h hjob hx) hsrc
  arrived := hi.arrived
  stored := hi.stored

theorem inv_copy (hi : Inv setup mem w) {i x : Nat} {t : Transit Job} (ht : w.flight[i]? = some t)
    (hx : x < setup.size t.job) :
    Inv setup mem { w with
      mem := Core.copy w.mem (setup.src t.job x) (setup.dst t.job x)
      flight := w.flight.set i (t.move x) } := by
  have hmem := List.mem_of_getElem? ht
  have hs := hi.sound t hmem
  have hkeep : ∀ c, Settled (meant setup mem) w.mem c → Settled (meant setup mem)
      (Core.copy w.mem (setup.src t.job x) (setup.dst t.job x)) c :=
    fun c hc => settled_copy (hs.settled x hx) (hs.same x hx) hc
  refine ⟨fun n off => hkeep _ (hi.own n off), fun u hu => ?_,
    fun n hn d s hs' rb hrb harr y hy => hkeep _ (hi.arrived n hn d s hs' rb hrb harr y hy),
    fun u hu hst y hy => hkeep _ (hi.stored u hu hst y hy)⟩
  rcases List.mem_or_eq_of_mem_set hu with hold | rfl
  · exact sound_copy hs (hi.sound u hold) hx
  · exact sound_move hs hx

/-- All is copied. -/
theorem inv_finish (h : setup.Whole) (hi : Inv setup mem w) {i : Nat} {t : Transit Job}
    (ht : w.flight[i]? = some t) (hv : Valid setup t.job)
    (hall : ∀ x < setup.size t.job, t.moved x = true) :
    Inv setup mem ({ w with flight := w.flight.eraseIdx i }.complete t.job) := by
  have hmem := List.mem_of_getElem? ht
  have hdst : ∀ x < setup.size t.job, Settled (meant setup mem) w.mem (setup.dst t.job x) :=
    fun x hx => (hi.sound t hmem).moved x hx (hall x hx)
  have hsound : ∀ u ∈ w.flight.eraseIdx i,
      Sound setup.size setup.src setup.dst (meant setup mem) w.mem u :=
    fun u hu => hi.sound u (List.mem_of_mem_eraseIdx hu)
  rcases t with ⟨job, moved⟩
  cases hv with
  | @send n d s rb hn hs hrb =>
      have hawait := hopWrite_awaited hn hs d rb
      refine ⟨hi.own, hsound, fun n' hn' d' s' hs' rb' hrb' harr x hx => ?_, hi.stored⟩
      simp only [World.complete] at harr ⊢
      by_cases hnew : n' = (setup.hopWrite n d s rb).dstRank ∧ d' = d ∧
          setup.awaitTile n' s' rb' = (setup.hopWrite n d s rb).tileId
      · -- The tile tells the step and the row block.
        rcases hnew with ⟨hnode, rfl, htile⟩
        rw [hawait.1] at hnode
        rw [hawait.2.1, ← hnode] at htile
        rcases awaitTile_inj h hn' hs' hs hrb' hrb htile with ⟨rfl, rfl⟩
        rw [hnode, ← dst_send hn hs]
        refine hdst x ?_
        rw [Setup.size, hawait.2.2.2]
        exact hx
      · rw [if_neg hnew] at harr
        exact hi.arrived n' hn' d' s' hs' rb' hrb' harr x hx
  | @store t ht =>
      refine ⟨hi.own, hsound, hi.arrived, fun t' ht' hst x hx => ?_⟩
      by_cases hnew : t' = t
      · rw [hnew] at hx ⊢
        exact hdst x hx
      · simp only [World.complete, Function.update_of_ne hnew] at hst
        exact hi.stored t' ht' hst x hx

/-- The bytes of a row that is stored in a step are as meant. -/
theorem settled_of_rowStored (h : setup.Whole) (hi : Inv setup mem w) {n d s k : Nat}
    (hn : n < setup.numNodes) (hd : d < setup.numDevices) (hs : s < setup.numPeers)
    (hk : k < setup.localRowBlocks) {y : Nat} (hy : y < setup.rowBytes)
    (hst : RowStored setup w n d s (d * setup.localRowBlocks + k)) {e : Nat}
    (he : e < setup.numDevices) :
    Settled (meant setup mem) w.mem (.recv n e (setup.slot (setup.origin n s) n * setup.aHalfBytes +
      ((d * setup.localRowBlocks + k) * setup.rowBytes + y))) := by
  rcases exists_task h n d s hk hy with ⟨t, ht, hrow, hall⟩
  rcases hall e he with ⟨x, hx, hdst⟩
  rw [← hdst]
  exact hi.stored ⟨n, d, s, t⟩ ⟨hn, hd, hs, ht⟩ (hst t ht hrow) x hx

theorem inv_phase0 (h : setup.Whole) (hi : Inv setup mem w) {node dev comm : Nat} {write : Write}
    (hnode : node < setup.numNodes) (hdev : dev < setup.numDevices)
    (hw : write ∈ setup.phase0Posts node dev comm) :
    Inv setup mem (w.begin (.send node dev write)) := by
  rcases exists_of_mem_phase0Posts hw with ⟨k, hk, sub, hsub, rfl⟩
  refine inv_begin h hi (.send hnode setup.numPeers_pos (rowBlock_lt hdev hk hsub)) fun x _ => ?_
  rw [src_phase0]
  exact hi.own node _

theorem inv_forward (h : setup.Whole) (hi : Inv setup mem w) {node dev s comm warp lane : Nat}
    {write : Write} (hnode : node < setup.numNodes) (hdev : dev < setup.numDevices)
    (hw : write ∈ setup.forwardPosts node dev s comm warp lane)
    (hst : RowStored setup w node dev s (write.rb / 2)) :
    Inv setup mem (w.begin (.send node dev write)) := by
  rcases exists_of_mem_forwardPosts hw with ⟨hs, k, hk, sub, hsub, rfl⟩
  have hrb := rowBlock_lt hdev hk hsub
  have hhalf : (2 * (dev * setup.localRowBlocks + k) + sub) / 2 =
      dev * setup.localRowBlocks + k := by omega
  refine inv_begin h hi (.send hnode hs hrb) fun x hx => ?_
  simp only [Setup.size, Setup.forwardWrite, Setup.rbWrite] at hx
  rcases block_row h hrb hx with ⟨y, hy, hblock⟩
  simp only [Setup.forwardWrite, Setup.rbWrite, hhalf] at hst hblock
  rw [src_forward, hblock]
  exact settled_of_rowStored h hi hnode hdev (Nat.lt_of_succ_lt hs) hk hy hst hdev

theorem inv_load (h : setup.Whole) (hi : Inv setup mem w) {t : Task} (ht : setup.IsTask t)
    (hw : Awaited setup w t) : Inv setup mem (w.begin (.store t)) := by
  refine inv_begin h hi (.store ht) fun x _ => ?_
  rcases exists_await h ht x with ⟨sub, hsub, y, hy, hsrc⟩
  have hrow := rowIdx_lt ht
  rw [hsrc]
  exact hi.arrived t.node ht.1 t.dev t.step ht.2.2.1 _ (by omega) (hw sub hsub) y hy

/-- Only jobs of the iteration begin. -/
theorem valid_step (hv : AllValid setup w) {a : Action} (hstep : step setup w a = some u) :
    AllValid setup u := by
  have hbegin : ∀ {job}, Valid setup job → AllValid setup (w.begin job) := by
    intro job hjob t ht
    rcases List.mem_append.mp ht with hold | hnew
    · exact hv t hold
    · rw [List.mem_singleton.mp hnew]
      exact hjob
  cases steps_of_step hstep with
  | phase0 node dev comm write hnode hdev hw =>
      -- The posts are of the row blocks of the GPU.
      rcases exists_of_mem_phase0Posts hw with ⟨k, hk, sub, hsub, rfl⟩
      exact hbegin (.send hnode setup.numPeers_pos (rowBlock_lt hdev hk hsub))
  | forward node dev s comm warp lane write hnode hdev hw hst =>
      rcases exists_of_mem_forwardPosts hw with ⟨hs, k, hk, sub, hsub, rfl⟩
      exact hbegin (.send hnode hs (rowBlock_lt hdev hk hsub))
  | load t ht hw => exact hbegin (.store ht)
  -- A copy changes no job, nor does an end.
  | copy i x t ht hx =>
      intro u hu
      rcases List.mem_or_eq_of_mem_set hu with hold | rfl
      · exact hv u hold
      · exact hv t (List.mem_of_getElem? ht)
  | finish i t ht hall =>
      intro u hu
      refine hv u (List.mem_of_mem_eraseIdx (i := i) ?_)
      cases hjob : t.job with
      | send node dev write =>
          rw [hjob] at hu
          exact hu
      | store t' =>
          rw [hjob] at hu
          exact hu

theorem inv_step (h : setup.Whole) (hv : AllValid setup w) (hi : Inv setup mem w) {a : Action}
    (hstep : step setup w a = some u) : Inv setup mem u := by
  cases steps_of_step hstep with
  | phase0 node dev comm write hnode hdev hw => exact inv_phase0 h hi hnode hdev hw
  | forward node dev s comm warp lane write hnode hdev hw hst =>
      exact inv_forward h hi hnode hdev hw hst
  | load t ht hw => exact inv_load h hi ht hw
  | copy i x t ht hx => exact inv_copy hi ht hx
  | finish i t ht hall => exact inv_finish h hi ht (hv t (List.mem_of_getElem? ht)) hall

theorem inv_of_reaches (h : setup.Whole) (hr : Reaches (step setup) always (init mem) w) :
    Inv setup mem w :=
  (invariant_of_reaches (fun w => AllValid setup w ∧ Inv setup mem w)
    (fun _ _ _ hi _ hstep => ⟨valid_step hi.1 hstep, inv_step h hi.1 hi.2 hstep⟩) hr
    ⟨fun _ ht => absurd ht List.not_mem_nil, inv_init setup mem⟩).2

/-- When all is stored, all is there. -/
theorem gathered_of_stored (h : setup.Whole) (hi : Inv setup mem w) {n : Nat}
    (hn : n < setup.numNodes) (hst : Stored setup w n) : Gathered setup mem w n := by
  intro o ho hne e he off hoff
  have hrows := rowBytes_pos h
  rcases exists_step ho hn hne with ⟨s, hs, hos⟩
  have hrow : off / setup.rowBytes < setup.numDevices * setup.localRowBlocks := by
    rw [Nat.div_lt_iff_lt_mul hrows, Nat.mul_comm setup.numDevices]
    rw [aHalfBytes_eq, Setup.globalRowBlocks] at hoff
    exact hoff
  have hdev : off / setup.rowBytes / setup.localRowBlocks < setup.numDevices :=
    (Nat.div_lt_iff_lt_mul setup.localRowBlocks_pos).mpr hrow
  have hset := settled_of_rowStored h hi hn hdev hs
    (Nat.mod_lt (off / setup.rowBytes) setup.localRowBlocks_pos) (Nat.mod_lt off hrows)
    (fun t ht _ => hst _ hdev s hs t ht) he
  rw [Nat.div_add_mod', Nat.div_add_mod', hos] at hset
  have hmeant := meant_recv mem hn ho hne e 0 hoff
  rw [Nat.mul_zero, Nat.add_zero] at hmeant
  rw [← hmeant]
  exact hset

end Steps

end AgGemm

end MKernel
