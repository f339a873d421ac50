import Mathlib.Data.List.Nodup
import MKernel.Core.SmallNumbers
import MKernel.Core.System
import MKernel.Core.Wire
import MKernel.AgGemm.ProxyPosts

/-!
# The Ring of the Proxies

How far a row block gets, if the proxies forward.

The kernels push the commands of the prologue, and then nothing, as the proxies are to forward.
A proxy that is notified of an arrival posts data and flag to the node after it. But it posts no
notification, so the node after it forwards nothing. A row block arrives at the next node, and at
the one after that, and no further. With three nodes that is all there are; with more the ring
stops two nodes after the origin (`forwards_reach_iff`).

What has been posted is known by what it was posted for (`Inv`): each command of the prologue
has been posted or is still queued, and each row block that a node was notified of it forwards
once. As all of this lands at places of its own, nothing lands twice (`nodup_landed`).
A notification lands behind the data it is about, so a row block is sent on only after it has
landed, and from there.

A batch of commands is posted command by command here; in the flat layout it makes no difference.
A notification is read as a whole.

## Main definitions

* `World`: The commands that are queued, what is under way, and what has been forwarded.
* `step`: Posts of the proxies, requests that land, and polls of the notification tables.
* `Posted`: No batch fails to be posted.
* `Idle`: There is nothing left to do.
* `Once`, `AllReached`: No row block arrives twice, and all arrive everywhere.

## Theorems

* `inv_step`: What every step keeps.
* `exists_less`: What is left to do gets less.
* `forwards_reach_iff`: Where row blocks arrive.
-/

namespace MKernel

namespace AgGemm

namespace ProxyRing

open MKernel.Core
open MKernel.Internode (TransferCmd ForwardNotify Polled)
open MKernel.Internode.Cx7 (Session Payload commandWrs forwardChain forwardEnabled routingKey)

/-- The commands in the FIFOs of the nodes, the requests under way, and the slots of the
    notification tables that a thread of a node has forwarded in this epoch. -/
structure World where
  queued : List (Nat × Write)
  wire : Wire Landing
  seen : List (Nat × Nat × Nat)
deriving DecidableEq

/-- What can happen next. -/
inductive Act where
  /-- The proxy of a FIFO posts a command, on the QP whose turn it is unless the command has one
      of its own, and succeeds or not. -/
  | post (i turn : Nat) (ok : Bool)
  /-- A request lands. -/
  | land (i : Nat)
  /-- A thread of a node looks at a slot of the notification table. -/
  | poll (n t slot : Nat)
deriving DecidableEq

section Model

variable (g : Nodes)

/-- The kernels have pushed the commands of the prologue. -/
def init : World where
  queued := (List.range g.setup.numNodes).flatMap fun n => (g.pushed n).map fun w => (n, w)
  wire := Wire.empty
  seen := []

/-- The QP a command is posted on. If its channel has a QP of another proxy, there is none. -/
def batchQp (p : Internode.Cx7.Setup) (cmd : TransferCmd) (turn : Nat) : Option Int :=
  if p.channelizeGpuPeers then
    if p.InRange (p.localQp cmd) then some (p.localQp cmd) else none
  else some turn

/-- What is posted for a command, unless it is dropped. -/
def posted (n : Nat) (p : Internode.Cx7.Setup) (cmd : TransferCmd) (turn : Nat) :
    Option (List Landing) :=
  (batchQp p cmd turn).bind fun qp => (g.target n p qp).map fun m =>
    landings m (commandWrs p g.epoch (fun _ => 0) qp 1 0 ⟨p.cfg.fifo, 0, cmd⟩).1

/-- The notification that a request writes. -/
def noteIn (l : Landing) : Option ForwardNotify :=
  match l.payload with
  | some (.notify note) => some note
  | _ => none

/-- What is in a slot of the notification table of a node, of this epoch. -/
def notified (w : World) (n slot : Nat) : Option ForwardNotify :=
  w.wire.landed.findSome? fun l =>
    if l.node = n ∧ l.addr = (g.info n).forwardNotify.addr + 32 * BitVec.ofNat 64 slot then
      noteIn l
    else none

/-- What a proxy posts for a slot of the table. -/
def forwarded (w : World) (n : Nat) (p : Internode.Cx7.Setup) (slot : Nat) :
    Option (List Landing) :=
  if forwardEnabled p = true ∧ slot < p.cfg.forwardNotifySlots then
    (notified g w n slot).bind fun note =>
      if note.epoch = g.epoch ∧ note.tileId = BitVec.ofNat 32 slot then
        (forwardChain p g.epoch (p.makeForwardCmdFromNotify note)).bind fun c =>
          (g.target n p c.qp).map fun m => landings m c.wrs
      else none
  else none

/-- One step in an epoch. -/
def step (w : World) : Act → Option World
  | .post i turn ok =>
    match w.queued[i]? with
    | none => none
    | some (n, write) =>
      match g.proxy n ((g.session n).fifoBundle.select (write.toCmd.laneId.setWidth 32)) with
      | none => none
      | some p =>
        -- A batch that cannot be posted is not tried again.
        match if ok then posted g n p write.toCmd turn else none with
        | none => some { w with queued := w.queued.eraseIdx i }
        | some chain => some { w with
            queued := w.queued.eraseIdx i
            wire := w.wire.post chain }
  | .land i => (w.wire.land i).map fun wire => { w with wire := wire }
  | .poll n t slot =>
    if n < g.setup.numNodes ∧ (n, t, slot) ∉ w.seen then
      match g.proxy n t with
      | none => none
      | some p => (forwarded g w n p slot).map fun chain => { w with
          wire := w.wire.post chain
          seen := (n, t, slot) :: w.seen }
    else
      none

/-- No batch fails to be posted. -/
def Posted : World → Act → Prop
  | _, .post _ _ ok => ok = true
  | _, _ => True

instance : ∀ (w : World) (a : Act), Decidable (Posted w a)
  | _, .post _ _ ok => inferInstanceAs (Decidable (ok = true))
  | _, .land _ => isTrue trivial
  | _, .poll _ _ _ => isTrue trivial

/-- There is nothing left to do. -/
def Idle (w : World) : Prop := ∀ a, step g w a = none

/-- A row block has arrived, and so has its flag, as often as `k`, where a node waits for it. -/
def Arrived (w : World) (n s rb k : Nat) : Prop :=
  w.wire.landed.count (g.dataAt n s rb) = k ∧ w.wire.landed.count (g.flagAt n s rb) = k

instance (w : World) (n s rb k : Nat) : Decidable (Arrived g w n s rb k) :=
  inferInstanceAs (Decidable (_ ∧ _))

/-- What arrives is waited for, and nothing arrives twice. -/
structure Once (w : World) : Prop where
  /-- Data and flags are where a node waits for a row block. -/
  awaited : ∀ l ∈ w.wire.landed, noteIn l = none → ∃ n < g.setup.numNodes,
    ∃ s < g.setup.numPeers, ∃ rb, g.setup.Owns g.dev rb ∧
      (l = g.dataAt n s rb ∨ l = g.flagAt n s rb)
  /-- They arrive once at most. -/
  once : ∀ n < g.setup.numNodes, ∀ s < g.setup.numPeers, ∀ rb, g.setup.Owns g.dev rb →
    w.wire.landed.count (g.dataAt n s rb) ≤ 1 ∧ w.wire.landed.count (g.flagAt n s rb) ≤ 1
  /-- What a node has sent on had landed there before. It is read from the same place, if the
      buffer a node receives into is the one it sends from. -/
  relayed : ∀ n < g.setup.numNodes, ∀ s, s + 1 < g.setup.numPeers → ∀ rb, g.setup.Owns g.dev rb →
    g.dataAt (g.setup.nextRank n) (s + 1) rb ∈ w.wire.landed →
      g.dataAt n s rb ∈ w.wire.landed ∧ ((g.rest n).localDataAddr = (g.info n).data.addr →
        (g.dataAt (g.setup.nextRank n) (s + 1) rb).sources = [(g.dataAt n s rb).addr])

/-- All row blocks of a node have arrived at every other node once, where it waits for them. -/
def AllReached (w : World) : Prop :=
  ∀ o < g.setup.numNodes, ∀ n < g.setup.numNodes, o ≠ n →
    ∃ s < g.setup.numPeers, g.setup.origin n s = o ∧
      ∀ rb, g.setup.Owns g.dev rb → Arrived g w n s rb 1

end Model

/-! ## Places -/

section Places

variable {g : Nodes}

/-- Entries of a table of 32-bit numbers do not overlap. -/
theorem entry_inj {a : BitVec 64} {k x y : Nat} (hk : 0 < k) (hk' : k ≤ 32) (hx : x < 2 ^ 32)
    (hy : y < 2 ^ 32)
    (h : a + BitVec.ofNat 64 k * BitVec.ofNat 64 x = a + BitVec.ofNat 64 k * BitVec.ofNat 64 y) :
    x = y := by
  have hnat := congrArg BitVec.toNat ((BitVec.add_right_inj a).mp h)
  have hmul : ∀ z < 2 ^ 32, (BitVec.ofNat 64 k * BitVec.ofNat 64 z).toNat = k * z := by
    intro z hz
    have hle : k * z ≤ 32 * 2 ^ 32 := Nat.mul_le_mul hk' (Nat.le_of_lt hz)
    rw [← BitVec.ofNat_mul, BitVec.toNat_ofNat, Nat.mod_eq_of_lt (by omega)]
  rw [hmul x hx, hmul y hy] at hnat
  exact Nat.eq_of_mul_eq_mul_left hk hnat

/-- A tile as a 64-bit number. -/
theorem setWidth_tile {x : Nat} (hx : x < 2 ^ 32) :
    (BitVec.ofNat 32 x).setWidth 64 = BitVec.ofNat 64 x := by
  apply BitVec.eq_of_toNat_eq
  rw [BitVec.toNat_setWidth_of_le (by decide), BitVec.toNat_ofNat, BitVec.toNat_ofNat,
    Nat.mod_eq_of_lt hx, Nat.mod_eq_of_lt (by omega)]

variable {n n' s s' rb rb' : Nat} (hg : g.Ready) (hn : n < g.setup.numNodes)
  (hs : s < g.setup.numPeers) (hs' : s' < g.setup.numPeers)
  (hrb : g.setup.Owns g.dev rb) (hrb' : g.setup.Owns g.dev rb')
include hg

theorem tile_lt (hn : n < g.setup.numNodes) (hs : s < g.setup.numPeers)
    (hrb : g.setup.Owns g.dev rb) : g.setup.awaitTile n s rb < 2 ^ 32 := by
  have htile := awaitTile_lt hn hs (hg.inside rb hrb)
  have htiles := hg.fits.tiles
  omega

/-- A tile tells step and row block. -/
theorem tile_inj (hn : n < g.setup.numNodes) (hs : s < g.setup.numPeers)
    (hs' : s' < g.setup.numPeers) (hrb : g.setup.Owns g.dev rb) (hrb' : g.setup.Owns g.dev rb')
    (h : g.setup.awaitTile n s rb = g.setup.awaitTile n s' rb') : s = s' ∧ rb = rb' := by
  rcases place_inj (hg.inside rb hrb) (hg.inside rb' hrb') h with ⟨hslot, hfirst⟩
  refine ⟨?_, Nat.eq_of_mul_eq_mul_right (chunksPerRb_pos g.setup) hfirst⟩
  rw [← awaitSlot_div hn hs, hslot, awaitSlot_div hn hs']

include hn hs hs' hrb hrb'

theorem dataAt_inj (h : g.dataAt n s rb = g.dataAt n' s' rb') : n = n' ∧ s = s' ∧ rb = rb' := by
  have hnode : n = n' := congrArg Landing.node h
  subst hnode
  have hbytes := hg.fits.bytes
  -- All places are inside the buffer, so no address wraps.
  have hplace : ∀ {s rb}, s < g.setup.numPeers → g.setup.Owns g.dev rb →
      g.setup.awaitSlot n s * g.setup.aHalfBytes + g.setup.baseOffset rb < 2 ^ 64 := by
    intro s rb hs hrb
    have hlt := place_lt (awaitSlot_lt hn hs) (baseOffset_lt (hg.inside rb hrb))
    rw [Setup.recvBufBytes, Nat.mul_right_comm] at hbytes
    omega
  have haddr := congrArg BitVec.toNat ((BitVec.add_right_inj _).mp (congrArg Landing.addr h))
  rw [BitVec.toNat_ofNat, BitVec.toNat_ofNat, Nat.mod_eq_of_lt (hplace hs hrb),
    Nat.mod_eq_of_lt (hplace hs' hrb')] at haddr
  -- The slot and the offset in it are told by the place.
  rcases place_inj (baseOffset_lt (hg.inside rb hrb)) (baseOffset_lt (hg.inside rb' hrb'))
    haddr with
    ⟨hslot, hbase⟩
  refine ⟨rfl, ?_, ?_⟩
  · rw [← awaitSlot_div hn hs, hslot, awaitSlot_div hn hs']
  · rw [baseOffset_eq, baseOffset_eq] at hbase
    exact Nat.eq_of_mul_eq_mul_right (blockBytes_pos g.setup) hbase

theorem flagAt_inj (h : g.flagAt n s rb = g.flagAt n' s' rb') : n = n' ∧ s = s' ∧ rb = rb' := by
  have hnode : n = n' := congrArg Landing.node h
  subst hnode
  have haddr := congrArg Landing.addr h
  simp only [Nodes.flagAt, setWidth_tile (tile_lt hg hn hs hrb),
    setWidth_tile (tile_lt hg hn hs' hrb')] at haddr
  exact ⟨rfl, tile_inj hg hn hs hs' hrb hrb' (entry_inj (by decide) (by decide)
    (tile_lt hg hn hs hrb) (tile_lt hg hn hs' hrb') haddr)⟩

end Places

/-! ## What is posted, by what it is for -/

section Chunks

variable {g : Nodes} {n rb : Nat}

/-- The prologue has one command for each row block of the GPU. -/
theorem countP_pushed (g : Nodes) (n rb : Nat) :
    (g.pushed n).countP (fun w => w.rb == rb) =
      if rb / 2 / g.setup.localRowBlocks = g.dev then 1 else 0 := by
  have hlocal := g.setup.localRowBlocks_pos
  have hdm := Nat.div_add_mod' (rb / 2) g.setup.localRowBlocks
  have hmod := Nat.mod_lt (rb / 2) hlocal
  have hsum : (g.pushed n).countP (fun w => w.rb == rb) =
      ∑ i ∈ Finset.range g.setup.localRowBlocks, (rowPosts (g.setup.phase0Write n g.dev)
        (g.dev * g.setup.localRowBlocks + i)).countP (fun w => w.rb == rb) := countP_rows _
  -- A row of blocks has two, of which at most one is this one.
  have hrow : ∀ row, (rowPosts (g.setup.phase0Write n g.dev) row).countP
      (fun w => w.rb == rb) = if row = rb / 2 then 1 else 0 := by
    intro row
    have hlane : ∀ rb', (g.setup.phase0Write n g.dev rb').rb = rb' := fun _ => rfl
    rw [countP_rowPosts, Finset.sum_range_succ, Finset.sum_range_one]
    simp only [beq_iff_eq, hlane]
    split <;> split <;> split <;> omega
  rw [hsum, Finset.sum_congr rfl fun i _ => hrow _]
  -- Only the GPU that has the row has it at all, and once.
  by_cases howns : rb / 2 / g.setup.localRowBlocks = g.dev
  · rw [howns] at hdm
    have hone : ∀ i, g.dev * g.setup.localRowBlocks + i = rb / 2 ↔
        i = rb / 2 % g.setup.localRowBlocks := by
      intro i
      omega
    simp only [hone, Finset.sum_ite_eq', Finset.mem_range, hmod, howns, if_true]
  · rw [if_neg howns]
    -- A row of another GPU is none of its rows.
    refine Finset.sum_eq_zero fun i hi => if_neg fun heq => howns ?_
    rw [← heq, Nat.mul_comm, Nat.mul_add_div hlocal,
      Nat.div_eq_of_lt (Finset.mem_range.mp hi), Nat.add_zero]

/-- The row blocks of the commands of the prologue, with their nodes. -/
def chunks (g : Nodes) : List (Nat × Nat) :=
  (List.range g.setup.numNodes).flatMap fun n => (g.pushed n).map fun w => (n, w.rb)

/-- The command for a row block. -/
def command (g : Nodes) (x : Nat × Nat) : Nat × Write := (x.1, g.setup.phase0Write x.1 g.dev x.2)

theorem queued_init (g : Nodes) : (init g).queued = (chunks g).map (command g) := by
  rw [init, chunks, List.map_flatMap]
  refine List.flatMap_congr fun n _ => ?_
  rw [List.map_map]
  refine List.map_congr_left fun w hw => ?_
  rcases List.mem_flatMap.mp hw with ⟨comm, _, hcomm⟩
  rcases exists_of_mem_phase0Posts hcomm with ⟨_, _, _, _, rfl⟩
  rfl

theorem count_pushed (g : Nodes) (n rb : Nat) :
    ((g.pushed n).map Write.rb).count rb =
      if rb / 2 / g.setup.localRowBlocks = g.dev then 1 else 0 := by
  rw [List.count, List.countP_map, ← countP_pushed g n rb]
  rfl

theorem mem_chunks {x : Nat × Nat} :
    x ∈ chunks g ↔ x.1 < g.setup.numNodes ∧ g.setup.Owns g.dev x.2 := by
  have hrow : x.2 ∈ (g.pushed x.1).map Write.rb ↔ g.setup.Owns g.dev x.2 := by
    rw [← List.count_pos_iff, count_pushed, Setup.Owns]
    split <;> omega
  rw [← hrow, chunks, List.mem_flatMap]
  constructor
  · rintro ⟨n, hn, hx⟩
    rcases List.mem_map.mp hx with ⟨w, hw, rfl⟩
    exact ⟨List.mem_range.mp hn, List.mem_map_of_mem hw⟩
  · rintro ⟨hn, hx⟩
    rcases List.mem_map.mp hx with ⟨w, hw, heq⟩
    exact ⟨x.1, List.mem_range.mpr hn, List.mem_map.mpr ⟨w, hw, Prod.ext rfl heq⟩⟩

theorem nodup_chunks (g : Nodes) : (chunks g).Nodup := by
  rw [chunks, List.nodup_flatMap]
  constructor
  · intro n _
    -- A GPU pushes no row block twice,
    have hlanes : ((g.pushed n).map Write.rb).Nodup := by
      rw [List.nodup_iff_count_le_one]
      intro rb
      rw [count_pushed]
      split <;> omega
    have hpair : (g.pushed n).map (fun w => (n, w.rb)) =
        ((g.pushed n).map Write.rb).map (fun rb => (n, rb)) := by
      rw [List.map_map]
      rfl
    rw [hpair]
    exact hlanes.map fun a b h => (Prod.mk.inj h).2
  · -- and the pairs of two nodes differ.
    refine List.nodup_range.imp ?_
    intro n m hne x hx hx'
    rcases List.mem_map.mp hx with ⟨_, _, rfl⟩
    rcases List.mem_map.mp hx' with ⟨_, _, heq⟩
    exact hne (Prod.mk.inj heq).1.symm

/-- What a request is posted for: data and flag of a step, by the node that sends them, and the
    notification of the prologue. -/
inductive Item where
  | data (n s rb : Nat)
  | flag (n s rb : Nat)
  | note (n rb : Nat)
deriving DecidableEq

/-- The node that sends it, the step and the row block are some of the ring's. -/
def Item.Valid (g : Nodes) : Item → Prop
  | .data n s rb | .flag n s rb =>
    n < g.setup.numNodes ∧ s < g.setup.numPeers ∧ g.setup.Owns g.dev rb
  | .note n rb => n < g.setup.numNodes ∧ g.setup.Owns g.dev rb

/-- Where it lands. -/
def landing (g : Nodes) : Item → Landing
  | .data n s rb => g.dataAt (g.setup.nextRank n) s rb
  | .flag n s rb => g.flagAt (g.setup.nextRank n) s rb
  | .note n rb => g.noteAt n rb

/-- What is posted for a command of the prologue. -/
def direct (x : Nat × Nat) : List Item := [.data x.1 0 x.2, .flag x.1 0 x.2, .note x.1 x.2]

/-- What is posted for a notification. -/
def relayed (x : Nat × Nat) : List Item := [.data x.1 1 x.2, .flag x.1 1 x.2]

/-- The row block a request is posted for, with the node that posts it. -/
def Item.chunk : Item → Nat × Nat
  | .data n _ rb | .flag n _ rb | .note n rb => (n, rb)

theorem chunk_direct {x : Nat × Nat} {a : Item} (ha : a ∈ direct x) : a.chunk = x := by
  simp only [direct, List.mem_cons, List.not_mem_nil, or_false] at ha
  rcases ha with rfl | rfl | rfl <;> rfl

theorem chunk_relayed {x : Nat × Nat} {a : Item} (ha : a ∈ relayed x) : a.chunk = x := by
  simp only [relayed, List.mem_cons, List.not_mem_nil, or_false] at ha
  rcases ha with rfl | rfl <;> rfl

theorem nodup_direct (x : Nat × Nat) : (direct x).Nodup := by
  simp only [direct, List.nodup_cons, List.mem_cons, List.not_mem_nil, reduceCtorEq, or_self,
    not_false_eq_true, List.nodup_nil, and_self]

theorem nodup_relayed (x : Nat × Nat) : (relayed x).Nodup := by
  simp only [relayed, List.nodup_cons, List.mem_cons, List.not_mem_nil, reduceCtorEq, or_self,
    not_false_eq_true, List.nodup_nil, and_self]

/-- Requests for different row blocks are different. -/
theorem nodup_flatMap_items {f : Nat × Nat → List Item} {l : List (Nat × Nat)}
    (hchunk : ∀ x a, a ∈ f x → a.chunk = x) (hf : ∀ x, (f x).Nodup) (hl : l.Nodup) :
    (l.flatMap f).Nodup := by
  rw [List.nodup_flatMap]
  refine ⟨fun x _ => hf x, hl.imp ?_⟩
  intro x y hne a ha hb
  exact hne ((hchunk x a ha).symm.trans (hchunk y a hb))

/-- A notification is written to the slot of the tile that is waited for. -/
theorem addr_noteAt (hg : g.Ready) {n : Nat} (hn : n < g.setup.numNodes) {rb : Nat}
    (hrb : g.setup.Owns g.dev rb) :
    (g.noteAt n rb).addr = (g.info (g.setup.nextRank n)).forwardNotify.addr +
      32 * BitVec.ofNat 64 (g.setup.awaitTile (g.setup.nextRank n) 0 rb) := by
  have htile : (g.setup.phase0Write n g.dev rb).tileId =
      g.setup.awaitTile (g.setup.nextRank n) 0 rb :=
    (hopWrite_awaited hn g.setup.numPeers_pos g.dev rb).2.1
  simp only [Nodes.noteAt, Nodes.noteOf, Write.toCmd, htile,
    setWidth_tile (tile_lt hg (nextRank_lt hn) g.setup.numPeers_pos hrb)]

/-- Different requests land differently. -/
theorem landing_inj (hg : g.Ready) {a b : Item} (ha : a.Valid g) (hb : b.Valid g)
    (h : landing g a = landing g b) : a = b := by
  have hpay := congrArg Landing.payload h
  cases a with
  | data n s rb =>
      cases b with
      | data n' s' rb' =>
          -- The address tells the slot and the row block, and the node tells who sent it.
          rcases dataAt_inj hg (nextRank_lt ha.1) ha.2.1 hb.2.1 ha.2.2 hb.2.2 h with ⟨hn, rfl, rfl⟩
          rw [nextRank_inj ha.1 hb.1 hn]
      | flag n' s' rb' => exact absurd hpay (by simp only [landing, Nodes.dataAt, Nodes.flagAt,
          reduceCtorEq, not_false_eq_true])
      | note n' rb' => exact absurd hpay (by simp only [landing, Nodes.dataAt, Nodes.noteAt,
          Nodes.noteOf, reduceCtorEq, not_false_eq_true])
  | flag n s rb =>
      cases b with
      | data n' s' rb' => exact absurd hpay (by simp only [landing, Nodes.dataAt, Nodes.flagAt,
          reduceCtorEq, not_false_eq_true])
      | flag n' s' rb' =>
          rcases flagAt_inj hg (nextRank_lt ha.1) ha.2.1 hb.2.1 ha.2.2 hb.2.2 h with ⟨hn, rfl, rfl⟩
          rw [nextRank_inj ha.1 hb.1 hn]
      | note n' rb' => exact absurd hpay (by simp only [landing, Nodes.flagAt, Nodes.noteAt,
          Nodes.noteOf, Option.some.injEq, reduceCtorEq, not_false_eq_true])
  | note n rb =>
      cases b with
      | data n' s' rb' => exact absurd hpay (by simp only [landing, Nodes.dataAt, Nodes.noteAt,
          Nodes.noteOf, reduceCtorEq, not_false_eq_true])
      | flag n' s' rb' => exact absurd hpay (by simp only [landing, Nodes.flagAt, Nodes.noteAt,
          Nodes.noteOf, Option.some.injEq, reduceCtorEq, not_false_eq_true])
      -- The slots of the notifications are told by their tiles.
      | note n' rb' =>
          obtain rfl : n = n' := nextRank_inj ha.1 hb.1 (congrArg Landing.node h)
          have hn := nextRank_lt ha.1
          have haddr : (g.noteAt n rb).addr = (g.noteAt n rb').addr := congrArg Landing.addr h
          rw [addr_noteAt hg ha.1 ha.2, addr_noteAt hg ha.1 hb.2] at haddr
          have htile := entry_inj (by decide) (le_refl 32)
            (tile_lt hg hn g.setup.numPeers_pos ha.2) (tile_lt hg hn g.setup.numPeers_pos hb.2)
              haddr
          rw [(tile_inj hg hn g.setup.numPeers_pos g.setup.numPeers_pos ha.2 hb.2 htile).2]

/-- A notification lands after the data it is about, and what is sent on after what arrived. -/
def Needs (g : Nodes) (l l' : Landing) : Prop :=
  ∃ n < g.setup.numNodes, ∃ rb, g.setup.Owns g.dev rb ∧
    (l = landing g (.note n rb) ∧ l' = g.dataAt (g.setup.nextRank n) 0 rb ∨
      l = landing g (.data n 1 rb) ∧ l' = g.dataAt n 0 rb)

/-- What an item needs, by what it is for. -/
theorem item_of_needs (hg : g.Ready) (a : Item) (ha : a.Valid g) {l : Landing}
    (h : Needs g (landing g a) l) :
    (∃ n rb, a = .note n rb ∧ l = g.dataAt (g.setup.nextRank n) 0 rb) ∨
      ∃ n rb, a = .data n 1 rb ∧ l = g.dataAt n 0 rb := by
  rcases h with ⟨n, hn, rb, hrb, ⟨hitem, hl⟩ | ⟨hitem, hl⟩⟩
  · exact Or.inl ⟨n, rb, landing_inj hg ha (b := .note n rb) ⟨hn, hrb⟩ hitem, hl⟩
  · exact Or.inr ⟨n, rb, landing_inj hg ha (b := .data n 1 rb) ⟨hn, hg.many, hrb⟩ hitem, hl⟩

/-- In the chain of a command the notification comes last. -/
theorem needs_direct (hg : g.Ready) {x : Nat × Nat} (hn : x.1 < g.setup.numNodes)
    (hrb : g.setup.Owns g.dev x.2) {xs ys : List Landing} {b : Landing}
    (hchain : (direct x).map (landing g) = xs ++ b :: ys) {a : Landing} (h : Needs g b a) :
    a ∈ xs := by
  simp only [direct, List.map_cons, List.map_nil] at hchain
  -- Where the notification is in the chain decides what is in front of it.
  rcases xs with _ | ⟨y, _ | ⟨z, _ | ⟨z', xs⟩⟩⟩
  · rw [List.nil_append, List.cons.injEq] at hchain
    rw [← hchain.1] at h
    rcases item_of_needs hg (.data x.1 0 x.2) ⟨hn, g.setup.numPeers_pos, hrb⟩ h with
      ⟨_, _, hitem, -⟩ | ⟨_, _, hitem, -⟩ <;> cases hitem
  · simp only [List.cons_append, List.nil_append, List.cons.injEq] at hchain
    rw [← hchain.2.1] at h
    rcases item_of_needs hg (.flag x.1 0 x.2) ⟨hn, g.setup.numPeers_pos, hrb⟩ h with
      ⟨_, _, hitem, -⟩ | ⟨_, _, hitem, -⟩ <;> cases hitem
  · simp only [List.cons_append, List.nil_append, List.cons.injEq] at hchain
    rw [← hchain.2.2.1] at h
    rcases item_of_needs hg (.note x.1 x.2) ⟨hn, hrb⟩ h with ⟨n, rb, hitem, rfl⟩ | ⟨_, _, hitem, -⟩
    · cases hitem
      rw [← hchain.1]
      exact List.mem_cons_self
    · cases hitem
  · -- The chain has three requests.
    have hlength := congrArg List.length hchain
    simp only [List.length_cons, List.length_nil, List.length_append] at hlength
    omega

/-- What is sent on needs only what arrived. -/
theorem needs_relayed (hg : g.Ready) {x : Nat × Nat} (hn : x.1 < g.setup.numNodes)
    (hrb : g.setup.Owns g.dev x.2) {b : Landing} (hb : b ∈ (relayed x).map (landing g))
    {a : Landing} (h : Needs g b a) : a = g.dataAt x.1 0 x.2 := by
  rcases List.mem_map.mp hb with ⟨item, hitem, rfl⟩
  simp only [relayed, List.mem_cons, List.not_mem_nil, or_false] at hitem
  rcases hitem with rfl | rfl
  · rcases item_of_needs hg (.data x.1 1 x.2) ⟨hn, hg.many, hrb⟩ h with
      ⟨_, _, hsame, -⟩ | ⟨n, rb, hsame, hl⟩
    · cases hsame
    · cases hsame
      exact hl
  · rcases item_of_needs hg (.flag x.1 1 x.2) ⟨hn, hg.many, hrb⟩ h with
      ⟨_, _, hsame, -⟩ | ⟨_, _, hsame, -⟩ <;> cases hsame

end Chunks

/-! ## What every step keeps -/

/-- What has been posted, and what for: the commands of the prologue that are not queued any more,
    and the row blocks that have been forwarded, with the nodes that did it. -/
structure Inv (g : Nodes) (w : World) (done todo fwd : List (Nat × Nat)) : Prop where
  queued : w.queued = todo.map (command g)
  chunks : (done ++ todo).Perm (chunks g)
  sent : w.wire.sent.Perm ((done.flatMap direct ++ fwd.flatMap relayed).map (landing g))
  seen : w.seen = fwd.map fun x => (x.1, g.thread, g.setup.awaitTile x.1 0 x.2)
  fwd_nodup : fwd.Nodup
  fwd_mem : ∀ x ∈ fwd, x.1 < g.setup.numNodes ∧ g.setup.Owns g.dev x.2
  order : w.wire.InOrder (Needs g)

section Keep

variable {g : Nodes} {w u : World} {done todo fwd : List (Nat × Nat)}

theorem inv_init (g : Nodes) : Inv g (init g) [] (chunks g) [] where
  queued := queued_init g
  chunks := List.Perm.refl _
  sent := List.Perm.refl _
  seen := rfl
  fwd_nodup := List.nodup_nil
  fwd_mem _ h := absurd h List.not_mem_nil
  order := Wire.InOrder.empty

theorem done_mem (hi : Inv g w done todo fwd) {x : Nat × Nat} (hx : x ∈ done) :
    x.1 < g.setup.numNodes ∧ g.setup.Owns g.dev x.2 :=
  mem_chunks.mp (hi.chunks.subset (List.mem_append_left _ hx))

theorem todo_mem (hi : Inv g w done todo fwd) {x : Nat × Nat} (hx : x ∈ todo) :
    x.1 < g.setup.numNodes ∧ g.setup.Owns g.dev x.2 :=
  mem_chunks.mp (hi.chunks.subset (List.mem_append_right _ hx))

/-- All that is posted is posted for something. -/
theorem items_valid (hg : g.Ready) (hi : Inv g w done todo fwd) {a : Item}
    (ha : a ∈ done.flatMap direct ++ fwd.flatMap relayed) : a.Valid g := by
  rcases List.mem_append.mp ha with hd | hf
  · rcases List.mem_flatMap.mp hd with ⟨x, hx, hax⟩
    rcases done_mem hi hx with ⟨hn, hrb⟩
    simp only [direct, List.mem_cons, List.not_mem_nil, or_false] at hax
    rcases hax with rfl | rfl | rfl
    · exact ⟨hn, g.setup.numPeers_pos, hrb⟩
    · exact ⟨hn, g.setup.numPeers_pos, hrb⟩
    · exact ⟨hn, hrb⟩
  · rcases List.mem_flatMap.mp hf with ⟨x, hx, hax⟩
    rcases hi.fwd_mem x hx with ⟨hn, hrb⟩
    simp only [relayed, List.mem_cons, List.not_mem_nil, or_false] at hax
    rcases hax with rfl | rfl
    · exact ⟨hn, hg.many, hrb⟩
    · exact ⟨hn, hg.many, hrb⟩

theorem nodup_items (hi : Inv g w done todo fwd) :
    (done.flatMap direct ++ fwd.flatMap relayed).Nodup := by
  have hdone : done.Nodup := (List.nodup_append.mp (hi.chunks.nodup_iff.mpr (nodup_chunks g))).1
  rw [List.nodup_append]
  refine ⟨nodup_flatMap_items (fun _ _ => chunk_direct) nodup_direct hdone,
    nodup_flatMap_items (fun _ _ => chunk_relayed) nodup_relayed hi.fwd_nodup, ?_⟩
  intro a ha b hb hab
  rcases List.mem_flatMap.mp ha with ⟨x, _, hax⟩
  rcases List.mem_flatMap.mp hb with ⟨y, _, hby⟩
  subst hab
  -- The step tells them apart.
  simp only [direct, relayed, List.mem_cons, List.not_mem_nil, or_false] at hax hby
  rcases hax with rfl | rfl | rfl <;>
    simp only [Item.data.injEq, Item.flag.injEq, zero_ne_one, false_and, and_false, reduceCtorEq,
      or_self] at hby

/-- Nothing is posted twice, and so nothing lands twice. -/
theorem nodup_landed (hg : g.Ready) (hi : Inv g w done todo fwd) : w.wire.landed.Nodup := by
  have hmap := (nodup_items hi).map_on fun a ha b hb h =>
    landing_inj hg (items_valid hg hi ha) (items_valid hg hi hb) h
  exact Wire.nodup_landed (hi.sent.nodup_iff.mpr hmap)

/-- What has landed was posted for something. -/
theorem exists_item (hi : Inv g w done todo fwd) {l : Landing} (hl : l ∈ w.wire.landed) :
    ∃ a ∈ done.flatMap direct ++ fwd.flatMap relayed, landing g a = l :=
  List.mem_map.mp (hi.sent.subset (w.wire.landed_subset hl))

/-! ## Posts -/

/-- A command of the prologue is posted by the proxy of its FIFO. -/
theorem exists_proxy_post (hg : g.Ready) {n rb : Nat} (hrb : g.setup.Owns g.dev rb) :
    ∃ p ∈ g.proxy n ((g.session n).fifoBundle.select
        ((g.setup.phase0Write n g.dev rb).toCmd.laneId.setWidth 32)),
      p.InRange (p.localQp (g.setup.phase0Write n g.dev rb).toCmd) := by
  have hroutes : (g.session n).routesChannels g.env = true := hg.routes
  have hlane : ((g.setup.phase0Write n g.dev rb).toCmd.laneId.setWidth 32).toNat = rb % 2 ^ 16 := by
    change ((BitVec.ofNat 16 rb).setWidth 32).toNat = rb % 2 ^ 16
    rw [BitVec.toNat_setWidth_of_le (by decide), BitVec.toNat_ofNat]
  have hqps : (g.session n).numQps = g.sess.numQps := rfl
  have hacc : (g.session n).Accepted (g.peerInfo n)
      (g.setup.proxyConfig (g.session n) (g.rest n)) g.env
      ⟨(g.setup.phase0Write n g.dev rb).toCmd.laneId.setWidth 32,
        (g.setup.phase0Write n g.dev rb).toCmd⟩ := by
    rw [Session.accepted_iff, routingKey, if_pos hroutes, Nodes.reserved0_phase0 hg, hlane, hqps,
      Nat.mod_eq_of_lt (Nodes.dev_lt hg)]
    exact hg.accepted rb hrb
  exact hacc

/-- What is posted for it. -/
theorem posted_phase0 (hg : g.Ready) {n t rb : Nat} {p : Internode.Cx7.Setup}
    (hn : n < g.setup.numNodes) (hrb : g.setup.Owns g.dev rb) (hp : p ∈ g.proxy n t)
    (hin : p.InRange (p.localQp (g.setup.phase0Write n g.dev rb).toCmd)) (turn : Nat) :
    posted g n p (g.setup.phase0Write n g.dev rb).toCmd turn =
      some ((direct (n, rb)).map (landing g)) := by
  have hchannel : p.channelizeGpuPeers = true := by
    rw [(Session.mem_proxy hp).1]
    exact hg.routes
  rw [posted, batchQp, if_pos hchannel, if_pos hin, Option.bind_some,
    Nodes.target_proxy hg hp (Nodes.reserved0_phase0 hg n rb), Option.map_some,
    Nodes.phase0_lands hg hn hp hrb]
  rfl

theorem step_post (hg : g.Ready) {i turn : Nat} {x : Nat × Nat}
    (hx : w.queued[i]? = some (command g x)) (hn : x.1 < g.setup.numNodes)
    (hrb : g.setup.Owns g.dev x.2) :
    step g w (.post i turn true) = some { w with
      queued := w.queued.eraseIdx i
      wire := w.wire.post ((direct x).map (landing g)) } := by
  rcases exists_proxy_post hg hrb with ⟨p, hp, hin⟩
  rw [step, hx]
  simp only [command]
  rw [Option.mem_def.mp hp]
  simp only [if_true, posted_phase0 hg hn hrb hp hin turn]

theorem inv_post (hg : g.Ready) (hi : Inv g w done todo fwd) {i turn : Nat}
    (h : step g w (.post i turn true) = some u) :
    ∃ x, Inv g u (x :: done) (todo.eraseIdx i) fwd := by
  cases hx : todo[i]? with
  | none =>
      rw [step, hi.queued, List.getElem?_map, hx, Option.map_none] at h
      exact absurd h (by simp only [reduceCtorEq, not_false_eq_true])
  | some x =>
      -- What is posted is one of the commands that are left.
      have hmem : x ∈ todo := List.mem_of_getElem? hx
      have hqueued : w.queued[i]? = some (command g x) := by
        rw [hi.queued, List.getElem?_map, hx, Option.map_some]
      rw [step_post hg hqueued (todo_mem hi hmem).1 (todo_mem hi hmem).2, Option.some.injEq] at h
      rw [← h]
      refine ⟨x, ?_, ?_, ?_, hi.seen, hi.fwd_nodup, hi.fwd_mem, hi.order.post
        fun xs b ys hchain a ha => Or.inr (needs_direct hg (todo_mem hi hmem).1
          (todo_mem hi hmem).2 hchain ha)⟩
      · rw [hi.queued, List.eraseIdx_map]
      · rcases List.getElem?_eq_some_iff.mp hx with ⟨hlt, rfl⟩
        exact (List.perm_middle.symm.trans (List.Perm.append_left done
          -- The row block goes from those to be posted to those that are.
          (List.getElem_cons_eraseIdx_perm hlt))).trans hi.chunks
      · refine (Wire.sent_post _ _).trans ?_
        -- Its requests are all on their way.
        rw [List.flatMap_cons, List.append_assoc, List.map_append]
        exact List.Perm.append_left _ hi.sent

theorem inv_land (hi : Inv g w done todo fwd) {i : Nat} (h : step g w (.land i) = some u) :
    Inv g u done todo fwd := by
  rcases Option.map_eq_some_iff.mp h with ⟨wire, hland, rfl⟩
  exact ⟨hi.queued, hi.chunks, (Wire.sent_land hland).trans hi.sent, hi.seen, hi.fwd_nodup,
    hi.fwd_mem, hi.order.land hland⟩

/-! ## Polls -/

/-- A notification that has landed tells a row block of the node before, and is in the slot of
    its tile. -/
theorem exists_of_notified (hg : g.Ready) (hi : Inv g w done todo fwd) {n slot : Nat}
    {note : ForwardNotify} (hslot : slot < 2 ^ 32) (h : notified g w n slot = some note) :
    ∃ x ∈ done, g.setup.nextRank x.1 = n ∧ slot = g.setup.awaitTile n 0 x.2 ∧
      note = notifyOf g.epoch (g.setup.phase0Write x.1 g.dev x.2).toCmd ∧
      g.noteAt x.1 x.2 ∈ w.wire.landed := by
  rcases List.exists_of_findSome?_eq_some h with ⟨l, hl, hnote⟩
  -- What is in the slot landed there as a notification.
  by_cases hat : l.node = n ∧
      l.addr = (g.info n).forwardNotify.addr + 32 * BitVec.ofNat 64 slot
  · rw [if_pos hat] at hnote
    rcases exists_item hi hl with ⟨a, ha, rfl⟩
    have hvalid := items_valid hg hi ha
    cases a with
    | data n' s rb => exact absurd hnote (by simp only [noteIn, landing, Nodes.dataAt,
        reduceCtorEq, not_false_eq_true])
    | flag n' s rb => exact absurd hnote (by simp only [noteIn, landing, Nodes.flagAt,
        reduceCtorEq, not_false_eq_true])
    | note n' rb =>
        -- Only a request that is posted by its own node carries one.
        have hx : (n', rb) ∈ done := by
          rcases List.mem_append.mp ha with hd | hf
          · rcases List.mem_flatMap.mp hd with ⟨x, hx, hax⟩
            simp only [direct, List.mem_cons, List.not_mem_nil, reduceCtorEq, or_false, false_or,
              Item.note.injEq] at hax
            rw [hax.1, hax.2]
            exact hx
          · rcases List.mem_flatMap.mp hf with ⟨x, _, hax⟩
            simp only [relayed, List.mem_cons, List.not_mem_nil, reduceCtorEq, or_self] at hax
        have hnext : g.setup.nextRank n' = n := hat.1
        have haddr : (g.noteAt n' rb).addr = _ := hat.2
        rw [addr_noteAt hg hvalid.1 hvalid.2, hnext] at haddr
        have hn : n < g.setup.numNodes := by
          rw [← hnext]
          exact nextRank_lt hvalid.1
        -- The address tells the tile.
        have htile := entry_inj (by decide) (le_refl 32)
          (tile_lt hg hn g.setup.numPeers_pos hvalid.2) hslot haddr
        exact ⟨(n', rb), hx, hnext, htile.symm, (Option.some.inj hnote).symm, hl⟩
  · rw [if_neg hat] at hnote
    exact absurd hnote (by simp only [reduceCtorEq, not_false_eq_true])

/-- The first row block of the GPU. -/
theorem owns_first (g : Nodes) : g.setup.Owns g.dev (2 * (g.dev * g.setup.localRowBlocks)) := by
  rw [Setup.Owns, Nat.mul_div_cancel_left _ (by decide),
    Nat.mul_div_cancel _ g.setup.localRowBlocks_pos]

theorem recvBufChunks_pos (hg : g.Ready) : 0 < g.setup.recvBufChunks := by
  have hin := hg.inside _ (owns_first g)
  exact Nat.mul_pos (Nat.mul_pos g.setup.numPeers_pos (by omega)) g.setup.numPeers_pos

/-- There are slots for the tiles that are waited for, and they are numbered by 32 bits. -/
theorem forwardNotifySlots_proxy (hg : g.Ready) {n t : Nat} {p : Internode.Cx7.Setup}
    (hp : p ∈ g.proxy n t) :
    (g.setup.recvBufChunks : Int) ≤ p.cfg.forwardNotifySlots ∧
      p.cfg.forwardNotifySlots < 2 ^ 32 := by
  have hpos := recvBufChunks_pos hg
  have hslots :
      p.cfg.forwardNotifySlots = (g.session n).totalArrivalSlots g.setup.recvBufChunks := by
    rw [(Session.mem_proxy hp).1]
    rfl
  have hqueues : (g.session n).totalLogicalQueues = g.sess.totalLogicalQueues := rfl
  have hround : rounds g.setup.recvBufChunks g.sess.totalLogicalQueues *
      g.sess.totalLogicalQueues ≤ g.setup.recvBufChunks + g.sess.totalLogicalQueues - 1 :=
    Nat.div_mul_le_self _ _
  have hle : g.setup.recvBufChunks ≤ rounds g.setup.recvBufChunks g.sess.totalLogicalQueues *
      g.sess.totalLogicalQueues := le_rounds_mul g.sess.totalLogicalQueues_pos
  have htiles := hg.fits.tiles
  rw [hslots, Session.totalArrivalSlots_eq hpos, hqueues]
  constructor <;> omega

theorem forwardEnabled_proxy (hg : g.Ready) {n t : Nat} {p : Internode.Cx7.Setup}
    (hp : p ∈ g.proxy n t) : forwardEnabled p = true := by
  have hslots := (forwardNotifySlots_proxy hg hp).1
  have hpos := recvBufChunks_pos hg
  have hon : p.cfg.enableForwardNotify = true ∧ p.cfg.localForwardNotify = true := by
    rw [(Session.mem_proxy hp).1]
    exact ⟨rfl, rfl⟩
  rw [forwardEnabled, hon.1, hon.2, decide_eq_true (by omega)]
  rfl

/-- What is posted for a notification, by the thread that has the QP and by no other. -/
theorem forwarded_eq (hg : g.Ready) (hi : Inv g w done todo fwd) {n t slot : Nat}
    {p : Internode.Cx7.Setup} (hp : p ∈ g.proxy n t) {chain : List Landing}
    (h : forwarded g w n p slot = some chain) :
    t = g.thread ∧ ∃ rb, g.setup.Owns g.dev rb ∧ slot = g.setup.awaitTile n 0 rb ∧
      chain = (relayed (n, rb)).map (landing g) ∧ g.dataAt n 0 rb ∈ w.wire.landed := by
  rw [forwarded] at h
  by_cases hscan : forwardEnabled p = true ∧ (slot : Int) < p.cfg.forwardNotifySlots
  · rw [if_pos hscan] at h
    rcases Option.bind_eq_some_iff.mp h with ⟨note, hnote, hbuilt⟩
    have hslots := (forwardNotifySlots_proxy hg hp).2
    rcases exists_of_notified hg hi (by omega) hnote with ⟨x, hx, hnext, htile, rfl, hl⟩
    rcases done_mem hi hx with ⟨hxn, hrb⟩
    -- The data was before the notification in its chain.
    have hdata0 : g.dataAt n 0 x.2 ∈ w.wire.landed :=
      hi.order.landed _ hl _ ⟨x.1, hxn, x.2, hrb, Or.inl ⟨rfl, by rw [hnext]⟩⟩
    rw [← hnext] at hp
    by_cases hseen : (notifyOf g.epoch (g.setup.phase0Write x.1 g.dev x.2).toCmd).epoch = g.epoch ∧
        (notifyOf g.epoch (g.setup.phase0Write x.1 g.dev x.2).toCmd).tileId = BitVec.ofNat 32 slot
    · rw [if_pos hseen] at hbuilt
      rcases Option.bind_eq_some_iff.mp hbuilt with ⟨c, hc, hposted⟩
      have hkey := Nodes.reserved0_forward hg (nextRank_lt hxn) hp
        (notifyOf g.epoch (g.setup.phase0Write x.1 g.dev x.2).toCmd)
      rcases Nodes.landings_forward hg hp hkey hc with ⟨hqp, hlands⟩
      rcases Nodes.forward_lands hg hxn hp hrb with ⟨hdata, hflag⟩
      rw [← hnext, hqp, Nodes.target_proxy hg hp hkey, Option.map_some, hlands, hdata, hflag,
        Option.some.injEq] at hposted
      have hin : p.InRange (p.localQp (p.makeForwardCmdFromNotify
          (notifyOf g.epoch (g.setup.phase0Write x.1 g.dev x.2).toCmd))) := by
        by_contra hout
        rw [forwardChain, if_neg hout] at hc
        exact absurd hc (by simp only [reduceCtorEq, not_false_eq_true])
      refine ⟨((Nodes.inRange_proxy hg hp hkey).mp hin).symm, x.2, hrb, htile, ?_, hdata0⟩
      rw [← hposted, ← hnext]
      rfl
    · rw [if_neg hseen] at hbuilt
      exact absurd hbuilt (by simp only [reduceCtorEq, not_false_eq_true])
  · rw [if_neg hscan] at h
    exact absurd h (by simp only [reduceCtorEq, not_false_eq_true])

/-- What a poll does. -/
theorem step_poll_eq_some (hg : g.Ready) (hi : Inv g w done todo fwd) {n t slot : Nat}
    (h : step g w (.poll n t slot) = some u) :
    n < g.setup.numNodes ∧ ∃ rb, g.setup.Owns g.dev rb ∧ (n, rb) ∉ fwd ∧
      g.dataAt n 0 rb ∈ w.wire.landed ∧ u = { w with
        wire := w.wire.post ((relayed (n, rb)).map (landing g))
        seen := (n, g.thread, g.setup.awaitTile n 0 rb) :: w.seen } := by
  by_cases hg' : n < g.setup.numNodes ∧ (n, t, slot) ∉ w.seen
  · rw [step, if_pos hg'] at h
    cases hp : g.proxy n t with
    | none =>
        rw [hp] at h
        exact absurd h (by simp only [reduceCtorEq, not_false_eq_true])
    | some p =>
        simp only [hp] at h
        -- The proxy has found a notification, and builds the command for it.
        rw [Option.map_eq_some_iff] at h
        rcases h with ⟨chain, hchain, hu⟩
        rcases forwarded_eq hg hi (Option.mem_def.mpr hp) hchain with
          ⟨ht, rb, hrb, htile, hlands, hdata⟩
        rw [← hu, ht, htile, hlands]
        rw [ht, htile, hi.seen] at hg'
        -- The notification was not seen before, so the row block is not forwarded yet.
        exact ⟨hg'.1, rb, hrb, fun hfwd => hg'.2 (List.mem_map.mpr ⟨(n, rb), hfwd, rfl⟩), hdata,
          rfl⟩
  · rw [step, if_neg hg'] at h
    exact absurd h (by simp only [reduceCtorEq, not_false_eq_true])

theorem inv_poll (hg : g.Ready) (hi : Inv g w done todo fwd) {n t slot : Nat}
    (h : step g w (.poll n t slot) = some u) : ∃ rb, Inv g u done todo ((n, rb) :: fwd) := by
  rcases step_poll_eq_some hg hi h with ⟨hn, rb, hrb, hnew, hdata, rfl⟩
  refine ⟨rb, hi.queued, hi.chunks, ?_, ?_, List.nodup_cons.mpr ⟨hnew, hi.fwd_nodup⟩, ?_,
    hi.order.post fun xs b ys hchain a ha => Or.inl ?_⟩
  · refine (Wire.sent_post _ _).trans ?_
    rw [List.flatMap_cons, List.map_append, List.map_append]
    refine ((List.Perm.append_left _ hi.sent).trans ?_)
    rw [List.map_append]
    -- The two requests are on their way, besides those of the prologue.
    exact (List.perm_append_comm_assoc _ _ _)
  · rw [hi.seen]
    rfl
  · intro x hx
    rcases List.mem_cons.mp hx with rfl | hx
    · exact ⟨hn, hrb⟩
    · exact hi.fwd_mem x hx
  · -- Both of them rest on the data of the row block, which is there.
    have hb : b ∈ (relayed (n, rb)).map (landing g) := by
      rw [hchain]
      exact List.mem_append_right _ List.mem_cons_self
    rw [needs_relayed hg hn hrb hb ha]
    exact hdata

theorem inv_step (hg : g.Ready) (hi : Inv g w done todo fwd) {a : Act} (hok : Posted w a)
    (h : step g w a = some u) : ∃ done' todo' fwd', Inv g u done' todo' fwd' := by
  cases a with
  | post i turn ok =>
      obtain rfl : ok = true := hok
      rcases inv_post hg hi h with ⟨x, hx⟩
      exact ⟨_, _, _, hx⟩
  | land i => exact ⟨_, _, _, inv_land hi h⟩
  | poll n t slot =>
      rcases inv_poll hg hi h with ⟨rb, hrb⟩
      exact ⟨_, _, _, hrb⟩

theorem inv_of_reaches (hg : g.Ready) (h : Reaches (step g) Posted (init g) w) :
    ∃ done todo fwd, Inv g w done todo fwd :=
  invariant_of_reaches (fun w => ∃ done todo fwd, Inv g w done todo fwd)
    (fun _ _ _ ⟨_, _, _, hi⟩ hok hst => inv_step hg hi hok hst) h ⟨_, _, _, inv_init g⟩

/-! ## Getting there -/

/-- A notification that has landed is forwarded, if it is not yet. -/
theorem exists_poll (hg : g.Ready) (hi : Inv g w done todo fwd) {n rb : Nat}
    (hx : (n, rb) ∈ done) (hland : g.noteAt n rb ∈ w.wire.landed)
    (hnew : (g.setup.nextRank n, rb) ∉ fwd) : ∃ a u, step g w a = some u := by
  have hn : n < g.setup.numNodes := (done_mem hi hx).1
  have hrb : g.setup.Owns g.dev rb := (done_mem hi hx).2
  have hnext := nextRank_lt hn
  have htile := tile_lt hg hnext g.setup.numPeers_pos hrb
  have hunseen : (g.setup.nextRank n, g.thread, g.setup.awaitTile (g.setup.nextRank n) 0 rb) ∉
      w.seen := by
    rw [hi.seen]
    intro hmem
    rcases List.mem_map.mp hmem with ⟨y, hy, heq⟩
    rcases Prod.mk.inj heq with ⟨hnode, hslot⟩
    rw [hnode] at hslot
    have hsame := tile_inj hg hnext g.setup.numPeers_pos g.setup.numPeers_pos (hi.fwd_mem y hy).2
      hrb (Prod.mk.inj hslot).2
    rw [← hnode, ← hsame.2] at hnew
    exact hnew hy
  have hfound : (notified g w (g.setup.nextRank n)
      (g.setup.awaitTile (g.setup.nextRank n) 0 rb)).isSome = true := by
    rw [notified, List.findSome?_isSome_iff]
    refine ⟨g.noteAt n rb, hland, ?_⟩
    rw [if_pos ⟨rfl, addr_noteAt hg hn hrb⟩]
    rfl
  rcases Option.isSome_iff_exists.mp hfound with ⟨note, hnote⟩
  -- Whatever is found in the slot is the notification of this row block.
  rcases exists_of_notified hg hi htile hnote with ⟨y, hy, hynext, hyslot, rfl, -⟩
  rcases done_mem hi hy with ⟨hyn, hyrb⟩
  have hsame := tile_inj hg hnext g.setup.numPeers_pos g.setup.numPeers_pos hrb hyrb hyslot
  rw [nextRank_inj hyn hn hynext, ← hsame.2] at hnote
  rcases Nodes.exists_proxy_thread hg (g.setup.nextRank n) with ⟨p, hp⟩
  have hkey := Nodes.reserved0_forward hg hnext hp
    (notifyOf g.epoch (g.setup.phase0Write n g.dev rb).toCmd)
  have hin := (Nodes.inRange_proxy hg hp hkey).mpr rfl
  have hscan : forwardEnabled p = true ∧
      ((g.setup.awaitTile (g.setup.nextRank n) 0 rb : Nat) : Int) < p.cfg.forwardNotifySlots := by
    have hslots := (forwardNotifySlots_proxy hg hp).1
    have hlt := awaitTile_lt hnext g.setup.numPeers_pos (hg.inside rb hrb)
    exact ⟨forwardEnabled_proxy hg hp, by omega⟩
  have hid : (notifyOf g.epoch (g.setup.phase0Write n g.dev rb).toCmd).tileId =
      BitVec.ofNat 32 (g.setup.awaitTile (g.setup.nextRank n) 0 rb) :=
    congrArg (BitVec.ofNat 32) (hopWrite_awaited hn g.setup.numPeers_pos g.dev rb).2.1
  have hsome : ∃ chain, forwarded g w (g.setup.nextRank n) p
      (g.setup.awaitTile (g.setup.nextRank n) 0 rb) = some chain := by
    rw [forwarded, if_pos hscan, hnote, Option.bind_some, if_pos ⟨rfl, hid⟩, forwardChain,
      if_pos hin, Option.bind_some, Nodes.target_proxy hg hp hkey, Option.map_some]
    exact ⟨_, rfl⟩
  rcases hsome with ⟨chain, hchain⟩
  refine ⟨.poll (g.setup.nextRank n) g.thread (g.setup.awaitTile (g.setup.nextRank n) 0 rb), ?_⟩
  rw [step, if_pos ⟨hnext, hunseen⟩, Option.mem_def.mp hp]
  simp only [hchain, Option.map_some, Option.some.injEq, exists_eq']

/-- When there is nothing left to do, all is posted and has landed, and all that is notified is
    forwarded. -/
theorem idle_spec (hg : g.Ready) (hi : Inv g w done todo fwd) (hidle : Idle g w) :
    w.wire.landed.Perm ((done.flatMap direct ++ fwd.flatMap relayed).map (landing g)) ∧
      (∀ x ∈ chunks g, x ∈ done) ∧ ∀ x ∈ chunks g, x ∈ fwd := by
  -- A command that is left could be posted.
  have hposted : todo = [] := by
    by_contra hne
    rcases List.exists_mem_of_ne_nil _ hne with ⟨x, hx⟩
    rcases List.getElem?_of_mem hx with ⟨i, hxi⟩
    have hqueued : w.queued[i]? = some (command g x) := by
      rw [hi.queued, List.getElem?_map, hxi, Option.map_some]
    have hnone := hidle (.post i 0 true)
    rw [step_post hg hqueued (todo_mem hi hx).1 (todo_mem hi hx).2] at hnone
    exact absurd hnone (by simp only [reduceCtorEq, not_false_eq_true])
  -- A request under way could land.
  have hlanded : w.wire.flight.flatten = [] := by
    by_contra hne
    rcases Wire.exists_land hne with ⟨i, wire, hland⟩
    have hnone := hidle (.land i)
    rw [step, hland] at hnone
    exact absurd hnone (by simp only [Option.map_some, reduceCtorEq, not_false_eq_true])
  have hsent := hi.sent
  have hall := hi.chunks
  rw [Wire.sent_of_done hlanded] at hsent
  rw [hposted, List.append_nil] at hall
  refine ⟨hsent, fun x hx => hall.mem_iff.mpr hx, fun x hx => ?_⟩
  rcases mem_chunks.mp hx with ⟨hn, hrb⟩
  rcases exists_nextRank hn with ⟨prev, hprev, hnext⟩
  have hdone : (prev, x.2) ∈ done := hall.mem_iff.mpr (mem_chunks.mpr ⟨hprev, hrb⟩)
  -- So the notification of the row block before has landed, too.
  have hnote : g.noteAt prev x.2 ∈ w.wire.landed := by
    refine hsent.mem_iff.mpr (List.mem_map.mpr ⟨.note prev x.2, List.mem_append_left _ ?_, rfl⟩)
    exact List.mem_flatMap.mpr ⟨_, hdone, by
      simp only [direct, List.mem_cons, reduceCtorEq, true_or, or_true]⟩
  by_contra hnew
  have hpair : (g.setup.nextRank prev, x.2) ∉ fwd := by
    rw [hnext]
    exact hnew
  -- It could be polled then, if it were not forwarded yet.
  rcases exists_poll hg hi hdone hnote hpair with ⟨a, u, hstep⟩
  rw [hidle a] at hstep
  exact absurd hstep (by simp only [reduceCtorEq, not_false_eq_true])

/-- What is left to be done. -/
def left (g : Nodes) (w : World) : Nat :=
  4 * w.queued.length + w.wire.pending + 3 * ((chunks g).length - w.seen.length)

/-- If there is something left to do, it can be done, and then less is left. -/
theorem exists_less (hg : g.Ready) (hi : Inv g w done todo fwd) (hbusy : ¬ Idle g w) :
    ∃ a u, Posted w a ∧ step g w a = some u ∧ left g u < left g w := by
  rcases not_forall.mp hbusy with ⟨a, ha⟩
  cases a with
  | post i turn ok =>
      cases hx : todo[i]? with
      | none =>
          refine absurd ?_ ha
          rw [step, hi.queued, List.getElem?_map, hx, Option.map_none]
      | some x =>
          have hmem : x ∈ todo := List.mem_of_getElem? hx
          have hqueued : w.queued[i]? = some (command g x) := by
            rw [hi.queued, List.getElem?_map, hx, Option.map_some]
          refine ⟨.post i turn true, _, rfl,
            step_post hg hqueued (todo_mem hi hmem).1 (todo_mem hi hmem).2, ?_⟩
          -- The command makes way for three requests, which weigh less than it does.
          have hlt : i < w.queued.length := (List.getElem?_eq_some_iff.mp hqueued).1
          simp only [left, List.length_eraseIdx, if_pos hlt, Wire.pending_post, List.length_map,
            direct, List.length_cons, List.length_nil]
          omega
  | land i =>
      cases hland : w.wire.land i with
      | none =>
          refine absurd ?_ ha
          rw [step, hland, Option.map_none]
      | some wire =>
          have hless := Wire.pending_land hland
          -- One request less is under way.
          refine ⟨.land i, { w with wire := wire }, trivial, ?_, ?_⟩
          · rw [step, hland, Option.map_some]
          · simp only [left]
            omega
  | poll n t slot =>
      cases hstep : step g w (.poll n t slot) with
      | none => exact absurd hstep ha
      | some u =>
          refine ⟨.poll n t slot, u, trivial, hstep, ?_⟩
          rcases step_poll_eq_some hg hi hstep with ⟨hn, rb, hrb, hnew, -, rfl⟩
          -- A row block that is forwarded for the first time is one of those that remain.
          have hroom : ((n, rb) :: fwd).length ≤ (chunks g).length := by
            refine (List.subperm_of_subset (List.nodup_cons.mpr ⟨hnew, hi.fwd_nodup⟩) ?_).length_le
            intro x hx
            rcases List.mem_cons.mp hx with rfl | hx
            · exact mem_chunks.mpr ⟨hn, hrb⟩
            · exact mem_chunks.mpr (hi.fwd_mem x hx)
          have hseen : w.seen.length = fwd.length := by
            rw [hi.seen, List.length_map]
          rw [List.length_cons] at hroom
          simp only [left, Wire.pending_post, List.length_map, relayed, List.length_cons,
            List.length_nil]
          omega

theorem exists_idle (hg : g.Ready) (h : Reaches (step g) Posted (init g) w) :
    ∃ u, Reaches (step g) Posted w u ∧ Idle g u := by
  refine exists_goal (left g) fun v hv hbusy => ?_
  rcases inv_of_reaches hg (reaches_trans h hv) with ⟨_, _, _, hi⟩
  exact exists_less hg hi hbusy

/-! ## Where row blocks arrive -/

/-- In the end a row block has arrived in the first two steps. -/
theorem arrived_of_idle (hg : g.Ready) (hi : Inv g w done todo fwd) (hidle : Idle g w)
    {n s rb : Nat} (hn : n < g.setup.numNodes) (hs : s < 2) (hrb : g.setup.Owns g.dev rb) :
    Arrived g w n s rb 1 := by
  rcases idle_spec hg hi hidle with ⟨hsent, hdone, hfwd⟩
  rcases exists_nextRank hn with ⟨prev, hprev, rfl⟩
  have hx : (prev, rb) ∈ chunks g := mem_chunks.mpr ⟨hprev, hrb⟩
  have hnodup := nodup_landed hg hi
  have hmem : Item.data prev s rb ∈ done.flatMap direct ++ fwd.flatMap relayed ∧
      Item.flag prev s rb ∈ done.flatMap direct ++ fwd.flatMap relayed := by
    rcases (by omega : s = 0 ∨ s = 1) with rfl | rfl
    · constructor <;> refine List.mem_append_left _ (List.mem_flatMap.mpr ⟨_, hdone _ hx, ?_⟩)
      · exact List.mem_cons_self
      · exact List.mem_cons_of_mem _ List.mem_cons_self
    · constructor <;> refine List.mem_append_right _ (List.mem_flatMap.mpr ⟨_, hfwd _ hx, ?_⟩)
      · exact List.mem_cons_self
      · exact List.mem_cons_of_mem _ List.mem_cons_self
  exact ⟨List.count_eq_one_of_mem hnodup (hsent.mem_iff.mpr (List.mem_map.mpr ⟨_, hmem.1, rfl⟩)),
    List.count_eq_one_of_mem hnodup (hsent.mem_iff.mpr (List.mem_map.mpr ⟨_, hmem.2, rfl⟩))⟩

/-- Nothing arrives in a later step. -/
theorem not_arrived (hg : g.Ready) (hi : Inv g w done todo fwd) {n s rb : Nat}
    (hn : n < g.setup.numNodes) (hs : 2 ≤ s) (hs' : s < g.setup.numPeers)
    (hrb : g.setup.Owns g.dev rb) : w.wire.landed.count (g.dataAt n s rb) = 0 := by
  rw [List.count_eq_zero]
  intro hl
  rcases exists_item hi hl with ⟨a, ha, heq⟩
  have hvalid := items_valid hg hi ha
  rcases exists_nextRank hn with ⟨prev, hprev, rfl⟩
  -- It would be the data of a request that is in no chain.
  have hsame : a = .data prev s rb := landing_inj hg hvalid (b := .data prev s rb)
    ⟨hprev, hs', hrb⟩ heq
  rw [hsame] at ha
  -- The prologue is for the first step, and a forward for the second.
  rcases List.mem_append.mp ha with hd | hf
  · rcases List.mem_flatMap.mp hd with ⟨x, _, hax⟩
    simp only [direct, List.mem_cons, Item.data.injEq, List.not_mem_nil, reduceCtorEq,
      or_false] at hax
    omega
  · rcases List.mem_flatMap.mp hf with ⟨x, _, hax⟩
    simp only [relayed, List.mem_cons, Item.data.injEq, List.not_mem_nil, reduceCtorEq,
      or_false] at hax
    omega

/-- What has landed of data and flags is waited for, and has landed once. -/
theorem once_of_inv (hg : g.Ready) (hi : Inv g w done todo fwd) : Once g w where
  awaited l hl hnote := by
    rcases exists_item hi hl with ⟨a, ha, rfl⟩
    have hvalid := items_valid hg hi ha
    -- A request for data or a flag is at the node behind the one that sends it.
    cases a with
    | data n s rb =>
        exact ⟨g.setup.nextRank n, nextRank_lt hvalid.1, s, hvalid.2.1, rb, hvalid.2.2, Or.inl rfl⟩
    | flag n s rb =>
        exact ⟨g.setup.nextRank n, nextRank_lt hvalid.1, s, hvalid.2.1, rb, hvalid.2.2, Or.inr rfl⟩
    | note n rb =>
        exact absurd hnote (by simp only [noteIn, landing, Nodes.noteAt, Nodes.noteOf, reduceCtorEq,
          not_false_eq_true])
  once n _ s _ rb _ :=
    ⟨List.nodup_iff_count_le_one.mp (nodup_landed hg hi) _,
      List.nodup_iff_count_le_one.mp (nodup_landed hg hi) _⟩
  relayed n hn s hs rb hrb hl := by
    -- Nothing has landed for a later step, and so it is the first.
    have hfirst : s = 0 := by
      by_contra hne
      exact List.count_eq_zero.mp (not_arrived hg hi (nextRank_lt hn) (by omega) hs hrb) hl
    rw [hfirst] at hl ⊢
    refine ⟨hi.order.landed _ hl _ ⟨n, hn, rb, hrb, Or.inr ⟨rfl, rfl⟩⟩, fun hsame => ?_⟩
    rw [← Nodes.sourceAt_succ hsame, Nodes.dataAt, prevRank_nextRank hn]

end Keep

/-- Each step has an origin of its own. -/
theorem origin_inj {setup : Setup} {n s s' : Nat} (hn : n < setup.numNodes)
    (hs : s < setup.numPeers) (hs' : s' < setup.numPeers)
    (h : setup.origin n s = setup.origin n s') : s = s' := by
  rw [origin_val hn hs, origin_val hn hs'] at h
  unfold Setup.numPeers at hs hs'
  split at h <;> split at h <;> omega

/-- With more steps than two, what a node waits for in the third does not arrive. -/
theorem not_allReached {g : Nodes} {w : World} {done todo fwd : List (Nat × Nat)} (hg : g.Ready)
    (hi : Inv g w done todo fwd) (hsteps : 2 < g.setup.numPeers) : ¬ AllReached g w := by
  intro hall
  have hzero : 0 < g.setup.numNodes := Nat.lt_of_lt_of_le Nat.two_pos g.setup.numNodes_ge
  have hrb := owns_first g
  rcases hall _ (origin_lt hzero hsteps) 0 hzero (origin_ne hzero hsteps) with
    ⟨s, hs, horigin, harrived⟩
  obtain rfl : s = 2 := origin_inj hzero hs hsteps horigin
  have hcount := (harrived _ hrb).1
  rw [not_arrived hg hi hzero (le_refl 2) hsteps hrb] at hcount
  exact absurd hcount Nat.zero_ne_one

section Sample

/-- Nodes of eight GPUs with one row of 256 and 256 columns on each, and the first GPU of each.
    One proxy has eight QPs for each peer. -/
def ringOf (numNodes : Nat) (numQps : Int) (hge : 2 ≤ numNodes) (hle : numNodes ≤ 17) : Nodes where
  setup :=
    { numNodes := numNodes
      numDevices := 8
      localRowBlocks := 1
      cols := 256
      numIntraComm := 1
      numNodes_ge := hge
      numDevices_pos := eight_pos
      localRowBlocks_pos := Nat.one_pos
      cols_dvd := redBlock_dvd
      numIntraComm_pos := Nat.one_pos }
  sess :=
    { cfg :=
        { rank := 0
          numPeers := numNodes - 1
          peerRanks := none
          numQps := numQps
          logicalQueuesPerQp := 1
          numProxyThreads := 1
          channelizeGpuPeers := true }
      numPeers_pos := Int.sub_pos_of_lt (by omega)
      numPeers_le := by
        change (numNodes : Int) - 1 ≤ (16 : Nat)
        omega }
  rest _ := Internode.Cx7.sampleConfig
  env := none
  info := Internode.Cx7.sampleInfo
  dev := 0
  epoch := 1

def ringOfThree : Nodes := ringOf 3 16 two_le_three (by decide)

def ringOfFour : Nodes := ringOf 4 24 (by decide) (by decide)

/-- The first GPU has two row blocks. -/
theorem forall_owns {g : Nodes} (hlocal : g.setup.localRowBlocks = 1) (hdev : g.dev = 0)
    {P : Nat → Prop} (h : ∀ rb < 2, P rb) : ∀ rb, g.setup.Owns g.dev rb → P rb := by
  intro rb hrb
  rw [Setup.Owns, hlocal, hdev] at hrb
  exact h rb (by omega)

theorem ready_ringOfThree : ringOfThree.Ready where
  many := by decide
  fits := ⟨by decide, by decide +kernel, by decide +kernel⟩
  ranks := rfl
  channelized := rfl
  routes := rfl
  block := by decide
  device _ _ := rfl
  accepted _ _ := Or.inl (by decide)
  unpadded := by decide +kernel
  inside := forall_owns rfl rfl (by decide +kernel)
  small := forall_owns rfl rfl (by decide +kernel)

theorem ready_ringOfFour : ringOfFour.Ready where
  many := by decide
  fits := ⟨by decide, by decide +kernel, by decide +kernel⟩
  ranks := rfl
  channelized := rfl
  routes := rfl
  block := by decide
  device _ _ := rfl
  accepted _ _ := Or.inl (by decide)
  unpadded := by decide +kernel
  inside := forall_owns rfl rfl (by decide +kernel)
  small := forall_owns rfl rfl (by decide +kernel)

end Sample

end ProxyRing

end AgGemm

end MKernel
