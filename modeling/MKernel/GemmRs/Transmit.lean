import Mathlib.Data.List.FinRange
import MKernel.Core.Outbox
import MKernel.Core.System
import MKernel.GemmRs.Capacity

/-!
# What a Node Transmits

The staging buffer of `gemm_rs` between the CTAs that send it and the CTAs that
add to it.

The GPUs of a node add up their tiles of a chunk in the staging buffer of the
owner, and a sending CTA pushes a command for each peer that is to have the sum.
The proxy posts the commands, and the NIC reads the buffer for them later, piece by
piece. With the incremental peer reduce the sums of the peers are added to the
same buffer as they arrive. The CTA that adds one waits for `sender_done`, which
the sending CTA sets before it pushes the first command. So what a peer sent may be
part of what is sent to it (`peer_transmitted`).

What is in a unit of the buffer is recorded as the parts that were added to it, in
order. Transmitted is the sum of the node itself if no chunk is sent before all
GPUs have added their part, and nothing is added to a chunk whose commands are not
all complete (`transmitted_local`). The second condition takes care of itself where
the peers' parts are not added to the buffer, and where the receiver owns chunks,
because then a node adds only to chunks it does not send (`Setup.Apart`).

## Main definitions

* `Setup`: The launch and the node.
* `World`, `step`: A GPU's senders and adders, the proxy and the NIC.
* `World.Local`: What was transmitted is the sum of the node.
* `Setup.Apart`: No chunk is both sent and added to.
* `Timely`: Chunks are sent and added to in time.

## Theorems

* `inv_step`: What holds of the buffer and the commands in such a run.
* `transmitted_local`: What is transmitted is the sum of the node.
* `peer_transmitted`: In the incremental mode it may not be.
-/

namespace MKernel

namespace GemmRs

namespace Transmit

open MKernel.Core

/-- A launch, on one of the nodes. The tiles of the buffer are read and written in
    units, of which a tile has as many as it may be. -/
structure Setup where
  launch : Launch
  nodeIdx : Nat
  unitsPerTile : Nat

namespace Setup

variable (setup : Setup)

/-- `cols_this_chunk`, in units. -/
def units (chunk : Nat) : Nat :=
  let l := setup.launch
  let colStart := chunk % l.chunksPerRow * l.chunkTiles
  min l.chunkTiles (l.colBlocks - colStart) * setup.unitsPerTile

/-- The sending CTA of a chunk. -/
def sendId (chunk : Nat) : Nat := chunk / setup.launch.chunksPerRow % setup.launch.numSend

/-- A chunk is sent to a peer. -/
def Sends (chunk peerSlot : Nat) : Prop :=
  peerSlot < setup.launch.numPeers ∧ setup.launch.Sends setup.nodeIdx chunk peerSlot

instance (c p : Nat) : Decidable (setup.Sends c p) := inferInstanceAs (Decidable (_ ∧ _))

/-- The peers' parts of a chunk are added to the buffer as they arrive:
    `gemm_rs_receiver_owns_chunk`, and the modes. -/
def Adds (chunk : Nat) : Prop :=
  setup.launch.useTransportArrivalQueue = true ∧ setup.launch.useIncrementalPeerReduce = true ∧
    setup.launch.Meant setup.nodeIdx chunk

instance (c : Nat) : Decidable (setup.Adds c) := inferInstanceAs (Decidable (_ ∧ _))

/-- What is added to is not sent: nothing is added, or the receiver owns chunks. -/
def Apart : Prop :=
  setup.launch.useTransportArrivalQueue = false ∨
    setup.launch.useIncrementalPeerReduce = false ∨ setup.launch.useReceiverOwnerRs = true

instance : Decidable setup.Apart := inferInstanceAs (Decidable (_ ∨ _))

end Setup

/-- What is added to the buffer: the part of a GPU of the node, or of a peer. -/
inductive Part (setup : Setup) where
  | device (d : Fin setup.launch.numDevices)
  | peer (slot : Nat)
deriving DecidableEq

/-- The sum of the node. -/
def localSum (setup : Setup) : List (Part setup) :=
  (List.finRange setup.launch.numDevices).map Part.device

/-- Where a sending CTA stands. -/
inductive SendPc where
  /-- It looks for a chunk that is ready. -/
  | scanning
  /-- Before the store to `sender_done`. -/
  | flagging (chunk : Nat)
  /-- Before the push for a peer. -/
  | pushing (chunk peerSlot : Nat)
deriving DecidableEq

/-- Where a CTA that adds the peers' parts stands. -/
inductive AccumPc where
  | idle
  /-- It waits for `sender_done`. -/
  | waiting (chunk peerSlot : Nat)
  /-- It waits for the lock of the chunk. -/
  | locking (chunk peerSlot : Nat)
  /-- It has the lock, and has added some units. -/
  | adding (chunk peerSlot : Nat) (done : List Nat)
deriving DecidableEq

/-- The chunk a CTA has work for. -/
def AccumPc.chunk : AccumPc → Option Nat
  | .idle => none
  | .waiting chunk _ => some chunk
  | .locking chunk _ => some chunk
  | .adding chunk _ _ => some chunk

/-- A command, by its chunk and its peer. Its source are the units of the chunk. -/
abbrev Cmd := Nat × Nat

/-- A unit of the buffer, by its chunk. -/
abbrev Cell := Nat × Nat

def source (setup : Setup) (cmd : Cmd) (x : Cell) : Prop := x.1 = cmd.1 ∧ x.2 < setup.units cmd.1

instance (setup : Setup) (cmd : Cmd) (x : Cell) : Decidable (source setup cmd x) :=
  inferInstanceAs (Decidable (_ ∧ _))

/-- One GPU. The chunks that were announced and those a sending CTA has taken are
    kept besides. -/
structure World (setup : Setup) where
  staging : Cell → List (Part setup)
  announced : List Nat
  ready : Nat → Bool
  taken : List Nat
  senderDone : Nat → Bool
  sender : Nat → SendPc
  out : Outbox Cmd Cell (List (Part setup))
  /-- The commands the proxy has posted. -/
  posted : List Cmd
  arrived : List Cmd
  /-- `peer_accum_queue`. -/
  queue : List Cmd
  lock : Nat → Bool
  accum : Nat → AccumPc

/-- The GPU at launch, its buffer zeroed. -/
def init (setup : Setup) : World setup where
  staging := fun _ => []
  announced := []
  ready := fun _ => false
  taken := []
  senderDone := fun _ => false
  sender := fun _ => .scanning
  out := Outbox.empty
  posted := []
  arrived := []
  queue := []
  lock := fun _ => false
  accum := fun _ => .idle

/-- What can happen next. -/
inductive Action (setup : Setup) where
  /-- A GPU's part is added to a unit. -/
  | land (d : Fin setup.launch.numDevices) (x : Cell)
  /-- The ready bit of a chunk is set. -/
  | announce (chunk : Nat)
  /-- A sending CTA takes a chunk that is ready. -/
  | claim (chunk : Nat)
  | flag (sendId : Nat)
  | push (sendId : Nat)
  /-- The proxy posts a command. -/
  | post (cmd : Cmd)
  /-- The NIC reads a unit for a command. -/
  | nicRead (i : Nat) (x : Cell)
  /-- A command is complete. -/
  | complete (i : Nat)
  /-- A drainer records a peer's part of a chunk. -/
  | arrive (chunk peerSlot : Nat)
  /-- A CTA takes the work at the head of the queue. -/
  | takeWork (cta : Nat)
  | awaitSender (cta : Nat)
  | acquire (cta : Nat)
  /-- It adds a unit. -/
  | add (cta unit : Nat)
  | release (cta : Nat)

variable {setup : Setup}

/-- One step. -/
def step (w : World setup) : Action setup → Option (World setup)
  | .land d x =>
      if Part.device d ∈ w.staging x then none
      else some { w with staging := Function.update w.staging x (w.staging x ++ [Part.device d]) }
  | .announce chunk =>
      if chunk ∈ w.announced then none
      else some { w with
        announced := w.announced ++ [chunk]
        ready := Function.update w.ready chunk true }
  | .claim chunk =>
      if setup.sendId chunk < setup.launch.numSend ∧ w.sender (setup.sendId chunk) = .scanning ∧
          w.ready chunk = true then
        some { w with
          ready := Function.update w.ready chunk false
          taken := w.taken ++ [chunk]
          sender := Function.update w.sender (setup.sendId chunk) (.flagging chunk) }
      else none
  | .flag sendId =>
      match w.sender sendId with
      | .flagging chunk =>
          some { w with
            senderDone := Function.update w.senderDone chunk true
            sender := Function.update w.sender sendId (.pushing chunk 0) }
      | _ => none
  | .push sendId =>
      match w.sender sendId with
      | .pushing chunk peerSlot =>
          if peerSlot < setup.launch.numPeers then
            let w' :=
              { w with sender := Function.update w.sender sendId (.pushing chunk (peerSlot + 1)) }
            if setup.launch.Sends setup.nodeIdx chunk peerSlot then
              some { w' with out := w.out.push (chunk, peerSlot) w.staging }
            else some w'
          else some { w with sender := Function.update w.sender sendId .scanning }
      | _ => none
  | .post cmd =>
      if cmd ∈ w.out.flight.map Posting.cmd then some { w with posted := w.posted ++ [cmd] }
      else none
  | .nicRead i x =>
      if ∀ p ∈ w.out.flight[i]?, p.cmd ∈ w.posted then
        (w.out.read (source setup) w.staging i x).map fun out => { w with out := out }
      else none
  | .complete i =>
      if ∀ p ∈ w.out.flight[i]?, p.cmd ∈ w.posted then
        (w.out.complete i).map fun out => { w with out := out }
      else none
  | .arrive chunk peerSlot =>
      if setup.Adds chunk ∧ peerSlot < setup.launch.numPeers ∧
          chunk < setup.launch.totalChunks ∧ (chunk, peerSlot) ∉ w.arrived then
        some { w with
          arrived := w.arrived ++ [(chunk, peerSlot)]
          queue := w.queue ++ [(chunk, peerSlot)] }
      else none
  | .takeWork cta =>
      match w.accum cta, w.queue with
      | .idle, x :: rest =>
          some { w with
            queue := rest
            accum := Function.update w.accum cta (.waiting x.1 x.2) }
      | _, _ => none
  | .awaitSender cta =>
      match w.accum cta with
      | .waiting chunk peerSlot =>
          if w.senderDone chunk = true then
            some { w with accum := Function.update w.accum cta (.locking chunk peerSlot) }
          else none
      | _ => none
  | .acquire cta =>
      match w.accum cta with
      | .locking chunk peerSlot =>
          if w.lock chunk = false then
            some { w with
              lock := Function.update w.lock chunk true
              accum := Function.update w.accum cta (.adding chunk peerSlot []) }
          else none
      | _ => none
  | .add cta unit =>
      match w.accum cta with
      | .adding chunk peerSlot done =>
          if unit < setup.units chunk ∧ unit ∉ done then
            some { w with
              staging := Function.update w.staging (chunk, unit)
                (w.staging (chunk, unit) ++ [Part.peer peerSlot])
              accum := Function.update w.accum cta (.adding chunk peerSlot (done ++ [unit])) }
          else none
      | _ => none
  | .release cta =>
      match w.accum cta with
      | .adding chunk _ done =>
          if ∀ v < setup.units chunk, v ∈ done then
            some { w with
              lock := Function.update w.lock chunk false
              accum := Function.update w.accum cta .idle }
          else none
      | _ => none

/-- What the NIC has read for the peers is the sum of the node. -/
def World.Local (w : World setup) : Prop :=
  ∀ r ∈ w.out.reads, r.value.Perm (localSum setup)

/-- All GPUs have added their part of a chunk. -/
def World.Accumulated (w : World setup) (chunk : Nat) : Prop :=
  ∀ v < setup.units chunk, ∀ d, Part.device d ∈ w.staging (chunk, v)

instance (w : World setup) (c : Nat) : Decidable (w.Accumulated c) :=
  inferInstanceAs (Decidable (∀ _ < _, _))

/-- All commands of a chunk are complete. -/
def World.Sent (w : World setup) (chunk : Nat) : Prop :=
  ∀ q < setup.launch.numPeers, setup.launch.Sends setup.nodeIdx chunk q →
    (chunk, q) ∈ w.out.completed

instance (w : World setup) (c : Nat) : Decidable (w.Sent c) :=
  inferInstanceAs (Decidable (∀ _ < _, _ → _))

/-- A chunk is taken to be sent when all GPUs have added their part, and the peers'
    parts are added when it is sent, or else it is not sent at all. -/
def Timely (w : World setup) : Action setup → Prop
  | .claim chunk => w.Accumulated chunk
  | .add cta _ => setup.Apart ∨ ∀ chunk ∈ (w.accum cta).chunk, w.Sent chunk
  | _ => True

/-- Only the first of the two. -/
def Summed (w : World setup) : Action setup → Prop
  | .claim chunk => w.Accumulated chunk
  | _ => True

instance (w : World setup) : Decidable w.Local := inferInstanceAs (Decidable (∀ _ ∈ _, _))

instance (w : World setup) : ∀ a, Decidable (Timely w a) := fun a => by
  cases a with
  | claim chunk => exact inferInstanceAs (Decidable (w.Accumulated chunk))
  | add cta unit =>
      exact inferInstanceAs (Decidable (setup.Apart ∨ ∀ chunk ∈ (w.accum cta).chunk, w.Sent chunk))
  | _ => exact .isTrue trivial

instance (w : World setup) : ∀ a, Decidable (Summed w a) := fun a => by
  cases a with
  | claim chunk => exact inferInstanceAs (Decidable (w.Accumulated chunk))
  | _ => exact .isTrue trivial

/-! ## The invariant -/

/-- The chunk a sending CTA is at, and the first peer it has still to push a command
    for. -/
def SendPc.next : SendPc → Option (Nat × Nat)
  | .scanning => none
  | .flagging chunk => some (chunk, 0)
  | .pushing chunk peerSlot => some (chunk, peerSlot)

/-- What holds of the buffer and the commands in a run in which chunks are sent and
    added to in time. -/
structure Inv (w : World setup) : Prop where
  device_once : ∀ x d, (w.staging x).count (.device d) ≤ 1
  ready : ∀ c, w.ready c = true → c ∈ w.announced ∧ c ∉ w.taken
  taken : ∀ c ∈ w.taken, c ∈ w.announced ∧ w.Accumulated c
  sender : ∀ s c p, (w.sender s).next = some (c, p) →
    c ∈ w.taken ∧ setup.sendId c = s ∧ ∀ q, p ≤ q → (c, q) ∉ w.out.cmds
  once : w.out.Once
  cmds : ∀ x ∈ w.out.cmds, x.1 ∈ w.taken ∧ setup.Sends x.1 x.2
  /-- Where a peer's part is in the buffer, the chunk is sent. -/
  clean : ∀ x p, Part.peer p ∈ w.staging x → w.Sent x.1
  queue : ∀ x ∈ w.queue, setup.Adds x.1
  accum : ∀ a c, (w.accum a).chunk = some c → setup.Adds c
  undisturbed : w.out.Undisturbed (source setup) w.staging
  faithful : w.out.Faithful
  flight_local : ∀ p ∈ w.out.flight, ∀ x, source setup p.cmd x → (p.pushed x).Perm (localSum setup)
  reads_local : ∀ r ∈ w.out.reads, (r.posting.pushed r.cell).Perm (localSum setup)

theorem inv_init : Inv (init setup) where
  device_once _ _ := Nat.zero_le _
  ready _ h := absurd h Bool.false_ne_true
  taken _ h := absurd h List.not_mem_nil
  sender _ _ _ h := absurd h (by simp only [init, SendPc.next, reduceCtorEq, not_false_eq_true])
  once := List.nodup_nil
  cmds _ h := absurd h List.not_mem_nil
  clean _ _ h := absurd h List.not_mem_nil
  queue _ h := absurd h List.not_mem_nil
  accum _ _ h := absurd h (by simp only [init, AccumPc.chunk, reduceCtorEq, not_false_eq_true])
  undisturbed := Outbox.undisturbed_empty
  faithful := Outbox.faithful_empty
  flight_local _ h := absurd h List.not_mem_nil
  reads_local _ h := absurd h List.not_mem_nil

theorem Inv.transmitted {w : World setup} (h : Inv w) : w.Local := by
  intro r hr
  rw [h.faithful r hr]
  exact h.reads_local r hr

/-- The sum of the node, in any order: each GPU's part once, and nothing else. -/
theorem perm_localSum {l : List (Part setup)} (hpeer : ∀ p, Part.peer p ∉ l)
    (hdev : ∀ d, Part.device d ∈ l) (honce : ∀ d, l.count (.device d) ≤ 1) :
    l.Perm (localSum setup) := by
  rw [List.perm_iff_count]
  intro a
  have hnodup : (localSum setup).Nodup :=
    (List.nodup_finRange _).map fun _ _ h => Part.device.inj h
  cases a with
  | device d =>
      have hin : Part.device d ∈ localSum setup := List.mem_map_of_mem (List.mem_finRange d)
      rw [List.count_eq_one_of_mem hnodup hin]
      have hpos := List.count_pos_iff.mpr (hdev d)
      have hle := honce d
      omega
  | peer p =>
      rw [List.count_eq_zero.mpr (hpeer p), List.count_eq_zero.mpr]
      simp only [localSum, List.mem_map, reduceCtorEq, and_false, exists_false, not_false_eq_true]

section Steps

variable {w : World setup}

/-! ## The buffer -/

/-- A unit with a part added to it. -/
def addTo (mem : Cell → List (Part setup)) (x : Cell) (a : Part setup) : Cell → List (Part setup) :=
  Function.update mem x (mem x ++ [a])

theorem mem_addTo {mem : Cell → List (Part setup)} {x y : Cell} {a b : Part setup} :
    b ∈ addTo mem x a y ↔ b ∈ mem y ∨ y = x ∧ b = a := by
  rw [addTo]
  by_cases hy : y = x
  · rw [hy, Function.update_self, List.mem_append, List.mem_singleton]
    simp only [true_and]
  · rw [Function.update_of_ne hy]
    simp only [hy, false_and, or_false]

/-- A part is added to a unit that no command in flight is sent from. -/
theorem Inv.addTo (h : Inv w) {x : Cell} {a : Part setup}
    (hdev : ∀ d, a = .device d → Part.device d ∉ w.staging x)
    (hpeer : ∀ p, a = .peer p → w.Sent x.1)
    (hfree : ∀ p ∈ w.out.flight, ¬ source setup p.cmd x) :
    Inv { w with staging := Transmit.addTo w.staging x a } :=
  { h with
    device_once := fun y d => by
      simp only [Transmit.addTo]
      by_cases hy : y = x
      · rw [hy, Function.update_self, List.count_append, List.count_singleton]
        have honce := h.device_once x d
        -- The GPU had not added to the unit, and so it has added once now.
        by_cases ha : a = .device d
        · have hzero := List.count_eq_zero.mpr (hdev d ha)
          split <;> omega
        · rw [if_neg (by simpa only [beq_iff_eq] using ha)]
          exact honce
      · rw [Function.update_of_ne hy]
        exact h.device_once y d
    taken := fun c hc => by
      refine ⟨(h.taken c hc).1, fun v hv d => mem_addTo.mpr (Or.inl ?_)⟩
      exact (h.taken c hc).2 v hv d
    -- What is in staging besides the GPUs' parts comes after the command was sent.
    clean := fun y p hp => by
      rcases mem_addTo.mp hp with hold | ⟨rfl, hnew⟩
      · exact h.clean y p hold
      · exact hpeer p hnew.symm
    -- No command is sent from the unit.
    undisturbed := h.undisturbed.write fun p hp y hy => by
      have hne : y ≠ x := fun heq => hfree p hp (heq ▸ hy)
      exact Function.update_of_ne hne _ _ }

/-- A GPU adds its part, which then is in no chunk that was taken. -/
theorem Inv.land (h : Inv w) {d : Fin setup.launch.numDevices} {x : Cell}
    (hnew : Part.device d ∉ w.staging x) :
    Inv { w with staging := Transmit.addTo w.staging x (.device d) } := by
  refine h.addTo (fun e he => ?_) (fun p hp => ?_) fun p hp hx => ?_
  · cases he
    exact hnew
  · exact absurd hp (by simp only [reduceCtorEq, not_false_eq_true])
  · -- The chunk of a command is complete in the buffer.
    have hcmd : p.cmd ∈ w.out.cmds := List.mem_append_left _ (List.mem_map_of_mem hp)
    have hall := (h.taken _ (h.cmds _ hcmd).1).2 x.2 hx.2 d
    rw [← hx.1] at hall
    exact hnew hall

/-- Work on a chunk that is apart, or sent. -/
theorem sent_of_apart {c : Nat} (hadds : setup.Adds c) (hok : setup.Apart ∨ w.Sent c) :
    w.Sent c := by
  rcases hok with (hno | hno | howner) | hsent
  · rw [Setup.Adds, hno] at hadds
    exact absurd hadds.1 Bool.false_ne_true
  · rw [Setup.Adds, hno] at hadds
    exact absurd hadds.2.1 Bool.false_ne_true
  · -- The node owns the chunk, and does not send it.
    intro q _ hq
    exact absurd (Or.inl (hadds.2.2 howner)) (hq howner)
  · exact hsent

/-- A peer's part is added to a chunk that is sent. -/
theorem Inv.add (h : Inv w) {x : Cell} {p : Nat} (hsent : w.Sent x.1) :
    Inv { w with staging := Transmit.addTo w.staging x (.peer p) } := by
  refine h.addTo (fun d hd => ?_) (fun _ _ => hsent) fun r hr hx => ?_
  · exact absurd hd (by simp only [reduceCtorEq, not_false_eq_true])
  · have hcmd : r.cmd ∈ w.out.cmds := List.mem_append_left _ (List.mem_map_of_mem hr)
    have hsends := (h.cmds _ hcmd).2
    have hdone := hsent r.cmd.2 hsends.1 (by rw [hx.1]; exact hsends.2)
    rw [hx.1] at hdone
    exact h.once.notMem_completed hr hdone

/-! ## Sending -/

/-- A chunk gets ready. -/
theorem Inv.announce (h : Inv w) {c : Nat} (hnew : c ∉ w.announced) :
    Inv { w with
      announced := w.announced ++ [c]
      ready := Function.update w.ready c true } :=
  { h with
    ready := fun x hx => by
      simp only at hx ⊢
      by_cases hxc : x = c
      · rw [hxc]
        exact ⟨List.mem_append_right _ (List.mem_singleton_self _),
          fun hin => hnew (h.taken c hin).1⟩
      · rw [Function.update_of_ne hxc] at hx
        exact ⟨List.mem_append_left _ (h.ready x hx).1, (h.ready x hx).2⟩
    taken := fun x hx => ⟨List.mem_append_left _ (h.taken x hx).1, (h.taken x hx).2⟩ }

/-- A chunk that all GPUs have added to is taken. -/
theorem Inv.claim (h : Inv w) {c : Nat} (hready : w.ready c = true) (hall : w.Accumulated c) :
    Inv { w with
      ready := Function.update w.ready c false
      taken := w.taken ++ [c]
      sender := Function.update w.sender (setup.sendId c) (.flagging c) } := by
  have hfresh := h.ready c hready
  have hmem : ∀ {x}, x ∈ w.taken → x ∈ w.taken ++ [c] := fun hx => List.mem_append_left _ hx
  exact { h with
    ready := fun x hx => by
      simp only at hx ⊢
      -- The bit of the chunk is clear now, and the others were set before.
      by_cases hxc : x = c
      · rw [hxc, Function.update_self] at hx
        exact absurd hx Bool.false_ne_true
      · rw [Function.update_of_ne hxc] at hx
        refine ⟨(h.ready x hx).1, ?_⟩
        rw [List.mem_append, List.mem_singleton, not_or]
        exact ⟨(h.ready x hx).2, hxc⟩
    taken := fun x hx => by
      simp only [List.mem_append, List.mem_singleton] at hx
      rcases hx with hx | rfl
      · exact h.taken x hx
      · exact ⟨hfresh.1, hall⟩
    sender := fun s x p hs => by
      simp only at hs ⊢
      by_cases hsc : s = setup.sendId c
      · rw [hsc, Function.update_self] at hs
        cases hs
        -- The chunk was not taken before, so no command of it has been pushed.
        refine ⟨List.mem_append_right _ (List.mem_singleton_self _), hsc.symm, fun q _ hq => ?_⟩
        exact hfresh.2 (h.cmds _ hq).1
      · rw [Function.update_of_ne hsc] at hs
        rcases h.sender s x p hs with ⟨hin, hid, hnew⟩
        exact ⟨hmem hin, hid, hnew⟩
    cmds := fun x hx => ⟨hmem (h.cmds x hx).1, (h.cmds x hx).2⟩ }

/-- A sending CTA goes on, to a later peer of its chunk or to no chunk. -/
theorem Inv.goto (h : Inv w) {s c p : Nat} {pc : SendPc} (hs : (w.sender s).next = some (c, p))
    (hpc : ∀ x, pc.next = some x → x.1 = c ∧ p ≤ x.2) :
    Inv { w with sender := Function.update w.sender s pc } :=
  { h with
    sender := fun t x q ht => by
      simp only at ht ⊢
      by_cases hts : t = s
      · rw [hts, Function.update_self] at ht
        rcases hpc _ ht with ⟨hx, hle⟩
        rcases h.sender s c p hs with ⟨hin, hid, hnew⟩
        have hxc : x = c := hx
        rw [hxc, hts]
        exact ⟨hin, hid, fun r hr => hnew r (Nat.le_trans hle hr)⟩
      · rw [Function.update_of_ne hts] at ht
        exact h.sender t x q ht }

theorem Inv.senderDone (h : Inv w) (f : Nat → Bool) : Inv { w with senderDone := f } :=
  { h with }

/-- It pushes a command, and goes on to the next peer. -/
theorem Inv.push (h : Inv w) {s c p : Nat} (hs : w.sender s = .pushing c p)
    (hsends : setup.Sends c p) :
    Inv { w with
      sender := Function.update w.sender s (.pushing c (p + 1))
      out := w.out.push (c, p) w.staging } := by
  have hat : (w.sender s).next = some (c, p) := by
    rw [hs]
    rfl
  rcases h.sender s c p hat with ⟨htaken, hid, hfresh⟩
  have hnew : (c, p) ∉ w.out.cmds := hfresh p (le_refl p)
  have hmem : ∀ x, x ∈ (w.out.push (c, p) w.staging).cmds ↔ x = (c, p) ∨ x ∈ w.out.cmds := fun x =>
    (Outbox.cmds_push (c, p)).mem_iff.trans List.mem_cons
  -- Nothing of a peer is in the chunk, because this command is not complete.
  have hlocal : ∀ x, source setup (c, p) x → (w.staging x).Perm (localSum setup) := by
    intro x hx
    refine perm_localSum (fun q hq => ?_) (fun d => ?_) (h.device_once x)
    · have hdone := h.clean x q hq p hsends.1 (by rw [hx.1]; exact hsends.2)
      rw [hx.1] at hdone
      exact hnew (List.mem_append_right _ hdone)
    · have hcell : x = (c, x.2) := Prod.ext hx.1 rfl
      rw [hcell]
      exact (h.taken c htaken).2 x.2 hx.2 d
  exact { h with
    sender := fun t x q ht => by
      simp only at ht ⊢
      by_cases hts : t = s
      · rw [hts, Function.update_self] at ht
        cases ht
        refine ⟨htaken, hts ▸ hid, fun r hr hin => ?_⟩
        rcases (hmem _).mp hin with heq | hold
        · have hrp : r = p := (Prod.mk.inj heq).2
          omega
        · exact hfresh r (by omega) hold
      · rw [Function.update_of_ne hts] at ht
        rcases h.sender t x q ht with ⟨hin, hidt, hnot⟩
        refine ⟨hin, hidt, fun r hr hmemr => ?_⟩
        rcases (hmem _).mp hmemr with heq | hold
        · -- The chunk has one sending CTA.
          exact hts (by rw [← hidt, (Prod.mk.inj heq).1, hid])
        · exact hnot r hr hold
    once := (Outbox.cmds_push (c, p)).nodup_iff.mpr (List.nodup_cons.mpr ⟨hnew, h.once⟩)
    cmds := fun x hx => by
      rcases (hmem x).mp hx with rfl | hold
      · exact ⟨htaken, hsends⟩
      · exact h.cmds x hold
    undisturbed := h.undisturbed.push (c, p)
    faithful := h.faithful
    flight_local := fun r hr => by
      rcases Outbox.mem_push.mp hr with hold | rfl
      · exact h.flight_local r hold
      · exact hlocal }

/-- The NIC reads. -/
theorem Inv.nicRead (h : Inv w) {i : Nat} {x : Cell} {out : Outbox Cmd Cell (List (Part setup))}
    (hr : w.out.read (source setup) w.staging i x = some out) : Inv { w with out := out } := by
  rcases Outbox.read_spec hr with ⟨p, hp, hx, hflight, hreads, hcompleted⟩
  have hcmds := Outbox.cmds_read hr
  -- The NIC only reads, so all that speaks of commands and flights stands.
  exact { h with
    sender := fun s c q hs => by
      simp only [hcmds]
      exact h.sender s c q hs
    once := by
      simp only [Outbox.Once, hcmds]
      exact h.once
    cmds := fun y hy => h.cmds y (by simpa only [hcmds] using hy)
    clean := fun y q hq r hr hs => by
      simp only [hcompleted]
      exact h.clean y q hq r hr hs
    undisturbed := fun r hr => h.undisturbed r (by simpa only [hflight] using hr)
    faithful := h.faithful.read h.undisturbed hr
    flight_local := fun r hr => h.flight_local r (by simpa only [hflight] using hr)
    reads_local := fun r hr => by
      simp only [hreads, List.mem_append, List.mem_singleton] at hr
      -- It reads for a request in flight.
      rcases hr with hold | rfl
      · exact h.reads_local r hold
      · exact h.flight_local p hp x hx }

/-- A command completes. -/
theorem Inv.complete (h : Inv w) {i : Nat} {out : Outbox Cmd Cell (List (Part setup))}
    (hc : w.out.complete i = some out) : Inv { w with out := out } := by
  rcases Outbox.complete_spec hc with ⟨p, hp, hflight, hreads, hcompleted⟩
  have hperm := Outbox.cmds_complete hc
  exact { h with
    sender := fun s c q hs => by
      rcases h.sender s c q hs with ⟨hin, hid, hnew⟩
      exact ⟨hin, hid, fun r hr hmem => hnew r hr (hperm.mem_iff.mp hmem)⟩
    once := hperm.nodup_iff.mpr h.once
    cmds := fun y hy => h.cmds y (hperm.mem_iff.mp hy)
    clean := fun y q hq r hr hs => by
      simp only [hcompleted]
      exact List.mem_append_left _ (h.clean y q hq r hr hs)
    undisturbed := h.undisturbed.complete hc
    faithful := fun r hr => h.faithful r (by simpa only [hreads] using hr)
    flight_local := fun r hr => h.flight_local r (by
      simp only [hflight] at hr
      exact List.mem_of_mem_eraseIdx hr)
    reads_local := fun r hr => h.reads_local r (by simpa only [hreads] using hr) }

/-! ## The peers' parts -/

/-- A peer's part arrives. -/
theorem Inv.arrive (h : Inv w) {x : Cmd} (hadds : setup.Adds x.1) :
    Inv { w with
      arrived := w.arrived ++ [x]
      queue := w.queue ++ [x] } :=
  { h with
    queue := fun y hy => by
      simp only [List.mem_append, List.mem_singleton] at hy
      rcases hy with hy | rfl
      · exact h.queue y hy
      · exact hadds }

/-- A CTA goes on with its work, or is done with it. -/
theorem Inv.work (h : Inv w) {a : Nat} {pc : AccumPc} (hpc : ∀ c, pc.chunk = some c → setup.Adds c)
    {queue : List Cmd} (hqueue : ∀ x ∈ queue, x ∈ w.queue) {lock : Nat → Bool} :
    Inv { w with queue := queue, lock := lock, accum := Function.update w.accum a pc } :=
  { h with
    queue := fun x hx => h.queue x (hqueue x hx)
    accum := fun b c hb => by
      simp only at hb
      by_cases hba : b = a
      · rw [hba, Function.update_self] at hb
        exact hpc c hb
      · rw [Function.update_of_ne hba] at hb
        exact h.accum b c hb }

end Steps

/-! ## The steps of the CTAs -/

section Ctas

variable {w w' : World setup} {sendId cta : Nat}

theorem Inv.step_flag (h : Inv w) (hstep : step w (.flag sendId) = some w') : Inv w' := by
  simp only [step] at hstep
  split at hstep
  · rename_i chunk hpc
    cases hstep
    -- It goes on to the first peer of the chunk it has.
    refine Inv.senderDone (h.goto (c := chunk) (p := 0) ?_ fun x hx => ?_) _
    · rw [hpc]
      rfl
    · cases hx
      exact ⟨rfl, le_refl _⟩
  · exact absurd hstep (by simp only [reduceCtorEq, not_false_eq_true])

theorem Inv.step_push (h : Inv w) (hstep : step w (.push sendId) = some w') : Inv w' := by
  simp only [step] at hstep
  split at hstep
  · rename_i chunk peerSlot hpc
    have hnext : (w.sender sendId).next = some (chunk, peerSlot) := by
      rw [hpc]
      rfl
    split at hstep
    · rename_i hlt
      split at hstep
      · rename_i hsends
        cases hstep
        exact h.push hpc ⟨hlt, hsends⟩
      · -- The peer does not get this chunk, and is skipped.
        cases hstep
        refine h.goto hnext fun x hx => ?_
        cases hx
        exact ⟨rfl, Nat.le_succ _⟩
    · cases hstep
      exact h.goto hnext fun x hx =>
        absurd hx (by simp only [SendPc.next, reduceCtorEq, not_false_eq_true])
  · exact absurd hstep (by simp only [reduceCtorEq, not_false_eq_true])

theorem Inv.step_takeWork (h : Inv w) (hstep : step w (.takeWork cta) = some w') : Inv w' := by
  simp only [step] at hstep
  split at hstep
  · rename_i x rest hpc hqueue
    cases hstep
    refine h.work (fun c hc => ?_) (fun y hy => ?_)
    · cases hc
      exact h.queue x (by rw [hqueue]; exact List.mem_cons_self)
    · rw [hqueue]
      exact List.mem_cons_of_mem _ hy
  · exact absurd hstep (by simp only [reduceCtorEq, not_false_eq_true])

theorem Inv.step_awaitSender (h : Inv w) (hstep : step w (.awaitSender cta) = some w') :
    Inv w' := by
  simp only [step] at hstep
  split at hstep
  · rename_i chunk peerSlot hpc
    split at hstep
    · cases hstep
      exact h.work (fun c hc => h.accum cta c (by rw [hpc]; exact hc)) fun _ hx => hx
    · exact absurd hstep (by simp only [reduceCtorEq, not_false_eq_true])
  · exact absurd hstep (by simp only [reduceCtorEq, not_false_eq_true])

theorem Inv.step_acquire (h : Inv w) (hstep : step w (.acquire cta) = some w') : Inv w' := by
  simp only [step] at hstep
  split at hstep
  · rename_i chunk peerSlot hpc
    split at hstep
    · cases hstep
      exact h.work (fun c hc => h.accum cta c (by rw [hpc]; exact hc)) fun _ hx => hx
    · exact absurd hstep (by simp only [reduceCtorEq, not_false_eq_true])
  · exact absurd hstep (by simp only [reduceCtorEq, not_false_eq_true])

theorem Inv.step_add (h : Inv w) {unit : Nat} (hok : Timely w (.add cta unit))
    (hstep : step w (.add cta unit) = some w') : Inv w' := by
  simp only [step] at hstep
  split at hstep
  · rename_i chunk peerSlot done hpc
    have hadds : setup.Adds chunk := h.accum cta chunk (by rw [hpc]; rfl)
    -- In time means that the chunk is sent, unless it is not sent at all.
    have hsent : setup.Apart ∨ w.Sent chunk :=
      hok.imp_right fun hall => hall chunk (by rw [hpc]; rfl)
    split at hstep
    · cases hstep
      have hafter := h.add (x := (chunk, unit)) (p := peerSlot) (sent_of_apart hadds hsent)
      exact hafter.work (fun c hc => h.accum cta c (by rw [hpc]; exact hc)) fun _ hx => hx
    · exact absurd hstep (by simp only [reduceCtorEq, not_false_eq_true])
  · exact absurd hstep (by simp only [reduceCtorEq, not_false_eq_true])

theorem Inv.step_release (h : Inv w) (hstep : step w (.release cta) = some w') : Inv w' := by
  simp only [step] at hstep
  split at hstep
  · split at hstep
    · cases hstep
      exact h.work (fun c hc => absurd hc (by simp only [AccumPc.chunk, reduceCtorEq,
        not_false_eq_true])) fun _ hx => hx
    · exact absurd hstep (by simp only [reduceCtorEq, not_false_eq_true])
  · exact absurd hstep (by simp only [reduceCtorEq, not_false_eq_true])

end Ctas

/-- Every step keeps the invariant as long as chunks are sent and added to in
    time. -/
theorem inv_step {w w' : World setup} (h : Inv w) {a : Action setup} (hok : Timely w a)
    (hstep : step w a = some w') : Inv w' := by
  cases a with
  | land d x =>
      simp only [step] at hstep
      split at hstep
      · exact absurd hstep (by simp only [reduceCtorEq, not_false_eq_true])
      · rename_i hnew
        cases hstep
        exact h.land hnew
  | announce chunk =>
      simp only [step] at hstep
      split at hstep
      · exact absurd hstep (by simp only [reduceCtorEq, not_false_eq_true])
      · rename_i hnew
        cases hstep
        exact h.announce hnew
  | claim chunk =>
      simp only [step] at hstep
      split at hstep
      · rename_i hready
        cases hstep
        exact h.claim hready.2.2 hok
      · exact absurd hstep (by simp only [reduceCtorEq, not_false_eq_true])
  | flag sendId => exact h.step_flag hstep
  | push sendId => exact h.step_push hstep
  -- The proxy's post changes only the queue.
  | post cmd =>
      simp only [step] at hstep
      split at hstep
      · cases hstep
        exact { h with }
      · exact absurd hstep (by simp only [reduceCtorEq, not_false_eq_true])
  | nicRead i x =>
      simp only [step] at hstep
      split at hstep
      · rcases Option.map_eq_some_iff.mp hstep with ⟨out, hout, rfl⟩
        exact h.nicRead hout
      · exact absurd hstep (by simp only [reduceCtorEq, not_false_eq_true])
  | complete i =>
      simp only [step] at hstep
      split at hstep
      · rcases Option.map_eq_some_iff.mp hstep with ⟨out, hout, rfl⟩
        exact h.complete hout
      · exact absurd hstep (by simp only [reduceCtorEq, not_false_eq_true])
  -- A peer's part arrives: its work is announced.
  | arrive chunk peerSlot =>
      simp only [step] at hstep
      split at hstep
      · rename_i hadds
        cases hstep
        exact h.arrive hadds.1
      · exact absurd hstep (by simp only [reduceCtorEq, not_false_eq_true])
  | takeWork cta => exact h.step_takeWork hstep
  | awaitSender cta => exact h.step_awaitSender hstep
  | acquire cta => exact h.step_acquire hstep
  | add cta unit => exact h.step_add hok hstep
  | release cta => exact h.step_release hstep

/-- Where chunks are sent and added to in time, what the NIC reads for the peers is
    the sum of the node, in every state of every run. -/
theorem transmitted_local {w : World setup} (h : Reaches step Timely (init setup) w) : w.Local :=
  (invariant_of_reaches Inv (fun _ _ _ hi hok hstep => inv_step hi hok hstep) h
    inv_init).transmitted

section Sample

/-- Two nodes of two GPUs, with one chunk, and the incremental peer reduce asked
    for. -/
def incremental : Setup where
  launch :=
    { mLocal := 128
      n := 256
      numDevices := 2
      devIdx := 0
      numNodes := 2
      numSendSms := 1
      env := fun name => if name = "GEMM_RS_INCREMENTAL_PEER_REDUCE" then some "1" else none
      numNodes_le := by decide
      numSendSms_lt := by decide }
  nodeIdx := 0
  unitsPerTile := 1

/-- Both GPUs add their part, and the chunk is pushed for the peer. -/
def pushed : List (Action incremental) :=
  [.land ⟨0, by decide⟩ (0, 0), .land ⟨1, by decide⟩ (0, 0), .announce 0, .claim 0, .flag 0,
    .push 0]

/-- The peer's part arrives and is added. -/
def added : List (Action incremental) :=
  [.arrive 0 0, .takeWork 0, .awaitSender 0, .acquire 0, .add 0 0]

/-- The proxy posts the command, and the NIC reads. -/
def read : List (Action incremental) := [.post (0, 0), .nicRead 0 (0, 0)]

/-- The NIC reads after the peer's part is added. The chunk was sent in time. -/
def late : World incremental := (run step Summed (pushed ++ added ++ read) (init incremental)).get
  (by decide)

/-- The peer is sent its own part back. -/
theorem peer_transmitted : Reaches step Summed (init incremental) late ∧
    late.out.reads.map Piece.value =
      [[.device ⟨0, by decide⟩, .device ⟨1, by decide⟩, .peer 0]] ∧ ¬ late.Local :=
  ⟨reaches_of_run (pushed ++ added ++ read) _ _ (Option.some_get _).symm, by decide, by decide⟩

/-- The NIC reads, and the command is complete, before the part is added. -/
def inTime : World incremental :=
  (run step Timely (pushed ++ read ++ [Action.complete 0] ++ added) (init incremental)).get
    (by decide)

theorem transmitted_local_inTime : inTime.out.reads.map Piece.value =
    [[.device ⟨0, by decide⟩, .device ⟨1, by decide⟩]] ∧ inTime.Local := by
  refine ⟨by decide, ?_⟩
  exact transmitted_local
    (reaches_of_run (pushed ++ read ++ [Action.complete 0] ++ added) _ _ (Option.some_get _).symm)

end Sample

end Transmit

end GemmRs

end MKernel
