import MKernel.Core.WorkQueue
import MKernel.Internode.Cx7.Requests
import MKernel.Internode.Handshake

/-!
# The CX7 Proxy

The thread that moves commands from its FIFO to the RC queue pairs of the NIC,
one shared access or one call into the verbs library at a time.

One iteration of `run` looks at the pause flag, scans part of the forward table,
collects a batch, posts the strided commands of the batch one by one, posts what
is left as one chain, polls the CQ once and advances the tail of the FIFO.

Where commands are routed, a batch has one QP: a WRITE of another QP waits in
the stash and starts the next batch. A notify is served where it is polled, in
the middle of collecting, and nothing collected so far is posted for it.

Some commands are given up: a WRITE whose QP is not the proxy's, a strided one
beyond the limits of its builder, and a batch or strided command that
`ibv_post_send` refuses.

RC executes the requests of a QP in order, and a CQ reports them in order. The
proxy's whole batch is therefore one entry of the work queue, reported by the
completion of its last request.

The history keeps what was polled, posted, given up and reaped, and the stage
barriers. The code keeps no such record.

## Main definitions

* `World`: The proxy, its FIFO and forward table, the NIC and the history.
* `Pc`: Where the thread is in `run`.
* `proxyStep`: One action of the thread.
* `step`: One action of anybody.

## Theorems

* `pollFifo_eq_some`: What a successful poll changes.
* `pollNic_eq`: What one `ibv_poll_cq` changes.
-/

namespace MKernel

namespace Internode

namespace Cx7

open MKernel.Core

/-- The batch being collected, the QP it goes to, and the in-flight count at the
    start of the iteration. -/
structure Collect where
  batch : List Polled
  batchQp : Int
  preInflight : Int
  deriving DecidableEq

/-- Where the proxy thread is in `run`. -/
inductive Pc where
  /-- `while (running_)`. -/
  | loop
  /-- `if (paused_)`. -/
  | pauseGate
  | ackStore
  | pausedSpin
  | ackClear
  /-- `if (inflight_ < effective_max_inflight_)`. -/
  | forwardGate
  /-- Inside `poll_forward_notifications`, before its `i`th slot. -/
  | forward (i : Nat)
  /-- `inflight_ += 1` for a command that was passed on. -/
  | forwardCount (i : Nat)
  /-- Step 1 begins. -/
  | collect
  /-- The collection loop. -/
  | fill (c : Collect)
  /-- Inside `post_stage_barrier`, called from the collection loop. -/
  | stageBarrier (c : Collect) (p : Nat)
  /-- `inflight_ += 1` for one stage barrier. -/
  | stageCount (c : Collect) (p : Nat)
  /-- The filter: `rest` is still to be looked at, `kept` stays in the batch. -/
  | filter (rest kept : List Polled) (qp stridedPosted : Int)
  /-- Step 2: build and post. -/
  | post (batch : List Polled) (qp stridedPosted : Int)
  /-- `inflight_ += count`. -/
  | account (count stridedPosted : Int)
  /-- `inflight_ += strided_posted`. -/
  | stridedCount (stridedPosted : Int) (posted : Bool)
  /-- Step 3. -/
  | pollCq (posted : Bool)
  /-- Step 4. -/
  | advanceTail
  /-- The drain after the loop. -/
  | exitDrain
  | exited
  deriving DecidableEq

/-- What the history records. -/
inductive Event where
  | polled (p : Polled)
  /-- A chain handed to the NIC in one `ibv_post_send`, with its commands. -/
  | posted (batch : List Polled) (chain : Chain)
  /-- Commands that were given up. -/
  | dropped (batch : List Polled)
  /-- One stage barrier of a polled notify. -/
  | stageBarrier (p : Nat) (token : BitVec 32)
  /-- One stage barrier of the host. -/
  | hostBarrier (p slot : Nat) (token : BitVec 32)
  /-- A command of the forward table that was passed on. -/
  | forwarded (chain : Chain)
  | reaped (chain : Chain)
  /-- `set_epoch`. -/
  | epoch (epoch : BitVec 32)
  deriving DecidableEq

def Event.polled? : Event → Option Polled
  | .polled p => some p
  | _ => none

def Event.batch : Event → List Polled
  | .posted batch _ => batch
  | _ => []

def Event.dropped? : Event → List Polled
  | .dropped batch => batch
  | _ => []

/-- The commands polled, in order. -/
def polledOf (h : List Event) : List Polled := h.filterMap Event.polled?

/-- The commands posted, in order. -/
def postedOf (h : List Event) : List Polled := h.flatMap Event.batch

/-- The commands given up, in order. -/
def droppedOf (h : List Event) : List Polled := h.flatMap Event.dropped?

/-- The WRITE commands polled, in order. -/
def writesPolled (h : List Event) : List Polled :=
  (polledOf h).filter fun p => p.cmd.cmdType = .write

@[simp] theorem polledOf_append (h l : List Event) :
    polledOf (h ++ l) = polledOf h ++ polledOf l :=
  List.filterMap_append

@[simp] theorem postedOf_append (h l : List Event) :
    postedOf (h ++ l) = postedOf h ++ postedOf l :=
  List.flatMap_append

@[simp] theorem droppedOf_append (h l : List Event) :
    droppedOf (h ++ l) = droppedOf h ++ droppedOf l :=
  List.flatMap_append

@[simp] theorem writesPolled_append (h l : List Event) :
    writesPolled (h ++ l) = writesPolled h ++ writesPolled l := by
  rw [writesPolled, polledOf_append, List.filter_append, writesPolled, writesPolled]

/-- The proxy with all it works on. -/
structure World where
  running : Bool
  gate : Handshake.Gate
  inflight : Int
  epoch : BitVec 32
  qpRrIdx : Nat
  senderSeq : Nat → BitVec 32
  pendingCmd : Option Polled
  forwardSeenEpoch : Nat → BitVec 32
  forwardScanCursor : Nat
  pc : Pc
  fifo : Fifo
  localForwardNotify : Nat → ForwardNotify
  nic : WorkQueue Chain Empty
  hist : List Event

/-- A cleared record of the forward table. -/
def ForwardNotify.zero : ForwardNotify := ⟨0, 0, 0, 0, 0, 0, 0, 0⟩

/-- A proxy that was just started, with an empty FIFO. -/
def init (setup : Setup) : World where
  running := true
  gate := Handshake.Gate.init
  inflight := 0
  epoch := setup.cfg.epoch
  qpRrIdx := 0
  senderSeq := fun _ => 0
  pendingCmd := none
  forwardSeenEpoch := fun _ => 0
  forwardScanCursor := 0
  pc := .loop
  fifo := Fifo.empty
  localForwardNotify := fun _ => ForwardNotify.zero
  nic := WorkQueue.empty
  hist := []

/-- `poll`. -/
def pollFifo (setup : Setup) (w : World) : Option (Polled × World) :=
  w.fifo.poll.map fun r =>
    let p : Polled := ⟨setup.cfg.fifo, w.fifo.cpuHead, r.1⟩
    (p, { w with fifo := r.2, hist := w.hist ++ [Event.polled p] })

/-- Whether there is a forward table to scan. -/
def forwardEnabled (setup : Setup) : Bool :=
  setup.cfg.enableForwardNotify && setup.cfg.localForwardNotify &&
    decide (0 < setup.cfg.forwardNotifySlots)

/-- One turn of the loop in `poll_forward_notifications`. A record that is not
    of this epoch, not of this slot or already passed on is passed over; one
    that cannot be posted is looked at again later. -/
def forwardStep (setup : Setup) (w : World) (i : Nat) (ok : Bool) : World :=
  if i < kScanPerLoop then
    let slot := w.forwardScanCursor
    let cursor := if setup.cfg.forwardNotifySlots ≤ slot + 1 then 0 else slot + 1
    -- The cursor moves on before the record is looked at, so the next call goes on there.
    let w := { w with forwardScanCursor := cursor, pc := .forward (i + 1) }
    let n := w.localForwardNotify slot
    if w.forwardSeenEpoch slot = w.epoch ∨ n.epoch ≠ w.epoch ∨ n.tileId ≠ BitVec.ofNat 32 slot then
      w
    else
      match forwardChain setup w.epoch (setup.makeForwardCmdFromNotify n) with
      | some chain =>
          if ok then
            { w with
              nic := w.nic.post [chain]
              forwardSeenEpoch := Function.update w.forwardSeenEpoch slot w.epoch
              hist := w.hist ++ [Event.forwarded chain]
              pc := .forwardCount i }
          else w
      | none => w
  else { w with pc := .collect }

/-- Step 1 begins: with the stashed command, where commands are routed and the
    budget allows it. -/
def collectStep (setup : Setup) (w : World) : World :=
  match setup.routed, w.pendingCmd with
  | true, some p =>
      if w.inflight < setup.effectiveMaxInflight then
        { w with pendingCmd := none, pc := .fill ⟨[p], setup.localQp p.cmd, w.inflight⟩ }
      -- Over the budget the stash is kept and the batch starts empty.
      else { w with pc := .fill ⟨[], w.qpRrIdx, w.inflight⟩ }
  | _, _ => { w with pc := .fill ⟨[], w.qpRrIdx, w.inflight⟩ }

/-- The batch with one more command. -/
def Collect.push (c : Collect) (p : Polled) : Collect := { c with batch := c.batch ++ [p] }

/-- After the collection loop: filter out the strided commands, if there can
    be any. -/
def endFill (setup : Setup) (w : World) (c : Collect) : World :=
  if c.batch ≠ [] ∧ setup.cfg.directDmabufEnabled = true then
    { w with pc := .filter c.batch [] c.batchQp 0 }
  else { w with pc := .post c.batch c.batchQp 0 }

/-- The collection loop goes on for another poll. -/
def Fills (setup : Setup) (c : Collect) : Prop :=
  c.batch.length < BATCH_SIZE ∧ c.preInflight + c.batch.length < setup.effectiveMaxInflight

instance (setup : Setup) (c : Collect) : Decidable (Fills setup c) :=
  inferInstanceAs (Decidable (_ ∧ _))

/-- A polled WRITE. Where commands are not routed, the batch takes any. -/
def collectWrite (setup : Setup) (w : World) (c : Collect) (p : Polled) : World :=
  if setup.routed = true then
    let qp := setup.localQp p.cmd
    -- A WRITE for a QP of another proxy is reported and lost.
    if ¬ setup.InRange qp then { w with hist := w.hist ++ [Event.dropped [p]], pc := .fill c }
    else if c.batch = [] then { w with pc := .fill ⟨[p], qp, c.preInflight⟩ }
    else if qp = c.batchQp then { w with pc := .fill (c.push p) }
    -- A WRITE for another QP of this proxy closes the batch.
    else endFill setup { w with pendingCmd := some p } c
  else { w with pc := .fill (c.push p) }

/-- One turn of the collection loop. -/
def fillStep (setup : Setup) (w : World) (c : Collect) : World :=
  if Fills setup c then
    match pollFifo setup w with
    | none => endFill setup w c
    | some (p, w) =>
        match p.cmd.cmdType with
        -- The barrier is sent at once, before the batch that is being collected.
        | .barrierNotify => { w with pc := .stageBarrier c 0 }
        | .write => collectWrite setup w c p
        | _ => { w with pc := .fill c }
  else endFill setup w c

/-- One turn of the loop in `post_stage_barrier`. A call that fails is reported
    and forgotten. -/
def stageBarrierStep (setup : Setup) (w : World) (c : Collect) (p : Nat) (ok : Bool) : World :=
  if p < barrierIters setup then
    if ok then
      { w with
        nic := w.nic.post [barrierChain setup 0 w.epoch p]
        hist := w.hist ++ [Event.stageBarrier p w.epoch]
        pc := .stageCount c p }
    else { w with pc := .stageBarrier c (p + 1) }
  else { w with pc := .fill c }

/-- One turn of the filter: a strided command is posted on its own. What
    `post_strided_direct` did to the sequence counter stays done when the call
    fails. -/
def filterStep (setup : Setup) (w : World) (rest kept : List Polled) (qp stridedPosted : Int)
    (ok : Bool) : World :=
  match rest with
  | [] => { w with pc := .post kept qp stridedPosted }
  | p :: rest =>
      if p.cmd.srcView = 2 then
        match stridedChain setup w.epoch w.senderSeq qp p with
        | some (chain, n, senderSeq) =>
            if ok then
              { w with
                senderSeq := senderSeq
                nic := w.nic.post [chain]
                hist := w.hist ++ [Event.posted [p] chain]
                pc := .filter rest kept qp (stridedPosted + n) }
            else
              { w with
                senderSeq := senderSeq
                hist := w.hist ++ [Event.dropped [p]]
                pc := .filter rest kept qp stridedPosted }
        | none =>
            { w with
              hist := w.hist ++ [Event.dropped [p]]
              pc := .filter rest kept qp stridedPosted }
      -- Everything else stays in the batch, in order.
      else { w with pc := .filter rest (kept ++ [p]) qp stridedPosted }

/-- Step 2: build the batch's chain and post it. The flat layout moves on to
    the next QP whether or not the call succeeds. -/
def postStep (setup : Setup) (w : World) (batch : List Polled) (qp stridedPosted : Int)
    (ok : Bool) : World :=
  if batch = [] then { w with pc := .stridedCount stridedPosted false }
  else
    let r := batchChain setup w.epoch w.senderSeq qp batch
    -- The queue sequence counters move before the call that may fail.
    let w := { w with
      senderSeq := r.2
      qpRrIdx := if setup.cfg.useArrivalQueue then w.qpRrIdx else (w.qpRrIdx + 1) % setup.numQps }
    if ok then
      { w with
        nic := w.nic.post [r.1]
        hist := w.hist ++ [Event.posted batch r.1]
        pc := .account batch.length stridedPosted }
    -- A failed call is not retried, and step 4 releases the slots all the same.
    else { w with hist := w.hist ++ [Event.dropped batch], pc := .stridedCount stridedPosted true }

/-- A polled completion. -/
def reap (w : World) : Chain ⊕ Empty → World
  | .inl chain =>
      { w with inflight := w.inflight - chain.count, hist := w.hist ++ [Event.reaped chain] }
  | .inr e => nomatch e

/-- One call of `ibv_poll_cq`, and what is done with each completion. -/
def pollNic (w : World) (ne : Nat) : World :=
  let r := w.nic.poll (min ne 32)
  r.1.foldl reap { w with nic := r.2 }

/-- One action of the proxy thread. -/
def proxyStep (setup : Setup) (w : World) (ok : Bool) (ne : Nat) : Option World :=
  match w.pc with
  | .loop => some { w with pc := if w.running then .pauseGate else .exitDrain }
  | .pauseGate => some { w with pc := if w.gate.paused then .ackStore else .forwardGate }
  | .ackStore => some { w with gate := { w.gate with ackPaused := true }, pc := .pausedSpin }
  | .pausedSpin => some { w with pc := if w.gate.paused then .pausedSpin else .ackClear }
  | .ackClear => some { w with gate := { w.gate with ackPaused := false }, pc := .loop }
  | .forwardGate =>
      if w.inflight < setup.effectiveMaxInflight ∧ forwardEnabled setup = true then
        some { w with pc := .forward 0 }
      else some { w with pc := .collect }
  | .forward i => some (forwardStep setup w i ok)
  | .forwardCount i => some { w with inflight := w.inflight + 1, pc := .forward (i + 1) }
  | .collect => some (collectStep setup w)
  | .fill c => some (fillStep setup w c)
  | .stageBarrier c p => some (stageBarrierStep setup w c p ok)
  | .stageCount c p => some { w with inflight := w.inflight + 1, pc := .stageBarrier c (p + 1) }
  | .filter rest kept qp stridedPosted => some (filterStep setup w rest kept qp stridedPosted ok)
  | .post batch qp stridedPosted => some (postStep setup w batch qp stridedPosted ok)
  | .account count stridedPosted =>
      -- The NIC may have reported the chain before it is counted.
      some { w with inflight := w.inflight + count, pc := .stridedCount stridedPosted true }
  | .stridedCount stridedPosted posted =>
      some { w with
        inflight := if 0 < stridedPosted then w.inflight + stridedPosted else w.inflight
        pc := .pollCq posted }
  | .pollCq posted => some { pollNic w ne with pc := if posted then .advanceTail else .loop }
  -- Everything polled is released, a stashed command included.
  | .advanceTail => some { w with fifo := w.fifo.advanceTail w.fifo.hostHead, pc := .loop }
  | .exitDrain =>
      if 0 < w.inflight then some (pollNic w ne) else some { w with pc := .exited }
  | .exited => none

inductive Action where
  /-- A device thread claims the next place of the FIFO. -/
  | claim (cmd : TransferCmd)
  /-- The next command of the FIFO becomes readable. -/
  | publish
  /-- The NIC executes a posted chain. -/
  | place (i : Nat)
  /-- The NIC reports an executed chain. -/
  | complete (i : Nat)
  /-- A ring neighbour writes a record of the forward table. -/
  | forwardNotify (slot : Nat) (n : ForwardNotify)
  /-- The host pauses or resumes the proxy. -/
  | host (a : Handshake.HostAction)
  /-- `stop`. -/
  | stop
  /-- One `ibv_poll_cq` of the host's `drain_cq`. -/
  | hostDrain (ne : Nat)
  /-- `reset_inflight`, which the host calls after `drain_cq`. -/
  | hostReset
  /-- `set_epoch`. -/
  | setEpoch (epoch : BitVec 32)
  /-- `commit_epoch` resets the FIFO. -/
  | fifoReset
  /-- `commit_epoch` clears the forward table. -/
  | resetForwardNotifyTable
  /-- One turn of the host's `post_stage_barrier`. -/
  | hostBarrier (p slot : Nat) (token : BitVec 32)
  /-- The proxy thread, with the answers of the verbs library. -/
  | proxy (ok : Bool) (ne : Nat)

/-- The first of its QP among chains. -/
def firstOfQp (chains : List Chain) (i : Nat) : Prop :=
  ∀ c ∈ chains.take i, (chains[i]?).map Chain.qp ≠ some c.qp

instance (chains : List Chain) (i : Nat) : Decidable (firstOfQp chains i) :=
  inferInstanceAs (Decidable (∀ _ ∈ _, _))

/-- One action. The host drains, resets the in-flight counter and posts only
    while the proxy is stopped. -/
def step (setup : Setup) (w : World) : Action → Option World
  | .claim cmd => some { w with fifo := w.fifo.claim cmd }
  | .publish => w.fifo.publish.map fun f => { w with fifo := f }
  | .place i =>
      -- The chains of one QP are executed, and reported, in the order they were posted.
      if firstOfQp w.nic.sent i then (w.nic.place i).map fun r => { w with nic := r.2 } else none
  | .complete i =>
      if firstOfQp w.nic.placed i then (w.nic.complete i).map fun nic => { w with nic := nic }
      else none
  | .forwardNotify slot n =>
      some { w with localForwardNotify := Function.update w.localForwardNotify slot n }
  | .host a => (w.gate.hostStep a).map fun g => { w with gate := g }
  | .stop => some { w with running := false }
  | .hostDrain ne => if w.gate.Stopped ∧ 0 < w.inflight then some (pollNic w ne) else none
  | .hostReset => if w.gate.Stopped ∧ w.inflight ≤ 0 then some { w with inflight := 0 } else none
  | .setEpoch epoch =>
      some { w with epoch := epoch, senderSeq := fun _ => 0, hist := w.hist ++ [Event.epoch epoch] }
  | .fifoReset => some { w with fifo := w.fifo.reset }
  | .resetForwardNotifyTable => some { w with localForwardNotify := fun _ => ForwardNotify.zero }
  | .hostBarrier p slot token =>
      if w.gate.Stopped ∧ p < barrierIters setup then
        some { w with
          nic := w.nic.post [barrierChain setup slot token p]
          hist := w.hist ++ [Event.hostBarrier p slot token]
          inflight := w.inflight + 1 }
      else none
  | .proxy ok ne => proxyStep setup w ok ne

open WorkQueue (requests)

/-- What a successful poll changes. -/
theorem pollFifo_eq_some {setup : Setup} {w w' : World} {p : Polled}
    (h : pollFifo setup w = some (p, w')) :
    ∃ f, w.fifo.poll = some (p.cmd, f) ∧ p.seq = w.fifo.cpuHead ∧
      w' = { w with fifo := f, hist := w.hist ++ [Event.polled p] } := by
  rcases Option.map_eq_some_iff.mp h with ⟨⟨cmd, f⟩, hpoll, heq⟩
  simp only [Prod.mk.injEq] at heq
  rcases heq with ⟨rfl, rfl⟩
  exact ⟨f, hpoll, rfl, rfl⟩

theorem foldl_reap (cs : List (Chain ⊕ Empty)) (w : World) :
    cs.foldl reap w = { w with
      inflight := w.inflight - ((requests cs).map Chain.count).sum
      hist := w.hist ++ (requests cs).map Event.reaped } := by
  induction cs generalizing w with
  | nil => simp [requests]
  | cons c cs ih =>
      rw [List.foldl_cons, ih]
      cases c with
      -- A completion retires what its chain counted.
      | inl chain =>
          have hreq : requests (Sum.inl chain :: cs) = chain :: requests cs := rfl
          simp only [reap, hreq, List.map_cons, List.sum_cons, List.append_assoc,
            List.singleton_append]
          congr 1
          omega
      | inr e => exact nomatch e

/-- The chains whose completion the next poll returns. -/
def polledChains (w : World) (ne : Nat) : List Chain := requests (w.nic.poll (min ne 32)).1

/-- What one `ibv_poll_cq` changes. -/
theorem pollNic_eq (w : World) (ne : Nat) :
    pollNic w ne = { w with
      nic := (w.nic.poll (min ne 32)).2
      inflight := w.inflight - ((polledChains w ne).map Chain.count).sum
      hist := w.hist ++ (polledChains w ne).map Event.reaped } :=
  foldl_reap _ _

section Sample

/-- A region with one address and key. -/
def sampleRegion (addr : BitVec 64) (rkey : BitVec 32) : RemoteRegion :=
  ⟨addr, rkey, fun _ => 0, fun _ => 0⟩

/-- A proxy with two QPs, in the arrival-queue layout. -/
def sampleConfig : ProxyConfig where
  fifo := 0
  numQps := 2
  qpBaseIdx := 0
  globalNumQps := 2
  localDataAddr := 0x400000
  localDataLkey := 4
  clocalDataAddr := 0x800000
  clocalDataLkey := 6
  directDmabufEnabled := true
  rowStrideBytes := 8192
  maxSendSge := 16
  remoteData := sampleRegion 0x100000 1
  flagStaging := ⟨64, 0x500000, 5⟩
  remoteFlags := sampleRegion 0x200000 2
  remoteTail := sampleRegion 0 0
  useArrivalQueue := true
  remoteQueueStride := 1024
  logicalQueuesPerQp := 1
  channelizeGpuPeers := false
  enableRemoteTail := false
  remoteBarrier := sampleRegion 0x300000 3
  enableForwardNotify := false
  localForwardNotify := false
  forwardNotifySlots := 0
  remoteForwardNotify := sampleRegion 0 0
  rank := 0
  numNodes := 2
  totalChunks := 0
  aHalfBytes := 0
  epoch := 1
  maxInflight := 0
  deviceId := 0
  maxSendSge_le := by decide

def sampleSetup : Setup := Setup.ofConfig sampleConfig none

/-- A WRITE of one tile. -/
def writeCmd (lane : BitVec 16) (tile : BitVec 32) : TransferCmd :=
  { TransferCmd.zero with
    cmdType := .write
    dstRank := 1
    laneId := lane
    tileId := tile
    bytes := kTileBytes }

/-- A WRITE that gathers 32 rows. -/
def stridedCmd (lane : BitVec 16) (tile : BitVec 32) : TransferCmd :=
  { writeCmd lane tile with srcView := 2, rowSpan := 2048, rowCount := 32 }

def notifyCmd : TransferCmd := { TransferCmd.zero with cmdType := .barrierNotify }

/-- A device thread pushes commands, one after the other. -/
def pushes (cmds : List TransferCmd) : List Action :=
  cmds.flatMap fun cmd => [.claim cmd, .publish]

/-- The proxy thread runs on, and every call succeeds. -/
def goes (n : Nat) : List Action := List.replicate n (.proxy true 32)

end Sample

end Cx7

end Internode

end MKernel
