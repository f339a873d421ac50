import Mathlib.Logic.Function.Basic
import MKernel.Core.System
import MKernel.Core.WorkQueue
import MKernel.Internode.Efa.Requests
import MKernel.Internode.Handshake

/-!
# The EFA Proxy

`ProxyEfa::run`, with everything that works beside it.

The proxy thread is a machine with a program counter. An action of the proxy
is one poll of a FIFO, one call into the verbs library, or one load or store
that another thread can see; the code between two of these is part of the one
before. Device threads push to the FIFOs, the NIC executes posted requests in
any order and completes them in any order, peers' writes with immediate data
show up in the completion queue, and the host pauses and resumes the proxy
and, while it is stopped, drains the completion queue, resets the counter and
starts an epoch. Each of these is an action, so every interleaving is a run.

What a system call answers is part of the action that makes it: whether
`ibv_wr_complete` succeeds, and how many completions `ibv_poll_cq` returns.

`hist` records what happened, newest last: commands polled, batches posted,
stage barriers posted, completions reaped, arrival flags set. The code keeps
no such list, and none of its decisions reads it.

Diagnostics, timestamps and error output are left out.

## Main definitions

* `Pc`: Where the proxy thread is in `run`.
* `Event`: What the history records.
* `World`: The proxy, its FIFOs, its NIC and its gate.
* `Turn`: Everything one turn of the poll loop or the spin loop can do.
* `proxyStep`: One action of the proxy thread.
* `step`: One action of anybody.
* `init`: A proxy that was just started.
* `polledOf`, `postedOf`, `reapedOf`: What a history says was done.

## Theorems

* `pollNic_drainReap`, `pollNic_reap`: What one poll of the completion queue
  changes.
* `pollFifo_eq_some`: What one poll of a FIFO changes.
* `collectStep_begin`: How step 1 begins.
* `fillStep_turn`, `accumulateStep_turn`: What one turn of a poll loop does.
-/

namespace MKernel

namespace Internode

namespace Efa

open MKernel.Core

/-- A batch being collected: the commands, their QP, and `inflight_` as it was
    when the iteration began. -/
structure Collect where
  batch : List Polled
  batchQp : Nat
  preInflight : Int
  deriving DecidableEq

/-- Which of the three calls of `drain_cq` and `post_stage_barrier` is running:
    the gate at the top of the loop, or the poll loop with nothing collected. -/
inductive BarrierSite where
  | gate
  | inline (preInflight : Int)
  deriving DecidableEq

/-- Where the proxy thread is in `run`. -/
inductive Pc where
  /-- `while (running_)`. -/
  | loop
  /-- `if (paused_)`. -/
  | pauseGate
  | ackStore
  | pausedSpin
  | ackClear
  /-- The pre-barrier drain gate. -/
  | barrierGate
  /-- Inside `drain_cq`. -/
  | drainCq (site : BarrierSite)
  /-- Inside `post_stage_barrier`, at a peer. -/
  | stageBarrier (site : BarrierSite) (peer : Nat)
  /-- `inflight_ += 1` for the barrier to a peer. -/
  | stageCount (site : BarrierSite) (peer : Nat)
  /-- Step 1: retry, or rotate and seed. -/
  | collect
  /-- The poll loop. -/
  | fill (c : Collect)
  /-- The spin loop. -/
  | accumulate (c : Collect) (spin misses : Nat)
  /-- Step 2: build and post. -/
  | post (c : Collect)
  /-- `inflight_ += count`. -/
  | account (c : Collect)
  /-- Step 3. -/
  | pollCq (postedBatch : Bool)
  /-- Step 4. -/
  | advanceTail
  /-- The drain after the loop. -/
  | exitDrain
  | exited
  deriving DecidableEq

/-- A completion that tells of a peer's write with immediate data, with the
    endpoint and the command it came from. -/
structure Recv where
  sender : Nat
  imm : BitVec 32
  src : Polled
  deriving DecidableEq

/-- What the history records. -/
inductive Event where
  | polled (p : Polled)
  /-- A batch handed to the NIC in one `ibv_wr_complete`. -/
  | posted (qp peerSlot : Nat) (batch : List Polled) (wrs : List WorkRequest)
  /-- The stage-barrier write of a polled notify, to one peer. -/
  | stageBarrier (peer : Nat) (token : BitVec 32)
  /-- A stage-barrier write of the host, to one peer. -/
  | hostBarrier (peer slot : Nat) (token : BitVec 32)
  | reaped (wr : WorkRequest)
  /-- An arrival flag set for a peer's write. -/
  | arrived (r : Recv)
  deriving DecidableEq

def Event.polled? : Event → Option Polled
  | .polled p => some p
  | _ => none

def Event.batch : Event → List Polled
  | .posted _ _ batch _ => batch
  | _ => []

def Event.reaped? : Event → Option WorkRequest
  | .reaped wr => some wr
  | _ => none

/-- The commands polled, in order. -/
def polledOf (h : List Event) : List Polled := h.filterMap Event.polled?

/-- The commands posted, in order. -/
def postedOf (h : List Event) : List Polled := h.flatMap Event.batch

/-- The requests whose completion was reaped, in order. -/
def reapedOf (h : List Event) : List WorkRequest := h.filterMap Event.reaped?

/-- The WRITE commands polled, in order. -/
def writesPolled (h : List Event) : List Polled :=
  (polledOf h).filter fun p => p.cmd.cmdType = .write

@[simp] theorem polledOf_append (h l : List Event) :
    polledOf (h ++ l) = polledOf h ++ polledOf l :=
  List.filterMap_append

@[simp] theorem postedOf_append (h l : List Event) :
    postedOf (h ++ l) = postedOf h ++ postedOf l :=
  List.flatMap_append

@[simp] theorem reapedOf_append (h l : List Event) :
    reapedOf (h ++ l) = reapedOf h ++ reapedOf l :=
  List.filterMap_append

@[simp] theorem writesPolled_append (h l : List Event) :
    writesPolled (h ++ l) = writesPolled h ++ writesPolled l := by
  rw [writesPolled, polledOf_append, List.filter_append, writesPolled, writesPolled]

/-- The proxy with all it works on. -/
structure World where
  running : Bool
  gate : Handshake.Gate
  inflight : Int
  epoch : BitVec 32
  flags : FlagState
  pendingCmd : Option Polled
  hasPendingBarrier : Bool
  pc : Pc
  pendingBatch : List Polled
  pendingBatchQp : Nat
  pendingCpuHead : Nat
  currentFifoIdx : Nat
  fifos : Nat → Fifo
  nic : WorkQueue WorkRequest Recv
  localArrival : Nat → BitVec 32
  hist : List Event

/-- A proxy that was just started, with empty FIFOs. -/
def init (setup : Setup) : World where
  running := true
  gate := Handshake.Gate.init
  inflight := 0
  epoch := setup.cfg.epoch
  flags := FlagState.init
  pendingCmd := none
  hasPendingBarrier := false
  pc := .loop
  pendingBatch := []
  pendingBatchQp := 0
  pendingCpuHead := 0
  currentFifoIdx := 0
  fifos := fun _ => Fifo.empty
  nic := WorkQueue.empty
  localArrival := fun _ => 0
  hist := []

/-- The FIFO of the current iteration. -/
def currentFifo (setup : Setup) (w : World) : Nat :=
  match setup.cfg.fifos with
  | some fifos => if 1 < setup.cfg.numFifos then fifos w.currentFifoIdx else setup.cfg.fifo
  | none => setup.cfg.fifo

/-- `batch_cap`. Nothing changes `batch_size_current_` after construction. -/
def batchCap (setup : Setup) : Nat :=
  if setup.cfg.pipelineEnabled then BATCH_SIZE_MAX else BATCH_SIZE

/-- `spin_cap`. Nothing changes `accum_spins_current_` after construction. -/
def spinCap (_setup : Setup) : Nat := ACCUMULATE_SPINS

/-- `poll` on the FIFO of the current iteration. -/
def pollFifo (setup : Setup) (w : World) : Option (Polled × World) :=
  let k := currentFifo setup w
  (w.fifos k).poll.map fun r =>
    let p : Polled := ⟨k, (w.fifos k).cpuHead, r.1⟩
    (p, { w with fifos := Function.update w.fifos k r.2, hist := w.hist ++ [Event.polled p] })

/-- `pending_cpu_head = fifo()->cpu_head`, once anything is collected. -/
def markCpuHead (setup : Setup) (w : World) (c : Collect) : World :=
  if c.batch = [] then w
  else { w with pendingCpuHead := (w.fifos (currentFifo setup w)).hostHead }

/-- After the poll loop: spin for more, or post. -/
def endFill (setup : Setup) (w : World) (c : Collect) : World :=
  let w := markCpuHead setup w c
  -- The head is marked here and, after spinning, once more.
  if c.batch ≠ [] ∧ c.batch.length < batchCap setup ∧ w.pendingCmd = none then
    { w with pc := .accumulate c 0 0 }
  else { w with pc := .post c }

/-- After the spin loop. -/
def endAccumulate (setup : Setup) (w : World) (c : Collect) : World :=
  { markCpuHead setup w c with pc := .post c }

/-- Whether a command may join a batch that is not empty: the same QP, and the
    same destination as its first command. -/
def Collect.accepts (setup : Setup) (c : Collect) (cmd : TransferCmd) : Bool :=
  decide (setup.mapToLocalQp cmd = c.batchQp) &&
    decide (c.batch.head?.map (fun b => b.cmd.dstRank) = some cmd.dstRank)

/-- The batch with one more command. -/
def Collect.push (c : Collect) (p : Polled) : Collect := { c with batch := c.batch ++ [p] }

/-- With several FIFOs, move to the next one. -/
def rotateFifo (setup : Setup) (w : World) : World :=
  if 1 < setup.cfg.numFifos then
    { w with currentFifoIdx := (w.currentFifoIdx + 1) % setup.cfg.numFifos }
  else w

/-- Start a batch with the stashed command, if there is one and the budget
    allows it. -/
def seedBatch (setup : Setup) (w : World) : World :=
  match w.pendingCmd with
  | some p =>
      if w.inflight < setup.effectiveMaxInflight then
        { w with pendingCmd := none, pc := .fill ⟨[p], setup.mapToLocalQp p.cmd, w.inflight⟩ }
      -- Over the budget the stash is kept and the batch starts empty.
      else { w with pc := .fill ⟨[], 0, w.inflight⟩ }
  | none => { w with pc := .fill ⟨[], 0, w.inflight⟩ }

/-- Step 1 begins: replay a batch that failed to post, or start a new one on
    the next FIFO. -/
def collectStep (setup : Setup) (w : World) : World :=
  if w.pendingBatch ≠ [] then
    { w with pc := .post ⟨w.pendingBatch, w.pendingBatchQp, w.inflight⟩ }
  else seedBatch setup (rotateFifo setup w)

/-- One turn of the poll loop. -/
def fillStep (setup : Setup) (w : World) (c : Collect) : World :=
  if c.batch.length < batchCap setup ∧
      c.preInflight + c.batch.length < setup.effectiveMaxInflight then
    match pollFifo setup w with
    | none => endFill setup w c
    | some (p, w) =>
        match p.cmd.cmdType with
        -- With nothing collected the barrier is sent inline, else it waits for the gate.
        | .barrierNotify =>
            if c.batch = [] then { w with pc := .drainCq (.inline c.preInflight) }
            else endFill setup { w with hasPendingBarrier := true } c
        | .write =>
            if c.batch = [] then
              { w with pc := .fill ⟨[p], setup.mapToLocalQp p.cmd, c.preInflight⟩ }
            else if c.accepts setup p.cmd then { w with pc := .fill (c.push p) }
            -- A WRITE for another QP or destination closes the batch.
            else endFill setup { w with pendingCmd := some p } c
        -- Any other type is consumed and dropped.
        | _ => { w with pc := .fill c }
  else endFill setup w c

/-- The spin loop goes on for another poll. -/
def Spins (setup : Setup) (c : Collect) (spin misses : Nat) : Prop :=
  spin < spinCap setup ∧ misses < ACCUMULATE_MISS_BUDGET ∧ c.batch.length < batchCap setup ∧
    c.preInflight + c.batch.length < setup.effectiveMaxInflight

instance (setup : Setup) (c : Collect) (spin misses : Nat) :
    Decidable (Spins setup c spin misses) :=
  inferInstanceAs (Decidable (_ ∧ _ ∧ _ ∧ _))

/-- One turn of the spin loop. -/
def accumulateStep (setup : Setup) (w : World) (c : Collect) (spin misses : Nat) : World :=
  if Spins setup c spin misses then
    match pollFifo setup w with
    -- The budget is of misses in a row: any command found clears them.
    | none => { w with pc := .accumulate c (spin + 1) (misses + 1) }
    | some (p, w) =>
        match p.cmd.cmdType with
        | .barrierNotify => endAccumulate setup { w with hasPendingBarrier := true } c
        | .write =>
            if c.accepts setup p.cmd then { w with pc := .accumulate (c.push p) (spin + 1) 0 }
            else endAccumulate setup { w with pendingCmd := some p } c
        | _ => { w with pc := .accumulate c (spin + 1) 0 }
  else endAccumulate setup w c

/-- The peer slot of a batch: that of its first command's destination rank. -/
def peerSlot (setup : Setup) (batch : List Polled) : Nat :=
  match setup.cfg.peerSlotByRank, batch with
  | some slots, p :: _ => (slots p.cmd.dstRank).toNat
  | _, _ => 0

/-- Step 2: build the batch's requests and complete them in one call. A call
    that fails leaves the batch in the retry buffer; what the builders did to
    the staging ring and the sequence counters stays done. -/
def postStep (setup : Setup) (w : World) (c : Collect) (ok : Bool) : World :=
  if c.batch = [] then { w with pc := .pollCq false }
  else
    let slot := peerSlot setup c.batch
    let peer := setup.cfg.perPeer slot
    -- The staging ring and the sequence counters move before the call that may fail.
    let r := postBatch setup peer (peer.dstQpns c.batchQp) w.epoch w.flags c.batch
    if ok then
      { w with
        flags := r.2
        nic := w.nic.post r.1
        hist := w.hist ++ [Event.posted c.batchQp slot c.batch r.1]
        pc := .account c }
    else
      { w with
        flags := r.2
        pendingBatch := c.batch
        pendingBatchQp := c.batchQp
        pc := .pollCq false }

/-- A completion polled in step 3. A receive completion sets the arrival flag
    of its tile. Its own `wr_id` is not looked at in `write_imm` mode, and in
    the other mode nobody sends immediate data. -/
def reap (setup : Setup) (w : World) : WorkRequest ⊕ Recv → World
  | .inl wr => { w with inflight := w.inflight - wr.wrId, hist := w.hist ++ [Event.reaped wr] }
  | .inr r =>
      let tile := (htonl r.imm).toNat
      if tile < setup.cfg.localArrivalCount then
        { w with
          localArrival := Function.update w.localArrival tile w.epoch
          hist := w.hist ++ [Event.arrived r] }
      else w

/-- A completion polled in `drain_cq`, or in the drain after the loop. A
    receive completion is passed over. -/
def drainReap (w : World) : WorkRequest ⊕ Recv → World
  | .inl wr => { w with inflight := w.inflight - wr.wrId, hist := w.hist ++ [Event.reaped wr] }
  | .inr _ => w

/-- One call of `ibv_poll_cq`, and what is done with each completion. -/
def pollNic (f : World → WorkRequest ⊕ Recv → World) (w : World) (ne : Nat) : World :=
  let r := w.nic.poll (min ne 32)
  r.1.foldl f { w with nic := r.2 }

open WorkQueue (requests)

/-- What `drain_cq` does with the completions of one poll. -/
theorem foldl_drainReap (cs : List (WorkRequest ⊕ Recv)) (w : World) :
    cs.foldl drainReap w = { w with
      inflight := w.inflight - ((requests cs).map WorkRequest.weight).sum
      hist := w.hist ++ (requests cs).map Event.reaped } := by
  induction cs generalizing w with
  | nil => simp [requests]
  | cons c cs ih =>
      rw [List.foldl_cons, ih]
      cases c with
      | inl wr =>
          have hreq : requests (Sum.inl wr :: cs) = wr :: requests cs := rfl
          simp only [drainReap, hreq, List.map_cons, List.sum_cons, List.append_assoc,
            List.singleton_append, WorkRequest.weight]
          congr 1
          omega
      | inr r => rfl

/-- The tile whose arrival flag a peer's write sets. -/
def Recv.tile (r : Recv) : Nat := (htonl r.imm).toNat

/-- What step 3 does with the completions of one poll. -/
theorem foldl_reap (setup : Setup) (cs : List (WorkRequest ⊕ Recv)) (w : World) :
    ∃ es arrival, cs.foldl (reap setup) w = { w with
      inflight := w.inflight - ((requests cs).map WorkRequest.weight).sum
      localArrival := arrival
      hist := w.hist ++ es } ∧
      reapedOf es = requests cs ∧
      (∀ e ∈ es, (∃ wr, e = .reaped wr) ∨ ∃ r, e = .arrived r ∧ Sum.inr r ∈ cs) ∧
      ∀ tile, arrival tile = w.localArrival tile ∨ ∃ r, .arrived r ∈ es ∧ r.tile = tile := by
  induction cs generalizing w with
  | nil => exact ⟨[], w.localArrival, by simp [requests], rfl, by simp, fun _ => Or.inl rfl⟩
  | cons c cs ih =>
      rw [List.foldl_cons]
      rcases ih (reap setup w c) with ⟨es, arrival, hw, hes, hev, hword⟩
      have hev' : ∀ e ∈ es, (∃ wr, e = .reaped wr) ∨ ∃ r, e = .arrived r ∧ Sum.inr r ∈ c :: cs := by
        intro e he
        rcases hev e he with h | ⟨r, hr, hm⟩
        · exact Or.inl h
        · exact Or.inr ⟨r, hr, List.mem_cons_of_mem _ hm⟩
      rw [hw]
      cases c with
      | inl wr =>
          have hreq : requests (Sum.inl wr :: cs) = wr :: requests cs := rfl
          -- A request of the proxy's own is taken off the count.
          refine ⟨.reaped wr :: es, arrival, ?_, ?_, ?_, fun tile => ?_⟩
          · simp only [reap, hreq, List.map_cons, List.sum_cons, List.append_assoc,
              List.singleton_append, WorkRequest.weight]
            congr 1
            omega
          · rw [hreq, ← hes]
            rfl
          · intro e he
            rcases List.mem_cons.mp he with rfl | he
            · exact Or.inl ⟨wr, rfl⟩
            · exact hev' e he
          · rcases hword tile with h | ⟨r, hr, ht⟩
            · exact Or.inl h
            · exact Or.inr ⟨r, List.mem_cons_of_mem _ hr, ht⟩
      | inr r =>
          -- A peer's write sets a word, if its tile is in range, and counts for nothing.
          have hreq : requests (Sum.inr r :: cs) = requests cs := rfl
          simp only [reap, hreq] at hword ⊢
          split
          · rename_i hlt
            rw [if_pos hlt] at hword
            refine ⟨.arrived r :: es, arrival, by simp, by rw [← hes]; rfl, ?_, fun tile => ?_⟩
            · intro e he
              rcases List.mem_cons.mp he with rfl | he
              · exact Or.inr ⟨r, rfl, List.mem_cons_self⟩
              · exact hev' e he
            · rcases hword tile with h | ⟨u, hu, ht⟩
              · by_cases heq : tile = r.tile
                · exact Or.inr ⟨r, List.mem_cons_self, heq.symm⟩
                · rw [h]
                  exact Or.inl (Function.update_of_ne heq _ _)
              · exact Or.inr ⟨u, List.mem_cons_of_mem _ hu, ht⟩
          · rename_i hge
            rw [if_neg hge] at hword
            exact ⟨es, arrival, rfl, hes, hev', hword⟩

/-- The requests whose completion the next poll returns. -/
def polledRequests (w : World) (ne : Nat) : List WorkRequest :=
  requests (w.nic.poll (min ne 32)).1

theorem pollNic_drainReap (w : World) (ne : Nat) :
    pollNic drainReap w ne = { w with
      nic := (w.nic.poll (min ne 32)).2
      inflight := w.inflight - ((polledRequests w ne).map WorkRequest.weight).sum
      hist := w.hist ++ (polledRequests w ne).map Event.reaped } :=
  foldl_drainReap _ _

theorem pollNic_reap (setup : Setup) (w : World) (ne : Nat) :
    ∃ es arrival, pollNic (reap setup) w ne = { w with
      nic := (w.nic.poll (min ne 32)).2
      inflight := w.inflight - ((polledRequests w ne).map WorkRequest.weight).sum
      localArrival := arrival
      hist := w.hist ++ es } ∧
      reapedOf es = polledRequests w ne ∧
      (∀ e ∈ es, (∃ wr, e = .reaped wr) ∨ ∃ r, e = .arrived r ∧ Sum.inr r ∈ w.nic.cq) ∧
      ∀ tile, arrival tile = w.localArrival tile ∨ ∃ r, .arrived r ∈ es ∧ r.tile = tile := by
  rcases foldl_reap setup (w.nic.poll (min ne 32)).1 { w with nic := (w.nic.poll (min ne 32)).2 }
    with ⟨es, arrival, hw, hes, hev, hword⟩
  refine ⟨es, arrival, hw, hes, fun e he => ?_, hword⟩
  rcases hev e he with h | ⟨r, hr, hm⟩
  · exact Or.inl h
  · exact Or.inr ⟨r, hr, List.mem_of_mem_take hm⟩

/-- A successful poll: the command read, the queue after it, and the record of
    it. -/
theorem pollFifo_eq_some {setup : Setup} {w w' : World} {p : Polled}
    (h : pollFifo setup w = some (p, w')) :
    ∃ f, (w.fifos (currentFifo setup w)).poll = some (p.cmd, f) ∧
      p.fifo = currentFifo setup w ∧ p.seq = (w.fifos (currentFifo setup w)).cpuHead ∧
      w' = { w with
        fifos := Function.update w.fifos (currentFifo setup w) f
        hist := w.hist ++ [Event.polled p] } := by
  rcases Option.map_eq_some_iff.mp h with ⟨⟨cmd, f⟩, hpoll, heq⟩
  simp only [Prod.mk.injEq] at heq
  rcases heq with ⟨rfl, rfl⟩
  exact ⟨f, hpoll, rfl, rfl, rfl⟩

/-- The three ways step 1 begins. -/
inductive Begin (setup : Setup) (w : World) : World → Prop where
  /-- A batch that failed to post is replayed. -/
  | retry (hb : w.pendingBatch ≠ []) :
      Begin setup w { w with pc := .post ⟨w.pendingBatch, w.pendingBatchQp, w.inflight⟩ }
  /-- The stashed command starts a batch. -/
  | seed (idx : Nat) (p : Polled) (hb : w.pendingBatch = []) (hcmd : w.pendingCmd = some p)
      (hlt : w.inflight < setup.effectiveMaxInflight) :
      Begin setup w { w with
        currentFifoIdx := idx
        pendingCmd := none
        pc := .fill ⟨[p], setup.mapToLocalQp p.cmd, w.inflight⟩ }
  /-- A batch starts empty. -/
  | fresh (idx : Nat) (hb : w.pendingBatch = [])
      (hcmd : w.pendingCmd = none ∨ setup.effectiveMaxInflight ≤ w.inflight) :
      Begin setup w { w with currentFifoIdx := idx, pc := .fill ⟨[], 0, w.inflight⟩ }

theorem collectStep_begin (setup : Setup) (w : World) : Begin setup w (collectStep setup w) := by
  -- Going to the next FIFO changes only the index.
  have hrot : ∃ idx, rotateFifo setup w = { w with currentFifoIdx := idx } := by
    unfold rotateFifo
    split
    · exact ⟨_, rfl⟩
    · exact ⟨w.currentFifoIdx, rfl⟩
  unfold collectStep
  split
  · -- What is pending goes first.
    rename_i hb
    exact .retry hb
  · rename_i hb
    rcases hrot with ⟨idx, hidx⟩
    rw [hidx]
    unfold seedBatch
    split
    · rename_i p hcmd
      -- The stashed command waits when the limit is reached.
      split
      · rename_i hlt
        exact .seed idx p (not_not.mp hb) hcmd hlt
      · rename_i hle
        exact .fresh idx (not_not.mp hb) (Or.inr (Int.not_lt.mp hle))
    · rename_i hcmd
      exact .fresh idx (not_not.mp hb) (Or.inl hcmd)

/-- Where the poll loop and the spin loop lead with a finished batch. -/
def Closes (c : Collect) (pendingCmd : Option Polled) (pc : Pc) : Prop :=
  pc = .post c ∨ pc = .accumulate c 0 0 ∧ c.batch ≠ [] ∧ pendingCmd = none

/-- Everything one turn of the poll loop or the spin loop can do. -/
inductive Turn (setup : Setup) (w : World) (c : Collect) : World → Prop where
  /-- The limit is reached, the FIFO is empty, or the spinning is over. -/
  | close (head : Nat) (pc : Pc) (hpc : Closes c w.pendingCmd pc) :
      Turn setup w c { w with pendingCpuHead := head, pc := pc }
  /-- The spin loop finds the FIFO empty. -/
  | miss (spin misses : Nat) (hw : ∃ s m, w.pc = .accumulate c s m) :
      Turn setup w c { w with pc := .accumulate c spin misses }
  /-- A command that is neither a WRITE nor a notify is dropped. -/
  | ignored (p : Polled) (w₁ : World) (pc : Pc) (hp : pollFifo setup w = some (p, w₁))
      (hw : p.cmd.cmdType ≠ .write) (hn : p.cmd.cmdType ≠ .barrierNotify)
      (hpc : w.pc = .fill c ∧ pc = .fill c ∨
        (∃ s m, w.pc = .accumulate c s m) ∧ ∃ s m, pc = .accumulate c s m) :
      Turn setup w c { w₁ with pc := pc }
  /-- The poll loop meets a notify with nothing collected. -/
  | inlineNotify (p : Polled) (w₁ : World) (hp : pollFifo setup w = some (p, w₁))
      (hn : p.cmd.cmdType = .barrierNotify) (hw : w.pc = .fill c) (hb : c.batch = [])
      (hlt : c.preInflight < setup.effectiveMaxInflight) :
      Turn setup w c { w₁ with pc := .drainCq (.inline c.preInflight) }
  /-- Either loop meets a notify behind a batch. -/
  | flagNotify (p : Polled) (w₁ : World) (head : Nat) (pc : Pc)
      (hp : pollFifo setup w = some (p, w₁)) (hn : p.cmd.cmdType = .barrierNotify)
      (hb : w.pc = .fill c → c.batch ≠ []) (hpc : Closes c w.pendingCmd pc) :
      Turn setup w c { w₁ with hasPendingBarrier := true, pendingCpuHead := head, pc := pc }
  /-- The first WRITE of a batch. -/
  | first (p : Polled) (w₁ : World) (hp : pollFifo setup w = some (p, w₁))
      (hwr : p.cmd.cmdType = .write) (hw : w.pc = .fill c) (hb : c.batch = [])
      (hlt : c.preInflight < setup.effectiveMaxInflight) :
      Turn setup w c { w₁ with pc := .fill ⟨[p], setup.mapToLocalQp p.cmd, c.preInflight⟩ }
  /-- A WRITE that joins the batch. -/
  | join (p : Polled) (w₁ : World) (pc : Pc) (hp : pollFifo setup w = some (p, w₁))
      (hwr : p.cmd.cmdType = .write) (ha : c.accepts setup p.cmd = true)
      (hpc : w.pc = .fill c ∧ pc = .fill (c.push p) ∨
        (∃ s m, w.pc = .accumulate c s m) ∧ ∃ s m, pc = .accumulate (c.push p) s m) :
      Turn setup w c { w₁ with pc := pc }
  /-- A WRITE for another QP or destination. -/
  | stash (p : Polled) (w₁ : World) (head : Nat) (hp : pollFifo setup w = some (p, w₁))
      (hwr : p.cmd.cmdType = .write) (hb : w.pc = .fill c → c.batch ≠ []) :
      Turn setup w c { w₁ with pendingCmd := some p, pendingCpuHead := head, pc := .post c }

theorem endFill_eq (setup : Setup) (w : World) (c : Collect) :
    ∃ head pc, endFill setup w c = { w with pendingCpuHead := head, pc := pc } ∧
      Closes c w.pendingCmd pc := by
  unfold endFill markCpuHead
  dsimp only
  split
  · rename_i hb
    rw [if_neg (fun hc => hc.1 hb)]
    exact ⟨w.pendingCpuHead, .post c, rfl, Or.inl rfl⟩
  · split
    · rename_i hc
      exact ⟨_, _, rfl, Or.inr ⟨rfl, hc.1, hc.2.2⟩⟩
    · exact ⟨_, _, rfl, Or.inl rfl⟩

theorem endAccumulate_eq (setup : Setup) (w : World) (c : Collect) :
    ∃ head, endAccumulate setup w c = { w with pendingCpuHead := head, pc := .post c } := by
  unfold endAccumulate markCpuHead
  split
  · exact ⟨w.pendingCpuHead, rfl⟩
  · exact ⟨_, rfl⟩

theorem fillStep_turn {setup : Setup} {w : World} {c : Collect} (hpc : w.pc = .fill c) :
    Turn setup w c (fillStep setup w c) := by
  unfold fillStep
  split
  · rename_i hlim
    cases hp : pollFifo setup w with
    | none =>
        rcases endFill_eq setup w c with ⟨head, pc, heq, hcl⟩
        simp only [heq]
        exact .close head pc hcl
    | some r =>
        rcases r with ⟨p, w₁⟩
        rcases pollFifo_eq_some hp with ⟨f, -, -, -, hw₁⟩
        have hcmd : w₁.pendingCmd = w.pendingCmd := by rw [hw₁]
        -- An empty batch leaves the whole budget to the commands in flight.
        have hlt : c.batch = [] → c.preInflight < setup.effectiveMaxInflight := fun hb => by
          have h2 := hlim.2
          rw [hb, List.length_nil] at h2
          omega
        simp only
        cases hty : p.cmd.cmdType with
        | barrierNotify =>
            simp only
            split
            · rename_i hb
              exact .inlineNotify p w₁ hp hty hpc hb (hlt hb)
            · rename_i hb
              rcases endFill_eq setup { w₁ with hasPendingBarrier := true } c with
                ⟨head, pc, heq, hcl⟩
              rw [heq]
              exact .flagNotify p w₁ head pc hp hty (fun _ => hb) (hcmd ▸ hcl)
        | write =>
            simp only
            split
            · rename_i hb
              exact .first p w₁ hp hty hpc hb (hlt hb)
            · rename_i hb
              split
              · rename_i ha
                exact .join p w₁ _ hp hty ha (Or.inl ⟨hpc, rfl⟩)
              · rcases endFill_eq setup { w₁ with pendingCmd := some p } c with
                  ⟨head, pc, heq, rfl | ⟨-, -, hcl⟩⟩
                · rw [heq]
                  exact .stash p w₁ head hp hty (fun _ => hb)
                · -- A stashed command closes the batch without spinning.
                  exact absurd hcl (by simp only [reduceCtorEq, not_false_eq_true])
        | empty => exact .ignored p w₁ _ hp (by rw [hty]; decide) (by rw [hty]; decide)
                    (Or.inl ⟨hpc, rfl⟩)
        | fence => exact .ignored p w₁ _ hp (by rw [hty]; decide) (by rw [hty]; decide)
                    (Or.inl ⟨hpc, rfl⟩)
  · rcases endFill_eq setup w c with ⟨head, pc, heq, hcl⟩
    rw [heq]
    exact .close head pc hcl

theorem accumulateStep_turn {setup : Setup} {w : World} {c : Collect} {spin misses : Nat}
    (hpc : w.pc = .accumulate c spin misses) :
    Turn setup w c (accumulateStep setup w c spin misses) := by
  have hacc : ∃ s m, w.pc = .accumulate c s m := ⟨spin, misses, hpc⟩
  -- The thread is in the spin loop, so what is said of the poll loop is void.
  have hfill : w.pc = .fill c → c.batch ≠ [] := fun hc => by
    rw [hpc] at hc
    exact absurd hc (by simp only [reduceCtorEq, not_false_eq_true])
  unfold accumulateStep
  split
  · cases hp : pollFifo setup w with
    | none => exact .miss _ _ hacc
    | some r =>
        rcases r with ⟨p, w₁⟩
        simp only
        cases hty : p.cmd.cmdType with
        | barrierNotify =>
            rcases endAccumulate_eq setup { w₁ with hasPendingBarrier := true } c with ⟨head, heq⟩
            simp only [heq]
            exact .flagNotify p w₁ head _ hp hty hfill (Or.inl rfl)
        | write =>
            simp only
            split
            · rename_i ha
              exact .join p w₁ _ hp hty ha (Or.inr ⟨hacc, _, _, rfl⟩)
            · rcases endAccumulate_eq setup { w₁ with pendingCmd := some p } c with ⟨head, heq⟩
              rw [heq]
              exact .stash p w₁ head hp hty hfill
        | empty => exact .ignored p w₁ _ hp (by rw [hty]; decide) (by rw [hty]; decide)
                    (Or.inr ⟨hacc, _, _, rfl⟩)
        | fence => exact .ignored p w₁ _ hp (by rw [hty]; decide) (by rw [hty]; decide)
                    (Or.inr ⟨hacc, _, _, rfl⟩)
  · rcases endAccumulate_eq setup w c with ⟨head, heq⟩
    rw [heq]
    exact .close head _ (Or.inl rfl)

/-- The request of a stage barrier to one peer, from the staging slot given. -/
def barrierRequest (setup : Setup) (peer : PerPeerProxyData) (slot stagingSlot : Nat) :
    WorkRequest where
  wrId := 1
  imm := none
  rkey := peer.remoteBarrierRkey
  remoteAddr := peer.remoteBarrierAddr + 4 * BitVec.ofNat 64 slot
  dstAh := peer.dstAh
  dstQpn := peer.dstQpns 0
  lkey := setup.cfg.flagStaging.lkey
  addr := setup.cfg.flagStaging.slotAddr stagingSlot
  length := 4
  role := .barrier

/-- Where `run` goes on after `post_stage_barrier`. -/
def BarrierSite.next : BarrierSite → Pc
  | .gate => .loop
  | .inline preInflight => .fill ⟨[], 0, preInflight⟩

/-- One turn of the loop over peers in `post_stage_barrier`. A peer without a
    barrier address is skipped; a call that fails is reported and forgotten. -/
def stageBarrierStep (setup : Setup) (w : World) (site : BarrierSite) (p : Nat) (ok : Bool) :
    World :=
  if p < setup.cfg.numPeers then
    let peer := setup.cfg.perPeer p
    if peer.remoteBarrierAddr = 0 then { w with pc := .stageBarrier site (p + 1) }
    else
      let r := w.flags.stage setup.cfg.flagStaging.count w.epoch
      if ok then
        { w with
          flags := r.2
          nic := w.nic.post [barrierRequest setup peer 0 r.1]
          hist := w.hist ++ [Event.stageBarrier p w.epoch]
          pc := .stageCount site p }
      -- The slot stays taken, and the next peer is tried.
      else { w with flags := r.2, pc := .stageBarrier site (p + 1) }
  else { w with pc := site.next }

/-- One turn of the same loop where the host runs it, for a slot and a token of its own. Nobody
    polls the completion queue meanwhile, so the post and its count are one step. -/
def hostBarrierStep (setup : Setup) (w : World) (p slot : Nat) (token : BitVec 32) (ok : Bool) :
    World :=
  let r := w.flags.stage setup.cfg.flagStaging.count token
  if ok then
    { w with
      flags := r.2
      nic := w.nic.post [barrierRequest setup (setup.cfg.perPeer p) slot r.1]
      hist := w.hist ++ [Event.hostBarrier p slot token]
      inflight := w.inflight + 1 }
  else { w with flags := r.2 }

/-- One action of the proxy thread. -/
def proxyStep (setup : Setup) (w : World) (ok : Bool) (ne : Nat) : Option World :=
  match w.pc with
  | .loop => some { w with pc := if w.running then .pauseGate else .exitDrain }
  | .pauseGate => some { w with pc := if w.gate.paused then .ackStore else .barrierGate }
  | .ackStore => some { w with gate := { w.gate with ackPaused := true }, pc := .pausedSpin }
  | .pausedSpin => some { w with pc := if w.gate.paused then .pausedSpin else .ackClear }
  | .ackClear => some { w with gate := { w.gate with ackPaused := false }, pc := .loop }
  | .barrierGate =>
      -- The flag waits while a batch is to be retried or a command is stashed.
      if w.hasPendingBarrier = true ∧ w.pendingBatch = [] ∧ w.pendingCmd = none then
        some { w with hasPendingBarrier := false, pc := .drainCq .gate }
      else some { w with pc := .collect }
  | .drainCq site =>
      if 0 < w.inflight then some (pollNic drainReap w ne)
      else some { w with pc := .stageBarrier site 0 }
  | .stageBarrier site p => some (stageBarrierStep setup w site p ok)
  | .stageCount site p =>
      some { w with inflight := w.inflight + 1, pc := .stageBarrier site (p + 1) }
  | .collect => some (collectStep setup w)
  | .fill c => some (fillStep setup w c)
  | .accumulate c spin misses => some (accumulateStep setup w c spin misses)
  | .post c => some (postStep setup w c ok)
  | .account c =>
      -- The NIC may have reported the batch before it is counted.
      some { w with
        inflight := w.inflight + c.batch.length
        pendingBatch := []
        pc := .pollCq true }
  | .pollCq posted =>
      some { pollNic (reap setup) w ne with pc := if posted then .advanceTail else .loop }
  | .advanceTail =>
      -- The head marked when the batch was collected, which may be behind the one of now.
      let k := currentFifo setup w
      some { w with
        fifos := Function.update w.fifos k ((w.fifos k).advanceTail w.pendingCpuHead)
        pc := .loop }
  | .exitDrain =>
      if 0 < w.inflight then some (pollNic drainReap w ne) else some { w with pc := .exited }
  | .exited => none

inductive Action where
  /-- A device thread claims the next place of a FIFO. -/
  | claim (k : Nat) (cmd : TransferCmd)
  /-- The next command of a FIFO becomes readable. -/
  | publish (k : Nat)
  /-- The NIC executes a posted request. -/
  | place (i : Nat)
  /-- The NIC reports an executed request. -/
  | complete (i : Nat)
  /-- The NIC reports a peer's write with immediate data. -/
  | recv (r : Recv)
  /-- The host pauses or resumes the proxy. -/
  | host (a : Handshake.HostAction)
  /-- `stop`. -/
  | stop
  /-- One `ibv_poll_cq` of the host's `drain_cq`. -/
  | hostDrain (ne : Nat)
  /-- `reset_inflight`, which the host calls after `drain_cq`. -/
  | hostReset
  /-- `set_epoch`. -/
  | setEpoch (epoch : BitVec 32)
  /-- `commit_epoch` resets a FIFO. -/
  | fifoReset (k : Nat)
  /-- The host's `post_stage_barrier`, to one peer, with the answer of `ibv_wr_complete`. -/
  | hostBarrier (peer slot : Nat) (token : BitVec 32) (ok : Bool)
  /-- The proxy thread, with the answers of the verbs library. -/
  | proxy (ok : Bool) (ne : Nat)

/-- One action. The host drains, resets the in-flight counter and posts only
    while the proxy is stopped. It may be told not to pause for a new epoch,
    so `set_epoch` and the reset of the FIFOs can come at any time. -/
def step (setup : Setup) (w : World) : Action → Option World
  | .claim k cmd => some { w with fifos := Function.update w.fifos k ((w.fifos k).claim cmd) }
  | .publish k =>
      (w.fifos k).publish.map fun f => { w with fifos := Function.update w.fifos k f }
  | .place i => (w.nic.place i).map fun r => { w with nic := r.2 }
  | .complete i => (w.nic.complete i).map fun nic => { w with nic := nic }
  | .recv r =>
      if setup.notifyMode = .writeImm then some { w with nic := w.nic.notice r } else none
  | .host a => (w.gate.hostStep a).map fun g => { w with gate := g }
  | .stop => some { w with running := false }
  | .hostDrain ne =>
      if w.gate.Stopped ∧ 0 < w.inflight then some (pollNic drainReap w ne) else none
  | .hostReset =>
      if w.gate.Stopped ∧ w.inflight ≤ 0 then
        some { w with inflight := 0, hasPendingBarrier := false }
      else none
  | .setEpoch epoch =>
      some { w with
        epoch := epoch
        flags := { w.flags with senderSeq := fun _ => 0, stagingCursor := 0 } }
  | .fifoReset k => some { w with fifos := Function.update w.fifos k (w.fifos k).reset }
  | .hostBarrier p slot token ok =>
      if w.gate.Stopped ∧ p < setup.cfg.numPeers ∧ (setup.cfg.perPeer p).remoteBarrierAddr ≠ 0 then
        some (hostBarrierStep setup w p slot token ok)
      else none
  | .proxy ok ne => proxyStep setup w ok ne

section Sample

/-- A peer with every address known. -/
def samplePeer : PerPeerProxyData where
  dstAh := 1
  dstQpns := fun i => 0x40 + BitVec.ofNat 32 i
  remoteDataAddr := 0x100000
  remoteDataRkey := 1
  remoteFlagsAddr := 0x200000
  remoteFlagsRkey := 2
  remoteTailAddr := 0
  remoteTailRkey := 0
  remoteBarrierAddr := 0x300000
  remoteBarrierRkey := 3

/-- A proxy with one peer, one FIFO and two QPs, in the flat layout. -/
def sampleConfig : ProxyConfig where
  fifo := 0
  fifos := none
  numFifos := 1
  numQps := 2
  globalNumQps := 2
  logicalQueuesPerQp := 1
  localDataAddr := 0x400000
  localDataLkey := 4
  clocalDataAddr := 0
  clocalDataLkey := 0
  directDmabufEnabled := false
  localArrivalCount := 16
  flagStaging := ⟨64, 0x500000, 5⟩
  useArrivalQueue := false
  remoteQueueStride := 0
  enableRemoteTail := false
  epoch := 1
  maxInflight := 0
  sqDepth := 0
  pipelineEnabled := false
  numPeers := 1
  perPeer := fun _ => samplePeer
  peerSlotByRank := none

/-- The same proxy in either mode. -/
def writeImmSetup : Setup := Setup.ofMode sampleConfig .writeImm

def remoteFlagSetup : Setup := Setup.ofMode sampleConfig .remoteFlag

/-- A WRITE of one tile. -/
def writeCmd (lane : BitVec 16) (tile : BitVec 32) : TransferCmd :=
  { TransferCmd.zero with
    cmdType := .write
    dstRank := 1
    laneId := lane
    tileId := tile
    bytes := kTileBytes }

def notifyCmd : TransferCmd := { TransferCmd.zero with cmdType := .barrierNotify }

/-- A device thread pushes commands, one after the other. -/
def pushes (k : Nat) (cmds : List TransferCmd) : List Action :=
  cmds.flatMap fun cmd => [.claim k cmd, .publish k]

/-- The proxy thread runs on, and every call succeeds. -/
def goes (n : Nat) : List Action := List.replicate n (.proxy true 32)

end Sample

end Efa

end Internode

end MKernel
