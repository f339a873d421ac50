import MKernel.Core.Family
import MKernel.Core.SmallNumbers
import MKernel.Internode.Cx7.Routing
import MKernel.Internode.Efa.Session
import MKernel.Internode.Efa.Slots
import MKernel.Internode.Peers

/-!
# Who Feeds an Arrival Queue

Which nodes and which proxies write to a logical queue of a receiver.

No allocator gives a queue to a sender. A kernel computes a lane for each of its
chunks and each of its peers, the lane picks a FIFO and so a proxy, and the proxy
takes the lane for the number of the queue and counts the slots of that queue on
its own. If two proxies anywhere in the job took the same queue of a receiver,
both would start at slot 0 and one would overwrite the words of the other.

What prevents it is that the lanes of a peer are a block, and that the two ends
of a connection number each other consistently. `gemm_ar` uses the block of the
sender's slot at the receiver, `gemm_rs` that of the receiver's slot at the
sender; either way the receiver and the queue determine the sender, the peer slot
and what picks the FIFO (`Job.Sends.unique`). So a queue of a receiver has one
sending node and one proxy, the proxy's counter for it serves one destination,
and the slots are the first ones, each written once (`queues_fed`). Only WRITEs
have arrival words, so it does not matter what else is in the FIFOs, like the
notify that `gemm_ar` pushes at the end of an iteration.

## Main definitions

* `Sourced`: Where the commands in the FIFOs and the words posted come from.
* `QueueKernel`: The kernels that use arrival queues.
* `Job`: Nodes that run one of them.
* `Job.Sends`: What the kernel of a node pushes.
* `Job.Proxy`, `Job.step`: The proxies of all nodes, side by side.
* `Job.Fed`: What holds of the queues.

## Theorems

* `mem_flagWritesOf`: A word is that of a command from a FIFO of the proxy.
* `Job.Sends.unique`: Receiver and queue determine where a send comes from.
* `Job.queues_fed`: The queues in every run.
-/

namespace MKernel

namespace Internode

namespace Efa

open MKernel.Core

section Source

variable {setup : Setup} {w w' : World} {K : Nat → TransferCmd → Prop}

/-- A kernel pushes no other WRITEs to a FIFO. Commands of the other types may come
    at any time. -/
def Pushed (K : Nat → TransferCmd → Prop) : Action → Prop
  | .claim k cmd => cmd.cmdType = .write → K k cmd
  | _ => True

/-- The WRITEs in the FIFOs were pushed by the kernel, and each word posted is that
    of a command posted, and at the peer the command is for. -/
structure Sourced (setup : Setup) (K : Nat → TransferCmd → Prop) (w : World) : Prop where
  claimed : ∀ k, ∀ cmd ∈ (w.fifos k).claimed, cmd.cmdType = .write → K k cmd
  words : ∀ f ∈ flagWritesOf w.hist,
    f.cmd ∈ postedOf w.hist ∧ f.peerSlot = peerSlot setup [f.cmd]

theorem sourced_init : Sourced setup K (init setup) where
  claimed := fun _ _ h => absurd h List.not_mem_nil
  words := fun _ h => absurd h List.not_mem_nil

/-- A batch of one destination goes to the peer of any of its commands. -/
theorem peerSlot_of_sameRoute {qp : Nat} {batch : List Polled} (h : SameRoute setup qp batch)
    {p : Polled} (hp : p ∈ batch) : peerSlot setup batch = peerSlot setup [p] := by
  cases batch with
  | nil => exact absurd hp List.not_mem_nil
  | cons b bs =>
      have hdst := h.2 b List.mem_cons_self p hp
      simp only [peerSlot]
      cases setup.cfg.peerSlotByRank with
      | none => rfl
      | some slots => simp only [hdst]

/-- The WRITEs a step claims are pushed by the kernel. -/
theorem claimed_step {a : Action}
    (h : ∀ k, ∀ cmd ∈ (w.fifos k).claimed, cmd.cmdType = .write → K k cmd)
    (hok : Pushed K a) (hstep : step setup w a = some w') :
    ∀ k, ∀ cmd ∈ (w'.fifos k).claimed, cmd.cmdType = .write → K k cmd := by
  cases a with
  | claim j c =>
      rw [← Option.some.inj hstep]
      intro k cmd hcmd
      by_cases hkj : k = j
      · subst hkj
        simp only [Function.update_self, Fifo.claimed_claim] at hcmd
        rcases List.mem_append.mp hcmd with hold | hnew
        · exact h k cmd hold
        · rw [List.mem_singleton.mp hnew]
          exact hok
      · simp only [Function.update_of_ne hkj] at hcmd
        exact h k cmd hcmd
  -- A reset forgets places, and claims none.
  | fifoReset j =>
      rw [← Option.some.inj hstep]
      intro k cmd hcmd
      by_cases hkj : k = j
      · subst hkj
        simp only [Function.update_self] at hcmd
        exact h k cmd (List.mem_of_mem_take hcmd)
      · simp only [Function.update_of_ne hkj] at hcmd
        exact h k cmd hcmd
  | setEpoch epoch =>
      rw [← Option.some.inj hstep]
      exact h
  | _ =>
      intro k cmd hcmd
      rw [(step_frame (by exact trivial) hstep).claimed k] at hcmd
      exact h k cmd hcmd

theorem sourced_step {a : Action} (ho : OrderInv setup w) (h : Sourced setup K w)
    (hmode : setup.notifyMode = .remoteFlag) (hq : setup.cfg.useArrivalQueue = true)
    (hok : Pushed K a) (hstep : step setup w a = some w') : Sourced setup K w' := by
  refine ⟨claimed_step h.claimed hok hstep, ?_⟩
  rcases step_puts hstep with hun | ⟨epoch, rfl⟩ | ⟨ok, ne, c, rfl, hpc, hb, rfl⟩
  · rcases hun.hist with ⟨l, hhist, hflags, hposted⟩
    rw [hhist, flagWritesOf_append, hflags, List.append_nil, postedOf_append, hposted,
      List.append_nil]
    exact h.words
  · rw [← Option.some.inj hstep]
    exact h.words
  · cases ok with
    | false =>
        have hsame : (postStep setup w c false).hist = w.hist := by
          simp only [postStep, if_neg hb, Bool.false_eq_true, if_false]
        rw [hsame]
        exact h.words
    | true =>
        -- All words of the batch are for its one destination.
        have hsite := ho.site
        rw [hpc] at hsite
        rcases built_numbered (c := c) hmode hq (countsFrom_self w.flags) with
          ⟨-, -, hcmds, hpeer⟩
        have hhist : (postStep setup w c true).hist = w.hist ++
            [Event.posted c.batchQp (peerSlot setup c.batch) c.batch (built setup w c).1] := by
          rw [postStep_true hb]
        rw [hhist, flagWritesOf_append, postedOf_append]
        intro f hf
        rcases List.mem_append.mp hf with hold | hnew
        · exact ⟨List.mem_append_left _ (h.words f hold).1, (h.words f hold).2⟩
        · simp only [flagWritesOf, List.flatMap_singleton, Event.flagWrites] at hnew
          have hmem : f.cmd ∈ c.batch := by
            rw [← hcmds]
            exact List.mem_map_of_mem hnew
          refine ⟨List.mem_append_right _ ?_, ?_⟩
          · simpa only [postedOf, List.flatMap_singleton, Event.batch] using hmem
          · rw [hpeer f hnew, peerSlot_of_sameRoute hsite.1 hmem]

/-- A word is that of a command from a FIFO of the proxy, which the kernel has
    pushed there, and it is at the peer the command is for. -/
theorem mem_flagWritesOf (hmode : setup.notifyMode = .remoteFlag)
    (hq : setup.cfg.useArrivalQueue = true)
    (h : Reaches (step setup) (fun _ a => Pushed K a) (init setup) w) {f : FlagWrite}
    (hf : f ∈ flagWritesOf w.hist) :
    f.cmd.fifo ∈ readFifos setup ∧ K f.cmd.fifo f.cmd.cmd ∧
      f.peerSlot = peerSlot setup [f.cmd] := by
  have hinv := invariant_of_reaches (fun w => OrderInv setup w ∧ Sourced setup K w)
    (fun _ _ _ hi hok hstep => ⟨step_order hi.1 hstep, sourced_step hi.1 hi.2 hmode hq hok hstep⟩)
    h ⟨order_init, sourced_init⟩
  rcases hinv.2.words f hf with ⟨hposted, hpeer⟩
  -- What is posted is a WRITE that was polled, and what was polled is in a FIFO.
  have hwrite : f.cmd ∈ writesPolled w.hist := by
    rw [hinv.1.split]
    exact List.mem_append_left _ hposted
  rcases List.mem_filter.mp hwrite with ⟨hpolled, htype⟩
  have hread : f.cmd.cmd ∈ (w.fifos f.cmd.fifo).polled := by
    rw [← hinv.1.cmds]
    refine List.mem_map_of_mem (List.mem_filter.mpr ⟨hpolled, ?_⟩)
    exact decide_eq_true rfl
  exact ⟨(polled_readFifos h).polled f.cmd hpolled,
    hinv.2.claimed _ _ (List.mem_of_mem_take hread) (of_decide_eq_true htype), hpeer⟩

end Source

/-! ## Kernels -/

open Cx7 (Sender Push gemmArSend gemmRsSend queuesPerPeer)

/-- The kernels that use arrival queues, `gemm_rs` with its transport queue. -/
inductive QueueKernel where
  | gemmAr
  | gemmRs
  deriving DecidableEq, Repr

/-- A command for the node at the other end of a peer slot. -/
def addressed (g : Sender) (peerSlot : Nat) (rest : TransferCmd) : TransferCmd :=
  { rest with dstRank := BitVec.ofInt 8 (peerRankForSlot g.nodeIdx g.numNodes peerSlot) }

/-- Nodes that run one kernel with the same number of queues, seen from one
    device of each. The sessions have no other peers, all of them use arrival
    words, and there are as many queues as the kernel uses. -/
structure Job where
  numNodes : Nat
  kernel : QueueKernel
  numRemoteQueues : Nat
  numDevices : Nat
  devIdx : Nat
  session : Nat → Session
  peers : Nat → Nat → Nat → PerPeerProxyData
  rest : Nat → ProxyConfig
  two_le : 2 ≤ numNodes
  enough : numNodes - 1 ≤ numRemoteQueues
  rank : ∀ n < numNodes, (session n).cfg.rank = n
  numPeers_eq : ∀ n < numNodes, (session n).cfg.numPeers = (numNodes - 1 : Nat)
  peerRanks : ∀ n < numNodes, (session n).cfg.peerRanks = none
  useArrivalQueue : ∀ n < numNodes, (session n).cfg.useArrivalQueue = true
  remoteFlag : ∀ n < numNodes,
    (session n).env "MKERNEL_EFA_VERBS_NOTIFY_MODE" = some "remote_flag"
  within : ∀ n < numNodes, numRemoteQueues ≤ (session n).totalLogicalQueues

namespace Job

variable (j : Job)

def numPeers : Nat := j.numNodes - 1

def queuesPerPeer : Nat := Cx7.queuesPerPeer j.numRemoteQueues j.numNodes

def sender (n : Nat) : Sender where
  numDevices := j.numDevices
  devIdx := j.devIdx
  nodeIdx := n
  numNodes := j.numNodes

/-- The WRITEs that the kernel of a node pushes, for some shape of the problem. -/
inductive Sends (n : Nat) : Push → Prop where
  | gemmAr (arrivalIdx peerSlot : Nat) (rest : TransferCmd) (hk : j.kernel = .gemmAr)
      (hslot : peerSlot < j.numPeers) :
      Sends n (gemmArSend (j.sender n) j.numRemoteQueues arrivalIdx peerSlot
        (addressed (j.sender n) peerSlot rest))
  | gemmRs (rb chunksPerRow ci peerSlot : Nat) (rest : TransferCmd) (hk : j.kernel = .gemmRs)
      (hslot : peerSlot < j.numPeers) :
      Sends n (gemmRsSend (j.sender n) true j.numRemoteQueues rb chunksPerRow ci peerSlot
        (addressed (j.sender n) peerSlot rest))

/-- The block of queues for a peer slot: `gemm_ar` takes that of the slot at the
    other end. -/
def block (peerSlot : Nat) : Nat :=
  match j.kernel with
  | .gemmAr => j.numPeers - 1 - peerSlot
  | .gemmRs => peerSlot

/-- The lane that picks the FIFO, for a queue of a peer's block. -/
def fifoLane (peerSlot logicalQ : Nat) : BitVec 32 :=
  match j.kernel with
  | .gemmAr =>
    if 2 < j.numNodes then ((j.sender 0).channel peerSlot).setWidth 32
    else BitVec.ofNat 32 logicalQ
  | .gemmRs => (BitVec.ofNat 16 (peerSlot * j.queuesPerPeer + logicalQ)).setWidth 32

variable {j}

theorem numPeers_pos : 0 < j.numPeers := by
  have := j.two_le
  unfold numPeers
  omega

theorem numPeers_add_one : j.numPeers + 1 = j.numNodes := by
  have := j.two_le
  unfold numPeers
  omega

/-- The blocks of all peers fit into the queues. -/
theorem numPeers_mul_le : j.numPeers * j.queuesPerPeer ≤ j.numRemoteQueues := by
  rcases Cx7.queuesPerPeer_fit j.numRemoteQueues j.numNodes with hfit | hone
  · exact hfit
  · rw [queuesPerPeer, hone, Nat.mul_one]
    exact j.enough

theorem queuesPerPeer_pos : 0 < j.queuesPerPeer := Cx7.queuesPerPeer_pos _ _

/-- A queue of a block is one of the queues. -/
theorem block_queue_lt {b l : Nat} (hb : b < j.numPeers) (hl : l < j.queuesPerPeer) :
    b * j.queuesPerPeer + l < j.numRemoteQueues :=
  Nat.lt_of_lt_of_le (place_lt hb hl) j.numPeers_mul_le

theorem block_lt {p : Nat} (hp : p < j.numPeers) : j.block p < j.numPeers := by
  unfold block
  cases j.kernel <;> dsimp only <;> omega

theorem block_inj {p p' : Nat} (hp : p < j.numPeers) (hp' : p' < j.numPeers)
    (h : j.block p = j.block p') : p = p' := by
  unfold block at h
  cases hk : j.kernel <;> rw [hk] at h <;> dsimp only at h <;> omega

/-- Every block is that of some peer. -/
theorem exists_block {b : Nat} (hb : b < j.numPeers) : ∃ p < j.numPeers, j.block p = b := by
  unfold block
  cases j.kernel with
  | gemmAr => exact ⟨j.numPeers - 1 - b, by omega, by dsimp only; omega⟩
  | gemmRs => exact ⟨b, hb, rfl⟩

/-- There are no more queues than lanes. -/
theorem numRemoteQueues_le : j.numRemoteQueues ≤ 384 :=
  Nat.le_trans (j.within 0 (by have := j.two_le; omega)) (j.session 0).totalLogicalQueues_le

/-- A chunk of `gemm_ar` goes to a queue of the block of this node's slot at the
    peer. -/
theorem gemmArSend_spec (hk : j.kernel = .gemmAr) {peerSlot : Nat} (hslot : peerSlot < j.numPeers)
    (n arrivalIdx : Nat) (rest : TransferCmd) :
    let push := gemmArSend (j.sender n) j.numRemoteQueues arrivalIdx peerSlot
      (addressed (j.sender n) peerSlot rest)
    let l := arrivalIdx % j.numRemoteQueues % j.queuesPerPeer
    push.cmd.dstRank = BitVec.ofInt 8 (peerRankForSlot n j.numNodes peerSlot) ∧
      push.cmd.laneId.toNat = j.block peerSlot * j.queuesPerPeer + l ∧
      push.lane = j.fifoLane peerSlot l := by
  have hmany := j.numRemoteQueues_le
  have hnodes := j.numPeers_add_one
  have hl := Nat.mod_lt (arrivalIdx % j.numRemoteQueues) j.queuesPerPeer_pos
  have hlt := block_queue_lt (j.block_lt hslot) hl
  have hblock : j.block peerSlot = j.numPeers - 1 - peerSlot := by
    unfold block
    rw [hk]
  have hsap : (j.sender n).slotAtPeer peerSlot = (j.block peerSlot : Nat) := by
    rw [Cx7.Sender.slotAtPeer, hblock]
    exact (slotAtPeer_peerRankForSlot _ _ _ (by omega)
      (by simp only [sender]; omega)).trans (by simp only [sender]; omega)
  refine ⟨Cx7.dstRank_gemmArSend _ _ _ _ _, Cx7.laneId_gemmArSend hsap ?_, ?_⟩
  · exact Nat.lt_trans (Nat.lt_of_lt_of_le hlt hmany) (by decide)
  · have hcond : (2 < (j.sender n).numNodes) ↔ 2 < j.numNodes := by
      simp only [sender]
      omega
    simp only [gemmArSend, Cx7.gemmArPostSendCmd, fifoLane, hk, Cx7.routedWrite, and_true, hcond]
    split <;> rfl

/-- A chunk of `gemm_rs` goes to a queue of the block of the peer's slot. -/
theorem gemmRsSend_spec (hk : j.kernel = .gemmRs) {peerSlot : Nat} (hslot : peerSlot < j.numPeers)
    (n rb chunksPerRow ci : Nat) (rest : TransferCmd) :
    let push := gemmRsSend (j.sender n) true j.numRemoteQueues rb chunksPerRow ci peerSlot
      (addressed (j.sender n) peerSlot rest)
    let l := (rb * chunksPerRow + ci) % j.queuesPerPeer
    push.cmd.dstRank = BitVec.ofInt 8 (peerRankForSlot n j.numNodes peerSlot) ∧
      push.cmd.laneId.toNat = j.block peerSlot * j.queuesPerPeer + l ∧
      push.lane = j.fifoLane peerSlot l := by
  have hmany := j.numRemoteQueues_le
  have hl := Nat.mod_lt (rb * chunksPerRow + ci) j.queuesPerPeer_pos
  have hlt := block_queue_lt hslot hl
  have hblock : j.block peerSlot = peerSlot := by
    unfold block
    rw [hk]
  refine ⟨rfl, ?_, ?_⟩
  · rw [hblock]
    exact Cx7.laneId_gemmRsSend (Nat.lt_of_lt_of_le hlt (Nat.le_trans hmany (by decide)))
  · simp only [fifoLane, hk]
    rfl

/-- What a send comes to: a queue of the block of a peer slot, and the FIFO lane
    of that queue. -/
theorem Sends.spec {n : Nat} {push : Push} (h : j.Sends n push) :
    ∃ p < j.numPeers, ∃ l < j.queuesPerPeer,
      push.cmd.dstRank = BitVec.ofInt 8 (peerRankForSlot n j.numNodes p) ∧
      push.cmd.laneId.toNat = j.block p * j.queuesPerPeer + l ∧ push.lane = j.fifoLane p l := by
  cases h with
  | gemmAr arrivalIdx peerSlot rest hk hslot =>
      exact ⟨peerSlot, hslot, _, Nat.mod_lt _ j.queuesPerPeer_pos,
        gemmArSend_spec hk hslot n arrivalIdx rest⟩
  | gemmRs rb chunksPerRow ci peerSlot rest hk hslot =>
      exact ⟨peerSlot, hslot, _, Nat.mod_lt _ j.queuesPerPeer_pos,
        gemmRsSend_spec hk hslot n rb chunksPerRow ci rest⟩

/-- Every queue of a peer's block is the queue of some chunk. -/
theorem exists_send (n : Nat) {p l : Nat} (hp : p < j.numPeers) (hl : l < j.queuesPerPeer) :
    ∃ push, j.Sends n push ∧
      push.cmd.dstRank = BitVec.ofInt 8 (peerRankForSlot n j.numNodes p) ∧
      push.cmd.laneId.toNat = j.block p * j.queuesPerPeer + l := by
  cases hk : j.kernel with
  | gemmAr =>
      have hlt := block_queue_lt (j.block_lt hp) hl
      -- A chunk that arrives at index `l` is one.
      have hl' : l % j.numRemoteQueues % j.queuesPerPeer = l := by
        rw [Nat.mod_eq_of_lt (a := l) (b := j.numRemoteQueues) (by omega), Nat.mod_eq_of_lt hl]
      have hspec := gemmArSend_spec hk hp n l .zero
      rw [hl'] at hspec
      exact ⟨_, .gemmAr l p .zero hk hp, hspec.1, hspec.2.1⟩
  | gemmRs =>
      -- So is chunk `l` of the first row block.
      have hl' : (0 * 1 + l) % j.queuesPerPeer = l := by
        rw [Nat.zero_mul, Nat.zero_add, Nat.mod_eq_of_lt hl]
      have hspec := gemmRsSend_spec hk hp n 0 1 l .zero
      rw [hl'] at hspec
      exact ⟨_, .gemmRs 0 1 l p .zero hk hp, hspec.1, hspec.2.1⟩

/-- Ranks in a command are kept in a byte. -/
theorem numNodes_le : j.numNodes ≤ 17 := by
  have h0 : 0 < j.numNodes := by have := j.two_le; omega
  have hle := (j.session 0).numPeers_le
  rw [j.numPeers_eq 0 h0] at hle
  unfold Cx7.kMaxPeers at hle
  omega

/-- Receiver and queue determine where a send comes from and the FIFO lane. -/
theorem Sends.unique {n n' : Nat} (hn : n < j.numNodes) (hn' : n' < j.numNodes) {push push' : Push}
    (h : j.Sends n push) (h' : j.Sends n' push')
    (hdst : push.cmd.dstRank = push'.cmd.dstRank) (hq : push.cmd.laneId = push'.cmd.laneId) :
    n = n' ∧ push.lane = push'.lane := by
  rcases h.spec with ⟨p, hp, l, hl, hd, hlane, hfifo⟩
  rcases h'.spec with ⟨p', hp', l', hl', hd', hlane', hfifo'⟩
  have hN := j.numNodes_le
  have hpeers := j.numPeers_add_one
  rw [hq, hlane'] at hlane
  -- The same queue is in the same block, at the same place of it.
  have hsame := place_inj hl' hl hlane
  have hpp := j.block_inj hp hp' hsame.1.symm
  subst hpp
  refine ⟨?_, by rw [hfifo, hfifo', hsame.2]⟩
  -- And the receiver is that far ahead of one node only.
  rw [hd, hd'] at hdst
  exact dstRank_inj (by omega) hn hn' (by omega) hdst

/-! ## Proxies -/

variable (j) in
/-- The proxies that run on the nodes of a job. -/
def Proxy : Type :=
  { i : Nat × Nat // i.1 < j.numNodes ∧
    ((j.session i.1).proxy (j.peers i.1) (j.rest i.1) i.2).isSome }

instance : DecidableEq j.Proxy := inferInstanceAs (DecidableEq (Subtype _))

/-- The node and the thread of a proxy. -/
def Proxy.node (i : j.Proxy) : Nat := i.val.1

def Proxy.thread (i : j.Proxy) : Nat := i.val.2

def Proxy.setup (i : j.Proxy) : Setup :=
  ((j.session i.node).proxy (j.peers i.node) (j.rest i.node) i.thread).get i.property.2

/-- The kernel of a proxy's node pushes a WRITE to a FIFO. -/
def Proxy.Pushes (i : j.Proxy) (k : Nat) (cmd : TransferCmd) : Prop :=
  ∃ push, j.Sends i.node push ∧ push.cmd = cmd ∧ (j.session i.node).fifoBundle.select push.lane = k

/-- No post fails, and the WRITEs in the FIFOs are those the kernel pushes. -/
def Permits (i : j.Proxy) (t : Epochs) (a : Action) : Prop :=
  PostSucceeds t.proxy a ∧ Pushed i.Pushes a

variable (j) in
/-- One action of one proxy. -/
def step : (j.Proxy → Epochs) → j.Proxy × Action → Option (j.Proxy → Epochs) :=
  familyStep fun i => Epochs.step i.setup

variable (j) in
def init : j.Proxy → Epochs := fun i => Epochs.init i.setup

variable {i i' : j.Proxy}

theorem Proxy.node_lt (i : j.Proxy) : i.node < j.numNodes := i.property.1

theorem Proxy.proxy_eq (i : j.Proxy) :
    (j.session i.node).proxy (j.peers i.node) (j.rest i.node) i.thread = some i.setup :=
  (Option.some_get _).symm

theorem Proxy.setup_eq (i : j.Proxy) :
    i.setup = Setup.ofConfig ((j.session i.node).proxyConfig (j.peers i.node) (j.rest i.node)
      i.thread) ((j.session i.node).env "MKERNEL_EFA_VERBS_NOTIFY_MODE") := by
  have h := i.proxy_eq
  simp only [Session.proxy, Option.ite_none_right_eq_some, Option.some.injEq] at h
  exact h.2.symm

theorem Proxy.notifyMode (i : j.Proxy) : i.setup.notifyMode = .remoteFlag := by
  rw [i.setup_eq, j.remoteFlag i.node i.node_lt]
  rfl

theorem Proxy.useArrivalQueue (i : j.Proxy) : i.setup.cfg.useArrivalQueue = true := by
  rw [i.setup_eq]
  exact j.useArrivalQueue i.node i.node_lt

theorem Proxy.totalLogicalQueues (i : j.Proxy) :
    i.setup.totalLogicalQueues = (j.session i.node).totalLogicalQueues :=
  (j.session i.node).totalLogicalQueues_proxy i.proxy_eq

/-- A FIFO is read by one thread. -/
theorem Proxy.thread_eq (i : j.Proxy) {k : Nat} (h : k ∈ readFifos i.setup) :
    i.thread = k / (j.session i.node).fifosPerProxy := by
  rw [(j.session i.node).readFifos_proxy i.proxy_eq] at h
  rcases List.mem_map.mp h with ⟨x, hx, rfl⟩
  exact (place_div (List.mem_range.mp hx)).symm

/-! ## Queues -/

/-- The node an arrival word is written to. -/
def Proxy.receiver (i : j.Proxy) (f : FlagWrite) : Int :=
  peerRankForSlot i.node j.numNodes f.peerSlot

/-- Where a word of a proxy comes from: a send of the node's kernel, to the queue
    and the receiver of the word, on a FIFO the thread reads. -/
theorem word_spec {w : World}
    (h : Reaches (Efa.step i.setup) (fun _ a => Pushed i.Pushes a) (Efa.init i.setup) w)
    {f : FlagWrite} (hf : f ∈ flagWritesOf w.hist) :
    ∃ push, j.Sends i.node push ∧ push.cmd = f.cmd.cmd ∧
      i.thread = (j.session i.node).fifoBundle.select push.lane /
        (j.session i.node).fifosPerProxy ∧
      f.queue i.setup = f.cmd.cmd.laneId.toNat ∧
      f.cmd.cmd.dstRank = BitVec.ofInt 8 (i.receiver f) ∧
      f.peerSlot < j.numPeers ∧
      ∃ l < j.queuesPerPeer, f.queue i.setup = j.block f.peerSlot * j.queuesPerPeer + l := by
  rcases mem_flagWritesOf i.notifyMode i.useArrivalQueue h hf with
    ⟨hfifo, ⟨push, hsend, hcmd, hlane⟩, hslot⟩
  rcases hsend.spec with ⟨p, hp, l, hl, hdst, hlaneId, -⟩
  have hlt := i.node_lt
  have hrank := j.rank i.node hlt
  have hnum := j.numPeers_eq i.node hlt
  have hnodes : (j.numNodes : Int) = (j.session i.node).cfg.numPeers + 1 := by
    have := j.two_le
    omega
  have hpeers : (j.session i.node).numPeers = j.numPeers := by
    unfold Session.numPeers numPeers
    omega
  -- The proxy finds the peer slot again from the rank in the command.
  have hpeer : f.peerSlot = p := by
    have hback := (j.session i.node).peerSlotByRank_eq (j.peerRanks i.node hlt) (by omega)
      (by omega) (p := p) (by omega)
    rw [hslot, i.setup_eq]
    change ((j.session i.node).peerSlotByRank f.cmd.cmd.dstRank).toNat = p
    rw [← hcmd, hdst, hnodes, ← hrank, hback, Int.toNat_natCast]
  have hqueue : f.queue i.setup = f.cmd.cmd.laneId.toNat := by
    have hqlt := block_queue_lt (j.block_lt hp) hl
    have hwithin := j.within i.node hlt
    have htotal := (j.session i.node).totalLogicalQueues_pos
    rw [FlagWrite.queue, Setup.logicalQueue, i.totalLogicalQueues, if_pos htotal, ← hcmd]
    exact Nat.mod_eq_of_lt (by omega)
  refine ⟨push, hsend, hcmd, ?_, hqueue, ?_, hpeer ▸ hp, l, hl, ?_⟩
  · rw [hlane]
    exact i.thread_eq hfifo
  · rw [← hcmd, hdst, Proxy.receiver, hpeer]
  · rw [hqueue, ← hcmd, hlaneId, hpeer]

/-- What holds of the arrival queues of a job: a queue of a receiver is fed by
    one proxy, a proxy's counter serves one receiver, and the words of a queue
    are in its first slots, each written once. -/
structure Fed (s : j.Proxy → Epochs) : Prop where
  oneProxy : ∀ i i', ∀ f ∈ flagWritesOf (s i).events, ∀ f' ∈ flagWritesOf (s i').events,
    f.queue i.setup = f'.queue i'.setup → i.receiver f = i'.receiver f' → i = i'
  oneReceiver : ∀ i, ∀ f ∈ flagWritesOf (s i).events, ∀ f' ∈ flagWritesOf (s i).events,
    f.queue i.setup = f'.queue i.setup → i.receiver f = i.receiver f'
  slots : ∀ i q, ∀ f ∈ queueWrites i.setup q (s i).events,
    (queueWrites i.setup q (s i).events).map FlagWrite.addr =
      (List.range (queuePosted i.setup q (s i).events).length).map
        (i.setup.slotAddr f.peerSlot q) ∧
    ((queuePosted i.setup q (s i).events).length ≤ 2 ^ 32 →
      ((queueWrites i.setup q (s i).events).map FlagWrite.addr).Nodup)

/-- What a proxy does in a run of the job. -/
theorem reaches_proxy {s : j.Proxy → Epochs}
    (h : Reaches j.step (familyOk Permits) j.init s) (i : j.Proxy) :
    Reaches (Epochs.step i.setup) (Permits i) (Epochs.init i.setup) (s i) :=
  reaches_member h i

theorem reaches_world {s : j.Proxy → Epochs}
    (h : Reaches j.step (familyOk Permits) j.init s) (i : j.Proxy) :
    Reaches (Efa.step i.setup) (fun _ a => Pushed i.Pushes a) (Efa.init i.setup) (s i).proxy :=
  reaches_map Epochs.proxy (fun _ a _ hok hstep =>
    reaches_step (reaches_refl _ _ _) a hok.2 (proxy_of_step hstep)) (reaches_proxy h i)

theorem mem_hist_of_mem_events {t : Epochs} {f : FlagWrite} (h : f ∈ flagWritesOf t.events) :
    f ∈ flagWritesOf t.proxy.hist := by
  rw [hist_eq t, flagWritesOf_append]
  exact List.mem_append_right _ h

/-- A queue of a receiver is that of one sending node. -/
theorem sender_unique {r q : Nat} (hr : r < j.numNodes)
    (hq : q < j.numPeers * j.queuesPerPeer) :
    ∃! n, n < j.numNodes ∧ ∃ push, j.Sends n push ∧
      push.cmd.dstRank = BitVec.ofNat 8 r ∧ push.cmd.laneId.toNat = q := by
  have hpeers := j.numPeers_add_one
  have hb : q / j.queuesPerPeer < j.numPeers :=
    (Nat.div_lt_iff_lt_mul j.queuesPerPeer_pos).mpr hq
  rcases j.exists_block hb with ⟨p, hp, hblock⟩
  rcases exists_peerRankForSlot (p := p) hr (by omega) with ⟨n, hn, hrank⟩
  rcases j.exists_send n hp (Nat.mod_lt q j.queuesPerPeer_pos) with ⟨push, hsend, hdst, hlane⟩
  rw [hrank, BitVec.ofInt_natCast] at hdst
  rw [hblock, Nat.div_add_mod'] at hlane
  -- Some node sends there, and `Sends.unique` says no other does.
  refine ⟨n, ⟨hn, push, hsend, hdst, hlane⟩, ?_⟩
  rintro n' ⟨hn', push', hsend', hdst', hlane'⟩
  exact (Sends.unique hn' hn hsend' hsend (hdst'.trans hdst.symm)
    (BitVec.eq_of_toNat_eq (hlane'.trans hlane.symm))).1

variable (j) in
/-- In every run without a failed post, the queues of a job are fed as its
    receivers rely on; and a queue of a receiver is that of one sending node. -/
theorem queues_fed {s : j.Proxy → Epochs}
    (h : Reaches j.step (familyOk Permits) j.init s) :
    j.Fed s ∧ ∀ r < j.numNodes, ∀ q < j.numPeers * j.queuesPerPeer,
      ∃! n, n < j.numNodes ∧ ∃ push, j.Sends n push ∧
        push.cmd.dstRank = BitVec.ofNat 8 r ∧ push.cmd.laneId.toNat = q := by
  have honeReceiver : ∀ i, ∀ f ∈ flagWritesOf (s i).events, ∀ f' ∈ flagWritesOf (s i).events,
      f.queue i.setup = f'.queue i.setup → f.peerSlot = f'.peerSlot := by
    intro i f hf f' hf' hqueue
    rcases word_spec (reaches_world h i) (mem_hist_of_mem_events hf) with
      ⟨-, -, -, -, -, -, hp, l, hl, hq⟩
    rcases word_spec (reaches_world h i) (mem_hist_of_mem_events hf') with
      ⟨-, -, -, -, -, -, hp', l', hl', hq'⟩
    -- Two queues of one number are in one block, and a block is one peer's.
    rw [hqueue, hq'] at hq
    exact j.block_inj hp hp' (place_inj hl' hl hq).1.symm
  refine ⟨⟨?_, ?_, ?_⟩, fun r hr q hq => j.sender_unique hr hq⟩
  · intro i i' f hf f' hf' hqueue hreceiver
    rcases word_spec (reaches_world h i) (mem_hist_of_mem_events hf) with
      ⟨push, hsend, hcmd, hthread, hlane, hdst, -⟩
    rcases word_spec (reaches_world h i') (mem_hist_of_mem_events hf') with
      ⟨push', hsend', hcmd', hthread', hlane', hdst', -⟩
    rw [← hcmd] at hlane hdst
    rw [← hcmd'] at hlane' hdst'
    -- Node and FIFO are determined, and a FIFO is read by one thread.
    have hunique := Sends.unique i.node_lt i'.node_lt hsend hsend'
      (by rw [hdst, hdst', hreceiver])
      (BitVec.eq_of_toNat_eq (by rw [← hlane, ← hlane', hqueue]))
    refine Subtype.ext (Prod.ext hunique.1 ?_)
    change i.thread = i'.thread
    rw [hthread, hthread', hunique.2, hunique.1]
  · intro i f hf f' hf' hqueue
    rw [Proxy.receiver, Proxy.receiver, honeReceiver i f hf f' hf' hqueue]
  · intro i q f hf
    have hdense := dense_of_slotInv (slotInv_of_reaches i.notifyMode i.useArrivalQueue
      (reaches_mono (fun _ _ hok => hok.1) (reaches_proxy h i))) q
    -- All words of the queue go to one receiver, so they are its first slots.
    have hall : ∀ g ∈ queueWrites i.setup q (s i).events, g.peerSlot = f.peerSlot := by
      intro g hg
      rcases List.mem_filter.mp hg with ⟨hgm, hgq⟩
      rcases List.mem_filter.mp hf with ⟨hfm, hfq⟩
      exact honeReceiver i g hgm f hfm
        ((of_decide_eq_true hgq).trans (of_decide_eq_true hfq).symm)
    exact ⟨hdense.prefix_eq f.peerSlot hall, hdense.once f.peerSlot hall⟩

end Job

section Sample

/-- Three nodes that run `gemm_ar` with four queues. -/
def threeNodes : Job where
  numNodes := 3
  kernel := .gemmAr
  numRemoteQueues := 4
  numDevices := 8
  devIdx := 0
  session := fun n =>
    { cfg :=
        { rank := n
          numPeers := 2
          peerRanks := none
          numTiles := 64
          maxInflight := 32
          numQps := 4
          logicalQueuesPerQp := 1
          numProxyThreads := 1
          useArrivalQueue := true
          numRails := 1 }
      env := fun name =>
        if name = "MKERNEL_EFA_VERBS_NOTIFY_MODE" then some "remote_flag" else none
      numPeers_pos := by change (0 : Int) < 2; decide
      numPeers_le := by change (2 : Int) ≤ 16; decide }
  peers := fun _ _ _ => samplePeer
  rest := fun _ => sampleConfig
  two_le := two_le_three
  enough := by decide
  rank := fun _ _ => rfl
  numPeers_eq := fun _ _ => rfl
  peerRanks := fun _ _ => rfl
  useArrivalQueue := fun _ _ => rfl
  remoteFlag := fun _ _ => rfl
  within := fun _ _ => by change 4 ≤ 4; exact le_refl 4

def firstProxy : threeNodes.Proxy := ⟨(0, 0), by decide⟩

/-- The first chunk of the first node, for the next node. -/
def firstSend : Cx7.Push :=
  Cx7.gemmArSend (threeNodes.sender 0) 4 0 0 (addressed (threeNodes.sender 0) 0 (writeCmd 0 5))

/-- The second chunk of the first node, for the same node. -/
def laterSend : Cx7.Push :=
  Cx7.gemmArSend (threeNodes.sender 0) 4 1 0 (addressed (threeNodes.sender 0) 0 (writeCmd 0 6))

/-- An action that claims no place for a WRITE. -/
def Action.NoWrite : Action → Prop
  | .claim _ cmd => cmd.cmdType ≠ .write
  | _ => True

instance (a : Action) : Decidable a.NoWrite := by
  unfold Action.NoWrite
  apply @Action.casesOn _ a <;> intros <;> infer_instance

/-- Actions of the first proxy that push no WRITE, and fail no post. -/
def firstRuns (actions : List Action) (s : threeNodes.Proxy → Epochs) :
    Option (threeNodes.Proxy → Epochs) :=
  run threeNodes.step (familyOk fun _ t a => PostSucceeds t.proxy a ∧ a.NoWrite)
    (actions.map fun a => (firstProxy, a)) s

theorem reaches_firstRuns {actions : List Action} {s s' : threeNodes.Proxy → Epochs}
    (h : firstRuns actions s = some s') : Reaches threeNodes.step (familyOk Job.Permits) s s' := by
  refine reaches_mono (fun s x hok => ⟨hok.1, ?_⟩) (reaches_of_run _ _ _ h)
  rcases x with ⟨i, a⟩
  cases a with
  | claim k cmd => exact fun hw => absurd hw hok.2
  | _ => trivial

/-- The first chunk is pushed. -/
def firstPushed : threeNodes.Proxy → Epochs :=
  (threeNodes.step threeNodes.init (firstProxy, .claim 0 firstSend.cmd)).get (by decide +kernel)

/-- It is posted and completed, the notify at the end of the iteration is polled and sent, and the
    next epoch is set. -/
def secondEpoch : threeNodes.Proxy → Epochs :=
  (firstRuns (Action.publish 0 :: goes 16 ++ [.place 0, .place 0, .complete 0, .complete 0] ++
    pushes 0 [notifyCmd] ++ goes 17 ++ [.setEpoch 2]) firstPushed).get (by decide +kernel)

/-- The second chunk is pushed. -/
def laterPushed : threeNodes.Proxy → Epochs :=
  (threeNodes.step secondEpoch (firstProxy, .claim 0 laterSend.cmd)).get (by decide +kernel)

/-- It is posted in its turn. -/
def laterPosted : threeNodes.Proxy → Epochs :=
  (firstRuns (Action.publish 0 :: goes 16) laterPushed).get (by decide +kernel)

theorem reaches_laterPosted :
    Reaches threeNodes.step (familyOk Job.Permits) threeNodes.init laterPosted := by
  have hfirst : Reaches threeNodes.step (familyOk Job.Permits) threeNodes.init firstPushed :=
    reaches_step (reaches_refl _ _ _) (firstProxy, .claim 0 firstSend.cmd) ⟨trivial, fun _ =>
      ⟨firstSend, .gemmAr 0 0 (writeCmd 0 5) rfl (by decide), rfl, by decide⟩⟩
      (Option.some_get _).symm
  have hepoch : Reaches threeNodes.step (familyOk Job.Permits) threeNodes.init secondEpoch :=
    reaches_trans hfirst (reaches_firstRuns (Option.some_get _).symm)
  have hsecond : Reaches threeNodes.step (familyOk Job.Permits) threeNodes.init laterPushed :=
    reaches_step hepoch (firstProxy, .claim 0 laterSend.cmd) ⟨trivial, fun _ =>
      ⟨laterSend, .gemmAr 1 0 (writeCmd 0 6) rfl (by decide), rfl, by decide⟩⟩
      (Option.some_get _).symm
  exact reaches_trans hsecond (reaches_firstRuns (Option.some_get _).symm)

theorem queues_fed_threeNodes :
    (flagWritesOf (laterPosted firstProxy).proxy.hist).length = 2 ∧
      (flagWritesOf (laterPosted firstProxy).events).length = 1 ∧ threeNodes.Fed laterPosted :=
  ⟨by decide +kernel, by decide +kernel, (Job.queues_fed threeNodes reaches_laterPosted).1⟩

end Sample

end Efa

end Internode

end MKernel
