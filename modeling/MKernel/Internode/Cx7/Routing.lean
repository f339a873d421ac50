import MKernel.Internode.Cx7.Proxy
import MKernel.Internode.Cx7.Session
import MKernel.Internode.Peers

/-!
# Routing on CX7

Whether a command reaches the proxy that has its QP, and whether that QP leads
to the peer the command is for.

A kernel picks a FIFO by one number and the proxy that reads the FIFO picks a QP
by another. Which numbers these are is decided in different places. A kernel
uses the lane of the command, except `gemm_ar` with several peers, which uses
the channel: the peer slot and the device in one byte. The proxies use the
channel where they are told to, by the session or by the environment, and the
lane otherwise. A proxy drops what is not for one of its QPs. With several
proxies all commands are therefore accepted exactly where both sides use the
same number (`routing_accepted_iff`).

In a channel the peer slot counts in steps of the number of devices, and the QPs
of a channelised session belong to the peers in blocks of another size, the
number of QPs divided by the number of peers. A channel leads to its peer
exactly where the two sizes agree (`channel_routed_iff`).

## Main definitions

* `Build`: The number of devices a kernel is compiled for.
* `Sender`, `Push`: A device that sends, and what it pushes on which lane.
* `Kernel`, `Pushes`: The kernels, and what each of them pushes.
* `Session.Accepted`: The proxy that polls a command has its QP.
* `Session.PeerRouted`: A channel leads to its peer, and so do the addresses.

## Theorems

* `select_eq`, `inRange_iff`: The block a lane falls into, on both sides.
* `accepted_iff`: One command.
* `routing_accepted_iff`: All commands of a kernel.
* `channel_routed_iff`: All channels of a session.
-/

namespace MKernel

namespace Internode

namespace Cx7

/-- `INTRA_NUM_DEVICES`. -/
structure Build where
  numDevices : Nat
  numDevices_pos : 0 < numDevices

/-- A device that sends to other nodes. -/
structure Sender where
  numDevices : Nat
  devIdx : Nat
  nodeIdx : Int
  numNodes : Int

/-- A command, and the lane its FIFO is picked by. -/
structure Push where
  lane : BitVec 32
  cmd : TransferCmd

/-- `reserved0`: a peer slot and a device. -/
def channel (numDevices peerSlot devIdx : Nat) : BitVec 8 :=
  BitVec.ofNat 8 (peerSlot * numDevices + devIdx)

def Sender.channel (g : Sender) (peerSlot : Nat) : BitVec 8 :=
  Cx7.channel g.numDevices peerSlot g.devIdx

/-- This device's slot at the peer in a slot. -/
def Sender.slotAtPeer (g : Sender) (peerSlot : Nat) : Int :=
  Internode.slotAtPeer g.nodeIdx (peerRankForSlot g.nodeIdx g.numNodes peerSlot) g.numNodes

/-- `queues_per_peer`. -/
def queuesPerPeer (numRemoteQueues : Nat) (numNodes : Int) : Nat :=
  max 1 (numRemoteQueues / max 1 (numNodes - 1).toNat)

/-- A WRITE with its lane and its channel; the other fields are `rest`'s. -/
def routedWrite (rest : TransferCmd) (laneId : BitVec 16) (reserved0 : BitVec 8) : TransferCmd :=
  { rest with cmdType := .write, laneId := laneId, reserved0 := reserved0 }

/-- A command pushed on its own lane. -/
def pushOnLane (cmd : TransferCmd) : Push := ⟨cmd.laneId.setWidth 32, cmd⟩

/-- `gemm_ar_post_send_cmd`. -/
def gemmArPostSendCmd (g : Sender) (targetRxId : Nat) (cmd : TransferCmd) : Push :=
  if 2 < g.numNodes ∧ cmd.cmdType = .write then ⟨cmd.reserved0.setWidth 32, cmd⟩
  else ⟨BitVec.ofNat 32 targetRxId, cmd⟩

/-- `fused_inter_send_sm` of `gemm_ar`, for one chunk and one peer. -/
def gemmArSend (g : Sender) (numRemoteQueues arrivalIdx peerSlot : Nat) (rest : TransferCmd) :
    Push :=
  let queuesPerPeer := queuesPerPeer numRemoteQueues g.numNodes
  let logicalQ := arrivalIdx % numRemoteQueues % queuesPerPeer
  gemmArPostSendCmd g logicalQ
    (routedWrite rest (BitVec.ofInt 16 (g.slotAtPeer peerSlot * queuesPerPeer + logicalQ))
      (g.channel peerSlot))

/-- The send of `gemm_rs`, for one chunk and one peer. -/
def gemmRsSend (g : Sender) (useTransportArrivalQueue : Bool)
    (numRemoteQueues rb chunksPerRow ci peerSlot : Nat) (rest : TransferCmd) : Push :=
  let queuesPerPeer := queuesPerPeer numRemoteQueues g.numNodes
  let logicalQ := (rb * chunksPerRow + ci) % queuesPerPeer
  let lane := if useTransportArrivalQueue then peerSlot * queuesPerPeer + logicalQ
    else rb * chunksPerRow + ci
  pushOnLane (routedWrite rest (BitVec.ofNat 16 lane) (g.channel peerSlot))

/-- `post_merge_wrs_for_intra_row` and `post_ring_forward_wrs_for_intra_row` of
    `ag_gemm`, for one part of a row block. Both send to the next node only. -/
def agGemmSend (g : Sender) (rb split sw : Nat) (rest : TransferCmd) : Push :=
  pushOnLane (routedWrite rest (BitVec.ofNat 16 (rb * split + sw)) (g.channel 0))

/-- `fused_inter_send_sm` of `dispatch_gemm`, for one chunk and one peer. -/
def dispatchGemmSend (g : Sender) (chunkId peerSlot : Nat) (rest : TransferCmd) : Push :=
  pushOnLane (routedWrite rest (BitVec.ofNat 16 chunkId) (g.channel peerSlot))

/-- The number of chunks of a buffer of `ring_attention`, whose size is an
    `int`. -/
def ringChunks (bytes : BitVec 31) : Nat := (bytes.toNat + 256 * 1024 - 1) / (256 * 1024)

/-- `kv_stage_and_send_sm` of `ring_attention`, for one chunk and one peer. The
    FIFO is picked before the chunk is cut down to a lane. -/
def ringAttentionSend (g : Sender) (chunkId peerSlot : Nat) (rest : TransferCmd) : Push :=
  ⟨BitVec.ofNat 32 chunkId, routedWrite rest (BitVec.ofNat 16 chunkId) (g.channel peerSlot)⟩

/-- The kernels that send to other nodes. -/
inductive Kernel where
  | gemmAr
  | gemmRs
  | agGemm
  | dispatchGemm
  | ringAttention
  deriving DecidableEq, Repr

/-- What a device pushes in a kernel, for some shape of the problem. A kernel
    has no more remote queues than there are lanes. -/
inductive Pushes (g : Sender) : Kernel → Push → Prop where
  | gemmAr (numRemoteQueues arrivalIdx peerSlot : Nat) (rest : TransferCmd)
      (hpos : 0 < numRemoteQueues) (hle : numRemoteQueues ≤ 2 ^ 16)
      (hslot : (peerSlot : Int) < g.numNodes - 1) :
      Pushes g .gemmAr (gemmArSend g numRemoteQueues arrivalIdx peerSlot rest)
  | gemmRs (useTransportArrivalQueue : Bool) (numRemoteQueues rb chunksPerRow ci peerSlot : Nat)
      (rest : TransferCmd) (hslot : (peerSlot : Int) < g.numNodes - 1) :
      Pushes g .gemmRs
        (gemmRsSend g useTransportArrivalQueue numRemoteQueues rb chunksPerRow ci peerSlot rest)
  | agGemm (rb split sw : Nat) (rest : TransferCmd) :
    Pushes g .agGemm (agGemmSend g rb split sw rest)
  | dispatchGemm (chunkId peerSlot : Nat) (rest : TransferCmd)
      (hslot : (peerSlot : Int) < g.numNodes - 1) :
      Pushes g .dispatchGemm (dispatchGemmSend g chunkId peerSlot rest)
  | ringAttention (kBytes vBytes : BitVec 31) (chunkId peerSlot : Nat) (rest : TransferCmd)
      (hchunk : chunkId < ringChunks kBytes + ringChunks vBytes)
      (hslot : (peerSlot : Int) < g.numNodes - 1) :
      Pushes g .ringAttention (ringAttentionSend g chunkId peerSlot rest)

/-- Whether a kernel picks the FIFO by the channel rather than by the lane. -/
def Kernel.keyedByChannel (k : Kernel) (numPeers : Nat) : Bool :=
  match k with
  | .gemmAr => decide (1 < numPeers)
  | _ => false

/-- The number the proxies route a command by. -/
def routingKey (channels : Bool) (cmd : TransferCmd) : Nat :=
  if channels then cmd.reserved0.toNat else cmd.laneId.toNat

namespace Session

variable (s : Session) (infos : Nat → ConnectionInfo) (rest : ProxyConfig) (env : Option String)

/-- The senders of a session: the devices of its node. -/
def sender (build : Build) (dev : Fin build.numDevices) : Sender where
  numDevices := build.numDevices
  devIdx := dev
  nodeIdx := s.cfg.rank
  numNodes := s.cfg.numPeers + 1

/-- The FIFO a command is pushed to is polled by a proxy that has the QP it
    routes the command to. -/
def Accepted (push : Push) : Prop :=
  ∃ p ∈ s.proxy infos rest env (s.fifoBundle.select push.lane), p.InRange (p.localQp push.cmd)

variable {s infos rest env}

/-- The blocks the kernels divide the QPs into. -/
theorem select_eq (h : 1 < s.numProxyThreads) (lane : BitVec 32) :
    s.fifoBundle.select lane = lane.toNat % s.numQps / s.qpsPerProxy := by
  have hqps := s.numQps_pos
  have hblock := s.qpsPerProxy_pos
  have hlt : lane.toNat % s.numQps / s.qpsPerProxy < s.numProxyThreads := by
    rw [Nat.div_lt_iff_lt_mul hblock, Nat.mul_comm]
    exact Nat.lt_of_lt_of_le (Nat.mod_lt _ hqps) s.numQps_le_mul
  simp only [FifoBundle.select, fifoBundle, Int.toNat_natCast, Int.natCast_pos, hqps, hblock,
    if_true]
  rw [if_neg (by omega), if_neg (by omega)]

/-- With one proxy all commands are in one FIFO. -/
theorem select_single (h : s.numProxyThreads = 1) (lane : BitVec 32) :
    s.fifoBundle.select lane = 0 := by
  simp only [FifoBundle.select, fifoBundle, h, Int.natCast_one, le_refl, if_true]

theorem mem_proxy {t : Nat} {p : Setup} (h : p ∈ s.proxy infos rest env t) :
    p = Setup.ofConfig (s.proxyConfig infos rest t) env ∧ t < s.numProxyThreads ∧
      0 < s.localQps t := by
  unfold proxy at h
  split at h
  · rename_i hcond
    exact ⟨(Option.some.inj h).symm, hcond⟩
  · exact absurd h (Option.not_mem_none p)

/-- Each QP is some proxy's. -/
theorem exists_proxy {qp : Nat} (hq : qp < s.numQps) :
    ∃ p, p ∈ s.proxy infos rest env (qp / s.qpsPerProxy) := by
  have hblock := s.qpsPerProxy_pos
  have hlt : qp / s.qpsPerProxy < s.numProxyThreads := by
    rw [Nat.div_lt_iff_lt_mul hblock, Nat.mul_comm]
    exact Nat.lt_of_lt_of_le hq s.numQps_le_mul
  have hle := Nat.div_mul_le_self qp s.qpsPerProxy
  refine ⟨_, if_pos ⟨hlt, ?_⟩⟩
  unfold localQps
  omega

/-- The QP a proxy routes a command to. -/
theorem routeGlobalQp_eq {t : Nat} {p : Setup} (h : p ∈ s.proxy infos rest env t)
    (cmd : TransferCmd) :
    p.routeGlobalQp cmd = (routingKey (s.routesChannels env) cmd % s.numQps : Nat) := by
  have hqps := s.numQps_pos
  have hle := s.numQps_le
  have hglobal : p.globalNumQps = s.numQps := by
    have hcfg : (s.proxyConfig infos rest t).globalNumQps = s.numQps := rfl
    rw [(mem_proxy h).1]
    change (s.proxyConfig infos rest t).goodGlobalNumQps.toNat = s.numQps
    rw [ProxyConfig.goodGlobalNumQps, hcfg, if_neg (by omega), Int.toNat_natCast]
  have hchannels : p.channelizeGpuPeers = s.routesChannels env := by
    rw [(mem_proxy h).1]
    rfl
  simp only [Setup.routeGlobalQp, routingKey, hglobal, hchannels]
  split
  · rw [BitVec.toNat_umod, BitVec.toNat_ofNat, Nat.mod_eq_of_lt (by omega : s.numQps < 2 ^ 8)]
  · rfl

/-- The blocks the proxies divide the QPs into. -/
theorem inRange_iff {t : Nat} {p : Setup} (h : p ∈ s.proxy infos rest env t)
    (cmd : TransferCmd) :
    p.InRange (p.localQp cmd) ↔
      routingKey (s.routesChannels env) cmd % s.numQps / s.qpsPerProxy = t := by
  have hblock := s.qpsPerProxy_pos
  have hlt : routingKey (s.routesChannels env) cmd % s.numQps < s.numQps :=
    Nat.mod_lt _ s.numQps_pos
  have hlocal : (p.numQps : Int) = s.localQps t := by
    have hpos := (mem_proxy h).2.2
    have hcfg : (s.proxyConfig infos rest t).numQps = s.localQps t := rfl
    rw [(mem_proxy h).1]
    change ((s.proxyConfig infos rest t).goodNumQps.toNat : Int) = s.localQps t
    rw [ProxyConfig.goodNumQps, hcfg, if_neg (by omega), Int.toNat_of_nonneg (by omega)]
  have hbase : p.cfg.qpBaseIdx = (t * s.qpsPerProxy : Nat) := by
    rw [(mem_proxy h).1]
    rfl
  rw [Setup.InRange, hlocal, Setup.localQp, routeGlobalQp_eq h, hbase, localQps,
    Nat.div_eq_iff hblock]
  omega

/-- A command is accepted exactly where there is one proxy, or its lane and the
    number it is routed by fall into the same block. -/
theorem accepted_iff (push : Push) :
    s.Accepted infos rest env push ↔ s.numProxyThreads = 1 ∨
      push.lane.toNat % s.numQps / s.qpsPerProxy =
        routingKey (s.routesChannels env) push.cmd % s.numQps / s.qpsPerProxy := by
  have hlane : push.lane.toNat % s.numQps < s.numQps := Nat.mod_lt _ s.numQps_pos
  have hkey : routingKey (s.routesChannels env) push.cmd % s.numQps < s.numQps :=
    Nat.mod_lt _ s.numQps_pos
  have hpos := s.numProxyThreads_pos
  by_cases hone : s.numProxyThreads = 1
  · refine iff_of_true ?_ (Or.inl hone)
    -- The one proxy has all QPs.
    have hzero : ∀ qp, qp < s.numQps → qp / s.qpsPerProxy = 0 := by
      intro qp hq
      have hmul := s.numQps_le_mul
      rw [hone, Nat.mul_one] at hmul
      exact Nat.div_eq_of_lt (by omega)
    rcases exists_proxy hkey with ⟨p, hp⟩
    rw [hzero _ hkey] at hp
    refine ⟨p, by rw [select_single hone]; exact hp, ?_⟩
    rw [inRange_iff hp, hzero _ hkey]
  · rw [or_iff_right hone]
    constructor
    · rintro ⟨p, hp, hin⟩
      rw [inRange_iff hp, select_eq (by omega)] at hin
      exact hin.symm
    · intro heq
      rcases exists_proxy  hlane with ⟨p, hp⟩
      refine ⟨p, by rw [select_eq (by omega)]; exact hp, ?_⟩
      rw [inRange_iff hp, heq]

end Session

/-- A lane of 16 bits keeps a small number. -/
theorem toNat_lane {n : Nat} (h : n < 2 ^ 16) : (BitVec.ofInt 16 (n : Int)).toNat = n := by
  rw [BitVec.ofInt_natCast, BitVec.toNat_ofNat, Nat.mod_eq_of_lt h]

theorem queuesPerPeer_pos (numRemoteQueues : Nat) (numNodes : Int) :
    0 < queuesPerPeer numRemoteQueues numNodes := by
  unfold queuesPerPeer
  omega

/-- The blocks of all peers fit into the queues, or there are fewer queues than
    peers and each peer has one. -/
theorem queuesPerPeer_fit (numRemoteQueues numNodes : Nat) :
    (numNodes - 1) * queuesPerPeer numRemoteQueues numNodes ≤ numRemoteQueues ∨
      queuesPerPeer numRemoteQueues numNodes = 1 := by
  have hcast : ((numNodes : Int) - 1).toNat = numNodes - 1 := by omega
  rw [queuesPerPeer, hcast]
  by_cases hmany : max 1 (numNodes - 1) ≤ numRemoteQueues
  · have hdiv : 1 ≤ numRemoteQueues / max 1 (numNodes - 1) :=
      (Nat.one_le_div_iff (by omega)).mpr hmany
    rw [Nat.max_eq_right hdiv]
    exact Or.inl (Nat.le_trans (Nat.mul_le_mul_right _ (Nat.le_max_right _ _))
      (Nat.mul_div_le _ _))
  · rw [Nat.div_eq_of_lt (by omega)]
    exact Or.inr rfl

/-- The queues of all blocks fit into a lane. -/
theorem block_queue_fits {numRemoteQueues numNodes b k : Nat}
    (hqueues : numRemoteQueues ≤ 2 ^ 16) (hnodes : numNodes ≤ kMaxPeers + 1)
    (hb : b < numNodes - 1) (hk : k < queuesPerPeer numRemoteQueues numNodes) :
    b * queuesPerPeer numRemoteQueues numNodes + k < 2 ^ 16 := by
  have hlt := Core.place_lt hb hk
  rcases queuesPerPeer_fit numRemoteQueues numNodes with hfit | hone
  · omega
  · -- There is one queue for each of a few peers.
    rw [hone] at hlt ⊢
    unfold kMaxPeers at hnodes
    omega

/-- A chunk of `gemm_ar` goes to a queue of the block of this node's slot at the
    peer. -/
theorem laneId_gemmArSend {g : Sender} {numRemoteQueues arrivalIdx peerSlot b : Nat}
    {rest : TransferCmd} (hb : g.slotAtPeer peerSlot = b)
    (hfit : b * queuesPerPeer numRemoteQueues g.numNodes +
      arrivalIdx % numRemoteQueues % queuesPerPeer numRemoteQueues g.numNodes < 2 ^ 16) :
    (gemmArSend g numRemoteQueues arrivalIdx peerSlot rest).cmd.laneId.toNat =
      b * queuesPerPeer numRemoteQueues g.numNodes +
        arrivalIdx % numRemoteQueues % queuesPerPeer numRemoteQueues g.numNodes := by
  have hlane : (gemmArSend g numRemoteQueues arrivalIdx peerSlot rest).cmd.laneId =
      BitVec.ofInt 16 ((b * queuesPerPeer numRemoteQueues g.numNodes +
        arrivalIdx % numRemoteQueues % queuesPerPeer numRemoteQueues g.numNodes : Nat) : Int) := by
    push_cast
    rw [← hb]
    simp only [gemmArSend, gemmArPostSendCmd]
    split <;> rfl
  rw [hlane, toNat_lane hfit]

theorem dstRank_gemmArSend (g : Sender) (numRemoteQueues arrivalIdx peerSlot : Nat)
    (rest : TransferCmd) :
    (gemmArSend g numRemoteQueues arrivalIdx peerSlot rest).cmd.dstRank = rest.dstRank := by
  simp only [gemmArSend, gemmArPostSendCmd]
  split <;> rfl

/-- A chunk of `gemm_rs` goes to a queue of the block of the peer's slot. -/
theorem laneId_gemmRsSend {g : Sender} {numRemoteQueues rb chunksPerRow ci peerSlot : Nat}
    {rest : TransferCmd} (hfit : peerSlot * queuesPerPeer numRemoteQueues g.numNodes +
      (rb * chunksPerRow + ci) % queuesPerPeer numRemoteQueues g.numNodes < 2 ^ 16) :
    (gemmRsSend g true numRemoteQueues rb chunksPerRow ci peerSlot rest).cmd.laneId.toNat =
      peerSlot * queuesPerPeer numRemoteQueues g.numNodes +
        (rb * chunksPerRow + ci) % queuesPerPeer numRemoteQueues g.numNodes := by
  simp only [gemmRsSend, pushOnLane, routedWrite, if_true]
  rw [BitVec.toNat_ofNat, Nat.mod_eq_of_lt hfit]

theorem dstRank_gemmRsSend (g : Sender) (useTransportArrivalQueue : Bool)
    (numRemoteQueues rb chunksPerRow ci peerSlot : Nat) (rest : TransferCmd) :
    (gemmRsSend g useTransportArrivalQueue numRemoteQueues rb chunksPerRow ci peerSlot
      rest).cmd.dstRank = rest.dstRank :=
  rfl

theorem ringChunks_le (bytes : BitVec 31) : ringChunks bytes ≤ 8192 := by
  have hlt := bytes.isLt
  simp only [ringChunks]
  omega

section Kernels

variable {s : Session} {build : Build}

/-- Where the kernel picks the FIFO by the number the proxies route by, the two
    numbers are equal. -/
theorem lane_eq_routingKey {dev : Fin build.numDevices} {k : Kernel} {push : Push}
    (h : Pushes (s.sender build dev) k push) :
    push.lane.toNat = routingKey (k.keyedByChannel s.numPeers) push.cmd := by
  have hpeers := s.numPeers_pos
  cases h with
  | gemmAr numRemoteQueues arrivalIdx peerSlot rest hpos hle hslot =>
      simp only [Session.sender] at hslot
      simp only [gemmArSend, gemmArPostSendCmd, routedWrite, and_true]
      by_cases hmany : 1 < s.numPeers
      · have hnodes : 2 < (s.sender build dev).numNodes := by
          simp only [Session.sender, Session.numPeers] at hmany ⊢
          omega
        rw [if_pos hnodes]
        simp only [routingKey, Kernel.keyedByChannel, hmany, decide_true, if_true]
        exact BitVec.toNat_setWidth_of_le (by decide)
      · -- With one peer this node has slot 0 there.
        have hnodes : ¬ 2 < (s.sender build dev).numNodes := by
          simp only [Session.sender, Session.numPeers] at hmany ⊢
          omega
        have hsap : (s.sender build dev).slotAtPeer peerSlot = 0 := by
          simp only [Session.numPeers] at hmany
          rw [Sender.slotAtPeer, slotAtPeer_peerRankForSlot _ _ _ (by omega)
            (by simp only [Session.sender]; omega)]
          simp only [Session.sender]
          omega
        rw [if_neg hnodes, hsap]
        simp only [routingKey, Kernel.keyedByChannel, hmany, decide_false, Bool.false_eq_true,
          if_false, Int.zero_mul, Int.zero_add]
        have hq : arrivalIdx % numRemoteQueues %
            queuesPerPeer numRemoteQueues (s.sender build dev).numNodes < 2 ^ 16 :=
          Nat.lt_of_le_of_lt (Nat.mod_le _ _) (Nat.lt_of_lt_of_le (Nat.mod_lt _ hpos) hle)
        rw [toNat_lane hq, BitVec.toNat_ofNat, Nat.mod_eq_of_lt (by omega)]
  | gemmRs | agGemm | dispatchGemm => exact BitVec.toNat_setWidth_of_le (by decide)
  | ringAttention kBytes vBytes chunkId peerSlot rest hchunk hslot =>
      have hk := ringChunks_le kBytes
      have hv := ringChunks_le vBytes
      simp only [ringAttentionSend, routedWrite, routingKey, Kernel.keyedByChannel,
        Bool.false_eq_true, if_false, BitVec.toNat_ofNat]
      omega

/-- A kernel that picks the FIFO by the lane can push a command on any of the
    first lanes and on channel 0. -/
theorem exists_push {k : Kernel} (hk : k.keyedByChannel s.numPeers = false)
    {dev : Fin build.numDevices} (hdev : dev.val = 0) {lane : Nat} (hlane : lane < 24) :
    ∃ push, Pushes (s.sender build dev) k push ∧ push.lane.toNat = lane ∧
      push.cmd.reserved0 = 0 := by
  have hpeers := s.numPeers_pos
  have hslot : ((0 : Nat) : Int) < (s.sender build dev).numNodes - 1 := by
    -- The first GPU has channel 0.
    simp only [Session.sender]
    omega
  have hchannel : (s.sender build dev).channel 0 = 0 := by
    simp only [Sender.channel, channel, Session.sender, Nat.zero_mul, Nat.zero_add, hdev]
    rfl
  -- No lane is cut off.
  have hcut : (BitVec.setWidth 32 (BitVec.ofNat 16 lane)).toNat = lane := by
    rw [BitVec.toNat_setWidth_of_le (by decide), BitVec.toNat_ofNat]
    omega
  cases k with
  | gemmAr =>
      have hone : ¬ 1 < s.numPeers := of_decide_eq_false hk
      -- With one peer the lanes are not shared.
      have hnodes : ¬ 2 < (s.sender build dev).numNodes := by
        simp only [Session.sender, Session.numPeers] at hone ⊢
        omega
      -- With as many CTAs as lanes each has a lane of its own.
      refine ⟨_, .gemmAr (lane + 1) lane 0 TransferCmd.zero (by omega) (by omega) hslot, ?_, ?_⟩
      · have hqueues : queuesPerPeer (lane + 1) (s.sender build dev).numNodes = lane + 1 := by
          simp only [Session.numPeers] at hone
          simp only [queuesPerPeer, Session.sender]
          rw [show max 1 (s.cfg.numPeers + 1 - 1).toNat = 1 by omega, Nat.div_one]
          omega
        simp only [gemmArSend, gemmArPostSendCmd, hnodes, false_and, if_false, hqueues,
          BitVec.toNat_ofNat]
        rw [Nat.mod_eq_of_lt (Nat.lt_succ_self lane), Nat.mod_eq_of_lt (Nat.lt_succ_self lane)]
        omega
      · simp only [gemmArSend, gemmArPostSendCmd, hnodes, false_and, if_false, routedWrite,
          hchannel]
  | gemmRs =>
      refine ⟨_, .gemmRs false 1 lane 1 0 0 TransferCmd.zero hslot, ?_, hchannel⟩
      simp only [gemmRsSend, pushOnLane, routedWrite, Bool.false_eq_true, if_false, Nat.mul_one,
        Nat.add_zero]
      exact hcut
  | agGemm =>
      refine ⟨_, .agGemm lane 1 0 TransferCmd.zero, ?_, hchannel⟩
      simp only [agGemmSend, pushOnLane, routedWrite, Nat.mul_one, Nat.add_zero]
      exact hcut
  | dispatchGemm => exact ⟨_, .dispatchGemm lane 0 TransferCmd.zero hslot, hcut, hchannel⟩
  | ringAttention =>
      refine ⟨_, .ringAttention (24 * (256 * 1024)) 0 lane 0 TransferCmd.zero ?_ hslot, ?_,
        hchannel⟩
      · -- The chunks of this shape are as many as the lanes.
        have hchunks : ringChunks (24 * (256 * 1024)) = 24 := by decide
        omega
      · simp only [ringAttentionSend, BitVec.toNat_ofNat]
        omega

/-- With several peers, `gemm_ar` can push commands on any of the first lanes
    into one FIFO. -/
theorem exists_push_channel (h : 1 < s.numPeers) (dev : Fin build.numDevices) {lane : Nat}
    (hlane : lane < 24) {numQueues : Nat} (hqueues : lane < numQueues) (hle : numQueues ≤ 24) :
    ∃ push, Pushes (s.sender build dev) .gemmAr push ∧
      push.lane = ((s.sender build dev).channel (s.numPeers - 1)).setWidth 32 ∧
      push.cmd.laneId.toNat = lane := by
  have hpeers := s.numPeers_le'
  have hnodes : 2 < (s.sender build dev).numNodes := by
    simp only [Session.sender, Session.numPeers] at h ⊢
    omega
  have hmul : s.numPeers * numQueues ≤ 16 * 24 := Nat.mul_le_mul hpeers hle
  have hpos : 0 < s.numPeers * numQueues := Nat.mul_pos (by omega) (by omega)
  have hcount : queuesPerPeer (s.numPeers * numQueues) (s.sender build dev).numNodes =
      numQueues := by
    have hnum : max 1 (s.cfg.numPeers + 1 - 1).toNat = s.numPeers := by
      simp only [Session.numPeers] at h ⊢
      omega
    simp only [queuesPerPeer, Session.sender]
    rw [hnum, Nat.mul_div_cancel_left _ (by omega)]
    omega
  -- The last slot is the one from which this node has slot 0.
  have hsap : (s.sender build dev).slotAtPeer (s.numPeers - 1) = 0 := by
    simp only [Session.numPeers] at h ⊢
    rw [Sender.slotAtPeer, slotAtPeer_peerRankForSlot _ _ _ (by omega)
      (by simp only [Session.sender]; omega)]
    simp only [Session.sender]
    omega
  refine ⟨_, .gemmAr (s.numPeers * numQueues) lane (s.numPeers - 1) TransferCmd.zero hpos
    (by omega) (by simp only [Session.sender, Session.numPeers] at h ⊢; omega), ?_, ?_⟩
  · simp only [gemmArSend, gemmArPostSendCmd, routedWrite, hnodes, and_self, if_true]
  · have hbig : lane < s.numPeers * numQueues :=
      Nat.lt_of_lt_of_le hqueues (Nat.le_mul_of_pos_left _ (by omega))
    simp only [gemmArSend, gemmArPostSendCmd, routedWrite, hnodes, and_self, if_true, hcount, hsap,
      Int.zero_mul, Int.zero_add]
    rw [Nat.mod_eq_of_lt hbig, Nat.mod_eq_of_lt hqueues, toNat_lane (by omega)]

/-- With several proxies there are QPs beyond the first block. -/
theorem second_block (h : s.numProxyThreads ≠ 1) :
    s.qpsPerProxy < s.numQps ∧ s.qpsPerProxy % s.numQps / s.qpsPerProxy = 1 := by
  have hpos := s.numProxyThreads_pos
  have hblock := s.qpsPerProxy_lt (by omega)
  refine ⟨hblock, ?_⟩
  rw [Nat.mod_eq_of_lt hblock, Nat.div_self s.qpsPerProxy_pos]

section Accepts

variable {infos : Nat → ConnectionInfo} {rest : ProxyConfig} {env : Option String} {k : Kernel}

/-- A kernel that picks the FIFO by the lane has commands of channel 0 in the
    FIFO of another block. -/
theorem routesChannels_of_lane (hmany : s.numProxyThreads ≠ 1)
    (hk : k.keyedByChannel s.numPeers = false)
    (h : ∀ dev push, Pushes (s.sender build dev) k push → s.Accepted infos rest env push) :
    s.routesChannels env = false := by
  rcases second_block hmany with ⟨hblock, hfirst⟩
  have hqps := s.numQps_le
  have hsmall : s.qpsPerProxy < 24 := by omega
  rcases @exists_push s build k hk ⟨0, build.numDevices_pos⟩ rfl _ hsmall with
    ⟨push, hpush, hlane, hreserved⟩
  have hacc := ((Session.accepted_iff push).mp (h _ push hpush)).resolve_left hmany
  cases hroutes : s.routesChannels env with
  | false => rfl
  | true =>
      have hzero : (0 : BitVec 8).toNat = 0 := rfl
      rw [hlane, hfirst, hroutes, routingKey, if_pos rfl, hreserved, hzero, Nat.zero_mod,
        Nat.zero_div] at hacc
      exact absurd hacc Nat.one_ne_zero

/-- A kernel that picks the FIFO by the channel has commands on lanes of
    different blocks in one FIFO. -/
theorem routesChannels_of_channel (hmany : s.numProxyThreads ≠ 1)
    (hk : k.keyedByChannel s.numPeers = true)
    (h : ∀ dev push, Pushes (s.sender build dev) k push → s.Accepted infos rest env push) :
    s.routesChannels env = true := by
  rcases second_block hmany with ⟨hblock, hfirst⟩
  have hqps := s.numQps_le
  cases k with
  | gemmAr =>
      -- Lanes 0 and `qpsPerProxy` of one channel are in different blocks.
      have hpeers : 1 < s.numPeers := of_decide_eq_true hk
      cases hroutes : s.routesChannels env with
      | true => rfl
      | false =>
          have hacc : ∀ lane, lane < s.qpsPerProxy + 1 →
              (((s.sender build ⟨0, build.numDevices_pos⟩).channel
                (s.numPeers - 1)).setWidth 32 : BitVec 32).toNat % s.numQps / s.qpsPerProxy =
                  lane % s.numQps / s.qpsPerProxy := by
            intro lane hlt
            rcases exists_push_channel hpeers ⟨0, build.numDevices_pos⟩ (by omega) hlt (by omega)
              with ⟨push, hpush, hlane, hid⟩
            have hacc := ((Session.accepted_iff push).mp (h _ push hpush)).resolve_left hmany
            rw [hlane, hroutes, routingKey, if_neg Bool.false_ne_true, hid] at hacc
            exact hacc
          have hzero := hacc 0 (by omega)
          have hlast := hacc s.qpsPerProxy (by omega)
          rw [hzero, hfirst, Nat.zero_mod, Nat.zero_div] at hlast
          exact absurd hlast Nat.zero_ne_one
  | gemmRs | agGemm | dispatchGemm | ringAttention => exact absurd hk Bool.false_ne_true

end Accepts

/-- All commands a kernel pushes are accepted exactly where there is one proxy,
    or the kernel picks the FIFO by the number the proxies route by. -/
theorem routing_accepted_iff (s : Session) (infos : Nat → ConnectionInfo) (rest : ProxyConfig)
    (env : Option String) (build : Build) (k : Kernel) :
    (∀ dev push, Pushes (s.sender build dev) k push → s.Accepted infos rest env push) ↔
      s.numProxyThreads = 1 ∨ k.keyedByChannel s.numPeers = s.routesChannels env := by
  constructor
  · intro h
    by_cases hone : s.numProxyThreads = 1
    · exact Or.inl hone
    · refine Or.inr ?_
      cases hk : k.keyedByChannel s.numPeers with
      | false => exact (routesChannels_of_lane hone hk h).symm
      | true => exact (routesChannels_of_channel hone hk h).symm
  · intro h dev push hpush
    rw [Session.accepted_iff]
    rcases h with hone | heq
    · exact Or.inl hone
    · refine Or.inr ?_
      rw [lane_eq_routingKey hpush, heq]

end Kernels

section Sample

/-- Three nodes, with two proxies on each and no channels. -/
def threeNodes : Session where
  cfg :=
    { rank := 0
      numPeers := 2
      peerRanks := none
      numQps := 4
      logicalQueuesPerQp := 1
      numProxyThreads := 2
      channelizeGpuPeers := false }
  numPeers_pos := by decide
  numPeers_le := by decide

/-- What three nodes know about each other's memory. -/
def sampleInfo (peer : Nat) : ConnectionInfo :=
  let keys : RemoteKeys := ⟨BitVec.ofNat 64 (0x1000 * (peer + 1)), BitVec.ofNat 32 (peer + 1)⟩
  ⟨keys, keys, keys, keys, keys⟩

/-- The first device of three sends the first chunk to the next node. Its
    channel is 0 and its lane is 2. -/
theorem gemmAr_write_dropped :
    ¬ ∀ (s : Session) (infos : Nat → ConnectionInfo) (rest : ProxyConfig) (env : Option String)
        (build : Build) (k : Kernel) (dev : Fin build.numDevices) (push : Push),
      Pushes (s.sender build dev) k push → s.Accepted infos rest env push := by
  intro h
  have hpush : Pushes (threeNodes.sender ⟨8, by decide⟩ 0) .gemmAr
      (gemmArSend (threeNodes.sender ⟨8, by decide⟩ 0) 4 0 0 TransferCmd.zero) :=
    .gemmAr 4 0 0 TransferCmd.zero (by decide) (by decide) (by decide)
  have hacc := h threeNodes sampleInfo sampleConfig none ⟨8, by decide⟩ .gemmAr 0 _ hpush
  rw [Session.accepted_iff] at hacc
  exact absurd hacc (by decide)

end Sample

/-- The regions of a peer's memory a WRITE reaches. -/
inductive Region where
  | data
  | flags
  | tail
  | forwardNotify
  deriving DecidableEq, Repr

def ConnectionInfo.keys (info : ConnectionInfo) : Region → RemoteKeys
  | .data => info.data
  | .flags => info.flags
  | .tail => info.tail
  | .forwardNotify => info.forwardNotify

def ProxyConfig.region (cfg : ProxyConfig) : Region → RemoteRegion
  | .data => cfg.remoteData
  | .flags => cfg.remoteFlags
  | .tail => cfg.remoteTail
  | .forwardNotify => cfg.remoteForwardNotify

/-- A table entry of zero is replaced by the address of the first peer. -/
def orFirst {n : Nat} (v first : BitVec n) : BitVec n := if v ≠ 0 then v else first

theorem orFirst_eq_iff {n : Nat} {v first : BitVec n} :
    orFirst v first = v ↔ (v = 0 → first = 0) := by
  unfold orFirst
  by_cases hv : v = 0
  · rw [if_neg (not_not.mpr hv), hv]
    exact ⟨fun h _ => h, fun h => h rfl⟩
  · rw [if_pos hv]
    exact iff_of_true rfl fun h => absurd h hv

namespace Session

/-- Whatever a proxy has a QP for by the channel of a peer slot and a device
    goes to the peer in that slot, with that peer's addresses and keys. -/
def PeerRouted (s : Session) (infos : Nat → ConnectionInfo) (rest : ProxyConfig)
    (env : Option String) (build : Build) : Prop :=
  ∀ t p peerSlot dev cmd, p ∈ s.proxy infos rest env t → peerSlot < s.numPeers →
    dev < build.numDevices → cmd.cmdType = .write →
    cmd.reserved0 = channel build.numDevices peerSlot dev → p.InRange (p.localQp cmd) →
    s.connectedSlot (p.routeGlobalQp cmd).toNat = some peerSlot ∧
      ∀ r, p.addrForQp (p.cfg.region r) (p.localQp cmd) = ((infos peerSlot).keys r).addr ∧
        p.rkeyForQp (p.cfg.region r) (p.localQp cmd) = ((infos peerSlot).keys r).rkey

variable {s : Session} {infos : Nat → ConnectionInfo} {rest : ProxyConfig} {env : Option String}
  {build : Build}

/-- The addresses and keys a proxy uses for a QP are those of the QP's table
    entry, or of the first peer. -/
theorem keysForQp_eq {t : Nat} {p : Setup} (h : p ∈ s.proxy infos rest env t)
    (cmd : TransferCmd) (r : Region) :
    let slot := s.tableSlot (routingKey (s.routesChannels env) cmd % s.numQps)
    p.addrForQp (p.cfg.region r) (p.localQp cmd) =
        orFirst ((infos slot).keys r).addr ((infos 0).keys r).addr ∧
      p.rkeyForQp (p.cfg.region r) (p.localQp cmd) =
        orFirst ((infos slot).keys r).rkey ((infos 0).keys r).rkey := by
  intro slot
  have hlt : routingKey (s.routesChannels env) cmd % s.numQps < s.numQps :=
    Nat.mod_lt _ s.numQps_pos
  have hle := s.numQps_le
  have hregion : p.cfg.region r = s.remoteRegion fun q => (infos q).keys r := by
    rw [(mem_proxy h).1]
    cases r <;> rfl
  -- The QP of the thread is the QP of the session that the key says,
  have hglobal : p.cfg.qpBaseIdx + p.localQp cmd =
      (routingKey (s.routesChannels env) cmd % s.numQps : Nat) := by
    rw [Setup.localQp, routeGlobalQp_eq h]
    omega
  -- and its entry in the tables is the one of this QP.
  have hentry : ∀ {n : Nat} (table : Nat → BitVec n), p.byQp table (p.localQp cmd) =
      table (routingKey (s.routesChannels env) cmd % s.numQps) := by
    intro n table
    simp only [Setup.byQp, hglobal, kMaxExchangeQPs, Int.toNat_natCast]
    exact if_pos (by omega)
  -- The table has entries for the QPs of the session only.
  have hkept : ∀ {n : Nat} (v : BitVec n),
      (if routingKey (s.routesChannels env) cmd % s.numQps < s.numQps ∧
        routingKey (s.routesChannels env) cmd % s.numQps < kMaxExchangeQPs then v else 0) = v :=
    fun v => if_pos ⟨hlt, Nat.lt_of_lt_of_le hlt hle⟩
  constructor
  · simp only [Setup.addrForQp, hentry, hregion, remoteRegion, hkept]
    rfl
  · simp only [Setup.rkeyForQp, hentry, hregion, remoteRegion, hkept]
    rfl

/-- The same without the proxies: each QP is some proxy's. -/
theorem peerRouted_iff (hc : s.cfg.channelizeGpuPeers = true) :
    s.PeerRouted infos rest env build ↔ ∀ peerSlot dev cmd, peerSlot < s.numPeers →
      dev < build.numDevices → cmd.cmdType = .write →
      cmd.reserved0 = channel build.numDevices peerSlot dev →
      s.connectedSlot (routingKey (s.routesChannels env) cmd % s.numQps) = some peerSlot ∧
        ∀ r, (((infos peerSlot).keys r).addr = 0 → ((infos 0).keys r).addr = 0) ∧
          (((infos peerSlot).keys r).rkey = 0 → ((infos 0).keys r).rkey = 0) := by
  -- The table entry of a connected QP is its peer's.
  have hkeys : ∀ {t p cmd peerSlot}, p ∈ s.proxy infos rest env t →
      s.connectedSlot (routingKey (s.routesChannels env) cmd % s.numQps) = some peerSlot →
      ∀ r, p.addrForQp (p.cfg.region r) (p.localQp cmd) =
            orFirst ((infos peerSlot).keys r).addr ((infos 0).keys r).addr ∧
          p.rkeyForQp (p.cfg.region r) (p.localQp cmd) =
            orFirst ((infos peerSlot).keys r).rkey ((infos 0).keys r).rkey := by
    intro t p cmd peerSlot hp hslot r
    have hboth := keysForQp_eq hp cmd r
    rw [s.tableSlot_eq hc (Nat.mod_lt _ s.numQps_pos) hslot] at hboth
    exact hboth
  constructor
  · intro h peerSlot dev cmd hslot hdev hw hch
    rcases exists_proxy (s := s) (Nat.mod_lt (routingKey (s.routesChannels env) cmd) s.numQps_pos)
      with ⟨p, hp⟩
    rcases h _ p peerSlot dev cmd hp hslot hdev hw hch ((inRange_iff hp cmd).mpr rfl) with
      ⟨hconn, hall⟩
    rw [routeGlobalQp_eq hp, Int.toNat_natCast] at hconn
    refine ⟨hconn, fun r => ?_⟩
    rcases hkeys hp hconn r with ⟨haddr, hrkey⟩
    exact ⟨orFirst_eq_iff.mp (haddr.symm.trans (hall r).1),
      orFirst_eq_iff.mp (hrkey.symm.trans (hall r).2)⟩
  · intro h t p peerSlot dev cmd hp hslot hdev hw hch _
    rcases h peerSlot dev cmd hslot hdev hw hch with ⟨hconn, hall⟩
    rw [routeGlobalQp_eq hp, Int.toNat_natCast]
    refine ⟨hconn, fun r => ?_⟩
    rcases hkeys hp hconn r with ⟨haddr, hrkey⟩
    exact ⟨haddr.trans (orFirst_eq_iff.mpr (hall r).1),
      hrkey.trans (orFirst_eq_iff.mpr (hall r).2)⟩

/-- A WRITE in a channel. -/
def channelWrite (numDevices peerSlot dev : Nat) (lane : BitVec 16) : TransferCmd :=
  routedWrite TransferCmd.zero lane (channel numDevices peerSlot dev)

/-- What `peerRouted_iff` says of the connections alone. -/
def ChannelsConnected (s : Session) (env : Option String) (build : Build) : Prop :=
  ∀ peerSlot dev cmd, peerSlot < s.numPeers → dev < build.numDevices → cmd.cmdType = .write →
    cmd.reserved0 = channel build.numDevices peerSlot dev →
      s.connectedSlot (routingKey (s.routesChannels env) cmd % s.numQps) = some peerSlot

section Blocks

variable (hc : s.cfg.channelizeGpuPeers = true)
include hc

/-- The first QP of the second block belongs to the second peer. -/
theorem connectedSlot_second (hmany : 1 < s.numPeers) :
    s.qpsPerPeer = s.numQps / s.numPeers ∧ s.qpsPerPeer < s.numQps ∧
      s.connectedSlot s.qpsPerPeer = some 1 := by
  have hpeers := s.numPeers_pos'
  rcases s.numQps_of_channelized hc hmany with ⟨hqps, -⟩
  have hpos := Nat.div_pos hqps hpeers
  have hblock : s.qpsPerPeer = s.numQps / s.numPeers := by
    simp only [qpsPerPeer, hc, if_true]
    omega
  have hsecond : s.qpsPerPeer < s.numQps := by
    rw [hblock]
    exact Nat.div_lt_self s.numQps_pos hmany
  refine ⟨hblock, hsecond, ?_⟩
  rw [s.connectedSlot_eq hc hsecond, Nat.div_self s.qpsPerPeer_pos, if_pos hmany]

/-- Commands that differ in the lane only would go to different peers. -/
theorem routesChannels_of_connected (hmany : 1 < s.numPeers)
    (h : s.ChannelsConnected env build) : s.routesChannels env = true := by
  rcases connectedSlot_second hc hmany with ⟨-, hsecond, hconn⟩
  have hle := s.numQps_le
  by_contra hf
  have hlane := h 0 0 (channelWrite build.numDevices 0 0 (BitVec.ofNat 16 s.qpsPerPeer))
    s.numPeers_pos' build.numDevices_pos rfl rfl
  rw [routingKey, if_neg hf, channelWrite, routedWrite, BitVec.toNat_ofNat,
    Nat.mod_eq_of_lt (by omega : s.qpsPerPeer < 2 ^ 16), Nat.mod_eq_of_lt hsecond, hconn] at hlane
  exact absurd (Option.some.inj hlane) Nat.one_ne_zero

/-- A block of QPs has as many as there are devices. -/
theorem block_of_connected (hmany : 1 < s.numPeers) (h : s.ChannelsConnected env build) :
    s.qpsPerPeer = build.numDevices := by
  rcases connectedSlot_second hc hmany with ⟨-, hsecond, hconn⟩
  have hle := s.numQps_le
  have hdevs := build.numDevices_pos
  have hroutes := routesChannels_of_connected hc hmany h
  have hkey : ∀ peerSlot dev, peerSlot < s.numPeers → dev < build.numDevices →
      peerSlot * build.numDevices + dev < s.numQps →
      s.connectedSlot (peerSlot * build.numDevices + dev) = some peerSlot := by
    intro peerSlot dev hslot hdev hsmall
    have hroute := h peerSlot dev (channelWrite build.numDevices peerSlot dev 0) hslot hdev rfl rfl
    rw [routingKey, if_pos hroutes, channelWrite, routedWrite, channel, BitVec.toNat_ofNat,
      Nat.mod_eq_of_lt (by omega : peerSlot * build.numDevices + dev < 2 ^ 8),
      Nat.mod_eq_of_lt hsmall] at hroute
    exact hroute
  rcases Nat.lt_trichotomy build.numDevices s.qpsPerPeer with hlt | heq | hgt
  · -- The first channel of the second peer is still in the first block.
    have hfirst := hkey 1 0 hmany hdevs (by omega)
    rw [s.connectedSlot_eq hc (by omega), Nat.div_eq_of_lt (by omega),
      if_pos s.numPeers_pos'] at hfirst
    exact absurd (Option.some.inj hfirst) Nat.zero_ne_one
  · exact heq.symm
  · -- A channel of the first peer is already in the second block.
    have hfirst := hkey 0 s.qpsPerPeer s.numPeers_pos' hgt (by omega)
    rw [Nat.zero_mul, Nat.zero_add, hconn] at hfirst
    exact absurd (Option.some.inj hfirst) Nat.one_ne_zero

/-- With one peer every QP is connected to it. -/
theorem connected_of_one (hone : s.numPeers = 1) : s.ChannelsConnected env build := by
  intro peerSlot dev cmd hslot _ _ _
  have hqps := s.numQps_pos
  have hlt : routingKey (s.routesChannels env) cmd % s.numQps < s.numQps := Nat.mod_lt _ hqps
  have hall : s.qpsPerPeer = s.numQps := by
    simp only [qpsPerPeer, hc, if_true, hone, Nat.div_one]
    omega
  rw [s.connectedSlot_eq hc hlt, hall, Nat.div_eq_of_lt hlt, if_pos s.numPeers_pos']
  exact congrArg some (by omega)

/-- With blocks of as many QPs as there are devices, a channel is the number of
    a QP in its peer's block. -/
theorem connected_of_block (hroutes : s.routesChannels env = true)
    (hblock : s.numQps / s.numPeers = build.numDevices) : s.ChannelsConnected env build := by
  intro peerSlot dev cmd hslot hdev _ hch
  have hdevs := build.numDevices_pos
  have hle := s.numQps_le
  have hlt : routingKey (s.routesChannels env) cmd % s.numQps < s.numQps :=
    Nat.mod_lt _ s.numQps_pos
  have hsize : s.qpsPerPeer = build.numDevices := by
    simp only [qpsPerPeer, hc, if_true, hblock]
    omega
  -- The channel is below the number of QPs, so neither remainder changes it.
  have hsmall : peerSlot * build.numDevices + dev < s.numQps := by
    have hmul : (peerSlot + 1) * build.numDevices ≤ s.numPeers * build.numDevices :=
      Nat.mul_le_mul_right _ hslot
    have hfit := Nat.mul_div_le s.numQps s.numPeers
    rw [hblock] at hfit
    rw [Nat.add_mul] at hmul
    omega
  have hdiv : (peerSlot * build.numDevices + dev) / build.numDevices = peerSlot := by
    rw [Nat.div_eq_iff hdevs]
    omega
  rw [s.connectedSlot_eq hc hlt, routingKey, if_pos hroutes, hch, channel, BitVec.toNat_ofNat,
    Nat.mod_eq_of_lt (by omega : peerSlot * build.numDevices + dev < 2 ^ 8),
    Nat.mod_eq_of_lt hsmall, hsize, hdiv, if_pos hslot]

end Blocks

/-- In a channelised session, channels lead to their peers exactly where there
    is one peer, or the proxies route by channels and the QPs divide by the peers
    into as many as there are devices; and where an address or a key that is zero
    is zero for the first peer too. -/
theorem channel_routed_iff (s : Session) (infos : Nat → ConnectionInfo) (rest : ProxyConfig)
    (env : Option String) (build : Build) (hc : s.cfg.channelizeGpuPeers = true) :
    s.PeerRouted infos rest env build ↔
      (s.numPeers = 1 ∨ s.routesChannels env = true ∧ s.numQps / s.numPeers = build.numDevices) ∧
        ∀ peerSlot < s.numPeers, ∀ r,
          (((infos peerSlot).keys r).addr = 0 → ((infos 0).keys r).addr = 0) ∧
            (((infos peerSlot).keys r).rkey = 0 → ((infos 0).keys r).rkey = 0) := by
  rw [peerRouted_iff hc]
  constructor
  · intro h
    have hconn : s.ChannelsConnected env build := fun peerSlot dev cmd hslot hdev hw hch =>
      (h peerSlot dev cmd hslot hdev hw hch).1
    refine ⟨?_, fun peerSlot hslot r => (h peerSlot 0 (channelWrite build.numDevices peerSlot 0 0)
      hslot build.numDevices_pos rfl rfl).2 r⟩
    -- The second peer's QP decides the size of the blocks.
    have hpeers := s.numPeers_pos'
    by_cases hone : s.numPeers = 1
    · exact Or.inl hone
    · have hmany : 1 < s.numPeers := by omega
      refine Or.inr ⟨routesChannels_of_connected hc hmany hconn, ?_⟩
      rw [← (connectedSlot_second hc hmany).1]
      exact block_of_connected hc hmany hconn
  · rintro ⟨hroute, hzero⟩ peerSlot dev cmd hslot hdev hw hch
    refine ⟨?_, fun r => hzero peerSlot hslot r⟩
    rcases hroute with hone | ⟨hroutes, hblock⟩
    · exact connected_of_one hc hone peerSlot dev cmd hslot hdev hw hch
    · exact connected_of_block hc hroutes hblock peerSlot dev cmd hslot hdev hw hch

end Session

section Sample

/-- Three nodes with 16 QPs for two peers of eight devices. -/
def twoBlocks : Session where
  cfg := { threeNodes.cfg with channelizeGpuPeers := true }
  numPeers_pos := by decide
  numPeers_le := by decide

/-- The channels of three nodes lead to their peers, with two proxies too. -/
theorem channel_routed_twoBlocks :
    twoBlocks.PeerRouted sampleInfo sampleConfig none ⟨8, by decide⟩ :=
  (Session.channel_routed_iff twoBlocks sampleInfo sampleConfig none ⟨8, by decide⟩ rfl).mpr
    ⟨Or.inr ⟨rfl, by decide⟩, by
      intro peerSlot hslot r
      have hcases : peerSlot = 0 ∨ peerSlot = 1 := by
        have hle : peerSlot < 2 := hslot
        omega
      rcases hcases with rfl | rfl <;> cases r <;> decide⟩

/-- Three nodes with 24 QPs, as `ag_gemm` asks for. -/
def wideBlocks : Session where
  cfg := { twoBlocks.cfg with numQps := 24 }
  numPeers_pos := by decide
  numPeers_le := by decide

/-- The first channel of the second peer leads to the first peer. -/
theorem channel_misrouted :
    ¬ ∀ (s : Session) (infos : Nat → ConnectionInfo) (rest : ProxyConfig) (env : Option String)
        (build : Build), s.cfg.channelizeGpuPeers = true →
      s.PeerRouted infos rest env build := by
  intro h
  have hall := (Session.peerRouted_iff rfl).mp
    (h wideBlocks sampleInfo sampleConfig none ⟨8, by decide⟩ rfl)
  have hconn := (hall 1 0 (Session.channelWrite 8 1 0 0) (by decide) (by decide) rfl rfl).1
  exact absurd hconn (by decide)

end Sample

end Cx7

end Internode

end MKernel
