import MKernel.AgGemm.Posts
import MKernel.AgGemm.ProxyForward
import MKernel.Internode.Cx7.Pairing

/-!
# The Posts of the Proxies

What the proxies of a ring post for the commands of the prologue and for what they are notified
of, and where it lands.

A node sends to the next one only, in the channels of its first peer slot. A request leads to the
peer that its QP is connected to, at the address the proxy has for the QP. If the channel of the
GPU is in the first peer's block of QPs, these are the next node and its memory
(`target_proxy`, `addrForQp_proxy`).

For a command of the prologue the proxies post data, a flag and a notification. The notification
is left out if the target is in the last bank (`forwardNotifyEnabled_iff`). For a notification
they post data and a flag, and never a notification (`landings_forward`).

## Main definitions

* `Landing`: What a request does where it leads to.
* `Nodes`: The sessions of all nodes, for one GPU of each.
* `Nodes.dataAt`, `Nodes.flagAt`, `Nodes.noteAt`: What a node waits for.
* `Nodes.Ready`: What the sessions have to agree on.

## Theorems

* `forwardNotifyEnabled_iff`: When a notification is posted.
* `landings_phase0`, `landings_forward`: What is posted.
* `phase0_lands`, `forward_lands`: It is what the next node waits for.
-/

namespace MKernel

namespace AgGemm

open MKernel.Core
open MKernel.Internode (TransferCmd ForwardNotify Polled peerRankForSlot)
open MKernel.Internode.Cx7 (Session ProxyConfig ConnectionInfo SendWr Payload Chain commandWrs
  forwardChain routingKey)

/-- What a request does at the node it leads to: it writes what it carries, or what is gathered
    from addresses of the node that sends it, to an address. -/
structure Landing where
  node : Nat
  addr : BitVec 64
  payload : Option Payload
  sources : List (BitVec 64)
  lengths : List (BitVec 32)
deriving DecidableEq

/-- The node that `nextRank` leads from. -/
def Setup.prevRank (setup : Setup) (node : Nat) : Nat :=
  if node = 0 then setup.numNodes - 1 else node - 1

theorem prevRank_nextRank {setup : Setup} {n : Nat} (hn : n < setup.numNodes) :
    setup.prevRank (setup.nextRank n) = n := by
  rw [nextRank_val hn, Setup.prevRank]
  split <;> split <;> omega

/-- The sessions that serve a GPU of each node, and what each node tells of its memory. -/
structure Nodes where
  setup : Setup
  sess : Session
  rest : Nat → ProxyConfig
  env : Option String
  info : Nat → ConnectionInfo
  dev : Nat
  epoch : BitVec 32

namespace Nodes

variable (g : Nodes)

/-- The session of a node. They have the same configuration, but for the rank. -/
def session (n : Nat) : Session := g.sess.atRank n

/-- What a node has been told by the peer in a slot. -/
def peerInfo (n slot : Nat) : ConnectionInfo :=
  g.info ((g.session n).peerRankForLocalSlot slot).toNat

/-- The proxy of a thread of a node. -/
def proxy (n t : Nat) : Option Internode.Cx7.Setup :=
  (g.session n).proxy (g.peerInfo n) (g.setup.proxyConfig (g.session n) (g.rest n)) g.env t

/-- The node that a QP of a proxy leads to. -/
def target (n : Nat) (p : Internode.Cx7.Setup) (qp : Int) : Option Nat :=
  ((g.session n).connectedSlot (p.cfg.qpBaseIdx + qp).toNat).map fun slot =>
    ((g.session n).peerRankForLocalSlot slot).toNat

/-- The commands that are pushed in the prologue of a node. -/
def pushed (n : Nat) : List Write :=
  (List.range g.setup.numIntraComm).flatMap fun comm => g.setup.phase0Posts n g.dev comm

/-- The data of a command, at the node it is sent to. -/
def dataOf (m : Nat) (source : BitVec 64) (cmd : TransferCmd) : Landing where
  node := m
  addr := (g.info m).data.addr + cmd.remoteOffset
  payload := none
  sources := [source]
  lengths := [cmd.bytes]

/-- Its flag. -/
def flagOf (m : Nat) (cmd : TransferCmd) : Landing where
  node := m
  addr := (g.info m).flags.addr + 4 * cmd.tileId.setWidth 64
  payload := some (.word g.epoch)
  sources := []
  lengths := [4]

/-- Its notification. -/
def noteOf (m : Nat) (cmd : TransferCmd) : Landing where
  node := m
  addr := (g.info m).forwardNotify.addr + 32 * cmd.tileId.setWidth 64
  payload := some (.notify (notifyOf g.epoch cmd))
  sources := []
  lengths := []

/-- Where a node has the row block it sends in a step: first in its own shard, and then at the
    place of its buffer where it has landed in the step before. -/
def sourceAt (n s rb : Nat) : BitVec 64 :=
  match s with
  | 0 => ((g.setup.proxyConfig (g.session n) (g.rest n)).dataSource
      (g.setup.phase0Write n g.dev rb).toCmd).2
  | s + 1 => (g.rest n).localDataAddr +
      BitVec.ofNat 64 (g.setup.awaitSlot n s * g.setup.aHalfBytes + g.setup.baseOffset rb)

/-- A row block where a node waits for it in a step, from where the node before has it. -/
def dataAt (n s rb : Nat) : Landing where
  node := n
  addr := (g.info n).data.addr +
    BitVec.ofNat 64 (g.setup.awaitSlot n s * g.setup.aHalfBytes + g.setup.baseOffset rb)
  payload := none
  sources := [g.sourceAt (g.setup.prevRank n) s rb]
  lengths := [BitVec.ofNat 32 (g.setup.rbBytes rb)]

/-- The flag it waits for. -/
def flagAt (n s rb : Nat) : Landing where
  node := n
  addr := (g.info n).flags.addr +
    4 * (BitVec.ofNat 32 (g.setup.awaitTile n s rb)).setWidth 64
  payload := some (.word g.epoch)
  sources := []
  lengths := [4]

/-- What a node is notified of by the one before it, in the prologue. -/
def noteAt (prev rb : Nat) : Landing :=
  g.noteOf (g.setup.nextRank prev) (g.setup.phase0Write prev g.dev rb).toCmd

/-- The proxies reach the next node: sessions are channelised, and the channel of the GPU is in
    the first block. They are told the kernel's number of chunks, and of row blocks that begin
    within the shard, and below 4 GiB. -/
structure Ready : Prop where
  many : 1 < g.setup.numPeers
  fits : g.setup.Fits g.sess
  ranks : g.sess.cfg.peerRanks = none
  channelized : g.sess.cfg.channelizeGpuPeers = true
  routes : g.sess.routesChannels g.env = true
  block : g.dev < g.sess.qpsPerPeer
  device : ∀ n < g.setup.numNodes, (g.rest n).deviceId = g.dev
  accepted : ∀ rb, g.setup.Owns g.dev rb → g.sess.numProxyThreads = 1 ∨
    rb % 2 ^ 16 % g.sess.numQps / g.sess.qpsPerProxy = g.dev / g.sess.qpsPerProxy
  unpadded : g.setup.Unpadded g.sess
  inside : ∀ rb, g.setup.Owns g.dev rb → g.setup.firstChunk rb < g.setup.totalChunks
  small : ∀ rb, g.setup.Owns g.dev rb → g.setup.baseOffset rb < 2 ^ 32

/-- The thread that has the QP of the channel. -/
def thread : Nat := g.dev / g.sess.qpsPerProxy

end Nodes

/-- The addresses a request gathers from. One that is inline does not. -/
def gathered (wr : SendWr) : List (BitVec 64) :=
  if wr.payload.isNone then wr.sgList.map (·.addr) else []

/-- The writes of some requests. -/
def landings (m : Nat) (wrs : List SendWr) : List Landing :=
  wrs.map fun wr => ⟨m, wr.remoteAddr, wr.payload, gathered wr, wr.sgList.map (·.length)⟩

/-! ## Notifications -/

section Sizes

variable {setup : Setup} {n s rb : Nat}

theorem awaitSlot_lt (hn : n < setup.numNodes) (hs : s < setup.numPeers) :
    setup.awaitSlot n s < setup.numPeers * setup.numPeers := by
  rw [Setup.awaitSlot, slot_origin hn hs, Nat.add_comm, Nat.mul_comm]
  exact place_lt hs (by omega)

/-- The tiles that are waited for are among those of the buffer. -/
theorem awaitTile_lt (hn : n < setup.numNodes) (hs : s < setup.numPeers)
    (hin : setup.firstChunk rb < setup.totalChunks) :
    setup.awaitTile n s rb < setup.recvBufChunks := by
  have hplace := place_lt (awaitSlot_lt hn hs) hin
  rw [Setup.recvBufChunks, Nat.mul_right_comm]
  exact hplace

theorem cols_pos (hin : setup.firstChunk rb < setup.totalChunks) : 0 < setup.cols := by
  by_contra hzero
  have hshard : setup.aHalfBytes = 0 := by
    rw [Setup.aHalfBytes, Nat.eq_zero_of_not_pos hzero, Nat.mul_zero, Nat.zero_mul]
  have hnone : setup.totalChunks = 0 := by
    rw [Setup.totalChunks, hshard]
    rfl
  omega

end Sizes

section Enabled

variable {setup : Setup} {sess : Session} {infos : Nat → ConnectionInfo} {rest : ProxyConfig}
  {env : Option String} {t : Nat} {p : Internode.Cx7.Setup}

/-- A notification goes with the command of a hop exactly if there is another step. -/
theorem forwardNotifyEnabled_iff (hfits : setup.Fits sess) (hmany : 1 < setup.numPeers)
    (hp : p ∈ sess.proxy infos (setup.proxyConfig sess rest) env t)
    (hunpadded : setup.Unpadded sess) {prev s rb : Nat} (hprev : prev < setup.numNodes)
    (hs : s < setup.numPeers) (hin : setup.firstChunk rb < setup.totalChunks) (dev : Nat) :
    p.forwardNotifyEnabledForCmd (setup.hopWrite prev dev s rb).toCmd = true ↔
      s + 1 < setup.numPeers := by
  have hn := nextRank_lt hprev
  have hcols := cols_pos hin
  have htile := awaitTile_lt hn hs hin
  have htiles := hfits.tiles
  have hbytes := hfits.bytes
  rcases cfg_proxy hfits hmany hp with ⟨hnodes, -, htotal, hhalf⟩
  rw [(proxyChunks_eq_iff hfits hmany hcols).mpr hunpadded] at htotal
  have henable : p.cfg.enableForwardNotify = true := by
    rw [(Session.mem_proxy hp).1]
    rfl
  -- There is a notification slot for each chunk of the receive buffer.
  have hslots : p.cfg.forwardNotifySlots =
      (rounds setup.recvBufChunks sess.totalLogicalQueues * sess.totalLogicalQueues : Nat) := by
    rw [(Session.mem_proxy hp).1]
    exact Session.totalArrivalSlots_eq (by omega)
  have hqueues := sess.totalLogicalQueues_pos
  have hroom := le_rounds_mul (n := setup.recvBufChunks) hqueues
  have hround : rounds setup.recvBufChunks sess.totalLogicalQueues * sess.totalLogicalQueues ≤
      setup.recvBufChunks + sess.totalLogicalQueues - 1 := Nat.div_mul_le_self _ _
  have hid : (setup.hopWrite prev dev s rb).toCmd.tileId =
      BitVec.ofNat 32 (setup.awaitTile (setup.nextRank prev) s rb) :=
    congrArg (BitVec.ofNat 32) (hopWrite_awaited hprev hs dev rb).2.1
  have hnat : (BitVec.ofNat 32 (setup.awaitTile (setup.nextRank prev) s rb)).toNat =
      setup.awaitTile (setup.nextRank prev) s rb := by
    rw [BitVec.toNat_ofNat, Nat.mod_eq_of_lt (by omega)]
  have hpos := shard_pos hcols
  have hT := totalChunks_pos hcols
  -- A shard is not empty, so its size is not cut off to zero.
  have hsize : p.cfg.aHalfBytes ≠ 0 := by
    intro hzero
    have hshard : setup.aHalfBytes ≤ setup.recvBufBytes := by
      rw [Setup.recvBufBytes, Nat.mul_right_comm]
      exact Nat.le_mul_of_pos_left _ (Nat.mul_pos setup.numPeers_pos setup.numPeers_pos)
    rw [hhalf] at hzero
    have hnone := congrArg BitVec.toNat hzero
    rw [BitVec.toNat_ofNat, Nat.mod_eq_of_lt (by omega)] at hnone
    exact absurd hnone (Nat.pos_iff_ne_zero.mp hpos)
  -- The tile is one of the receive buffer, and has a slot.
  have hslot : ¬ BitVec.ofInt 32 p.cfg.forwardNotifySlots ≤
      BitVec.ofNat 32 (setup.awaitTile (setup.nextRank prev) s rb) := by
    rw [hslots, BitVec.ofInt_natCast, BitVec.le_def, hnat, BitVec.toNat_ofNat,
      Nat.mod_eq_of_lt (by omega)]
    omega
  -- The bank of the tile is the step of the hop.
  have hbank : setup.awaitTile (setup.nextRank prev) s rb / setup.totalChunks / setup.numPeers =
      s := by
    rw [Setup.awaitTile, Nat.mul_comm, Nat.mul_add_div hT, Nat.div_eq_of_lt hin, Nat.add_zero,
      awaitSlot_div hn hs]
  have hpeers : ((setup.numPeers + 1 : Nat) : Int) - 1 = (setup.numPeers : Int) := by omega
  have hsrc : (BitVec.ofNat 32 (setup.awaitTile (setup.nextRank prev) s rb)).toInt =
      (setup.awaitTile (setup.nextRank prev) s rb : Nat) := by
    rw [BitVec.toInt_eq_toNat_of_lt (by omega), hnat]
  have hgood : ¬ (p.cfg.enableForwardNotify = false ∨ p.cfg.totalChunks ≤ 0 ∨
      p.cfg.aHalfBytes = 0) := by
    rw [henable, htotal]
    rintro (h | h | h)
    · exact absurd h (by simp only [Bool.true_eq_false, not_false_eq_true])
    · omega
    · exact hsize h
  -- What is left of the test is whether there is a bank behind this one.
  rw [Internode.Cx7.Setup.forwardNotifyEnabledForCmd, hid]
  dsimp only
  rw [if_neg hgood, if_neg hslot]
  simp only [hnodes, hpeers, htotal, hsrc, Internode.Cx7.natCast_tdiv, hbank]
  rw [if_neg (by omega), decide_eq_true_eq]
  omega

end Enabled

/-! ## What is posted -/

namespace Nodes

variable {g : Nodes} {n t : Nat} {p : Internode.Cx7.Setup} {cmd : TransferCmd}

theorem fits_session (hg : g.Ready) (n : Nat) : g.setup.Fits (g.session n) :=
  ⟨hg.fits.peers, hg.fits.tiles, hg.fits.bytes⟩

theorem dev_lt (hg : g.Ready) : g.dev < g.sess.numQps := by
  have hmul := g.sess.numPeers_mul_qpsPerPeer_le hg.channelized
  have hblock := Nat.le_mul_of_pos_left g.sess.qpsPerPeer g.sess.numPeers_pos'
  have hdev := hg.block
  omega

/-- The peer in the first slot is the next node. -/
theorem next_session (hg : g.Ready) (n : Nat) :
    ((g.session n).peerRankForLocalSlot 0).toNat = g.setup.nextRank n := by
  have hpeers : g.sess.cfg.numPeers + 1 = g.setup.numNodes := by
    have heq := hg.fits.peers
    have hpos := g.sess.numPeers_pos
    have hge := g.setup.numNodes_ge
    unfold Session.numPeers Setup.numPeers at heq
    omega
  have hranks : (g.session n).cfg.peerRanks = none := hg.ranks
  rw [Session.peerRankForLocalSlot, hranks]
  change (peerRankForSlot n (g.sess.cfg.numPeers + 1) 0).toNat = g.setup.nextRank n
  rw [hpeers, Setup.nextRank]

/-- The QP with the number of the channel is connected to the first peer. -/
theorem connectedSlot_dev (hg : g.Ready) (n : Nat) :
    (g.session n).connectedSlot g.dev = some 0 := by
  have hdev : g.dev / (g.session n).qpsPerPeer = 0 := Nat.div_eq_of_lt hg.block
  rw [(g.session n).connectedSlot_eq hg.channelized (dev_lt hg), hdev,
    if_pos (g.session n).numPeers_pos']

section Channel

variable (hg : g.Ready) (hp : p ∈ g.proxy n t) (hkey : cmd.reserved0.toNat = g.dev)
include hg hp hkey

/-- A command in the channel of the GPU is routed to the QP with the number of the channel. -/
theorem route_proxy : p.routeGlobalQp cmd = (g.dev : Int) := by
  have hroutes : (g.session n).routesChannels g.env = true := hg.routes
  rw [Session.routeGlobalQp_eq hp, routingKey, if_pos hroutes, hkey]
  exact congrArg _ (Nat.mod_eq_of_lt (dev_lt hg))

theorem inRange_proxy : p.InRange (p.localQp cmd) ↔ g.thread = t := by
  have hroutes : (g.session n).routesChannels g.env = true := hg.routes
  have hqps : (g.session n).numQps = g.sess.numQps := rfl
  rw [Session.inRange_iff hp, routingKey, if_pos hroutes, hkey, hqps,
    Nat.mod_eq_of_lt (dev_lt hg)]
  rfl

/-- It leads to the next node. -/
theorem target_proxy : g.target n p (p.localQp cmd) = some (g.setup.nextRank n) := by
  have hqp : (p.cfg.qpBaseIdx + p.localQp cmd).toNat = g.dev := by
    rw [Internode.Cx7.Setup.localQp, route_proxy hg hp hkey]
    omega
  rw [target, hqp, connectedSlot_dev hg n, Option.map_some, next_session hg]

/-- The addresses are those of the next node. -/
theorem addrForQp_proxy (r : Internode.Cx7.Region) :
    p.addrForQp (p.cfg.region r) (p.localQp cmd) =
      ((g.info (g.setup.nextRank n)).keys r).addr := by
  have hroutes : (g.session n).routesChannels g.env = true := hg.routes
  have hqps : (g.session n).numQps = g.sess.numQps := rfl
  have hslot : (g.session n).tableSlot g.dev = 0 :=
    (g.session n).tableSlot_eq hg.channelized (dev_lt hg) (connectedSlot_dev hg n)
  have hkeys := (Session.keysForQp_eq hp cmd r).1
  rw [routingKey, if_pos hroutes, hkey, hqps, Nat.mod_eq_of_lt (dev_lt hg), hslot] at hkeys
  rw [hkeys, Internode.Cx7.orFirst_eq_iff.mpr id, peerInfo, next_session hg]

/-- What is posted for a command of a kernel, with another bank to come. -/
theorem landings_phase0 {polled : Polled} (hcmd : polled.cmd = cmd)
    (henabled : p.forwardNotifyEnabledForCmd cmd = true) (senderSeq : Nat → BitVec 32)
    (count i : Nat) :
    landings (g.setup.nextRank n)
        (commandWrs p g.epoch senderSeq (p.localQp cmd) count i polled).1 =
      [g.dataOf (g.setup.nextRank n) (p.cfg.dataSource cmd).2 cmd,
        g.flagOf (g.setup.nextRank n) cmd, g.noteOf (g.setup.nextRank n) cmd] := by
  have hflat : p.cfg.useArrivalQueue = false := by
    rw [(Session.mem_proxy hp).1]
    rfl
  have hdata : p.remoteDataAddrForQp (p.localQp cmd) = (g.info (g.setup.nextRank n)).data.addr :=
    addrForQp_proxy hg hp hkey .data
  have hflags : p.remoteFlagsAddrForQp (p.localQp cmd) =
      (g.info (g.setup.nextRank n)).flags.addr := addrForQp_proxy hg hp hkey .flags
  have hnote : p.remoteForwardNotifyAddrForQp (p.localQp cmd) =
      (g.info (g.setup.nextRank n)).forwardNotify.addr := addrForQp_proxy hg hp hkey .forwardNotify
  simp only [commandWrs, hflat, hcmd, henabled, if_true, Bool.false_eq_true, if_false, landings,
    List.map_cons, List.map_nil, Internode.Cx7.dataWr, Internode.Cx7.wordWr,
    Internode.Cx7.notifyWr, hdata, hflags, hnote]
  rfl

/-- What is posted for a notification. -/
theorem landings_forward {c : Chain} (hc : forwardChain p g.epoch cmd = some c) :
    c.qp = p.localQp cmd ∧ landings (g.setup.nextRank n) c.wrs =
      [g.dataOf (g.setup.nextRank n) (p.cfg.localDataAddr + cmd.localOffset) cmd,
        g.flagOf (g.setup.nextRank n) cmd] := by
  have hdata : p.remoteDataAddrForQp (p.localQp cmd) = (g.info (g.setup.nextRank n)).data.addr :=
    addrForQp_proxy hg hp hkey .data
  have hflags : p.remoteFlagsAddrForQp (p.localQp cmd) =
      (g.info (g.setup.nextRank n)).flags.addr := addrForQp_proxy hg hp hkey .flags
  simp only [forwardChain, Option.ite_none_right_eq_some, Option.some.injEq] at hc
  rw [← hc.2]
  simp only [landings, List.map_cons, List.map_nil, Internode.Cx7.wordWr, hdata, hflags, true_and]
  rfl

end Channel

/-- The thread with the QP has a proxy. -/
theorem exists_proxy_thread (hg : g.Ready) (n : Nat) : ∃ p, p ∈ g.proxy n g.thread :=
  Session.exists_proxy (s := g.session n) (dev_lt hg)

/-- The command of a hop is what the next node waits for. -/
theorem hop_lands (hn : n < g.setup.numNodes) {s : Nat} (hs : s < g.setup.numPeers) (rb : Nat) :
    g.dataOf (g.setup.nextRank n) (g.sourceAt n s rb) (g.setup.hopWrite n g.dev s rb).toCmd =
        g.dataAt (g.setup.nextRank n) s rb ∧
      g.flagOf (g.setup.nextRank n) (g.setup.hopWrite n g.dev s rb).toCmd =
        g.flagAt (g.setup.nextRank n) s rb := by
  rcases hopWrite_awaited hn hs g.dev rb with ⟨-, htile, hoff, hbytes⟩
  constructor
  · simp only [dataOf, dataAt, Write.toCmd, hoff, hbytes, prevRank_nextRank hn]
  · simp only [flagOf, flagAt, Write.toCmd, htile]

theorem reserved0_phase0 (hg : g.Ready) (n rb : Nat) :
    (g.setup.phase0Write n g.dev rb).toCmd.reserved0.toNat = g.dev := by
  have hdev := dev_lt hg
  have hle := g.sess.numQps_le
  simp only [Write.toCmd, Setup.phase0Write, Setup.rbWrite, Nat.zero_mul, Nat.zero_add,
    BitVec.toNat_ofNat]
  omega

theorem reserved0_forward (hg : g.Ready) (hn : n < g.setup.numNodes) (hp : p ∈ g.proxy n t)
    (note : ForwardNotify) : (p.makeForwardCmdFromNotify note).reserved0.toNat = g.dev := by
  have hdev := dev_lt hg
  have hle := g.sess.numQps_le
  have hid : p.cfg.deviceId = g.dev := by
    rw [(Session.mem_proxy hp).1]
    exact hg.device n hn
  simp only [Internode.Cx7.Setup.makeForwardCmdFromNotify, hid, BitVec.ofInt_natCast,
    BitVec.toNat_ofNat]
  omega

/-- For a command of the prologue the proxy with the QP posts what the next node waits for, and a
    notification. -/
theorem phase0_lands (hg : g.Ready) (hn : n < g.setup.numNodes) (hp : p ∈ g.proxy n t) {rb : Nat}
    (hrb : g.setup.Owns g.dev rb) (fifo seq : Nat) (senderSeq : Nat → BitVec 32) (count i : Nat) :
    landings (g.setup.nextRank n)
        (commandWrs p g.epoch senderSeq (p.localQp (g.setup.phase0Write n g.dev rb).toCmd) count i
          ⟨fifo, seq, (g.setup.phase0Write n g.dev rb).toCmd⟩).1 =
      [g.dataAt (g.setup.nextRank n) 0 rb, g.flagAt (g.setup.nextRank n) 0 rb, g.noteAt n rb] := by
  have henabled : p.forwardNotifyEnabledForCmd (g.setup.phase0Write n g.dev rb).toCmd = true :=
    (forwardNotifyEnabled_iff (fits_session hg n) hg.many hp hg.unpadded hn g.setup.numPeers_pos
      (hg.inside rb hrb) g.dev).mpr hg.many
  have hsource : (p.cfg.dataSource (g.setup.phase0Write n g.dev rb).toCmd).2 =
      g.sourceAt n 0 rb := by
    rw [(Session.mem_proxy hp).1]
    rfl
  rcases hop_lands hn g.setup.numPeers_pos rb with ⟨hdata, hflag⟩
  rw [landings_phase0 hg hp (reserved0_phase0 hg n rb) rfl henabled, hsource, ← hdata, ← hflag,
    noteAt]
  rfl

/-- A row block is sent on from where it has landed, if the buffer a node receives into is the
    one it sends from. -/
theorem sourceAt_succ {s rb : Nat} (hsame : (g.rest n).localDataAddr = (g.info n).data.addr) :
    g.sourceAt n (s + 1) rb = (g.dataAt n s rb).addr := by
  rw [sourceAt, dataAt, hsame]

/-- For its notification the next node posts what the node after it waits for. -/
theorem forward_lands (hg : g.Ready) (hn : n < g.setup.numNodes)
    (hp : p ∈ g.proxy (g.setup.nextRank n) t) {rb : Nat} (hrb : g.setup.Owns g.dev rb) :
    let cmd := p.makeForwardCmdFromNotify
      (notifyOf g.epoch (g.setup.phase0Write n g.dev rb).toCmd)
    let after := g.setup.nextRank (g.setup.nextRank n)
    g.dataOf after (p.cfg.localDataAddr + cmd.localOffset) cmd = g.dataAt after 1 rb ∧
      g.flagOf after cmd = g.flagAt after 1 rb := by
  intro cmd after
  have hin := hg.inside rb hrb
  have hsame := (sameForward_iff_of_inside g.epoch g.dev (fits_session hg (g.setup.nextRank n)) hn
    rfl hp (cols_pos hin) hg.many hin).mpr ⟨hg.unpadded, hg.small rb hrb⟩
  have hoff : cmd.localOffset = BitVec.ofNat 64
      (g.setup.awaitSlot (g.setup.nextRank n) 0 * g.setup.aHalfBytes + g.setup.baseOffset rb) :=
    congrArg (BitVec.ofNat 64) (hopWrite_awaited hn g.setup.numPeers_pos g.dev rb).2.2.1
  have hsource : p.cfg.localDataAddr + cmd.localOffset = g.sourceAt (g.setup.nextRank n) 1 rb := by
    rw [hoff, (Session.mem_proxy hp).1]
    rfl
  rcases hop_lands (nextRank_lt hn) hg.many rb with ⟨hdata, hflag⟩
  rw [hsource, ← hdata, ← hflag]
  constructor
  · rw [dataOf, dataOf, show cmd.remoteOffset = _ from hsame.2.1,
      show cmd.bytes = _ from hsame.2.2]
    rfl
  · rw [flagOf, flagOf, show cmd.tileId = _ from hsame.1]
    rfl

end Nodes

end AgGemm

end MKernel
