import Mathlib.Algebra.Order.Group.Nat
import MKernel.Core.Spread
import MKernel.Internode.Cx7.Requests

/-!
# A CX7 Session

How `create_session` divides its QPs, and what it tells its proxies, its
kernels and the NIC about the division.

The QPs of a session are numbered globally. They are divided twice. Between the
proxy threads they are divided into blocks of `qpsPerProxy`, and the FIFO of a
proxy carries the commands for its block: a kernel picks a FIFO by taking a
*lane* modulo the number of QPs and dividing by the size of a block. Between the
peers they are divided, where the session is channelised, into blocks of
`qpsPerPeer`, each connected to one peer, and the addresses and keys a proxy
uses for a QP are those of the peer of its block.

The number of QPs is at least eight for each peer of a channelised session, but
it is capped, and a caller may ask for more; so a block need not have eight.

## Main definitions

* `SessionConfig`, `Session`: What a caller asks for, and what it gets.
* `Session.numQps`, `Session.numProxyThreads`: The counts, made good.
* `Session.totalLogicalQueues`, `Session.logicalQueueStride`: The division of the
  arrival words.
* `Session.qpsPerProxy`, `Session.qpsPerPeer`: The sizes of the blocks.
* `Session.connectedSlot`: The peer slot a QP is connected to.
* `Session.remoteRegion`: The tables of addresses and keys by QP.
* `Session.proxy`: The proxy of a thread, if it is started.
* `FifoBundle.select`: The FIFO a kernel picks for a lane.

## Theorems

* `numQps_le`: No session has more QPs than the tables have entries.
* `qpsPerProxy_lt`: With two proxies, no proxy has all QPs.
* `connectedSlot_eq`: A channelised QP is connected to the peer of its block.
* `tableSlot_eq`: Its addresses are those of that peer.
-/

namespace MKernel

namespace Internode

namespace Cx7

def kMaxQPs : Nat := 24
def kMaxProxyThreads : Nat := 24
def kMaxPeers : Nat := 16

/-- What a caller asks of `create_session`, as far as its QPs and its peers
    go. -/
structure SessionConfig where
  rank : Int
  numPeers : Int
  peerRanks : Option (Int → Int)
  numQps : Int
  logicalQueuesPerQp : Int
  numProxyThreads : Int
  channelizeGpuPeers : Bool

/-- A session of a number of peers it has room for. -/
structure Session where
  cfg : SessionConfig
  numPeers_pos : 0 < cfg.numPeers
  numPeers_le : cfg.numPeers ≤ kMaxPeers

/-- `create_session`, which gives up on any other number of peers. -/
def createSession (cfg : SessionConfig) : Option Session :=
  if h : 0 < cfg.numPeers ∧ cfg.numPeers ≤ kMaxPeers then some ⟨cfg, h.1, h.2⟩ else none

/-- An address in a peer's memory, and the key that opens it. -/
structure RemoteKeys where
  addr : BitVec 64
  rkey : BitVec 32

/-- What a peer sends about its memory. -/
structure ConnectionInfo where
  data : RemoteKeys
  flags : RemoteKeys
  tail : RemoteKeys
  barrier : RemoteKeys
  forwardNotify : RemoteKeys

/-- The kernel's side of a session's FIFOs. -/
structure FifoBundle where
  numFifos : Int
  globalNumQps : Int
  qpsPerFifo : Int

/-- `gemm_ar_select_fifo_for_lane`. -/
def FifoBundle.select (bundle : FifoBundle) (laneId : BitVec 32) : Nat :=
  if bundle.numFifos ≤ 1 then 0
  else
    let globalNumQps := if 0 < bundle.globalNumQps then bundle.globalNumQps.toNat else 1
    let qpsPerFifo := if 0 < bundle.qpsPerFifo then bundle.qpsPerFifo.toNat else globalNumQps
    let globalQp := laneId.toNat % globalNumQps
    let fifoIdx := globalQp / qpsPerFifo
    -- A block without a FIFO of its own is read with the last.
    if bundle.numFifos.toNat ≤ fifoIdx then bundle.numFifos.toNat - 1 else fifoIdx

namespace Session

variable (s : Session)

def numPeers : Nat := s.cfg.numPeers.toNat

/-- `effective_num_qps`. -/
def numQps : Nat :=
  let n := if s.cfg.numQps ≤ 0 then 1 else s.cfg.numQps
  -- Eight for each of several peers, but the cap has the last word.
  let n := if s.cfg.channelizeGpuPeers = true ∧ 1 < s.cfg.numPeers then
    max n (s.cfg.numPeers * 8) else n
  (if (kMaxQPs : Int) < n then (kMaxQPs : Int) else n).toNat

def numProxyThreads : Nat :=
  let n := if s.cfg.numProxyThreads ≤ 0 then 1 else s.cfg.numProxyThreads.toNat
  let n := if kMaxProxyThreads < n then kMaxProxyThreads else n
  let n := if s.numQps < n then s.numQps else n
  max 1 n

def logicalQueuesPerQp : Nat :=
  let n := if s.cfg.logicalQueuesPerQp ≤ 0 then 1 else s.cfg.logicalQueuesPerQp.toNat
  if 16 < n then 16 else n

def totalLogicalQueues : Nat := s.numQps * s.logicalQueuesPerQp

/-- `logical_queue_stride`, for a session of so many tiles. -/
def logicalQueueStride (numTiles : Int) : Int :=
  max 1 ((numTiles + s.totalLogicalQueues - 1).tdiv s.totalLogicalQueues)

def qpsPerProxy : Nat := max 1 ((s.numQps + s.numProxyThreads - 1) / s.numProxyThreads)

def qpsPerPeer : Nat :=
  if s.cfg.channelizeGpuPeers then max 1 (s.numQps / s.numPeers) else s.numQps

/-- The rank of the node at the other end of a peer slot. -/
def peerRankForLocalSlot (peerSlot : Nat) : Int :=
  match s.cfg.peerRanks with
  | some ranks => ranks peerSlot
  | none => peerRankForSlot s.cfg.rank (s.cfg.numPeers + 1) peerSlot

def localQpBase (peerSlot : Nat) : Nat :=
  if s.cfg.channelizeGpuPeers then peerSlot * s.qpsPerPeer else 0

def localQpEnd (peerSlot : Nat) : Nat :=
  if s.cfg.channelizeGpuPeers then min s.numQps (s.localQpBase peerSlot + s.qpsPerPeer)
  else s.numQps

/-- Whether a QP is among those connected to a peer slot. -/
def Connects (peerSlot qp : Nat) : Prop := s.localQpBase peerSlot ≤ qp ∧ qp < s.localQpEnd peerSlot

instance (peerSlot qp : Nat) : Decidable (s.Connects peerSlot qp) :=
  inferInstanceAs (Decidable (_ ∧ _))

/-- The peer slot a QP is left connected to, if any: slots are gone through in
    order, and the last one counts. -/
def connectedSlot (qp : Nat) : Option Nat :=
  (List.range s.numPeers).reverse.find? fun slot => s.Connects slot qp

/-- The peer slot whose addresses are entered for a QP. -/
def tableSlot (qp : Nat) : Nat :=
  if s.cfg.channelizeGpuPeers then min (s.numPeers - 1) (qp / s.qpsPerPeer) else 0

/-- The tables of addresses and keys for one region, from those of the peers. -/
def remoteRegion (keys : Nat → RemoteKeys) : RemoteRegion where
  addr := (keys 0).addr
  rkey := (keys 0).rkey
  addrByQp qp := if qp < s.numQps ∧ qp < kMaxExchangeQPs then (keys (s.tableSlot qp)).addr else 0
  rkeyByQp qp := if qp < s.numQps ∧ qp < kMaxExchangeQPs then (keys (s.tableSlot qp)).rkey else 0

/-- The number of QPs left for a proxy thread. -/
def localQps (t : Nat) : Int := min (s.qpsPerProxy : Int) (s.numQps - (t * s.qpsPerProxy : Nat))

/-- What a proxy thread is started with. What has to do neither with QPs nor
    with peers is taken from `rest`. -/
def proxyConfig (infos : Nat → ConnectionInfo) (rest : ProxyConfig) (t : Nat) : ProxyConfig :=
  { rest with
    fifo := t
    numQps := s.localQps t
    qpBaseIdx := (t * s.qpsPerProxy : Nat)
    globalNumQps := s.numQps
    remoteData := s.remoteRegion fun p => (infos p).data
    remoteFlags := s.remoteRegion fun p => (infos p).flags
    remoteTail := s.remoteRegion fun p => (infos p).tail
    remoteBarrier := s.remoteRegion fun p => (infos p).barrier
    remoteForwardNotify := s.remoteRegion fun p => (infos p).forwardNotify
    logicalQueuesPerQp := s.logicalQueuesPerQp
    channelizeGpuPeers := s.cfg.channelizeGpuPeers
    rank := s.cfg.rank
    numNodes := s.cfg.numPeers + 1 }

/-- The proxy of a thread. Threads without a QP get none. -/
def proxy (infos : Nat → ConnectionInfo) (rest : ProxyConfig) (env : Option String) (t : Nat) :
    Option Setup :=
  if t < s.numProxyThreads ∧ 0 < s.localQps t then
    some (Setup.ofConfig (s.proxyConfig infos rest t) env)
  else none

/-- Whether the proxies route by peer channel: the environment has the last
    word. -/
def routesChannels (env : Option String) : Bool :=
  (env.map channelizeEnv).getD s.cfg.channelizeGpuPeers

/-- What the kernels are told about the FIFOs. -/
def fifoBundle : FifoBundle where
  numFifos := s.numProxyThreads
  globalNumQps := s.numQps
  qpsPerFifo := s.qpsPerProxy

theorem numPeers_pos' : 0 < s.numPeers := by
  have := s.numPeers_pos
  unfold numPeers
  omega

theorem numPeers_le' : s.numPeers ≤ kMaxPeers := by
  have := s.numPeers_le
  unfold numPeers
  omega

theorem numQps_pos : 0 < s.numQps := by
  have := s.numPeers_pos
  simp only [numQps, kMaxQPs]
  split <;> split <;> split <;> omega

/-- No session has more QPs than the tables have entries. -/
theorem numQps_le : s.numQps ≤ 24 := by
  simp only [numQps, kMaxQPs]
  split <;> omega

/-- A channelised session has a QP for each peer, and with several peers at
    least 16 in all. -/
theorem numQps_of_channelized (hc : s.cfg.channelizeGpuPeers = true) (hp : 1 < s.numPeers) :
    s.numPeers ≤ s.numQps ∧ 16 ≤ s.numQps := by
  have hle := s.numPeers_le
  unfold numPeers at hp
  have hp' : 1 < s.cfg.numPeers := by omega
  simp only [numQps, numPeers, kMaxQPs, kMaxPeers, hc, hp', and_self, if_true] at hle ⊢
  split <;> split <;> omega

theorem numProxyThreads_pos : 0 < s.numProxyThreads := by
  simp only [numProxyThreads]
  omega

theorem numProxyThreads_le : s.numProxyThreads ≤ s.numQps := by
  have hpos := s.numQps_pos
  -- There is a QP, so one thread at least is no more than the cap.
  have hclamp : ∀ n, max 1 (if s.numQps < n then s.numQps else n) ≤ s.numQps := by
    intro n
    split <;> omega
  exact hclamp _

theorem qpsPerProxy_pos : 0 < s.qpsPerProxy := by
  unfold qpsPerProxy
  omega

theorem qpsPerPeer_pos : 0 < s.qpsPerPeer := by
  have := s.numQps_pos
  unfold qpsPerPeer
  split <;> omega

/-- The proxies have all QPs between them. -/
theorem numQps_le_mul : s.numQps ≤ s.qpsPerProxy * s.numProxyThreads := by
  have hceil := Core.le_rounds_mul (n := s.numQps) s.numProxyThreads_pos
  exact Nat.le_trans hceil (Nat.mul_le_mul_right _ (Nat.le_max_right _ _))

/-- With two proxies, no proxy has all QPs. -/
theorem qpsPerProxy_lt (h : 1 < s.numProxyThreads) : s.qpsPerProxy < s.numQps := by
  have hle := s.numProxyThreads_le
  rcases Nat.exists_eq_add_of_le' h with ⟨k, hk⟩
  have hdiv : (s.numQps + s.numProxyThreads - 1) / s.numProxyThreads < s.numQps := by
    -- What is added to round up is less than the QPs times all threads but one.
    have hmul : k ≤ s.numQps * k := Nat.le_mul_of_pos_left k s.numQps_pos
    have hsplit : s.numQps * s.numProxyThreads = s.numQps * k + s.numQps * 2 := by
      rw [hk, Nat.mul_add]
    rw [Nat.div_lt_iff_lt_mul (by omega)]
    omega
  unfold qpsPerProxy
  omega

/-- A channelised QP is connected to the peer of its block, and to none beyond
    the last block. -/
theorem connectedSlot_eq (hc : s.cfg.channelizeGpuPeers = true) {qp : Nat} (hq : qp < s.numQps) :
    s.connectedSlot qp =
      if qp / s.qpsPerPeer < s.numPeers then some (qp / s.qpsPerPeer) else none := by
  have hblock : ∀ slot, s.Connects slot qp ↔ slot = qp / s.qpsPerPeer := by
    intro slot
    have hpos := s.qpsPerPeer_pos
    simp only [Connects, localQpBase, localQpEnd, hc, if_true]
    rw [eq_comm, Nat.div_eq_iff hpos]
    omega
  -- Blocks do not overlap, so the last slot that connects the QP is the only one.
  unfold connectedSlot
  cases hfind : (List.range s.numPeers).reverse.find? fun slot => s.Connects slot qp with
  | none =>
      split
      · rename_i hlt
        have hno := List.find?_eq_none.mp hfind (qp / s.qpsPerPeer)
          (List.mem_reverse.mpr (List.mem_range.mpr hlt))
        exact absurd (decide_eq_true ((hblock _).mpr rfl)) hno
      · rfl
  | some slot =>
      have hfound := List.find?_some hfind
      have hslot := (hblock slot).mp (of_decide_eq_true hfound)
      have hlt := List.mem_range.mp (List.mem_reverse.mp (List.mem_of_find?_eq_some hfind))
      rw [← hslot, if_pos hlt]

/-- The addresses entered for a channelised QP are those of the peer it is
    connected to. -/
theorem tableSlot_eq (hc : s.cfg.channelizeGpuPeers = true) {qp slot : Nat}
    (hq : qp < s.numQps) (h : s.connectedSlot qp = some slot) : s.tableSlot qp = slot := by
  rw [s.connectedSlot_eq hc hq] at h
  simp only [Option.ite_none_right_eq_some, Option.some.injEq] at h
  -- The block is that of a peer, so the last peer does not stand in for it.
  simp only [tableSlot, hc, if_true]
  omega

end Session

end Cx7

end Internode

end MKernel
