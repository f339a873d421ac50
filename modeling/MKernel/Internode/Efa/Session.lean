import MKernel.Core.Spread
import MKernel.Internode.Cx7.Session
import MKernel.Internode.Efa.Frame
import MKernel.Internode.Environment

/-!
# An EFA Session

How `create_session` of the EFA backend makes its counts good, and what it
tells its proxies and its kernels.

The QPs are divided between the proxy threads in blocks of `qpsPerProxy`. There
are as many FIFOs as threads, and a kernel picks the FIFO of the block its lane
falls into. With `MKERNEL_FIFO_PER_QP` there are as many FIFOs as QPs instead;
a kernel then picks the FIFO of its QP, and each thread reads `fifosPerProxy` of
them, the number of FIFOs divided by that of threads and rounded down.

## Main definitions

* `SessionConfig`, `Session`: What a caller asks for, and what it gets.
* `Session.numQps`, `Session.numProxyThreads`, `Session.logicalQueuesPerQp`: The
  counts, made good.
* `Session.logicalQueueStride`: The number of arrival words of a logical queue.
* `Session.peerSlotByRank`: The peer slot of a rank.
* `Session.proxy`: The proxy of a thread, if it is started.
* `Session.fifoBundle`: What the kernels are told about the FIFOs.

## Theorems

* `numProxyThreads_le`, `numQps_le`: How far the counts go.
* `readFifos_proxy`: The FIFOs the proxy of a thread reads.
-/

namespace MKernel

namespace Internode

namespace Efa

open Cx7 (FifoBundle kMaxPeers kMaxProxyThreads)

def kEfaMaxQPs : Nat := kMaxExchangeQPs
def kMaxRails : Nat := 4

/-- What a caller asks of `create_session`, as far as its QPs, its FIFOs and its
    peers go. -/
structure SessionConfig where
  rank : Int
  numPeers : Int
  peerRanks : Option (Nat → Int)
  numTiles : Int
  maxInflight : Int
  numQps : Int
  logicalQueuesPerQp : Int
  numProxyThreads : Int
  useArrivalQueue : Bool
  numRails : Int

/-- A session of a number of peers it has room for, in its environment. -/
structure Session where
  cfg : SessionConfig
  env : Env
  numPeers_pos : 0 < cfg.numPeers
  numPeers_le : cfg.numPeers ≤ kMaxPeers

/-- `create_session`, which gives up on any other number of peers. -/
def createSession (cfg : SessionConfig) (env : Env) : Option Session :=
  if h : 0 < cfg.numPeers ∧ cfg.numPeers ≤ kMaxPeers then some ⟨cfg, env, h.1, h.2⟩ else none

namespace Session

variable (s : Session)

def numPeers : Nat := s.cfg.numPeers.toNat

def numQps : Nat :=
  let n := if s.cfg.numQps ≤ 0 then 1 else s.cfg.numQps.toNat
  if kEfaMaxQPs < n then kEfaMaxQPs else n

/-- The number of rails asked for: the environment overrides the caller, and
    each rail needs a QP. -/
def numRails : Nat :=
  let n := if s.cfg.numRails ≤ 0 then 1 else s.cfg.numRails.toNat
  let n := if kMaxRails < n then kMaxRails else n
  let n :=
    match s.env "MKERNEL_EFA_NUM_RAILS" with
    | none => n
    | some e => if 1 ≤ atoi e ∧ atoi e ≤ kMaxRails then (atoi e).toNat else n
  if s.numQps < n then s.numQps else n

/-- Each rail needs a thread. -/
def numProxyThreads : Nat :=
  let n := if s.cfg.numProxyThreads ≤ 0 then 1 else s.cfg.numProxyThreads.toNat
  let n := if n < s.numRails then s.numRails else n
  let n := if kMaxProxyThreads < n then kMaxProxyThreads else n
  let n := if s.numQps < n then s.numQps else n
  max 1 n

def logicalQueuesPerQp : Nat :=
  let n := if s.cfg.logicalQueuesPerQp ≤ 0 then 1 else s.cfg.logicalQueuesPerQp.toNat
  if 16 < n then 16 else n

def totalLogicalQueues : Nat := s.numQps * s.logicalQueuesPerQp

def logicalQueueStride : Int :=
  max 1 ((s.cfg.numTiles + s.totalLogicalQueues - 1).tdiv s.totalLogicalQueues)

def qpsPerProxy : Nat := max 1 ((s.numQps + s.numProxyThreads - 1) / s.numProxyThreads)

/-- `fifo_per_qp`. -/
def fifoPerQp : Bool :=
  match s.env "MKERNEL_FIFO_PER_QP" with
  | none => false
  | some e => atoi e ≠ 0

def numFifos : Nat :=
  let n := if s.fifoPerQp then s.numQps else s.numProxyThreads
  if kMaxProxyThreads < n then kMaxProxyThreads else n

def fifosPerProxy : Nat := s.numFifos / s.numProxyThreads

/-- `sess_peer_ranks`. -/
def peerRank (peerSlot : Nat) : Int :=
  match s.cfg.peerRanks with
  | some ranks => ranks peerSlot
  | none => (s.cfg.rank + 1 + peerSlot).tmod (s.cfg.numPeers + 1)

/-- `peer_slot_by_rank`: slots are entered in order, and the last one counts. -/
def peerSlotByRank (rank : BitVec 8) : Int :=
  match (List.range s.numPeers).reverse.find? fun p =>
      s.peerRank p = rank.toNat ∧ rank.toNat ≤ kMaxPeers with
  | some p => p
  | none => -1

/-- The number of QPs left for a proxy thread. -/
def localQps (t : Nat) : Int := min (s.qpsPerProxy : Int) (s.numQps - (t * s.qpsPerProxy : Nat))

/-- What a proxy thread is started with. The endpoints of a peer depend on the
    rail of the thread, and its QPs are numbered globally. What has to do neither
    with QPs nor with FIFOs nor with peers is taken from `rest`. -/
def proxyConfig (peers : Nat → Nat → PerPeerProxyData) (rest : ProxyConfig) (t : Nat) :
    ProxyConfig :=
  { rest with
    fifo := if s.numProxyThreads < s.numFifos then t * s.fifosPerProxy else t
    fifos := if s.numProxyThreads < s.numFifos then some fun k => t * s.fifosPerProxy + k else none
    numFifos := if s.numProxyThreads < s.numFifos then s.fifosPerProxy else 1
    numQps := s.localQps t
    globalNumQps := s.numQps
    logicalQueuesPerQp := s.logicalQueuesPerQp
    useArrivalQueue := s.cfg.useArrivalQueue
    remoteQueueStride := BitVec.ofInt 32 s.logicalQueueStride
    enableRemoteTail := envFlag s.env "Q2_SENDER_PUBLISHED_TAIL" false
    pipelineEnabled := envFlag s.env "Q2_PROXY_PIPELINE" false
    epoch := 1
    maxInflight := if 0 < s.cfg.maxInflight then s.cfg.maxInflight else 512
    numPeers := s.numPeers
    perPeer := fun p =>
      { peers t p with dstQpns := fun i => (peers t p).dstQpns (t * s.qpsPerProxy + i) }
    peerSlotByRank := some s.peerSlotByRank }

/-- The proxy of a thread. Threads without a QP get none. -/
def proxy (peers : Nat → Nat → PerPeerProxyData) (rest : ProxyConfig) (t : Nat) :
    Option Setup :=
  if t < s.numProxyThreads ∧ 0 < s.localQps t then
    some (Setup.ofConfig (s.proxyConfig peers rest t) (s.env "MKERNEL_EFA_VERBS_NOTIFY_MODE"))
  else none

/-- What the kernels are told about the FIFOs. -/
def fifoBundle : FifoBundle where
  numFifos := s.numFifos
  globalNumQps := s.numQps
  qpsPerFifo := if s.fifoPerQp then 1 else s.qpsPerProxy

theorem numPeers_pos' : 0 < s.numPeers := by
  have := s.numPeers_pos
  unfold numPeers
  omega

theorem numPeers_le' : s.numPeers ≤ kMaxPeers := by
  have := s.numPeers_le
  unfold numPeers
  omega

theorem numQps_pos : 0 < s.numQps := by
  simp only [numQps, kEfaMaxQPs, kMaxExchangeQPs]
  split <;> split <;> omega

theorem numQps_le : s.numQps ≤ 24 := by
  simp only [numQps, kEfaMaxQPs, kMaxExchangeQPs]
  split <;> split <;> omega

theorem numProxyThreads_pos : 0 < s.numProxyThreads := by
  simp only [numProxyThreads]
  omega

theorem numProxyThreads_le : s.numProxyThreads ≤ s.numQps := by
  have hpos := s.numQps_pos
  have hclamp : ∀ n, max 1 (if s.numQps < n then s.numQps else n) ≤ s.numQps := by
    intro n
    split <;> omega
  exact hclamp _

theorem qpsPerProxy_pos : 0 < s.qpsPerProxy := by
  unfold qpsPerProxy
  omega

/-- The proxies have all QPs between them. -/
theorem numQps_le_mul : s.numQps ≤ s.qpsPerProxy * s.numProxyThreads := by
  have hceil := Core.le_rounds_mul (n := s.numQps) s.numProxyThreads_pos
  exact Nat.le_trans hceil (Nat.mul_le_mul_right _ (Nat.le_max_right _ _))

theorem logicalQueuesPerQp_pos : 0 < s.logicalQueuesPerQp := by
  simp only [logicalQueuesPerQp]
  split <;> split <;> omega

theorem totalLogicalQueues_pos : 0 < s.totalLogicalQueues :=
  Nat.mul_pos s.numQps_pos s.logicalQueuesPerQp_pos

theorem logicalQueuesPerQp_le : s.logicalQueuesPerQp ≤ 16 := by
  simp only [logicalQueuesPerQp]
  split <;> split <;> omega

theorem totalLogicalQueues_le : s.totalLogicalQueues ≤ 384 :=
  Nat.mul_le_mul s.numQps_le s.logicalQueuesPerQp_le

/-- A proxy counts the same logical queues as its session. -/
theorem totalLogicalQueues_proxy {peers : Nat → Nat → PerPeerProxyData} {rest : ProxyConfig}
    {t : Nat} {setup : Setup} (h : s.proxy peers rest t = some setup) :
    setup.totalLogicalQueues = s.totalLogicalQueues := by
  have hq := s.numQps_pos
  have hl := s.logicalQueuesPerQp_pos
  have hl' := s.logicalQueuesPerQp_le
  have hle := s.totalLogicalQueues_le
  simp only [proxy, Option.ite_none_right_eq_some, Option.some.injEq] at h
  have hglobal : setup.globalNumQps = s.numQps := by
    have hcfg : (s.proxyConfig peers rest t).globalNumQps = s.numQps := rfl
    rw [← h.2]
    change (s.proxyConfig peers rest t).goodGlobalNumQps.toNat = s.numQps
    rw [ProxyConfig.goodGlobalNumQps, hcfg, if_neg (by omega), Int.toNat_natCast]
  have hlogical : setup.logicalQueuesPerQp = s.logicalQueuesPerQp := by
    have hcfg : (s.proxyConfig peers rest t).logicalQueuesPerQp = s.logicalQueuesPerQp := rfl
    rw [← h.2]
    change (s.proxyConfig peers rest t).goodLogicalQueuesPerQp.toNat = s.logicalQueuesPerQp
    rw [ProxyConfig.goodLogicalQueuesPerQp, hcfg, if_neg (by omega), if_neg (by omega),
      Int.toNat_natCast]
  rw [Setup.totalLogicalQueues, hglobal, hlogical]
  exact Nat.mod_eq_of_lt (by unfold totalLogicalQueues at hle; omega)

/-- Without ranks of its own a session counts its peers around the ring. -/
theorem peerRank_eq (hr : s.cfg.peerRanks = none) (h0 : 0 ≤ s.cfg.rank)
    (hlt : s.cfg.rank < s.cfg.numPeers + 1) {p : Nat} (hp : p < s.numPeers) :
    s.peerRank p = peerRankForSlot s.cfg.rank (s.cfg.numPeers + 1) p := by
  have hpos := s.numPeers_pos
  unfold numPeers at hp
  simp only [peerRank, hr, peerRankForSlot]
  rw [Int.tmod_eq_emod_of_nonneg (by omega)]
  split
  · rename_i hge
    rw [← Int.sub_emod_right, Int.emod_eq_of_lt (by omega) (by omega)]
  · rw [Int.emod_eq_of_lt (by omega) (by omega)]

/-- The table of peer slots leads from a peer's rank back to its slot. -/
theorem peerSlotByRank_eq (hr : s.cfg.peerRanks = none) (h0 : 0 ≤ s.cfg.rank)
    (hlt : s.cfg.rank < s.cfg.numPeers + 1) {p : Nat} (hp : p < s.numPeers) :
    s.peerSlotByRank (BitVec.ofInt 8
      (peerRankForSlot s.cfg.rank (s.cfg.numPeers + 1) p)) = p := by
  have hpos := s.numPeers_pos
  have hmax := s.numPeers_le
  unfold kMaxPeers at hmax
  have hcast : (s.numPeers : Int) = s.cfg.numPeers := by
    unfold numPeers
    omega
  have hrange : 0 ≤ peerRankForSlot s.cfg.rank (s.cfg.numPeers + 1) p ∧
      peerRankForSlot s.cfg.rank (s.cfg.numPeers + 1) p ≤ s.cfg.numPeers := by
    simp only [peerRankForSlot]
    split <;> omega
  have hnat : ((BitVec.ofInt 8
      (peerRankForSlot s.cfg.rank (s.cfg.numPeers + 1) p)).toNat : Int) =
        peerRankForSlot s.cfg.rank (s.cfg.numPeers + 1) p := by
    rw [BitVec.toNat_ofInt]
    omega
  simp only [peerSlotByRank, hnat]
  cases hfind : (List.range s.numPeers).reverse.find? fun q =>
      s.peerRank q = peerRankForSlot s.cfg.rank (s.cfg.numPeers + 1) p ∧
        (BitVec.ofInt 8 (peerRankForSlot s.cfg.rank (s.cfg.numPeers + 1) p)).toNat ≤ kMaxPeers with
  | none =>
      have hno := List.find?_eq_none.mp hfind p (List.mem_reverse.mpr (List.mem_range.mpr hp))
      refine absurd (decide_eq_true ⟨s.peerRank_eq hr h0 hlt hp, ?_⟩) hno
      unfold kMaxPeers
      omega
  | some q =>
      -- No two slots have the same rank.
      have hq := List.mem_range.mp (List.mem_reverse.mp (List.mem_of_find?_eq_some hfind))
      have hfound := List.find?_some hfind
      replace hfound := (of_decide_eq_true hfound).1
      rw [s.peerRank_eq hr h0 hlt hq] at hfound
      simp only [peerRankForSlot] at hfound
      dsimp only
      split at hfound <;> split at hfound <;> omega

/-- No count of FIFOs is cut short: there are at most as many as QPs. -/
theorem numFifos_eq : s.numFifos = if s.fifoPerQp then s.numQps else s.numProxyThreads := by
  have hq := s.numQps_le
  have ht := s.numProxyThreads_le
  simp only [numFifos, kMaxProxyThreads]
  split <;> split <;> omega

/-- The FIFOs the proxy of a thread reads are consecutive. -/
theorem readFifos_proxy {peers : Nat → Nat → PerPeerProxyData} {rest : ProxyConfig} {t : Nat}
    {setup : Setup} (h : s.proxy peers rest t = some setup) :
    readFifos setup = (List.range s.fifosPerProxy).map (t * s.fifosPerProxy + ·) := by
  simp only [proxy, Option.ite_none_right_eq_some, Option.some.injEq] at h
  have hT := s.numProxyThreads_pos
  rw [← h.2]
  simp only [readFifos, Setup.ofConfig, Setup.ofMode, proxyConfig]
  by_cases hlt : s.numProxyThreads < s.numFifos
  · simp only [if_pos hlt]
    by_cases h1 : 1 < s.fifosPerProxy
    · rw [if_pos h1]
    · -- More FIFOs than threads, but not twice as many: one each.
      have hone : s.fifosPerProxy = 1 := by
        have : 0 < s.fifosPerProxy := Nat.div_pos hlt.le hT
        omega
      rw [if_neg h1, hone]
      rfl
  · have heq : s.numFifos = s.numProxyThreads := by
      have := s.numFifos_eq
      have := s.numProxyThreads_le
      split at * <;> omega
    have hone : s.fifosPerProxy = 1 := by rw [fifosPerProxy, heq, Nat.div_self hT]
    simp only [if_neg hlt, hone, Nat.mul_one]
    rfl

end Session

end Efa

end Internode

end MKernel
