import MKernel.Core.Spread
import MKernel.Internode.Cx7.Session
import MKernel.Internode.Efa.Session

/-!
# The Queue Geometry of GemmRs

The arrival words of a receiver are divided into logical queues, and a word is
found from the number of its queue and the number of words of a queue. Sender
and receiver never tell each other these two numbers. The proxies have them from
the session, the kernel works them out for itself from the same environment, and
a notification is found only where the two agree.

Both begin with the QPs asked for, which `create_session` then makes good. The
kernel follows the CX7 backend in this, where a channelised session has no fewer
than eight QPs for each peer. The EFA backend does not raise the number, and
`create_session_py` lets `MKERNEL_EFA_NUM_QPS` override what channelising asked
for. So on EFA the two part ways where the override is below that
(`geometry_iff`).

## Main definitions

* `Launch`: What `gemm_rs` is called with.
* `Geometry`: The number of queues, and of the words of a queue.
* `Launch.geometry`: What the kernel works out.
* `Launch.createSession`: What a session gives its proxies.
* `Launch.Undercut`: The override is below what channelising asks for.

## Theorems

* `geometry_cx7`: On CX7, kernel and session agree.
* `geometry_efa_iff`: On EFA, they agree unless the override undercuts.
* `geometry_iff`: Both backends together.
-/

namespace MKernel

namespace GemmRs

open MKernel.Core
open MKernel.Internode (Env atoi envFlag)
open MKernel.Internode.Cx7 (kMaxPeers kMaxQPs)

/-- `config::NUM_BLOCKS`. -/
def numBlocks : Int := 132

/-- What `entrypoint_fused` is called with, as far as the queues go, on all
    nodes. A session has no more than `kMaxPeers` peers. One CTA of the grid is
    always left to compute, and each sending CTA needs one. -/
structure Launch where
  mLocal : Nat
  n : Nat
  numDevices : Nat
  devIdx : Nat
  numNodes : Nat
  numSendSms : Int
  env : Env
  numNodes_le : numNodes ≤ kMaxPeers + 1
  numSendSms_lt : numSendSms < numBlocks

/-- How the arrival words of a receiver are divided into queues. -/
structure Geometry where
  numQueues : Nat
  stride : Int
  deriving DecidableEq

inductive Backend where
  | cx7
  | efa
  deriving DecidableEq

/-- `MKERNEL_CHANNELIZE_GPU_PEERS` is set, to whatever. -/
def channelizes (env : Env) : Bool := (env "MKERNEL_CHANNELIZE_GPU_PEERS").isSome

/-! ## The kernel -/

/-- `gemm_rs_effective_num_qps_host`. -/
def effectiveNumQpsHost (numNodes : Nat) (env : Env) : Nat :=
  let kMaxSessionQPs : Int := 24
  let numPeers : Int := max 1 (numNodes - 1)
  let numQps : Int := 4
  let numQps :=
    if 1 < numPeers ∧ channelizes env then min kMaxSessionQPs (numPeers * 8) else numQps
  let numQps :=
    match env "MKERNEL_EFA_NUM_QPS" with
    | some e => atoi e
    | none => numQps
  -- Nothing asked for, or less, is one.
  let numQps := if numQps ≤ 0 then 1 else numQps
  let numQps := if 1 < numPeers ∧ channelizes env then max numQps (numPeers * 8) else numQps
  (min kMaxSessionQPs numQps).toNat

/-- The logical queues of a QP asked for, before they are made good. -/
def logicalQueues (env : Env) : Int :=
  match env "MKERNEL_INTERNODE_LOGICAL_QUEUES_PER_QP", env "GEMM_RS_LOGICAL_QUEUES_PER_QP" with
  | some e, _ => atoi e
  | none, some e => atoi e
  | none, none => 1

/-- `gemm_rs_logical_queues_per_qp_host`. -/
def logicalQueuesPerQpHost (env : Env) : Nat :=
  let logical := logicalQueues env
  let logical := if logical ≤ 0 then 1 else logical
  (min 16 logical).toNat

namespace Launch

variable (l : Launch)

def rowBlock : Nat := 128
def colBlock : Nat := 256

def colBlocks : Nat := l.n / colBlock
def localRowBlocks : Nat := l.mLocal / rowBlock
def totalInterTiles : Nat := l.localRowBlocks * l.colBlocks

/-- `num_remote_queues_rt`. -/
def numRemoteQueues : Nat := effectiveNumQpsHost l.numNodes l.env * logicalQueuesPerQpHost l.env

/-- `session_arrival_slots_rt`. -/
def sessionArrivalSlots : Nat := max 1 (l.numNodes - 1) * l.totalInterTiles

/-- `remote_queue_stride_rt`. -/
def remoteQueueStride : Nat :=
  max 1 ((l.sessionArrivalSlots + l.numRemoteQueues - 1) / l.numRemoteQueues)

/-- The geometry the kernel works with. -/
def geometry : Geometry where
  numQueues := l.numRemoteQueues
  stride := l.remoteQueueStride

/-! ## The session -/

/-- The peers a session is created with: all other nodes. -/
def numPeers : Nat := l.numNodes - 1

/-- `cfg.channelize_gpu_peers`. -/
def channelizeGpuPeers : Bool := 1 < l.numPeers && channelizes l.env

/-- `cfg.num_qps`. -/
def sessionNumQps : Int :=
  let numQps : Int := if l.channelizeGpuPeers then min kMaxQPs (l.numPeers * 8) else 4
  match l.env "MKERNEL_EFA_NUM_QPS" with
  | some e => atoi e
  | none => numQps

/-- `cfg.num_proxy_threads`. -/
def sessionNumProxyThreads : Int :=
  match l.env "MKERNEL_PROXY_THREADS", l.env "GEMM_RS_PROXY_THREADS" with
  | some e, _ => atoi e
  | none, some e => atoi e
  | none, none => 1

def useReceiverOwnerRs : Bool := envFlag l.env "GEMM_RS_RECEIVER_OWNER_RS" false

def useIncrementalPeerReduce : Bool :=
  envFlag l.env "GEMM_RS_INCREMENTAL_PEER_REDUCE" l.useReceiverOwnerRs

def useTransportArrivalQueue : Bool :=
  envFlag l.env "GEMM_RS_TRANSPORT_ARRIVAL_QUEUE" l.useIncrementalPeerReduce

/-- The tiles a caller creates a session for: those of each peer. -/
def numTiles : Int := (l.numPeers * l.totalInterTiles : Nat)

/-- `create_session_py`, for the CX7 backend. -/
def cx7Config (rank : Int) : Internode.Cx7.SessionConfig where
  rank := rank
  numPeers := l.numPeers
  peerRanks := none
  numQps := l.sessionNumQps
  logicalQueuesPerQp := logicalQueues l.env
  numProxyThreads := l.sessionNumProxyThreads
  channelizeGpuPeers := l.channelizeGpuPeers

/-- `create_session_py`, for the EFA backend. -/
def efaConfig (rank : Int) : Internode.Efa.SessionConfig where
  rank := rank
  numPeers := l.numPeers
  peerRanks := none
  numTiles := l.numTiles
  maxInflight := 256
  numQps := l.sessionNumQps
  logicalQueuesPerQp := logicalQueues l.env
  numProxyThreads := l.sessionNumProxyThreads
  useArrivalQueue := l.useTransportArrivalQueue
  numRails := 2

/-- The geometry a session gives its proxies, if there is a session. -/
def createSession (backend : Backend) (rank : Int) : Option Geometry :=
  match backend with
  | .cx7 =>
      (Internode.Cx7.createSession (l.cx7Config rank)).map fun s =>
        ⟨s.totalLogicalQueues, s.logicalQueueStride l.numTiles⟩
  | .efa =>
      (Internode.Efa.createSession (l.efaConfig rank) l.env).map fun s =>
        ⟨s.totalLogicalQueues, s.logicalQueueStride⟩

/-- The session is channelised, and fewer QPs are asked for in its stead. -/
def Undercut : Prop :=
  l.channelizeGpuPeers = true ∧
    ∃ e ∈ l.env "MKERNEL_EFA_NUM_QPS", max 1 (atoi e) < min 24 (l.numPeers * 8)

instance : Decidable l.Undercut := inferInstanceAs (Decidable (_ ∧ _))

variable {l}

/-! ## The number of QPs -/

theorem one_lt_numPeers_iff : 1 < max (1 : Int) (l.numNodes - 1) ↔ 1 < l.numPeers := by
  unfold numPeers
  omega

/-- The kernel begins with what the session is asked for, makes it good, and
    raises it where the session is channelised. -/
theorem effectiveNumQpsHost_eq : effectiveNumQpsHost l.numNodes l.env =
    (min 24 (if l.channelizeGpuPeers then max (max 1 l.sessionNumQps) (l.numPeers * 8)
      else max 1 l.sessionNumQps)).toNat := by
  have hbegin : (match l.env "MKERNEL_EFA_NUM_QPS" with
      | some e => atoi e
      | none => if 1 < max (1 : Int) (l.numNodes - 1) ∧ channelizes l.env then
          min 24 (max (1 : Int) (l.numNodes - 1) * 8) else 4) = l.sessionNumQps := by
    unfold sessionNumQps
    -- The override replaces what channelising asks for, in kernel and session alike.
    cases l.env "MKERNEL_EFA_NUM_QPS" with
    | some e => rfl
    | none =>
        simp only [one_lt_numPeers_iff, channelizeGpuPeers, Bool.and_eq_true, decide_eq_true_eq]
        split
        · rename_i hmany
          have hlt := hmany.1
          simp only [numPeers, kMaxQPs] at hlt ⊢
          omega
        · rfl
  simp only [effectiveNumQpsHost]
  rw [hbegin]
  simp only [one_lt_numPeers_iff, channelizeGpuPeers, Bool.and_eq_true, decide_eq_true_eq]
  split
  · rename_i hmany
    have hlt := hmany.1
    simp only [numPeers] at hlt ⊢
    split <;> omega
  · split <;> omega

theorem logicalQueuesPerQpHost_eq :
    logicalQueuesPerQpHost l.env = (min 16 (max 1 (logicalQueues l.env))).toNat := by
  simp only [logicalQueuesPerQpHost]
  split <;> omega

/-- The kernel divides no arrival word by nothing, and no more than a session
    has. -/
theorem numRemoteQueues_pos : 0 < l.numRemoteQueues := by
  have hqps : 0 < effectiveNumQpsHost l.numNodes l.env := by
    rw [effectiveNumQpsHost_eq]
    split <;> omega
  have hlogical : 0 < logicalQueuesPerQpHost l.env := by
    rw [logicalQueuesPerQpHost_eq]
    omega
  exact Nat.mul_pos hqps hlogical

theorem numRemoteQueues_le : l.numRemoteQueues ≤ 384 := by
  have hqps : effectiveNumQpsHost l.numNodes l.env ≤ 24 := by
    rw [effectiveNumQpsHost_eq]
    omega
  have hlogical : logicalQueuesPerQpHost l.env ≤ 16 := by
    rw [logicalQueuesPerQpHost_eq]
    omega
  exact Nat.mul_le_mul hqps hlogical

/-! ## Both backends -/

/-- Two divisions of the arrival words are the same if they are into as many
    queues. -/
theorem geometry_eq_iff (hp : 0 < l.numPeers) {numQueues : Nat} {stride : Int}
    (h : stride = max 1 ((l.numTiles + numQueues - 1).tdiv numQueues)) :
    l.geometry = ⟨numQueues, stride⟩ ↔ l.numRemoteQueues = numQueues := by
  simp only [geometry, Geometry.mk.injEq, and_iff_left_iff_imp]
  rintro rfl
  have hslots : l.sessionArrivalSlots = l.numPeers * l.totalInterTiles := by
    unfold sessionArrivalSlots
    rw [show max 1 (l.numNodes - 1) = l.numPeers from Nat.max_eq_right hp]
  have hpos := l.numRemoteQueues_pos
  -- The session counts in integers, the kernel in naturals.
  have hcast : l.numTiles + l.numRemoteQueues - 1 =
      ((l.sessionArrivalSlots + l.numRemoteQueues - 1 : Nat) : Int) := by
    rw [hslots, numTiles]
    omega
  rw [h, hcast, remoteQueueStride, Int.tdiv_eq_ediv_of_nonneg (by omega)]
  omega

/-- Sessions make the logical queues of a QP good as the kernel does. -/
theorem logicalQueues_made_good {n : Nat}
    (h : n = if logicalQueues l.env ≤ 0 then 1 else (logicalQueues l.env).toNat) :
    (if 16 < n then 16 else n) = logicalQueuesPerQpHost l.env := by
  rw [logicalQueuesPerQpHost_eq]
  split at h <;> split <;> omega

/-- With as many logical queues for each QP, the QPs decide. -/
theorem numRemoteQueues_eq_iff {numQps logical : Nat}
    (h : logical = logicalQueuesPerQpHost l.env) :
    l.numRemoteQueues = numQps * logical ↔ effectiveNumQpsHost l.numNodes l.env = numQps := by
  have hlogical : 0 < logicalQueuesPerQpHost l.env := by
    rw [logicalQueuesPerQpHost_eq]
    omega
  rw [numRemoteQueues, h]
  exact Nat.mul_left_inj (Nat.pos_iff_ne_zero.mp hlogical)

/-- A CX7 session is channelised where the kernel takes it to be, and raises its
    QPs as the kernel does. -/
theorem numQps_cx7 {rank : Int} {s : Internode.Cx7.Session} (hs : s.cfg = l.cx7Config rank) :
    s.numQps = effectiveNumQpsHost l.numNodes l.env := by
  -- A session that is channelised has several peers.
  have hraise : l.channelizeGpuPeers = true ∧ (1 : Int) < l.numPeers ↔
      l.channelizeGpuPeers = true := by
    rw [and_iff_left_iff_imp, channelizeGpuPeers, Bool.and_eq_true, decide_eq_true_eq]
    rintro ⟨hmany, _⟩
    exact_mod_cast hmany
  rw [effectiveNumQpsHost_eq]
  simp only [Internode.Cx7.Session.numQps, hs, cx7Config, kMaxQPs, hraise]
  by_cases hc : l.channelizeGpuPeers = true
  · rw [if_pos hc, if_pos hc]
    split <;> split <;> omega
  · rw [if_neg hc, if_neg hc]
    split <;> split <;> omega

/-- An EFA session takes the number asked for as it is, so what channelising
    asks for is gone where it is overridden. -/
theorem numQps_efa_iff {rank : Int} {s : Internode.Efa.Session} (hs : s.cfg = l.efaConfig rank) :
    effectiveNumQpsHost l.numNodes l.env = s.numQps ↔ ¬ l.Undercut := by
  -- Made good and capped, but not raised.
  have hefa : s.numQps = (min 24 (max 1 l.sessionNumQps)).toNat := by
    simp only [Internode.Efa.Session.numQps, hs, efaConfig, Internode.Efa.kEfaMaxQPs,
      Internode.kMaxExchangeQPs]
    split <;> split <;> omega
  rw [effectiveNumQpsHost_eq, hefa, Undercut]
  by_cases hc : l.channelizeGpuPeers = true
  · rw [if_pos hc, and_iff_right hc]
    cases henv : l.env "MKERNEL_EFA_NUM_QPS" with
    | none =>
        -- Nothing overrides what channelising asks for.
        have hasked : l.sessionNumQps = min 24 (l.numPeers * 8) := by
          simp only [sessionNumQps, henv, hc, if_true, kMaxQPs]
          omega
        simp only [hasked, Option.mem_def, reduceCtorEq, false_and, exists_false,
          not_false_eq_true, iff_true]
        omega
    | some e =>
        have hasked : l.sessionNumQps = atoi e := by
          simp only [sessionNumQps, henv]
        simp only [hasked, Option.mem_def, Option.some.injEq, exists_eq_left']
        omega
  · rw [if_neg hc]
    exact iff_of_true rfl fun h => hc h.1

end Launch

/-- On CX7, kernel and session divide the arrival words alike. -/
theorem geometry_cx7 {l : Launch} {rank : Int} {g : Geometry}
    (h : l.createSession .cx7 rank = some g) : l.geometry = g := by
  simp only [Launch.createSession, Option.map_eq_some_iff, Internode.Cx7.createSession,
    Option.dite_none_right_eq_some, Option.some.injEq] at h
  rcases h with ⟨s, ⟨hpeers, rfl⟩, rfl⟩
  have hpos : 0 < l.numPeers := Int.natCast_pos.mp hpeers.1
  refine (Launch.geometry_eq_iff hpos rfl).mpr ?_
  refine (Launch.numRemoteQueues_eq_iff (Launch.logicalQueues_made_good rfl)).mpr ?_
  exact (Launch.numQps_cx7 rfl).symm

/-- On EFA, they do unless fewer QPs are asked for than channelising does. -/
theorem geometry_efa_iff {l : Launch} {rank : Int} {g : Geometry}
    (h : l.createSession .efa rank = some g) : l.geometry = g ↔ ¬ l.Undercut := by
  simp only [Launch.createSession, Option.map_eq_some_iff, Internode.Efa.createSession,
    Option.dite_none_right_eq_some, Option.some.injEq] at h
  rcases h with ⟨s, ⟨hpeers, rfl⟩, rfl⟩
  have hpos : 0 < l.numPeers := Int.natCast_pos.mp hpeers.1
  refine (Launch.geometry_eq_iff hpos rfl).trans ?_
  refine (Launch.numRemoteQueues_eq_iff (Launch.logicalQueues_made_good rfl)).trans ?_
  exact Launch.numQps_efa_iff rfl

/-- The kernel works with the geometry the session gave its proxies exactly on
    CX7 or where no override undercuts a channelised session. -/
theorem geometry_iff (l : Launch) (backend : Backend) (rank : Int) {g : Geometry}
    (h : l.createSession backend rank = some g) :
    l.geometry = g ↔ backend = .cx7 ∨ ¬ l.Undercut := by
  cases backend with
  | cx7 => exact iff_of_true (geometry_cx7 h) (Or.inl rfl)
  | efa =>
      rw [geometry_efa_iff h]
      exact (or_iff_right (by decide)).symm

theorem four_le_maxNodes : 4 ≤ kMaxPeers + 1 := by decide

section Sample

/-- Four nodes, and eight QPs asked for in place of the 24 of three peers. -/
def fewQps : Launch where
  mLocal := 1024
  n := 1024
  numDevices := 8
  devIdx := 0
  numNodes := 4
  numSendSms := 4
  env := fun name =>
    if name = "MKERNEL_CHANNELIZE_GPU_PEERS" then some "1"
    else if name = "MKERNEL_EFA_NUM_QPS" then some "8"
    else none
  numNodes_le := four_le_maxNodes
  numSendSms_lt := by decide

theorem geometry_iff_fewQps : fewQps.createSession .efa 0 = some ⟨8, 12⟩ ∧
    (fewQps.geometry = ⟨8, 12⟩ ↔ Backend.efa = .cx7 ∨ ¬ fewQps.Undercut) :=
  ⟨by decide +kernel, geometry_iff fewQps .efa 0 (by decide +kernel)⟩

/-- The kernel takes the arrival words to be in 24 queues of four. -/
theorem geometry_differs : ¬ ∀ (l : Launch) (backend : Backend) (rank : Int) (g : Geometry),
    l.createSession backend rank = some g → l.geometry = g := by
  intro h
  have hsame := h fewQps .efa 0 ⟨8, 12⟩ (by decide +kernel)
  exact absurd hsame (by decide +kernel)

end Sample

end GemmRs

end MKernel
