import Mathlib.Algebra.Group.Nat.Defs
import Mathlib.Data.Int.Basic
import Mathlib.Data.List.Basic
import Mathlib.Logic.Function.Basic
import MKernel.Internode.Fifo

/-!
# Work Requests of the CX7 Proxy

The configuration of a CX7 proxy, how it routes commands to its QPs, and the
request chains it builds.

RC executes the requests of a QP in order, so a command is a chain: the data,
the arrival word, and then, depending on the layout, a tail counter or a
forward notification. A whole batch is one chain, posted in one call on one QP,
and only its last request is signaled. The `wr_id` of that request carries the
local QP and the number of commands the completion retires.

A command may also gather strided rows out of the caller's buffer; it is then a
chain of its own, and its `wr_id` counts requests instead of commands.

Payloads of arrival words, tails, notifications and barriers are inline: they
are copied when the chain is posted, so a request carries its payload. Which
place of the staging ring it was copied from is kept in its gather list.

The request also records, in `role`, what it is for. The code has no such
field.

## Main definitions

* `ProxyConfig`, `Setup`: What a session passes in, and what a proxy runs with.
* `Setup.routeGlobalQp`, `Setup.localQp`: Where a command goes.
* `SendWr`, `Chain`: A request, and what one `ibv_post_send` hands over.
* `batchChain`: The chain of a batch.
* `stridedChain`: The chain of a strided command, if it is within limits.
* `forwardChain`: The chain of a forwarded command.
* `barrierChain`: The chain of a stage barrier.

## Theorems

* `decodeWrCount_encodeWrId`: The count in a `wr_id` can be read back.
* `announces_batchChain`, `announces_stridedChain`: Arrival words take the next
  slots of their logical queues.
* `carries_batchChain`, `carries_stridedChain`: The commands a chain carries.
* `count_batchChain`, `count_stridedChain`: What a completion retires.
-/

namespace MKernel

namespace Internode

namespace Cx7

def BATCH_SIZE : Nat := 8
def kQpSqDepth : Int := 2048
def kSafetyMargin : Int := 64
def kMaxRows : Nat := 256
def kMaxDataWrs : Nat := 16
def kScanPerLoop : Nat := 256

/-- A region of a peer's memory: its address and key, and those that replace
    them for single QPs where they are set. -/
structure RemoteRegion where
  addr : BitVec 64
  rkey : BitVec 32
  addrByQp : Nat → BitVec 64
  rkeyByQp : Nat → BitVec 32

/-- What `create_session` passes to a proxy. It asks for no more gather entries
    than 32. -/
structure ProxyConfig where
  fifo : Nat
  numQps : Int
  qpBaseIdx : Int
  globalNumQps : Int
  localDataAddr : BitVec 64
  localDataLkey : BitVec 32
  clocalDataAddr : BitVec 64
  clocalDataLkey : BitVec 32
  directDmabufEnabled : Bool
  rowStrideBytes : BitVec 64
  maxSendSge : BitVec 32
  remoteData : RemoteRegion
  flagStaging : FlagStaging
  remoteFlags : RemoteRegion
  remoteTail : RemoteRegion
  useArrivalQueue : Bool
  remoteQueueStride : BitVec 32
  logicalQueuesPerQp : Int
  channelizeGpuPeers : Bool
  enableRemoteTail : Bool
  remoteBarrier : RemoteRegion
  enableForwardNotify : Bool
  localForwardNotify : Bool
  forwardNotifySlots : Int
  remoteForwardNotify : RemoteRegion
  rank : Int
  numNodes : Int
  totalChunks : Int
  aHalfBytes : BitVec 64
  epoch : BitVec 32
  maxInflight : Int
  deviceId : Int
  maxSendSge_le : maxSendSge.toNat ≤ 32

namespace ProxyConfig

def goodMaxInflight (cfg : ProxyConfig) : Int :=
  if cfg.maxInflight ≤ 0 then 512 else cfg.maxInflight

def goodNumQps (cfg : ProxyConfig) : Int := if cfg.numQps ≤ 0 then 1 else cfg.numQps

def goodGlobalNumQps (cfg : ProxyConfig) : Int :=
  if cfg.globalNumQps ≤ 0 then cfg.goodNumQps else cfg.globalNumQps

def goodLogicalQueuesPerQp (cfg : ProxyConfig) : Int :=
  let n := if cfg.logicalQueuesPerQp ≤ 0 then 1 else cfg.logicalQueuesPerQp
  if 16 < n then 16 else n

/-- `kWrsPerChunk`: the most requests a command takes in this configuration. -/
def wrsPerChunk (cfg : ProxyConfig) : Int :=
  2 + (if cfg.enableRemoteTail then 1 else 0) + (if cfg.enableForwardNotify then 1 else 0)

/-- The in-flight budget of one QP. -/
def perQpCap (cfg : ProxyConfig) : Int :=
  let perQpChunkCap := kQpSqDepth / cfg.wrsPerChunk - kSafetyMargin
  let perQpChunkCap := if perQpChunkCap < 1 then 1 else perQpChunkCap
  if perQpChunkCap < cfg.goodMaxInflight then perQpChunkCap else cfg.goodMaxInflight

theorem goodNumQps_pos (cfg : ProxyConfig) : 0 < cfg.goodNumQps := by
  simp only [goodNumQps]
  split <;> omega

theorem goodGlobalNumQps_pos (cfg : ProxyConfig) : 0 < cfg.goodGlobalNumQps := by
  have := cfg.goodNumQps_pos
  simp only [goodGlobalNumQps]
  split <;> omega

theorem perQpCap_pos (cfg : ProxyConfig) : 0 < cfg.perQpCap := by
  have hmax : 0 < cfg.goodMaxInflight := by
    simp only [goodMaxInflight]
    split <;> omega
  simp only [perQpCap]
  split <;> split <;> omega

end ProxyConfig

/-- A configuration with its counts made good, and what the constructor
    derives from them. -/
structure Setup where
  cfg : ProxyConfig
  channelizeGpuPeers : Bool
  numQps : Nat
  globalNumQps : Nat
  logicalQueuesPerQp : Nat
  effectiveMaxInflight : Int
  numQps_pos : 0 < numQps
  globalNumQps_pos : 0 < globalNumQps
  effective_pos : 0 < effectiveMaxInflight

/-- `MKERNEL_CHANNELIZE_GPU_PEERS`, when it is set: anything that neither is
    empty nor begins with a zero. -/
def channelizeEnv (env : String) : Bool :=
  match env.toList with
  | [] => false
  | c :: _ => c ≠ '0'

/-- The constructor, given how it is to route. -/
def Setup.ofRouting (cfg : ProxyConfig) (channelize : Bool) : Setup where
  cfg := cfg
  channelizeGpuPeers := channelize
  numQps := cfg.goodNumQps.toNat
  globalNumQps := cfg.goodGlobalNumQps.toNat
  logicalQueuesPerQp := cfg.goodLogicalQueuesPerQp.toNat
  effectiveMaxInflight := cfg.perQpCap * cfg.goodNumQps
  numQps_pos := by
    have := cfg.goodNumQps_pos
    omega
  globalNumQps_pos := by
    have := cfg.goodGlobalNumQps_pos
    omega
  effective_pos := Int.mul_pos cfg.perQpCap_pos cfg.goodNumQps_pos

/-- The constructor. The environment overrides the configuration's routing. -/
def Setup.ofConfig (cfg : ProxyConfig) (channelizeGpuPeersEnv : Option String) : Setup :=
  Setup.ofRouting cfg ((channelizeGpuPeersEnv.map channelizeEnv).getD cfg.channelizeGpuPeers)

namespace Setup

variable (setup : Setup)

/-- The layouts that route commands to QPs: the arrival queue, and the flat
    layout with a channel for each peer. -/
def routed : Bool := setup.cfg.useArrivalQueue || setup.channelizeGpuPeers

/-- `route_global_qp`. -/
def routeGlobalQp (cmd : TransferCmd) : Int :=
  if setup.channelizeGpuPeers then
    (cmd.reserved0 % BitVec.ofNat 8 setup.globalNumQps).toNat
  else (cmd.laneId.toNat % setup.globalNumQps : Nat)

/-- The local QP a command is routed to, which may be out of range. -/
def localQp (cmd : TransferCmd) : Int := setup.routeGlobalQp cmd - setup.cfg.qpBaseIdx

/-- Whether a local QP is one of the proxy's. -/
def InRange (qp : Int) : Prop := 0 ≤ qp ∧ qp < setup.numQps

instance (qp : Int) : Decidable (setup.InRange qp) := inferInstanceAs (Decidable (_ ∧ _))

/-- `total_logical_queues`. -/
def totalLogicalQueues : Nat := (setup.globalNumQps * setup.logicalQueuesPerQp) % 2 ^ 32

/-- The logical queue a command is announced in. -/
def logicalQueue (cmd : TransferCmd) : Nat :=
  if 0 < setup.totalLogicalQueues then cmd.laneId.toNat % setup.totalLogicalQueues else 0

/-- The entry of a by-QP table for a local QP, or zero. -/
def byQp {n : Nat} (table : Nat → BitVec n) (localQp : Int) : BitVec n :=
  let globalQp := setup.cfg.qpBaseIdx + localQp
  if 0 ≤ globalQp ∧ globalQp < kMaxExchangeQPs then table globalQp.toNat else 0

/-- A region's address for a local QP. -/
def addrForQp (region : RemoteRegion) (localQp : Int) : BitVec 64 :=
  let v := setup.byQp region.addrByQp localQp
  if v ≠ 0 then v else region.addr

/-- A region's key for a local QP. -/
def rkeyForQp (region : RemoteRegion) (localQp : Int) : BitVec 32 :=
  let v := setup.byQp region.rkeyByQp localQp
  if v ≠ 0 then v else region.rkey

def remoteDataAddrForQp (qp : Int) : BitVec 64 := setup.addrForQp setup.cfg.remoteData qp
def remoteDataRkeyForQp (qp : Int) : BitVec 32 := setup.rkeyForQp setup.cfg.remoteData qp
def remoteFlagsAddrForQp (qp : Int) : BitVec 64 := setup.addrForQp setup.cfg.remoteFlags qp
def remoteFlagsRkeyForQp (qp : Int) : BitVec 32 := setup.rkeyForQp setup.cfg.remoteFlags qp
def remoteTailAddrForQp (qp : Int) : BitVec 64 := setup.addrForQp setup.cfg.remoteTail qp
def remoteTailRkeyForQp (qp : Int) : BitVec 32 := setup.rkeyForQp setup.cfg.remoteTail qp

def remoteForwardNotifyAddrForQp (qp : Int) : BitVec 64 :=
  setup.addrForQp setup.cfg.remoteForwardNotify qp

def remoteForwardNotifyRkeyForQp (qp : Int) : BitVec 32 :=
  setup.rkeyForQp setup.cfg.remoteForwardNotify qp

/-- `forward_notify_enabled_for_cmd`. -/
def forwardNotifyEnabledForCmd (cmd : TransferCmd) : Bool :=
  let cfg := setup.cfg
  if cfg.enableForwardNotify = false ∨ cfg.totalChunks ≤ 0 ∨ cfg.aHalfBytes = 0 then false
  else if BitVec.ofInt 32 cfg.forwardNotifySlots ≤ cmd.tileId then false
  else
    let nPeers := cfg.numNodes - 1
    if nPeers < 1 then false
    else
      let srcVirtual := cmd.tileId.toInt.tdiv cfg.totalChunks
      let srcBank := srcVirtual.tdiv nPeers
      decide (srcBank + 1 < nPeers)

/-- `make_forward_cmd_from_notify`. -/
def makeForwardCmdFromNotify (n : ForwardNotify) : TransferCmd :=
  let cfg := setup.cfg
  let nPeers := cfg.numNodes - 1
  let srcVirtual := n.tileId.toInt.tdiv cfg.totalChunks
  let srcSlot := srcVirtual.tmod nPeers
  let srcBank := srcVirtual.tdiv nPeers
  let originRank := peerRankForSlot cfg.rank cfg.numNodes srcSlot
  let nextRank := peerRankForSlot cfg.rank cfg.numNodes 0
  let dstSlot := slotAtPeer originRank nextRank cfg.numNodes
  let dstVirtual := dstSlot + nPeers * (srcBank + 1)
  let chunk := n.tileId % BitVec.ofInt 32 cfg.totalChunks
  let base := (n.localOffset % cfg.aHalfBytes).setWidth 32
  { TransferCmd.zero with
    cmdType := .write
    dstRank := BitVec.ofInt 8 nextRank
    bytes := n.bytes
    localOffset := n.localOffset
    srcView := 0
    laneId := n.laneId
    reserved0 := BitVec.ofInt 8 cfg.deviceId
    tileId := BitVec.ofInt 32 (dstVirtual * cfg.totalChunks) + chunk
    remoteOffset := BitVec.ofInt 64 dstVirtual * cfg.aHalfBytes + base.setWidth 64 }

end Setup

/-- `encode_wr_id`. -/
def encodeWrId (localQp : Int) (wrCount : Nat) : BitVec 64 :=
  ((BitVec.ofInt 32 localQp).setWidth 64 <<< 32) ||| (BitVec.ofNat 32 wrCount).setWidth 64

/-- `decode_wr_count`. -/
def decodeWrCount (wrId : BitVec 64) : Int := (wrId.setWidth 32).toInt

theorem decodeWrCount_encodeWrId (localQp : Int) {wrCount : Nat} (h : wrCount < 2 ^ 31) :
    decodeWrCount (encodeWrId localQp wrCount) = wrCount := by
  have hlow : (encodeWrId localQp wrCount).setWidth 32 = BitVec.ofNat 32 wrCount := by
    -- The count fills the low half, the QP the high half.
    ext i hi
    simp [encodeWrId]
  rw [decodeWrCount, hlow, BitVec.toInt_eq_toNat_of_lt] <;> rw [BitVec.toNat_ofNat] <;> omega

/-- A piece of local memory a request reads. -/
structure Sge where
  addr : BitVec 64
  length : BitVec 32
  lkey : BitVec 32
  deriving DecidableEq, Repr

/-- What an inline request carries. -/
inductive Payload where
  | word (w : BitVec 32)
  | notify (n : ForwardNotify)
  deriving DecidableEq, Repr

/-- What a request is for. -/
inductive Role where
  /-- Data of a command. -/
  | data (p : Polled)
  /-- The arrival word of a command, with its logical queue and slot in the
      arrival-queue layout. -/
  | flag (p : Polled) (slot : Option (Nat × BitVec 32))
  /-- The tail counter after a command. -/
  | tail (p : Polled)
  /-- The forward notification of a command. -/
  | notify (p : Polled)
  /-- Data, or arrival word, of a command that is passed on. -/
  | forward (cmd : TransferCmd)
  /-- A stage barrier. -/
  | barrier
  deriving DecidableEq, Repr

/-- An RDMA write as it stands when it is posted. -/
structure SendWr where
  wrId : BitVec 64
  sgList : List Sge
  payload : Option Payload
  signaled : Bool
  remoteAddr : BitVec 64
  rkey : BitVec 32
  role : Role
  deriving DecidableEq, Repr

/-- What one `ibv_post_send` hands over: requests in order, on one local QP. -/
structure Chain where
  qp : Int
  wrs : List SendWr
  deriving DecidableEq, Repr

/-- What the completion of a chain's last request retires. -/
def Chain.count (c : Chain) : Int :=
  match c.wrs.getLast? with
  | some wr => decodeWrCount wr.wrId
  | none => 0

section Build

variable (setup : Setup) (epoch : BitVec 32) (senderSeq : Nat → BitVec 32) (qp : Int)

/-- The local key and address the data of a command is read from. -/
def ProxyConfig.dataSource (cfg : ProxyConfig) (cmd : TransferCmd) : BitVec 32 × BitVec 64 :=
  if cfg.directDmabufEnabled = true ∧ cmd.srcView = 1 then
    (cfg.clocalDataLkey, cfg.clocalDataAddr + cmd.localOffset)
  else (cfg.localDataLkey, cfg.localDataAddr + cmd.localOffset)

/-- An inline request that carries one word, staged in a slot of the ring. -/
def wordWr (wrId : BitVec 64) (signaled : Bool) (stagingSlot : Nat) (word : BitVec 32)
    (remoteAddr : BitVec 64) (rkey : BitVec 32) (role : Role) : SendWr where
  wrId := wrId
  sgList := [⟨setup.cfg.flagStaging.slotAddr stagingSlot, 4, setup.cfg.flagStaging.lkey⟩]
  payload := some (.word word)
  signaled := signaled
  remoteAddr := remoteAddr
  rkey := rkey
  role := role

/-- The data request of a batched command. -/
def dataWr (p : Polled) : SendWr where
  wrId := 0
  sgList := [⟨(setup.cfg.dataSource p.cmd).2, p.cmd.bytes, (setup.cfg.dataSource p.cmd).1⟩]
  payload := none
  signaled := false
  remoteAddr := setup.remoteDataAddrForQp qp + p.cmd.remoteOffset
  rkey := setup.remoteDataRkeyForQp qp
  role := .data p

/-- The address of an arrival word in the arrival-queue layout. -/
def queueFlagAddr (logicalQ : Nat) (qSlot : BitVec 32) : BitVec 64 :=
  setup.remoteFlagsAddrForQp qp +
    4 * (BitVec.ofNat 32 logicalQ * setup.cfg.remoteQueueStride + qSlot).setWidth 64

/-- The forward notification of a command. -/
def notifyWr (wrId : BitVec 64) (signaled : Bool) (p : Polled) : SendWr where
  wrId := wrId
  sgList := []
  payload := some (.notify
    { bytes := p.cmd.bytes
      localOffset := p.cmd.remoteOffset
      tileId := p.cmd.tileId
      laneId := p.cmd.laneId
      reserved0 := p.cmd.reserved0
      srcView := p.cmd.srcView
      epoch := epoch
      reserved1 := 0 })
  signaled := signaled
  remoteAddr := setup.remoteForwardNotifyAddrForQp qp + 32 * p.cmd.tileId.setWidth 64
  rkey := setup.remoteForwardNotifyRkeyForQp qp
  role := .notify p

/-- The requests of the `i`th of `count` batched commands. The last request of
    the last command closes the chain. -/
def commandWrs (count i : Nat) (p : Polled) : List SendWr × (Nat → BitVec 32) :=
  let isLast := decide (i + 1 = count)
  -- Only the last request of the chain is signaled, and its `wr_id` counts the batch.
  let closeId := if isLast then encodeWrId qp count else 0
  let flagsRkey := setup.remoteFlagsRkeyForQp qp
  if setup.cfg.useArrivalQueue then
    let q := setup.logicalQueue p.cmd
    let qSlot := senderSeq q
    let senderSeq := Function.update senderSeq q (qSlot + 1)
    let flagAddr := queueFlagAddr setup qp q qSlot
    let word := packArrivalWork p.cmd.tileId (runTiles p.cmd.bytes)
    let role := Role.flag p (some (q, qSlot))
    if setup.cfg.enableRemoteTail then
      ([dataWr setup qp p,
        wordWr setup 0 false i word flagAddr flagsRkey role,
        wordWr setup closeId isLast (BATCH_SIZE + i) (qSlot + 1)
          (setup.remoteTailAddrForQp qp + 4 * BitVec.ofNat 64 q) (setup.remoteTailRkeyForQp qp)
          (.tail p)], senderSeq)
    else
      ([dataWr setup qp p, wordWr setup closeId isLast i word flagAddr flagsRkey role], senderSeq)
  else
    let flagAddr := setup.remoteFlagsAddrForQp qp + 4 * p.cmd.tileId.setWidth 64
    if setup.forwardNotifyEnabledForCmd p.cmd then
      ([dataWr setup qp p,
        wordWr setup 0 false 0 epoch flagAddr flagsRkey (.flag p none),
        notifyWr setup epoch qp closeId isLast p], senderSeq)
    else
      ([dataWr setup qp p, wordWr setup closeId isLast 0 epoch flagAddr flagsRkey (.flag p none)],
        senderSeq)

/-- The loop over the batch. -/
def chainLoop (count : Nat) (senderSeq : Nat → BitVec 32) (i : Nat) :
    List Polled → List SendWr × (Nat → BitVec 32)
  | [] => ([], senderSeq)
  | p :: ps =>
      let (ws, senderSeq) := commandWrs setup epoch senderSeq qp count i p
      let (ws', senderSeq) := chainLoop count senderSeq (i + 1) ps
      (ws ++ ws', senderSeq)

/-- The chain of a batch. -/
def batchChain (batch : List Polled) : Chain × (Nat → BitVec 32) :=
  let r := chainLoop setup epoch qp batch.length senderSeq 0 batch
  (⟨qp, r.1⟩, r.2)

/-- The number of data requests `post_strided_direct` uses, in its 32-bit
    arithmetic. -/
def nDataWrs (cmd : TransferCmd) : BitVec 32 :=
  let maxSge := if 0 < setup.cfg.maxSendSge then setup.cfg.maxSendSge else 1
  (cmd.rowCount.setWidth 32 + maxSge - 1) / maxSge

/-- The limits `post_strided_direct` checks. -/
def StridedFits (cmd : TransferCmd) : Prop :=
  setup.cfg.rowStrideBytes.setWidth 32 ≠ 0 ∧ cmd.rowCount ≠ 0 ∧ cmd.rowSpan ≠ 0 ∧
    cmd.rowCount.toNat ≤ kMaxRows ∧ (nDataWrs setup cmd).toNat ≤ kMaxDataWrs

instance (cmd : TransferCmd) : Decidable (StridedFits setup cmd) :=
  inferInstanceAs (Decidable (_ ∧ _))

/-- The data requests of a strided command: each gathers as many of the rows
    that are left as fit its gather list. -/
def stridedDataWrs (p : Polled) : Nat → Nat → BitVec 64 → List SendWr
  | 0, _, _ => []
  | k + 1, rowCursor, remoteCursor =>
      let maxSge := if 0 < setup.cfg.maxSendSge then setup.cfg.maxSendSge.toNat else 1
      -- The last request may gather fewer rows than its list can hold.
      let n := min (p.cmd.rowCount.toNat - rowCursor) maxSge
      let base := setup.cfg.clocalDataAddr + p.cmd.localOffset
      let stride := (setup.cfg.rowStrideBytes.setWidth 32).setWidth 64
      { wrId := 0
        sgList := (List.range n).map fun j =>
          ⟨base + BitVec.ofNat 64 (rowCursor + j) * stride, p.cmd.rowSpan.setWidth 32,
            setup.cfg.clocalDataLkey⟩
        payload := none
        signaled := false
        remoteAddr := remoteCursor
        rkey := setup.remoteDataRkeyForQp qp
        role := .data p } ::
      stridedDataWrs p k (rowCursor + n)
        (remoteCursor + BitVec.ofNat 64 n * p.cmd.rowSpan.setWidth 64)

/-- The chain `post_strided_direct` posts, with the number of requests in it. -/
def stridedChain (p : Polled) : Option (Chain × Nat × (Nat → BitVec 32)) :=
  if StridedFits setup p.cmd then
    let n := (nDataWrs setup p.cmd).toNat
    let data := stridedDataWrs setup qp p n 0 (setup.remoteDataAddrForQp qp + p.cmd.remoteOffset)
    let flagsRkey := setup.remoteFlagsRkeyForQp qp
    if setup.cfg.useArrivalQueue then
      let q := setup.logicalQueue p.cmd
      let qSlot := senderSeq q
      let senderSeq := Function.update senderSeq q (qSlot + 1)
      let flagAddr := queueFlagAddr setup qp q qSlot
      let word := packArrivalWork p.cmd.tileId (runTiles p.cmd.bytes)
      -- A strided command stages its words behind those of a whole batch.
      let role := Role.flag p (some (q, qSlot))
      if setup.cfg.enableRemoteTail then
        some (⟨qp, data ++
          [wordWr setup 0 false (BATCH_SIZE * 2) word flagAddr flagsRkey role,
            wordWr setup (encodeWrId qp (n + 2)) true (BATCH_SIZE * 2 + 1) (qSlot + 1)
              (setup.remoteTailAddrForQp qp + 4 * BitVec.ofNat 64 q)
              (setup.remoteTailRkeyForQp qp) (.tail p)]⟩, n + 2, senderSeq)
      else
        some (⟨qp, data ++
          [wordWr setup (encodeWrId qp (n + 1)) true (BATCH_SIZE * 2) word flagAddr flagsRkey
            role]⟩,
          n + 1, senderSeq)
    else
      some (⟨qp, data ++
        [wordWr setup (encodeWrId qp (n + 1)) true 0 epoch
          (setup.remoteFlagsAddrForQp qp + 4 * p.cmd.tileId.setWidth 64) flagsRkey (.flag p none)]⟩,
        n + 1, senderSeq)
  else none

end Build

/-- The chain `post_single_write_flat` posts, if the command is routed to this
    proxy. -/
def forwardChain (setup : Setup) (epoch : BitVec 32) (cmd : TransferCmd) : Option Chain :=
  let qp := setup.localQp cmd
  if setup.InRange qp then
    some ⟨qp,
      [{ wrId := 0
         sgList := [⟨setup.cfg.localDataAddr + cmd.localOffset, cmd.bytes, setup.cfg.localDataLkey⟩]
         payload := none
         signaled := false
         remoteAddr := setup.remoteDataAddrForQp qp + cmd.remoteOffset
         rkey := setup.remoteDataRkeyForQp qp
         role := .forward cmd },
       wordWr setup (encodeWrId qp 1) true (BATCH_SIZE * 2) epoch
         (setup.remoteFlagsAddrForQp qp + 4 * cmd.tileId.setWidth 64)
         (setup.remoteFlagsRkeyForQp qp) (.forward cmd)]⟩
  else none

/-- Whether `post_stage_barrier` serves every peer's block of QPs. -/
def barrierChannelize (setup : Setup) : Bool :=
  setup.channelizeGpuPeers && decide (1 < setup.cfg.numNodes - 1) &&
    decide (setup.cfg.numNodes - 1 ≤ setup.numQps)

/-- The number of barriers `post_stage_barrier` posts. -/
def barrierIters (setup : Setup) : Nat :=
  if barrierChannelize setup then (setup.cfg.numNodes - 1).toNat else 1

/-- The chain `post_stage_barrier` posts in one turn of its loop. -/
def barrierChain (setup : Setup) (slot : Nat) (token : BitVec 32) (p : Nat) : Chain :=
  let channelize := barrierChannelize setup
  let qpsPerPeer :=
    if channelize then setup.numQps / (setup.cfg.numNodes - 1).toNat else setup.numQps
  -- The first QP of the peer's block, so that a barrier goes to each of the peers.
  let qpIdx := if channelize then p * qpsPerPeer else 0
  let region := setup.cfg.remoteBarrier
  ⟨qpIdx,
    [{ wrId := encodeWrId qpIdx 1
       sgList := []
       payload := some (.word token)
       signaled := true
       remoteAddr := (if channelize then region.addrByQp qpIdx else region.addr) +
         4 * BitVec.ofNat 64 slot
       rkey := if channelize then region.rkeyByQp qpIdx else region.rkey
       role := .barrier }]⟩

section Facts

variable {setup : Setup} {epoch : BitVec 32} {senderSeq senderSeq' senderSeq'' : Nat → BitVec 32}
  {qp : Int} {ws ws' : List SendWr} {p : Polled} {batch : List Polled}

/-- The slots of a logical queue that requests announce commands in. -/
def slotsIn (q : Nat) (ws : List SendWr) : List (BitVec 32) :=
  ws.filterMap fun wr =>
    match wr.role with
    | .flag _ (some (k, slot)) => if k = q then some slot else none
    | _ => none

@[simp] theorem slotsIn_append (q : Nat) (ws ws' : List SendWr) :
    slotsIn q (ws ++ ws') = slotsIn q ws ++ slotsIn q ws' :=
  List.filterMap_append

/-- The first `n` slots from a slot on. -/
def slotsFrom (start : BitVec 32) (n : Nat) : List (BitVec 32) :=
  (List.range n).map fun k => start + BitVec.ofNat 32 k

theorem slotsFrom_append (start : BitVec 32) (m n : Nat) :
    slotsFrom start m ++ slotsFrom (start + BitVec.ofNat 32 m) n = slotsFrom start (m + n) := by
  simp only [slotsFrom, List.range_add, List.map_append, List.map_map]
  congr 1
  refine List.map_congr_left fun k _ => ?_
  simp only [Function.comp_apply, BitVec.ofNat_add, BitVec.add_assoc]

/-- Requests that take, in each logical queue, the next slots in order. -/
def Announces (senderSeq senderSeq' : Nat → BitVec 32) (ws : List SendWr) : Prop :=
  ∀ q, slotsIn q ws = slotsFrom (senderSeq q) (slotsIn q ws).length ∧
    senderSeq' q = senderSeq q + BitVec.ofNat 32 (slotsIn q ws).length

theorem Announces.append (h : Announces senderSeq senderSeq' ws)
    (h' : Announces senderSeq' senderSeq'' ws') : Announces senderSeq senderSeq'' (ws ++ ws') := by
  intro q
  rcases h q with ⟨h1, h2⟩
  rcases h' q with ⟨h1', h2'⟩
  rw [slotsIn_append, List.length_append]
  constructor
  · -- The second part starts at the slot the first one left off at.
    calc slotsIn q ws ++ slotsIn q ws'
        = slotsFrom (senderSeq q) (slotsIn q ws).length ++
            slotsFrom (senderSeq' q) (slotsIn q ws').length := by rw [← h1, ← h1']
      _ = slotsFrom (senderSeq q) ((slotsIn q ws).length + (slotsIn q ws').length) := by
          rw [h2, slotsFrom_append]
  · rw [h2', h2, BitVec.ofNat_add, BitVec.add_assoc]

/-- Requests that announce nothing. -/
theorem announces_of_none (h : ∀ q, slotsIn q ws = []) : Announces senderSeq senderSeq ws := by
  intro q
  rw [h q]
  exact ⟨rfl, by simp⟩

/-- Requests that announce one command in the next slot of its queue. -/
theorem announces_of_one {k : Nat}
    (h : ∀ q, slotsIn q ws = if k = q then [senderSeq k] else []) :
    Announces senderSeq (Function.update senderSeq k (senderSeq k + 1)) ws := by
  intro q
  by_cases hq : k = q
  · rw [h q, if_pos hq, ← hq]
    simp [slotsFrom]
  · rw [h q, if_neg hq, Function.update_of_ne (Ne.symm hq)]
    exact ⟨rfl, by simp⟩

/-- Each batched command takes the next slot of its logical queue. -/
theorem announces_commandWrs {count i : Nat} :
    Announces senderSeq (commandWrs setup epoch senderSeq qp count i p).2
      (commandWrs setup epoch senderSeq qp count i p).1 := by
  unfold commandWrs
  dsimp only
  split
  · split <;>
      · refine announces_of_one fun q => ?_
        simp only [slotsIn, dataWr, wordWr, List.filterMap_cons, List.filterMap_nil]
        split <;> simp_all
  · split <;>
      · refine announces_of_none fun q => ?_
        simp [slotsIn, dataWr, wordWr, notifyWr]

theorem announces_chainLoop {count i : Nat} :
    Announces senderSeq (chainLoop setup epoch qp count senderSeq i batch).2
      (chainLoop setup epoch qp count senderSeq i batch).1 := by
  induction batch generalizing senderSeq i with
  | nil => exact announces_of_none fun _ => rfl
  | cons p ps ih => exact announces_commandWrs.append ih

/-- The commands of a batch take the next slots of their logical queues. -/
theorem announces_batchChain :
    Announces senderSeq (batchChain setup epoch senderSeq qp batch).2
      (batchChain setup epoch senderSeq qp batch).1.wrs :=
  announces_chainLoop

theorem slotsIn_stridedDataWrs (q k rowCursor : Nat) (remoteCursor : BitVec 64) :
    slotsIn q (stridedDataWrs setup qp p k rowCursor remoteCursor) = [] := by
  induction k generalizing rowCursor remoteCursor with
  | zero => rfl
  | succ k ih =>
      rw [stridedDataWrs]
      exact ih _ _

/-- A strided command takes the next slot of its logical queue. -/
theorem announces_stridedChain {c : Chain} {n : Nat}
    (h : stridedChain setup epoch senderSeq qp p = some (c, n, senderSeq')) :
    Announces senderSeq senderSeq' c.wrs := by
  unfold stridedChain at h
  split at h
  · dsimp only at h
    split at h
    · split at h <;>
        · simp only [Option.some.injEq, Prod.mk.injEq] at h
          rw [← h.1, ← h.2.2]
          -- The data requests announce nothing, so the arrival word is the only slot taken.
          refine announces_of_one fun q => ?_
          rw [slotsIn_append, slotsIn_stridedDataWrs]
          simp only [slotsIn, wordWr, List.filterMap_cons, List.filterMap_nil, List.nil_append]
          split <;> simp_all
    · simp only [Option.some.injEq, Prod.mk.injEq] at h
      rw [← h.1, ← h.2.2]
      refine announces_of_none fun q => ?_
      rw [slotsIn_append, slotsIn_stridedDataWrs]
      simp [slotsIn, wordWr]
  · exact absurd h (by simp only [reduceCtorEq, not_false_eq_true])

/-- The arrival words among requests: the command each announces, with its
    logical queue and slot. -/
def flagsOf (ws : List SendWr) : List (Polled × Option (Nat × BitVec 32)) :=
  ws.filterMap fun wr =>
    match wr.role with
    | .flag p slot => some (p, slot)
    | _ => none

/-- Requests that carry the data of some commands and announce each of them
    once, in order, and in its own logical queue. -/
structure Carries (setup : Setup) (batch : List Polled) (ws : List SendWr) : Prop where
  announced : (flagsOf ws).map Prod.fst = batch
  data : ∀ p ∈ batch, ∃ wr ∈ ws, wr.role = .data p
  queue : setup.cfg.useArrivalQueue = true →
    ∀ f ∈ flagsOf ws, ∃ slot, f.2 = some (setup.logicalQueue f.1.cmd, slot)

theorem flagsOf_append (ws ws' : List SendWr) : flagsOf (ws ++ ws') = flagsOf ws ++ flagsOf ws' :=
  List.filterMap_append

theorem carries_nil : Carries setup [] [] where
  announced := rfl
  data := fun _ hp => absurd hp List.not_mem_nil
  queue := fun _ _ hf => absurd hf List.not_mem_nil

theorem Carries.append {batch' : List Polled} (h : Carries setup batch ws)
    (h' : Carries setup batch' ws') : Carries setup (batch ++ batch') (ws ++ ws') where
  announced := by rw [flagsOf_append, List.map_append, h.announced, h'.announced]
  data := by
    intro p hp
    rcases List.mem_append.mp hp with hp | hp
    · rcases h.data p hp with ⟨wr, hwr, hr⟩
      exact ⟨wr, List.mem_append_left _ hwr, hr⟩
    · rcases h'.data p hp with ⟨wr, hwr, hr⟩
      exact ⟨wr, List.mem_append_right _ hwr, hr⟩
  queue := by
    intro hq f hf
    rw [flagsOf_append] at hf
    rcases List.mem_append.mp hf with hf | hf
    · exact h.queue hq f hf
    · exact h'.queue hq f hf

/-- Data of one command, and then requests that announce it once. -/
theorem carries_of_one {wr : SendWr} (slot : Option (Nat × BitVec 32)) (hm : wr ∈ ws)
    (hr : wr.role = .data p) (hf : flagsOf ws = [(p, slot)])
    (hs : setup.cfg.useArrivalQueue = true → ∃ k, slot = some (setup.logicalQueue p.cmd, k)) :
    Carries setup [p] ws where
  announced := by rw [hf, List.map_singleton]
  data := by
    intro q hq
    rw [List.mem_singleton.mp hq]
    exact ⟨wr, hm, hr⟩
  queue := by
    intro hq f hmf
    rw [hf] at hmf
    rw [List.mem_singleton.mp hmf]
    exact hs hq

theorem carries_commandWrs {count i : Nat} :
    Carries setup [p] (commandWrs setup epoch senderSeq qp count i p).1 := by
  unfold commandWrs
  dsimp only
  split
  · split <;> exact carries_of_one _ (.head _) rfl rfl (fun _ => ⟨_, rfl⟩)
  · rename_i hq
    split <;> exact carries_of_one _ (.head _) rfl rfl (fun hc => absurd hc hq)

theorem carries_chainLoop {count i : Nat} :
    Carries setup batch (chainLoop setup epoch qp count senderSeq i batch).1 := by
  induction batch generalizing senderSeq i with
  | nil => exact carries_nil
  | cons p ps ih => exact carries_commandWrs.append ih

/-- The chain of a batch carries the batch. -/
theorem carries_batchChain :
    Carries setup batch (batchChain setup epoch senderSeq qp batch).1.wrs :=
  carries_chainLoop

theorem flagsOf_stridedDataWrs (k rowCursor : Nat) (remoteCursor : BitVec 64) :
    flagsOf (stridedDataWrs setup qp p k rowCursor remoteCursor) = [] := by
  induction k generalizing rowCursor remoteCursor with
  | zero => rfl
  | succ k ih =>
      rw [stridedDataWrs]
      exact ih _ _

/-- A strided command within limits has data to send. -/
theorem nDataWrs_pos (h : StridedFits setup p.cmd) : 0 < (nDataWrs setup p.cmd).toNat := by
  rcases h with ⟨-, hrows, -, -, -⟩
  have hr : p.cmd.rowCount.toNat ≠ 0 := fun hc => hrows (BitVec.eq_of_toNat_eq hc)
  have hlt := p.cmd.rowCount.isLt
  have hle := setup.cfg.maxSendSge_le
  -- Up to 32 entries and up to 65535 rows: the sum does not wrap.
  have hdiv : ∀ m : BitVec 32, 0 < m.toNat → m.toNat ≤ 32 →
      0 < ((p.cmd.rowCount.setWidth 32 + m - 1) / m).toNat := by
    intro m hm hm'
    have hw : (p.cmd.rowCount.setWidth 32).toNat = p.cmd.rowCount.toNat := by
      rw [BitVec.toNat_setWidth]
      omega
    have hsum :
        (p.cmd.rowCount.setWidth 32 + m - 1).toNat = p.cmd.rowCount.toNat + m.toNat - 1 := by
      rw [BitVec.toNat_sub, BitVec.toNat_add, hw]
      have hone : (1 : BitVec 32).toNat = 1 := rfl
      omega
    rw [BitVec.toNat_udiv, hsum]
    exact Nat.div_pos (by omega) hm
  unfold nDataWrs
  dsimp only
  split
  · rename_i hpos
    exact hdiv _ (BitVec.lt_def.mp hpos) hle
  · exact hdiv 1 (by decide) (by decide)

/-- The chain of a strided command carries it. -/
theorem carries_stridedChain {c : Chain} {n : Nat}
    (h : stridedChain setup epoch senderSeq qp p = some (c, n, senderSeq')) :
    Carries setup [p] c.wrs := by
  unfold stridedChain at h
  split at h
  · rename_i hfit
    -- There is a first data request, which is the one that carries the command.
    rcases Nat.exists_eq_succ_of_ne_zero (Nat.ne_of_gt (nDataWrs_pos hfit)) with ⟨k, hk⟩
    dsimp only at h
    rw [hk] at h
    split at h
    · split at h <;>
        · simp only [Option.some.injEq, Prod.mk.injEq] at h
          rw [← h.1]
          refine carries_of_one
            (some (setup.logicalQueue p.cmd, senderSeq (setup.logicalQueue p.cmd)))
            (List.mem_append_left _ (.head _)) rfl ?_ (fun _ => ⟨_, rfl⟩)
          rw [flagsOf_append, flagsOf_stridedDataWrs]
          rfl
    · rename_i hq
      simp only [Option.some.injEq, Prod.mk.injEq] at h
      rw [← h.1]
      refine carries_of_one none (List.mem_append_left _ (.head _)) rfl ?_
        (fun hc => absurd hc hq)
      rw [flagsOf_append, flagsOf_stridedDataWrs]
      rfl
  · exact absurd h (by simp only [reduceCtorEq, not_false_eq_true])

/-- The builder refuses a strided command beyond its limits, and no other. -/
theorem stridedChain_eq_none :
    stridedChain setup epoch senderSeq qp p = none ↔ ¬ StridedFits setup p.cmd := by
  unfold stridedChain
  split
  · rename_i hfit
    refine iff_of_false ?_ (not_not.mpr hfit)
    -- Within the limits each layout has its chain.
    dsimp only
    split
    · split <;> simp only [reduceCtorEq, not_false_eq_true]
    · simp only [reduceCtorEq, not_false_eq_true]
  · rename_i hfit
    exact iff_of_true rfl hfit

/-- The chain of a strided command goes to the QP it was built for. -/
theorem qp_stridedChain {c : Chain} {n : Nat}
    (h : stridedChain setup epoch senderSeq qp p = some (c, n, senderSeq')) : c.qp = qp := by
  unfold stridedChain at h
  split at h
  · dsimp only at h
    split at h
    · split at h <;>
        · simp only [Option.some.injEq, Prod.mk.injEq] at h
          rw [← h.1]
    · simp only [Option.some.injEq, Prod.mk.injEq] at h
      rw [← h.1]
  · exact absurd h (by simp only [reduceCtorEq, not_false_eq_true])

/-- A chain retires what its last request says. -/
theorem count_of_last {c : Chain} {wr : SendWr} {n : Nat} (hl : c.wrs.getLast? = some wr)
    (hid : wr.wrId = encodeWrId qp n) (hn : n < 2 ^ 31) : c.count = n := by
  simp only [Chain.count, hl, hid]
  exact decodeWrCount_encodeWrId qp hn

/-- The last request of a command closes the chain if the command is the last. -/
theorem last_commandWrs (setup : Setup) (epoch : BitVec 32) (senderSeq : Nat → BitVec 32)
    (qp : Int) (count i : Nat) (p : Polled) :
    ∃ wr, (commandWrs setup epoch senderSeq qp count i p).1.getLast? = some wr ∧
      (i + 1 = count → wr.wrId = encodeWrId qp count) := by
  unfold commandWrs
  dsimp only
  split
  · split <;> exact ⟨_, rfl, fun h => by simp [wordWr, h]⟩
  · split
    · exact ⟨_, rfl, fun h => by simp [notifyWr, h]⟩
    · exact ⟨_, rfl, fun h => by simp [wordWr, h]⟩

theorem last_chainLoop (setup : Setup) (epoch : BitVec 32) (senderSeq : Nat → BitVec 32)
    (qp : Int) {count i : Nat} (hne : batch ≠ []) (hc : i + batch.length = count) :
    ∃ wr, (chainLoop setup epoch qp count senderSeq i batch).1.getLast? = some wr ∧
      wr.wrId = encodeWrId qp count := by
  induction batch generalizing senderSeq i with
  | nil => exact absurd rfl hne
  | cons p ps ih =>
      rw [List.length_cons] at hc
      cases ps with
      | nil =>
          rcases last_commandWrs setup epoch senderSeq qp count i p with ⟨wr, hl, hid⟩
          refine ⟨wr, ?_, hid hc⟩
          simp only [chainLoop, List.append_nil]
          exact hl
      -- The last request of the batch is the last one of its last command.
      | cons p' ps =>
          rcases ih (commandWrs setup epoch senderSeq qp count i p).2 (i := i + 1)
            (List.cons_ne_nil _ _) (by omega) with ⟨wr, hl, hid⟩
          refine ⟨wr, ?_, hid⟩
          rw [chainLoop]
          dsimp only
          rw [List.getLast?_append, hl]
          rfl

/-- The completion of a batch retires the commands of the batch. -/
theorem count_batchChain (hne : batch ≠ []) (hlen : batch.length < 2 ^ 31) :
    (batchChain setup epoch senderSeq qp batch).1.count = batch.length := by
  rcases last_chainLoop setup epoch senderSeq qp hne (Nat.zero_add batch.length) with ⟨wr, hl, hid⟩
  exact count_of_last (c := (batchChain setup epoch senderSeq qp batch).1) hl hid hlen

/-- The completion of a strided command retires the requests of its chain. -/
theorem count_stridedChain {c : Chain} {n : Nat}
    (h : stridedChain setup epoch senderSeq qp p = some (c, n, senderSeq')) :
    c.count = n ∧ 0 < n := by
  unfold stridedChain at h
  split at h
  · rename_i hfit
    -- At most 16 data requests and two more: the count fits its half.
    have hmax : (nDataWrs setup p.cmd).toNat ≤ 16 := hfit.2.2.2.2
    dsimp only at h
    split at h
    · split at h <;>
        · simp only [Option.some.injEq, Prod.mk.injEq] at h
          rw [← h.1, ← h.2.1]
          refine ⟨count_of_last ((List.getLast?_append_cons _ _ _).trans rfl) rfl (by omega),
            by omega⟩
    · simp only [Option.some.injEq, Prod.mk.injEq] at h
      rw [← h.1, ← h.2.1]
      exact ⟨count_of_last ((List.getLast?_append_cons _ _ _).trans rfl) rfl (by omega),
            by omega⟩
  · exact absurd h (by simp only [reduceCtorEq, not_false_eq_true])

/-- A command that is passed on is retired on its own. -/
theorem count_forwardChain {cmd : TransferCmd} {c : Chain}
    (h : forwardChain setup epoch cmd = some c) : c.count = 1 := by
  unfold forwardChain at h
  dsimp only at h
  split at h
  · rw [← Option.some.inj h]
    exact count_of_last (n := 1) rfl rfl (by decide)
  · exact absurd h (by simp only [reduceCtorEq, not_false_eq_true])

/-- A stage barrier is retired on its own. -/
theorem count_barrierChain (slot i : Nat) (token : BitVec 32) :
    (barrierChain setup slot token i).count = 1 := by
  unfold barrierChain
  exact count_of_last (n := 1) rfl rfl (by decide)

end Facts

end Cx7

end Internode

end MKernel
