import Mathlib.Algebra.BigOperators.Group.List.Basic
import Mathlib.Algebra.Order.Ring.Int
import Mathlib.Tactic.IntervalCases
import MKernel.Internode.Fifo

/-!
# Work Requests of the EFA Proxy

The configuration of an EFA proxy and the work requests it builds from a batch
of commands.

The proxy runs in one of two modes. In `write_imm` mode a command is one
request, a write whose immediate value carries the tile id and which the
receiver learns of from its own completion queue. In `remote_flag` mode a
command is a plain write of the data, then a plain write of the arrival word,
and in the arrival-queue layout with published tails a third write of the tail
counter. SRD wants every request signalled, so the requests of a command are
told apart by their `wr_id`: the last one carries 1 and counts the command,
the others carry 0 and count nothing.

`Setup` is what the constructor makes of a `ProxyConfig`: every count is
positive and bounded, and that is part of the type. The pointers of the
configuration are those a session fills in; an address handle is a number that
stands for its handle, and a queue is addressed by its place in the session's
table.

The request also records, in `role`, what it is for. The code has no such
field.

## Main definitions

* `ProxyConfig`, `Setup`: What a session passes in, and what a proxy runs with.
* `Setup.ofConfig`: The constructor's part in it.
* `WorkRequest`: A request between `ibv_wr_start` and `ibv_wr_complete`.
* `FlagState`: The staging ring and the queue sequence counters.
* `postWriteImmBatch`, `postRemoteFlagBatch`: The two batch builders.
* `postBatch`: The builder of the mode.

## Theorems

* `htonl_htonl`: Sender and receiver swap the immediate value back and forth.
* `batchAccounts_postBatch`: The requests of a batch account for its commands.
* `mem_postBatch_writeImm`: In `write_imm` mode every request counts.
-/

namespace MKernel

namespace Internode

namespace Efa

/-- `Proxy::NotifyMode`. -/
inductive NotifyMode where
  | writeImm
  | remoteFlag
  deriving DecidableEq, Repr

/-- `detect_notify_mode`, given `MKERNEL_EFA_VERBS_NOTIFY_MODE`. -/
def detectNotifyMode (env : Option String) : NotifyMode :=
  if env = some "remote_flag" then .remoteFlag else .writeImm

def BATCH_SIZE : Nat := 8
def ACCUMULATE_SPINS : Nat := 128
def ACCUMULATE_MISS_BUDGET : Nat := 8
def SRD_SQ_DEPTH : Int := 512
def BATCH_SIZE_MAX : Nat := 8

/-- What the hot path needs to post to one peer. -/
structure PerPeerProxyData where
  dstAh : Nat
  dstQpns : Nat → BitVec 32
  remoteDataAddr : BitVec 64
  remoteDataRkey : BitVec 32
  remoteFlagsAddr : BitVec 64
  remoteFlagsRkey : BitVec 32
  remoteTailAddr : BitVec 64
  remoteTailRkey : BitVec 32
  remoteBarrierAddr : BitVec 64
  remoteBarrierRkey : BitVec 32

/-- What `create_session` passes to a proxy. -/
structure ProxyConfig where
  fifo : Nat
  fifos : Option (Nat → Nat)
  numFifos : Nat
  numQps : Int
  globalNumQps : Int
  logicalQueuesPerQp : Int
  localDataAddr : BitVec 64
  localDataLkey : BitVec 32
  clocalDataAddr : BitVec 64
  clocalDataLkey : BitVec 32
  directDmabufEnabled : Bool
  localArrivalCount : Nat
  flagStaging : FlagStaging
  useArrivalQueue : Bool
  remoteQueueStride : BitVec 32
  enableRemoteTail : Bool
  epoch : BitVec 32
  maxInflight : Int
  sqDepth : Int
  pipelineEnabled : Bool
  numPeers : Nat
  perPeer : Nat → PerPeerProxyData
  peerSlotByRank : Option (BitVec 8 → Int)

/-- A configuration with its counts made good, and what the constructor
    derives from them. -/
structure Setup where
  cfg : ProxyConfig
  notifyMode : NotifyMode
  numQps : Nat
  globalNumQps : Nat
  logicalQueuesPerQp : Nat
  effectiveMaxInflight : Int
  numQps_pos : 0 < numQps
  numQps_le : numQps ≤ kMaxExchangeQPs
  effective_pos : 0 < effectiveMaxInflight

namespace ProxyConfig

def goodMaxInflight (cfg : ProxyConfig) : Int :=
  if cfg.maxInflight ≤ 0 then 128 else cfg.maxInflight

def goodNumQps (cfg : ProxyConfig) : Int :=
  let n := if cfg.numQps ≤ 0 then 1 else cfg.numQps
  if (kMaxExchangeQPs : Int) < n then kMaxExchangeQPs else n

def goodGlobalNumQps (cfg : ProxyConfig) : Int :=
  if cfg.globalNumQps ≤ 0 then cfg.goodNumQps else cfg.globalNumQps

def goodLogicalQueuesPerQp (cfg : ProxyConfig) : Int :=
  let n := if cfg.logicalQueuesPerQp ≤ 0 then 1 else cfg.logicalQueuesPerQp
  if 16 < n then 16 else n

/-- The in-flight budget of one QP. In `remote_flag` mode a command takes
    several requests, and the budget is cut to a part of the send queue. -/
def perQpCap (cfg : ProxyConfig) (mode : NotifyMode) : Int :=
  let sqDepth := if 0 < cfg.sqDepth then cfg.sqDepth else SRD_SQ_DEPTH
  let cap :=
    match mode with
    -- A quarter of the send queue, less one batch: a command takes up to three requests.
    | .remoteFlag =>
      if (BATCH_SIZE : Int) < sqDepth / 4 then sqDepth / 4 - BATCH_SIZE else sqDepth / 4
    | .writeImm => cfg.goodMaxInflight
  let cap := min cap cfg.goodMaxInflight
  if cap ≤ 0 then 1 else cap

theorem goodNumQps_pos (cfg : ProxyConfig) : 0 < cfg.goodNumQps := by
  simp only [goodNumQps, kMaxExchangeQPs]
  split <;> split <;> omega

theorem goodNumQps_le (cfg : ProxyConfig) : cfg.goodNumQps ≤ kMaxExchangeQPs := by
  simp only [goodNumQps, kMaxExchangeQPs]
  split <;> split <;> omega

theorem perQpCap_pos (cfg : ProxyConfig) (mode : NotifyMode) : 0 < cfg.perQpCap mode := by
  simp only [perQpCap]
  split <;> omega

end ProxyConfig

/-- The constructor, in a notification mode. -/
def Setup.ofMode (cfg : ProxyConfig) (mode : NotifyMode) : Setup where
  cfg := cfg
  notifyMode := mode
  numQps := cfg.goodNumQps.toNat
  globalNumQps := cfg.goodGlobalNumQps.toNat
  logicalQueuesPerQp := cfg.goodLogicalQueuesPerQp.toNat
  effectiveMaxInflight := cfg.perQpCap mode * cfg.goodNumQps
  numQps_pos := by
    have := cfg.goodNumQps_pos
    omega
  numQps_le := by
    have := cfg.goodNumQps_le
    omega
  effective_pos := Int.mul_pos (cfg.perQpCap_pos _) cfg.goodNumQps_pos

/-- The constructor. -/
def Setup.ofConfig (cfg : ProxyConfig) (notifyEnv : Option String) : Setup :=
  Setup.ofMode cfg (detectNotifyMode notifyEnv)

/-- `map_to_local_qp`. There is at least one local QP, so the residue is never
    negative and the proxy's checks for a negative index do nothing. -/
def Setup.mapToLocalQp (setup : Setup) (cmd : TransferCmd) : Nat :=
  cmd.laneId.toNat % setup.numQps

/-- What a request is for. -/
inductive Role where
  /-- The data of a command, with the notification as immediate value. -/
  | dataImm (p : Polled)
  /-- The data of a command. -/
  | data (p : Polled)
  /-- The arrival word of a command. -/
  | flag (p : Polled)
  /-- The tail counter after a command. -/
  | tail (p : Polled)
  /-- A stage barrier. -/
  | barrier
  deriving DecidableEq, Repr

/-- The command a request belongs to. -/
def Role.cmd? : Role → Option Polled
  | .dataImm p => some p
  | .data p => some p
  | .flag p => some p
  | .tail p => some p
  | .barrier => none

/-- A request as it stands when `ibv_wr_complete` is called. -/
structure WorkRequest where
  wrId : Nat
  imm : Option (BitVec 32)
  rkey : BitVec 32
  remoteAddr : BitVec 64
  dstAh : Nat
  dstQpn : BitVec 32
  lkey : BitVec 32
  addr : BitVec 64
  length : BitVec 32
  role : Role
  deriving DecidableEq, Repr

/-- What the completion of a request subtracts from the in-flight counter. -/
def WorkRequest.weight (wr : WorkRequest) : Int := wr.wrId

/-- The bytes of a 32-bit word in the other order, as `htonl` and `ntohl` swap
    them on a little-endian machine. -/
def htonl (x : BitVec 32) : BitVec 32 :=
  (x <<< 24) ||| ((x <<< 8) &&& 0x00FF0000) ||| ((x >>> 8) &&& 0x0000FF00) ||| (x >>> 24)

/-- Each of the four terms moves one byte. -/
theorem getLsbD_htonl (x : BitVec 32) {i : Nat} (hi : i < 32) :
    (htonl x).getLsbD i = x.getLsbD (24 - i / 8 * 8 + i % 8) := by
  simp only [htonl, BitVec.getLsbD_or, BitVec.getLsbD_and, BitVec.getLsbD_shiftLeft,
    BitVec.getLsbD_ushiftRight]
  interval_cases i <;> simp

@[simp] theorem htonl_htonl (x : BitVec 32) : htonl (htonl x) = x := by
  apply BitVec.eq_of_getLsbD_eq
  intro i hi
  rw [getLsbD_htonl _ hi, getLsbD_htonl _ (by omega)]
  congr 1
  omega

/-- The state the builders share: the cursor into the staging ring, its
    contents, and the next slot of each logical queue. -/
structure FlagState where
  stagingCursor : BitVec 32
  staging : Nat → BitVec 32
  senderSeq : Nat → BitVec 32

def FlagState.init : FlagState := ⟨0, fun _ => 0, fun _ => 0⟩

/-- Put a value in the next slot of the staging ring. -/
def FlagState.stage (fs : FlagState) (count : Nat) (value : BitVec 32) : Nat × FlagState :=
  let slot := fs.stagingCursor.toNat % count
  (slot, { fs with
    stagingCursor := fs.stagingCursor + 1
    staging := Function.update fs.staging slot value })

/-- The local key and address the data of a command is read from. -/
def ProxyConfig.dataSource (cfg : ProxyConfig) (cmd : TransferCmd) : BitVec 32 × BitVec 64 :=
  if cfg.directDmabufEnabled = true ∧ cmd.srcView = 1 then
    (cfg.clocalDataLkey, cfg.clocalDataAddr + cmd.localOffset)
  else (cfg.localDataLkey, cfg.localDataAddr + cmd.localOffset)

/-- `total_logical_queues`. -/
def Setup.totalLogicalQueues (setup : Setup) : Nat :=
  (setup.globalNumQps * setup.logicalQueuesPerQp) % 2 ^ 32

/-- The logical queue a command is announced in. -/
def Setup.logicalQueue (setup : Setup) (cmd : TransferCmd) : Nat :=
  if 0 < setup.totalLogicalQueues then cmd.laneId.toNat % setup.totalLogicalQueues else 0

/-- Whether a tail request follows the arrival word. -/
def Setup.hasTail (setup : Setup) (peer : PerPeerProxyData) : Bool :=
  setup.cfg.enableRemoteTail && decide (peer.remoteTailAddr ≠ 0)

section Build

variable (setup : Setup) (peer : PerPeerProxyData) (dstQpn : BitVec 32)

/-- The request of a command in `write_imm` mode. -/
def writeImmRequest (p : Polled) : WorkRequest where
  wrId := 1
  imm := some (htonl p.cmd.tileId)
  rkey := peer.remoteDataRkey
  remoteAddr := peer.remoteDataAddr + p.cmd.remoteOffset
  dstAh := peer.dstAh
  dstQpn := dstQpn
  lkey := (setup.cfg.dataSource p.cmd).1
  addr := (setup.cfg.dataSource p.cmd).2
  length := p.cmd.bytes
  role := .dataImm p

/-- `post_write_imm_batch`. -/
def postWriteImmBatch (batch : List Polled) : List WorkRequest :=
  batch.map (writeImmRequest setup peer dstQpn)

/-- The data request of a command in `remote_flag` mode. -/
def dataRequest (p : Polled) : WorkRequest where
  wrId := 0
  imm := none
  rkey := peer.remoteDataRkey
  remoteAddr := peer.remoteDataAddr + p.cmd.remoteOffset
  dstAh := peer.dstAh
  dstQpn := dstQpn
  lkey := (setup.cfg.dataSource p.cmd).1
  addr := (setup.cfg.dataSource p.cmd).2
  length := p.cmd.bytes
  role := .data p

/-- A request that writes one word of the staging ring. -/
def stagedRequest (wrId : Nat) (rkey : BitVec 32) (remoteAddr : BitVec 64) (slot : Nat)
    (role : Role) : WorkRequest where
  wrId := wrId
  imm := none
  rkey := rkey
  remoteAddr := remoteAddr
  dstAh := peer.dstAh
  dstQpn := dstQpn
  lkey := setup.cfg.flagStaging.lkey
  addr := setup.cfg.flagStaging.slotAddr slot
  length := 4
  role := role

/-- The requests of a command in the flat layout: the data, and the epoch that
    stands in the first slot of the staging ring. -/
def flatRequests (p : Polled) : List WorkRequest :=
  [dataRequest setup peer dstQpn p,
    stagedRequest setup peer dstQpn 1 peer.remoteFlagsRkey
      (peer.remoteFlagsAddr + 4 * p.cmd.tileId.setWidth 64) 0 (.flag p)]

/-- The requests of a command in the arrival-queue layout: the data, the packed
    arrival word in the next slot of its logical queue, and perhaps the tail. -/
def queueRequests (fs : FlagState) (p : Polled) : List WorkRequest × FlagState :=
  let count := setup.cfg.flagStaging.count
  let (flagSlot, fs) := fs.stage count (packArrivalWork p.cmd.tileId (runTiles p.cmd.bytes))
  let q := setup.logicalQueue p.cmd
  let qSlot := fs.senderSeq q
  let fs := { fs with senderSeq := Function.update fs.senderSeq q (qSlot + 1) }
  -- The word's index is a 32-bit product, the address a 64-bit sum.
  let word := BitVec.ofNat 32 q * setup.cfg.remoteQueueStride + qSlot
  let flagAddr := peer.remoteFlagsAddr + 4 * word.setWidth 64
  let data := dataRequest setup peer dstQpn p
  -- With a tail the arrival word counts nothing: the tail's completion does.
  if setup.hasTail peer then
    let (tailSlot, fs) := fs.stage count (qSlot + 1)
    ([data,
      stagedRequest setup peer dstQpn 0 peer.remoteFlagsRkey flagAddr flagSlot (.flag p),
      stagedRequest setup peer dstQpn 1 peer.remoteTailRkey
        (peer.remoteTailAddr + 4 * BitVec.ofNat 64 q) tailSlot (.tail p)], fs)
  else
    ([data, stagedRequest setup peer dstQpn 1 peer.remoteFlagsRkey flagAddr flagSlot (.flag p)], fs)

/-- The requests of one command in `remote_flag` mode. -/
def remoteFlagRequests (fs : FlagState) (p : Polled) : List WorkRequest × FlagState :=
  if setup.cfg.useArrivalQueue then queueRequests setup peer dstQpn fs p
  else (flatRequests setup peer dstQpn p, fs)

/-- The loop of `post_remote_flag_batch`. -/
def remoteFlagLoop (fs : FlagState) : List Polled → List WorkRequest × FlagState
  | [] => ([], fs)
  | p :: ps =>
      let (ws, fs) := remoteFlagRequests setup peer dstQpn fs p
      let (ws', fs) := remoteFlagLoop fs ps
      (ws ++ ws', fs)

/-- `post_remote_flag_batch`: in the flat layout the epoch is put in the first
    slot of the staging ring, for all requests to read. -/
def postRemoteFlagBatch (epoch : BitVec 32) (fs : FlagState) (batch : List Polled) :
    List WorkRequest × FlagState :=
  let fs :=
    if setup.cfg.useArrivalQueue then fs
    else { fs with staging := Function.update fs.staging 0 epoch }
  remoteFlagLoop setup peer dstQpn fs batch

/-- The batch builder of the proxy's mode. -/
def postBatch (epoch : BitVec 32) (fs : FlagState) (batch : List Polled) :
    List WorkRequest × FlagState :=
  match setup.notifyMode with
  | .remoteFlag => postRemoteFlagBatch setup peer dstQpn epoch fs batch
  | .writeImm => (postWriteImmBatch setup peer dstQpn batch, fs)

end Build

section Facts

variable {setup : Setup} {peer : PerPeerProxyData} {dstQpn : BitVec 32} {epoch : BitVec 32}
  {fs : FlagState} {batch : List Polled} {p : Polled}

/-- What a command's requests have in common in every mode and layout: they
    all belong to the command, their `wr_id`s are 0 or 1 and add up to one, and
    one of them counts it. -/
structure Accounts (ws : List WorkRequest) (p : Polled) : Prop where
  cmd : ∀ wr ∈ ws, wr.role.cmd? = some p
  ids : ∀ wr ∈ ws, wr.wrId = 0 ∨ wr.wrId = 1
  weight : (ws.map WorkRequest.weight).sum = 1
  counted : ∃ wr ∈ ws, wr.wrId = 1

theorem accounts_writeImm : Accounts [writeImmRequest setup peer dstQpn p] p where
  cmd := by simp [writeImmRequest, Role.cmd?]
  ids := by simp [writeImmRequest]
  weight := rfl
  counted := ⟨_, List.mem_singleton_self _, rfl⟩

theorem accounts_remoteFlag : Accounts (remoteFlagRequests setup peer dstQpn fs p).1 p := by
  -- Three lists of requests: with a tail, without one, and flat.
  unfold remoteFlagRequests queueRequests
  split
  · dsimp only
    split
    · refine ⟨?_, ?_, rfl, ⟨_, .tail _ (.tail _ (.head _)), rfl⟩⟩ <;>
        simp [dataRequest, stagedRequest, Role.cmd?]
    · refine ⟨?_, ?_, rfl, ⟨_, .tail _ (.head _), rfl⟩⟩ <;>
        simp [dataRequest, stagedRequest, Role.cmd?]
  · refine ⟨?_, ?_, rfl, ⟨_, .tail _ (.head _), rfl⟩⟩ <;>
      simp [flatRequests, dataRequest, stagedRequest, Role.cmd?]

/-- What a batch's requests have in common: each belongs to a command of the
    batch, their `wr_id`s count the commands, and each command is counted. -/
structure BatchAccounts (ws : List WorkRequest) (batch : List Polled) : Prop where
  cmd : ∀ wr ∈ ws, ∃ p ∈ batch, wr.role.cmd? = some p
  ids : ∀ wr ∈ ws, wr.wrId = 0 ∨ wr.wrId = 1
  weight : (ws.map WorkRequest.weight).sum = batch.length
  counted : ∀ p ∈ batch, ∃ wr ∈ ws, wr.wrId = 1 ∧ wr.role.cmd? = some p

theorem batchAccounts_nil : BatchAccounts [] [] where
  cmd := by simp
  ids := by simp
  weight := rfl
  counted := by simp

theorem BatchAccounts.cons {ws ws' : List WorkRequest} (h : Accounts ws p)
    (h' : BatchAccounts ws' batch) : BatchAccounts (ws ++ ws') (p :: batch) where
  cmd := by
    intro wr hwr
    rcases List.mem_append.mp hwr with hwr | hwr
    · exact ⟨p, List.mem_cons_self, h.cmd wr hwr⟩
    · rcases h'.cmd wr hwr with ⟨r, hr, hc⟩
      exact ⟨r, List.mem_cons_of_mem _ hr, hc⟩
  ids := by
    intro wr hwr
    rcases List.mem_append.mp hwr with hwr | hwr
    · exact h.ids wr hwr
    · exact h'.ids wr hwr
  weight := by
    -- One for the command and, by induction, one for each of the others.
    rw [List.map_append, List.sum_append, h.weight, h'.weight, List.length_cons]
    push_cast
    omega
  counted := by
    intro r hr
    rcases List.mem_cons.mp hr with rfl | hr
    · rcases h.counted with ⟨wr, hwr, hid⟩
      exact ⟨wr, List.mem_append_left _ hwr, hid, h.cmd wr hwr⟩
    · rcases h'.counted r hr with ⟨wr, hwr, hid, hc⟩
      exact ⟨wr, List.mem_append_right _ hwr, hid, hc⟩

theorem batchAccounts_writeImm :
    BatchAccounts (postWriteImmBatch setup peer dstQpn batch) batch := by
  induction batch with
  | nil => exact batchAccounts_nil
  | cons p ps ih => exact BatchAccounts.cons accounts_writeImm ih

theorem batchAccounts_remoteFlagLoop :
    BatchAccounts (remoteFlagLoop setup peer dstQpn fs batch).1 batch := by
  induction batch generalizing fs with
  | nil => exact batchAccounts_nil
  | cons p ps ih => exact BatchAccounts.cons accounts_remoteFlag ih

/-- In every mode and layout the requests of a batch account for its
    commands. -/
theorem batchAccounts_postBatch :
    BatchAccounts (postBatch setup peer dstQpn epoch fs batch).1 batch := by
  unfold postBatch
  split
  · exact batchAccounts_remoteFlagLoop
  · exact batchAccounts_writeImm

/-- In `write_imm` mode every request counts a command and carries its data. -/
theorem mem_postBatch_writeImm (hmode : setup.notifyMode = .writeImm) {wr : WorkRequest}
    (h : wr ∈ (postBatch setup peer dstQpn epoch fs batch).1) :
    wr.wrId = 1 ∧ ∃ p ∈ batch, wr.role = .dataImm p := by
  simp only [postBatch, hmode, postWriteImmBatch, List.mem_map] at h
  rcases h with ⟨p, hp, rfl⟩
  exact ⟨rfl, p, hp, rfl⟩

/-- In `remote_flag` mode the second request of a command is its arrival word. -/
theorem postBatch_flag (hmode : setup.notifyMode = .remoteFlag) :
    ∃ wr, (postBatch setup peer dstQpn epoch fs [p]).1[1]? = some wr ∧ wr.role = .flag p := by
  simp only [postBatch, hmode, postRemoteFlagBatch, remoteFlagLoop, remoteFlagRequests,
    queueRequests, List.append_nil]
  split
  · split <;> exact ⟨_, rfl, rfl⟩
  · exact ⟨_, rfl, rfl⟩

end Facts

end Efa

end Internode

end MKernel
