import MKernel.Core.Links
import MKernel.Internode.Cx7.Chains

/-!
# Requests from Templates

How the CX7 proxy keeps the requests of a batch.

The requests of a batch are not built anew. Four of them for each place in the batch lie in an
array, which is filled once with what never changes; for a batch the fields that change are
patched, and `ibv_post_send` is given the first request and follows the links from there. So
what is posted depends on the links, and on what earlier batches left in the fields that are
not patched.

`templates_chain` says that nothing of an earlier batch is seen: after any batches, in every
layout, the links from the first request lead through the requests of each command of the new
batch in order and then end, and the requests read there are those of `batchChain`, which has
no memory.

## Main definitions

* `Templates`: The arrays.
* `initWrTemplates`, `patchBatch`: What is done to them.
* `Templates.read`: A request as the NIC sees it.
* `History`: The arrays after any batches.
* `Template`: What all batches leave as it was filled.

## Theorems

* `template_init`, `template_patchCommand`: The fields that are never patched.
* `spec_patchLoop`: The links and the requests after a batch.
* `templates_chain`: The chain that is posted.
-/

namespace MKernel

namespace Internode

namespace Cx7

namespace Templates

open MKernel.Core

/-- Where a request reads from: memory that is registered, a slot of the staging ring, or the
    notification of a place in the batch. -/
inductive Source where
  | mem (addr : BitVec 64)
  | staging (slot : Nat)
  | notify (i : Nat)
  deriving DecidableEq, Repr

/-- An `ibv_sge`. -/
structure TemplateSge where
  source : Source
  length : BitVec 32
  lkey : BitVec 32
  deriving DecidableEq, Repr

/-- The operation of a request. The first one is `IBV_WR_RDMA_WRITE`, which is zero. -/
inductive Opcode where
  | rdmaWrite
  | other
  deriving DecidableEq, Repr

/-- An `ibv_send_wr`. Links are indices into the array. -/
structure TemplateWr where
  wrId : BitVec 64
  next : Option Nat
  sgList : Option Nat
  numSge : Nat
  opcode : Opcode
  inlined : Bool
  signaled : Bool
  remoteAddr : BitVec 64
  rkey : BitVec 32
  deriving DecidableEq, Repr

end Templates

open Templates in
/-- `wrs_`, `sges_`, `notify_payload_` and `wrs_initialized_`, with the staging ring and the
    sequence counters that a batch works on. -/
structure Templates where
  wrs : Nat → TemplateWr
  sges : Nat → TemplateSge
  notifyPayload : Nat → ForwardNotify
  initialized : Bool
  staging : Nat → BitVec 32
  senderSeq : Nat → BitVec 32

namespace Templates

open MKernel.Core

/-- Patch a request. -/
def setWr (t : Templates) (j : Nat) (f : TemplateWr → TemplateWr) : Templates :=
  { t with wrs := Function.update t.wrs j (f (t.wrs j)) }

/-- Patch a gather entry. -/
def setSge (t : Templates) (j : Nat) (f : TemplateSge → TemplateSge) : Templates :=
  { t with sges := Function.update t.sges j (f (t.sges j)) }

/-- Put a word into a slot of the staging ring. -/
def stage (t : Templates) (slot : Nat) (word : BitVec 32) : Templates :=
  { t with staging := Function.update t.staging slot word }

section Build

variable (setup : Setup)

/-- `memset(wrs_, 0, ..)`. -/
def zeroWr : TemplateWr := ⟨0, none, none, 0, .rdmaWrite, false, false, 0, 0⟩

/-- `memset(sges_, 0, ..)`. -/
def zeroSge : TemplateSge := ⟨.mem 0, 0, 0⟩

/-- One turn of the loop in `init_wr_templates`. -/
def initCommand (t : Templates) (i : Nat) : Templates :=
  let di := i * 4
  let fi := i * 4 + 1
  let ni := i * 4 + 2
  let ti := i * 4 + 3
  let cfg := setup.cfg
  let t := t.setSge di fun s => { s with lkey := cfg.localDataLkey }
  let t := t.setWr di fun wr => { wr with
    sgList := some di
    numSge := 1
    opcode := .rdmaWrite
    rkey := cfg.remoteData.rkey
    next := some fi }
  let t := t.setSge fi fun _ => ⟨.staging 0, 4, cfg.flagStaging.lkey⟩
  let t := t.setWr fi fun wr => { wr with
    sgList := some fi
    numSge := 1
    opcode := .rdmaWrite
    rkey := cfg.remoteFlags.rkey }
  let t := t.setSge ni fun _ => ⟨.notify i, 32, 0⟩
  let t := t.setWr ni fun wr => { wr with
    sgList := some ni
    numSge := 1
    opcode := .rdmaWrite }
  let t := t.setSge ti fun _ => ⟨.staging BATCH_SIZE, 4, cfg.flagStaging.lkey⟩
  t.setWr ti fun wr => { wr with
    sgList := some ti
    numSge := 1
    opcode := .rdmaWrite
    rkey := cfg.remoteTail.rkey }

/-- `init_wr_templates`. -/
def initWrTemplates (t : Templates) : Templates :=
  let t := { t with wrs := fun _ => zeroWr, sges := fun _ => zeroSge }
  { (List.range BATCH_SIZE).foldl (initCommand setup) t with initialized := true }

variable (epoch : BitVec 32) (qp : Int) (count : Nat)

/-- The data request of the `i`th command. -/
def patchData (t : Templates) (i : Nat) (cmd : TransferCmd) : Templates :=
  let di := i * 4
  let t := t.setSge di fun s => { s with
    source := .mem (setup.cfg.dataSource cmd).2
    lkey := (setup.cfg.dataSource cmd).1 }
  let t := t.setSge di fun s => { s with length := cmd.bytes }
  t.setWr di fun wr => { wr with
    remoteAddr := setup.remoteDataAddrForQp qp + cmd.remoteOffset
    rkey := setup.remoteDataRkeyForQp qp }

/-- The fields that close the chain, or link on to the next command. -/
def closeWr (i : Nat) (wr : TemplateWr) : TemplateWr :=
  let isLast := decide (i + 1 = count)
  { wr with
    wrId := if isLast then encodeWrId qp count else 0
    inlined := true
    signaled := isLast
    next := if isLast then none else some ((i + 1) * 4) }

/-- The notification of a command. -/
def notifyPayloadOf (cmd : TransferCmd) : ForwardNotify where
  bytes := cmd.bytes
  localOffset := cmd.remoteOffset
  tileId := cmd.tileId
  laneId := cmd.laneId
  reserved0 := cmd.reserved0
  srcView := cmd.srcView
  epoch := epoch
  reserved1 := 0

/-- One turn of the loop that patches a batch. -/
def patchCommand (t : Templates) (i : Nat) (cmd : TransferCmd) : Templates :=
  let fi := i * 4 + 1
  let ni := i * 4 + 2
  let ti := i * 4 + 3
  let isLast := decide (i + 1 = count)
  let t := patchData setup qp t i cmd
  let t := t.setWr fi fun wr => { wr with
    wrId := if isLast then encodeWrId qp count else 0
    inlined := true
    signaled := isLast }
  if setup.cfg.useArrivalQueue then
    let t := t.stage i (packArrivalWork cmd.tileId (runTiles cmd.bytes))
    let t := t.setSge fi fun s => { s with source := .staging i }
    let q := setup.logicalQueue cmd
    let qSlot := t.senderSeq q
    let t := { t with senderSeq := Function.update t.senderSeq q (qSlot + 1) }
    let t := t.setWr fi fun wr => { wr with
      rkey := setup.remoteFlagsRkeyForQp qp
      remoteAddr := queueFlagAddr setup qp q qSlot }
    if setup.cfg.enableRemoteTail then
      let t := t.stage (BATCH_SIZE + i) (qSlot + 1)
      let t := t.setSge ti fun s => { s with source := .staging (BATCH_SIZE + i) }
      -- The flag gives up what it was given above: the tail closes.
      let t := t.setWr fi fun wr => { wr with
        wrId := 0
        inlined := true
        signaled := false
        next := some ti }
      t.setWr ti fun wr => closeWr qp count i { wr with
        remoteAddr := setup.remoteTailAddrForQp qp + 4 * BitVec.ofNat 64 q
        rkey := setup.remoteTailRkeyForQp qp }
    else t.setWr fi (closeWr qp count i)
  else
    let t := t.setSge fi fun s => { s with source := .staging 0 }
    let t := t.setWr fi fun wr => { wr with
      rkey := setup.remoteFlagsRkeyForQp qp
      remoteAddr := setup.remoteFlagsAddrForQp qp + 4 * cmd.tileId.setWidth 64 }
    if setup.forwardNotifyEnabledForCmd cmd then
      let t := { t with
        notifyPayload := Function.update t.notifyPayload i (notifyPayloadOf epoch cmd) }
      let t := t.setWr fi fun wr => { wr with
        wrId := 0
        inlined := true
        signaled := false
        next := some ni }
      t.setWr ni fun wr => closeWr qp count i { wr with
        rkey := setup.remoteForwardNotifyRkeyForQp qp
        remoteAddr := setup.remoteForwardNotifyAddrForQp qp + 32 * cmd.tileId.setWidth 64 }
    else t.setWr fi (closeWr qp count i)

/-- The loop over the batch. -/
def patchLoop (t : Templates) (i : Nat) : List Polled → Templates
  | [] => t
  | p :: ps => patchLoop (patchCommand setup epoch qp count t i p.cmd) (i + 1) ps

/-- Step 2 up to `ibv_post_send`: fill the arrays if that was not done yet, put the epoch into
    the first slot of the staging ring, and patch the requests of the batch. -/
def patchBatch (t : Templates) (batch : List Polled) : Templates :=
  let t := if t.initialized then t else initWrTemplates setup t
  patchLoop setup epoch qp batch.length (t.stage 0 epoch) 0 batch

end Build

/-- The fields of a request that the NIC is given. -/
structure Request where
  wrId : BitVec 64
  sgList : List Sge
  payload : Option Payload
  signaled : Bool
  remoteAddr : BitVec 64
  rkey : BitVec 32
  deriving DecidableEq

/-- A request without what it is for. -/
def ofSendWr (wr : SendWr) : Request :=
  ⟨wr.wrId, wr.sgList, wr.payload, wr.signaled, wr.remoteAddr, wr.rkey⟩

/-- What a gather entry and the request's flag make the NIC send: registered memory, an inline
    word out of the staging ring, or an inline notification. -/
def fetch (setup : Setup) (t : Templates) (s : TemplateSge) (inlined : Bool) :
    Option (List Sge × Option Payload) :=
  match s.source, inlined with
  | .mem addr, false => some ([⟨addr, s.length, s.lkey⟩], none)
  | .staging slot, true =>
      some ([⟨setup.cfg.flagStaging.slotAddr slot, s.length, s.lkey⟩],
        some (.word (t.staging slot)))
  | .notify i, true =>
      if s.length = 32 then some ([], some (.notify (t.notifyPayload i))) else none
  | _, _ => none

/-- The request at an index as `ibv_post_send` reads it: an RDMA write with one gather entry. -/
def read (setup : Setup) (t : Templates) (j : Nat) : Option Request :=
  let wr := t.wrs j
  match wr.sgList, wr.numSge, wr.opcode with
  | some k, 1, .rdmaWrite =>
      (fetch setup t (t.sges k) wr.inlined).map fun r =>
        ⟨wr.wrId, r.1, r.2, wr.signaled, wr.remoteAddr, wr.rkey⟩
  | _, _, _ => none

/-- The link of a request. -/
def next (t : Templates) (j : Nat) : Option Nat := (t.wrs j).next

/-- The indices of the requests of the `i`th command. -/
def commandIndices (setup : Setup) (i : Nat) (cmd : TransferCmd) : List Nat :=
  [i * 4, i * 4 + 1] ++
    if setup.cfg.useArrivalQueue then if setup.cfg.enableRemoteTail then [i * 4 + 3] else []
    else if setup.forwardNotifyEnabledForCmd cmd then [i * 4 + 2] else []

/-- The indices of the requests of a batch, in order. -/
def batchIndices (setup : Setup) (i : Nat) : List Polled → List Nat
  | [] => []
  | p :: ps => commandIndices setup i p.cmd ++ batchIndices setup (i + 1) ps

/-- The first `n` places are filled in the fields that all batches leave alone. -/
structure Template (setup : Setup) (n : Nat) (t : Templates) : Prop where
  wr : ∀ j < n * 4, (t.wrs j).sgList = some j ∧ (t.wrs j).numSge = 1 ∧
    (t.wrs j).opcode = .rdmaWrite
  data : ∀ i < n, (t.wrs (i * 4)).next = some (i * 4 + 1) ∧ (t.wrs (i * 4)).wrId = 0 ∧
    (t.wrs (i * 4)).inlined = false ∧ (t.wrs (i * 4)).signaled = false
  flag : ∀ i < n, (t.sges (i * 4 + 1)).length = 4 ∧
    (t.sges (i * 4 + 1)).lkey = setup.cfg.flagStaging.lkey
  notify : ∀ i < n, t.sges (i * 4 + 2) = ⟨.notify i, 32, 0⟩
  tail : ∀ i < n, (t.sges (i * 4 + 3)).length = 4 ∧
    (t.sges (i * 4 + 3)).lkey = setup.cfg.flagStaging.lkey

section Fields

variable {setup : Setup} {t : Templates} {i : Nat}

@[simp] theorem wrs_setWr (t : Templates) (j : Nat) (f : TemplateWr → TemplateWr) (k : Nat) :
    (t.setWr j f).wrs k = if k = j then f (t.wrs j) else t.wrs k :=
  Function.update_apply _ _ _ _

@[simp] theorem sges_setWr (t : Templates) (j : Nat) (f : TemplateWr → TemplateWr) :
    (t.setWr j f).sges = t.sges := rfl

@[simp] theorem wrs_setSge (t : Templates) (j : Nat) (f : TemplateSge → TemplateSge) :
    (t.setSge j f).wrs = t.wrs := rfl

@[simp] theorem sges_setSge (t : Templates) (j : Nat) (f : TemplateSge → TemplateSge) (k : Nat) :
    (t.setSge j f).sges k = if k = j then f (t.sges j) else t.sges k :=
  Function.update_apply _ _ _ _

@[simp] theorem wrs_stage (t : Templates) (slot : Nat) (word : BitVec 32) :
    (t.stage slot word).wrs = t.wrs := rfl

@[simp] theorem sges_stage (t : Templates) (slot : Nat) (word : BitVec 32) :
    (t.stage slot word).sges = t.sges := rfl

@[simp] theorem staging_stage (t : Templates) (slot : Nat) (word : BitVec 32) (k : Nat) :
    (t.stage slot word).staging k = if k = slot then word else t.staging k :=
  Function.update_apply _ _ _ _

@[simp] theorem senderSeq_setWr (t : Templates) (j : Nat) (f : TemplateWr → TemplateWr) :
    (t.setWr j f).senderSeq = t.senderSeq := rfl

@[simp] theorem senderSeq_setSge (t : Templates) (j : Nat) (f : TemplateSge → TemplateSge) :
    (t.setSge j f).senderSeq = t.senderSeq := rfl

@[simp] theorem senderSeq_stage (t : Templates) (slot : Nat) (word : BitVec 32) :
    (t.stage slot word).senderSeq = t.senderSeq := rfl

@[simp] theorem staging_setWr (t : Templates) (j : Nat) (f : TemplateWr → TemplateWr) :
    (t.setWr j f).staging = t.staging := rfl

@[simp] theorem staging_setSge (t : Templates) (j : Nat) (f : TemplateSge → TemplateSge) :
    (t.setSge j f).staging = t.staging := rfl

@[simp] theorem notifyPayload_setWr (t : Templates) (j : Nat) (f : TemplateWr → TemplateWr) :
    (t.setWr j f).notifyPayload = t.notifyPayload := rfl

@[simp] theorem notifyPayload_setSge (t : Templates) (j : Nat) (f : TemplateSge → TemplateSge) :
    (t.setSge j f).notifyPayload = t.notifyPayload := rfl

end Fields

section Patch

variable {setup : Setup} {epoch : BitVec 32} {qp : Int} {count n : Nat} {t t' t'' : Templates}
  {i j : Nat} {cmd : TransferCmd}

/-- The four indices of a place in the batch. -/
def Own (i j : Nat) : Prop := j = i * 4 ∨ j = i * 4 + 1 ∨ j = i * 4 + 2 ∨ j = i * 4 + 3

theorem wrs_initCommand (hj : ¬ Own i j) : (initCommand setup t i).wrs j = t.wrs j := by
  simp only [Own, not_or] at hj
  rcases hj with ⟨h0, h1, h2, h3⟩
  simp [initCommand, h0, h1, h2, h3]

theorem sges_initCommand (hj : ¬ Own i j) : (initCommand setup t i).sges j = t.sges j := by
  simp only [Own, not_or] at hj
  rcases hj with ⟨h0, h1, h2, h3⟩
  simp [initCommand, h0, h1, h2, h3]

/-- One more place is filled, in an array that was cleared. -/
theorem template_initCommand (h : Template setup n t) (hzero : ∀ j, n * 4 ≤ j → t.wrs j = zeroWr) :
    Template setup (n + 1) (initCommand setup t n) := by
  -- The places before are as they were.
  have hold : ∀ i < n, ∀ k < 4, ¬ Own n (i * 4 + k) := by
    intro i hi k hk hown
    simp only [Own] at hown
    omega
  have hdata := hzero (n * 4) (Nat.le_refl _)
  constructor
  · intro j hj
    by_cases hown : Own n j
    · rcases hown with rfl | rfl | rfl | rfl <;> simp [initCommand]
    · rw [wrs_initCommand hown]
      simp only [Own] at hown
      exact h.wr j (by omega)
  · intro i hi
    rcases Nat.lt_succ_iff_lt_or_eq.mp hi with hi | rfl
    · have hown := hold i hi 0 (by decide)
      rw [Nat.add_zero] at hown
      rw [wrs_initCommand hown]
      exact h.data i hi
    · simp [initCommand, hdata, zeroWr]
  · intro i hi
    rcases Nat.lt_succ_iff_lt_or_eq.mp hi with hi | rfl
    · rw [sges_initCommand (hold i hi 1 (by decide))]
      exact h.flag i hi
    · simp [initCommand]
  · intro i hi
    rcases Nat.lt_succ_iff_lt_or_eq.mp hi with hi | rfl
    · rw [sges_initCommand (hold i hi 2 (by decide))]
      exact h.notify i hi
    · simp [initCommand]
  · intro i hi
    rcases Nat.lt_succ_iff_lt_or_eq.mp hi with hi | rfl
    · rw [sges_initCommand (hold i hi 3 (by decide))]
      exact h.tail i hi
    · simp [initCommand]

/-- `init_wr_templates` fills all places. -/
theorem template_init (setup : Setup) (t : Templates) :
    Template setup BATCH_SIZE (initWrTemplates setup t) := by
  have hloop : ∀ n, Template setup n ((List.range n).foldl (initCommand setup)
      { t with wrs := fun _ => zeroWr, sges := fun _ => zeroSge }) ∧
      ∀ j, n * 4 ≤ j → ((List.range n).foldl (initCommand setup)
        { t with wrs := fun _ => zeroWr, sges := fun _ => zeroSge }).wrs j = zeroWr := by
    intro n
    induction n with
    | zero =>
        refine ⟨⟨?_, ?_, ?_, ?_, ?_⟩, fun _ _ => rfl⟩ <;>
          exact fun k hk => absurd hk (by omega)
    | succ n ih =>
        rw [List.range_succ, List.foldl_append, List.foldl_cons, List.foldl_nil]
        refine ⟨template_initCommand ih.1 ih.2, fun j hj => ?_⟩
        rw [wrs_initCommand (by simp only [Own]; omega)]
        exact ih.2 j (by omega)
  rcases (hloop BATCH_SIZE).1 with ⟨hwr, hdata, hflag, hnotify, htail⟩
  exact ⟨hwr, hdata, hflag, hnotify, htail⟩

/-- The templates of the other commands are left alone. -/
theorem kept_patchCommand (hj : ¬ Own i j) :
    (patchCommand setup epoch qp count t i cmd).wrs j = t.wrs j ∧
      (patchCommand setup epoch qp count t i cmd).sges j = t.sges j := by
  simp only [Own, not_or] at hj
  rcases hj with ⟨h0, h1, h2, h3⟩
  unfold patchCommand patchData
  dsimp only
  split
  · split <;> simp [h0, h1, h3]
  · split <;> simp [h0, h1, h2]

theorem notifyPayload_patchCommand (hj : j ≠ i) :
    (patchCommand setup epoch qp count t i cmd).notifyPayload j = t.notifyPayload j := by
  unfold patchCommand patchData
  dsimp only
  split
  · split <;> rfl
  · split
    · exact Function.update_of_ne hj _ _
    · rfl

theorem staging_patchCommand (hj : j ≠ i) (hj' : j ≠ BATCH_SIZE + i) :
    (patchCommand setup epoch qp count t i cmd).staging j = t.staging j := by
  unfold patchCommand patchData
  dsimp only
  split
  · split <;> simp [setWr, setSge, stage, hj, hj']
  · split <;> rfl

/-- In the flat layout the words in the staging ring stay. -/
theorem staging_patchCommand_flat (hq : setup.cfg.useArrivalQueue = false) :
    (patchCommand setup epoch qp count t i cmd).staging = t.staging := by
  unfold patchCommand patchData
  dsimp only
  rw [if_neg (by rw [hq]; exact Bool.false_ne_true)]
  split <;> rfl

/-- A patch leaves what is never patched. -/
theorem template_patchCommand (h : Template setup n t) (hi : i < n) :
    Template setup n (patchCommand setup epoch qp count t i cmd) := by
  have hwr : ∀ k < 4, (t.wrs (i * 4 + k)).sgList = some (i * 4 + k) ∧
      (t.wrs (i * 4 + k)).numSge = 1 ∧ (t.wrs (i * 4 + k)).opcode = .rdmaWrite :=
    fun k hk => h.wr _ (by omega)
  have hwr0 := hwr 0 (by decide)
  have hwr1 := hwr 1 (by decide)
  have hwr2 := hwr 2 (by decide)
  have hwr3 := hwr 3 (by decide)
  rw [Nat.add_zero] at hwr0
  -- The four requests of another command are none of these.
  have hold : ∀ i' ≠ i, ∀ k < 4, ¬ Own i (i' * 4 + k) := by
    intro i' hne k hk hown
    simp only [Own] at hown
    omega
  constructor
  · intro j hj
    -- What is patched keeps its entry, its single scatter and its opcode.
    by_cases hown : Own i j
    · unfold patchCommand patchData
      dsimp only
      rcases hown with rfl | rfl | rfl | rfl <;> split <;> split <;>
        simp [closeWr, hwr0, hwr1, hwr2, hwr3]
    · rw [(kept_patchCommand hown).1]
      exact h.wr j hj
  · intro i' hi'
    -- Its own requests keep their addresses and keys for the next patch.
    by_cases hne : i' = i
    · rw [hne]
      have hdata := h.data i hi
      unfold patchCommand patchData
      dsimp only
      split <;> split <;> simp [hdata]
    · have hown := hold i' hne 0 (by decide)
      rw [Nat.add_zero] at hown
      rw [(kept_patchCommand hown).1]
      exact h.data i' hi'
  · intro i' hi'
    by_cases hne : i' = i
    · rw [hne]
      have hflag := h.flag i hi
      unfold patchCommand patchData
      dsimp only
      split <;> split <;> simp [hflag]
    · rw [(kept_patchCommand (hold i' hne 1 (by decide))).2]
      exact h.flag i' hi'
  · intro i' hi'
    by_cases hne : i' = i
    · rw [hne]
      have hnotify := h.notify i hi
      unfold patchCommand patchData
      dsimp only
      split <;> split <;> simp [hnotify]
    · rw [(kept_patchCommand (hold i' hne 2 (by decide))).2]
      exact h.notify i' hi'
  · intro i' hi'
    by_cases hne : i' = i
    · rw [hne]
      have htail := h.tail i hi
      unfold patchCommand patchData
      dsimp only
      split <;> split <;> simp [htail]
    · rw [(kept_patchCommand (hold i' hne 3 (by decide))).2]
      exact h.tail i' hi'

/-- The links of a command lead through its requests, and out of them. -/
theorem walk_patchCommand (h : Template setup n t) (hi : i < n) :
    Walk (patchCommand setup epoch qp count t i cmd).next (some (i * 4))
      (commandIndices setup i cmd) (if i + 1 = count then none else some ((i + 1) * 4)) := by
  rcases h.data i hi with ⟨hnext, -, -, -⟩
  unfold patchCommand patchData commandIndices
  dsimp only
  -- In each layout the links are those of two or three requests.
  split
  · split <;> simp [next, closeWr, hnext]
  · split <;> simp [next, closeWr, hnext]

/-- The requests of a command are those that are built for it. -/
theorem read_patchCommand (h : Template setup n t) (hi : i < n)
    (hepoch : setup.cfg.useArrivalQueue = false → t.staging 0 = epoch) (p : Polled) :
    (commandIndices setup i p.cmd).map (read setup (patchCommand setup epoch qp count t i p.cmd)) =
      (commandWrs setup epoch t.senderSeq qp count i p).1.map (some ∘ ofSendWr) := by
  rcases h.data i hi with ⟨-, hid, hinl, hsig⟩
  rcases h.flag i hi with ⟨hflen, hflkey⟩
  rcases h.tail i hi with ⟨htlen, htlkey⟩
  have hnotify := h.notify i hi
  have hwr : ∀ k < 4, (t.wrs (i * 4 + k)).sgList = some (i * 4 + k) ∧
      (t.wrs (i * 4 + k)).numSge = 1 ∧ (t.wrs (i * 4 + k)).opcode = .rdmaWrite :=
    fun k hk => h.wr _ (by omega)
  have hwr0 := hwr 0 (by decide)
  have hwr1 := hwr 1 (by decide)
  have hwr2 := hwr 2 (by decide)
  have hwr3 := hwr 3 (by decide)
  rw [Nat.add_zero] at hwr0
  have hbatch : BATCH_SIZE ≠ 0 := by decide
  unfold patchCommand patchData commandIndices commandWrs
  dsimp only
  split
  · split
    -- The tail is staged behind the flags, so it does not change the flag's word.
    · simp [read, fetch, closeWr, hid, hinl, hsig, hflen, hflkey, htlen, htlkey, hwr0, hwr1, hwr3,
        hbatch, dataWr, wordWr, ofSendWr]
    · simp [read, fetch, closeWr, hid, hinl, hsig, hflen, hflkey, hwr0, hwr1, dataWr, wordWr,
        ofSendWr]
  · rename_i hq
    have hword := hepoch (Bool.eq_false_iff.mpr hq)
    split
    · simp [read, fetch, closeWr, hid, hinl, hsig, hflen, hflkey, hwr0, hwr1, hwr2, hnotify, hword,
        dataWr, wordWr, notifyWr, notifyPayloadOf, ofSendWr]
    · simp [read, fetch, closeWr, hid, hinl, hsig, hflen, hflkey, hwr0, hwr1, hword, dataWr, wordWr,
        ofSendWr]

theorem senderSeq_patchCommand (p : Polled) :
    (patchCommand setup epoch qp count t i p.cmd).senderSeq =
      (commandWrs setup epoch t.senderSeq qp count i p).2 := by
  unfold patchCommand patchData commandWrs
  dsimp only
  split
  · split <;> rfl
  · split <;> rfl

end Patch

section Loop

variable {setup : Setup} {epoch : BitVec 32} {qp : Int} {count n : Nat} {t t' t'' : Templates}
  {i j : Nat} {batch : List Polled}

/-- A slot of the staging ring that no command from the `i`th on uses. -/
def Settled (setup : Setup) (i slot : Nat) : Prop :=
  setup.cfg.useArrivalQueue = false ∨ slot < i ∨ BATCH_SIZE ≤ slot ∧ slot < BATCH_SIZE + i

/-- Everything of the commands before the `i`th is as it was. -/
structure Keeps (setup : Setup) (i : Nat) (t t' : Templates) : Prop where
  wrs : ∀ j < i * 4, t'.wrs j = t.wrs j
  sges : ∀ j < i * 4, t'.sges j = t.sges j
  notifyPayload : ∀ k < i, t'.notifyPayload k = t.notifyPayload k
  staging : ∀ slot, Settled setup i slot → t'.staging slot = t.staging slot

theorem keeps_patchCommand {cmd : TransferCmd} (hi : i < BATCH_SIZE) :
    Keeps setup i t (patchCommand setup epoch qp count t i cmd) where
  wrs _ hj := (kept_patchCommand (by simp only [Own]; omega)).1
  sges _ hj := (kept_patchCommand (by simp only [Own]; omega)).2
  notifyPayload _ hk := notifyPayload_patchCommand (by omega)
  staging slot hs := by
    rcases hs with hq | hs
    · rw [staging_patchCommand_flat hq]
    · exact staging_patchCommand (by omega) (by omega)

theorem Keeps.mono (h : Keeps setup (i + 1) t t') : Keeps setup i t t' where
  wrs j hj := h.wrs j (by omega)
  sges j hj := h.sges j (by omega)
  notifyPayload k hk := h.notifyPayload k (by omega)
  staging slot hs := by
    refine h.staging slot ?_
    rcases hs with hq | hs
    · exact Or.inl hq
    · exact Or.inr (by omega)

theorem Keeps.trans (h : Keeps setup i t t') (h' : Keeps setup i t' t'') : Keeps setup i t t'' where
  wrs j hj := (h'.wrs j hj).trans (h.wrs j hj)
  sges j hj := (h'.sges j hj).trans (h.sges j hj)
  notifyPayload k hk := (h'.notifyPayload k hk).trans (h.notifyPayload k hk)
  staging slot hs := (h'.staging slot hs).trans (h.staging slot hs)

/-- What comes later in the batch leaves the commands before alone. -/
theorem keeps_patchLoop (hlen : i + batch.length ≤ BATCH_SIZE) :
    Keeps setup i t (patchLoop setup epoch qp count t i batch) := by
  induction batch generalizing i t with
  | nil => exact ⟨fun _ _ => rfl, fun _ _ => rfl, fun _ _ => rfl, fun _ _ => rfl⟩
  | cons p ps ih =>
      rw [List.length_cons] at hlen
      exact (keeps_patchCommand (by omega)).trans (ih (i := i + 1) (by omega)).mono

/-- A source that no command from the `i`th on changes. -/
def Source.Settled (setup : Setup) (i : Nat) : Source → Prop
  | .mem _ => True
  | .staging slot => Templates.Settled setup i slot
  | .notify k => k < i

/-- What is read of a command stays, if its source is settled. -/
theorem read_keeps (h : Keeps setup i t t') (hj : j < i * 4)
    (hwr : (t.wrs j).sgList = some j ∧ (t.wrs j).numSge = 1 ∧ (t.wrs j).opcode = .rdmaWrite)
    (hs : (t.sges j).source.Settled setup i) : read setup t' j = read setup t j := by
  have hfetch : ∀ inlined,
      fetch setup t' (t.sges j) inlined = fetch setup t (t.sges j) inlined := by
    intro inlined
    cases hsrc : (t.sges j).source with
    | mem addr => cases inlined <;> simp only [fetch, hsrc]
    | staging slot =>
        rw [hsrc] at hs
        cases inlined <;> simp only [fetch, hsrc, h.staging slot hs]
    | notify k =>
        rw [hsrc] at hs
        cases inlined <;> simp only [fetch, hsrc, h.notifyPayload k hs]
  simp only [read, h.wrs j hj, hwr, h.sges j hj, hfetch]

/-- The sources of a command's requests are its own. -/
theorem settled_patchCommand {cmd : TransferCmd} (h : Template setup n t) (hi : i < n) :
    ∀ j ∈ commandIndices setup i cmd,
      ((patchCommand setup epoch qp count t i cmd).sges j).source.Settled setup (i + 1) := by
  have hnotify := h.notify i hi
  have hq : ∀ k, Settled setup (i + 1) k ↔ setup.cfg.useArrivalQueue = false ∨ k < i + 1 ∨
      BATCH_SIZE ≤ k ∧ k < BATCH_SIZE + (i + 1) := fun _ => Iff.rfl
  unfold patchCommand patchData commandIndices
  dsimp only
  split
  · split <;> simp [Source.Settled, hq]
  · rename_i hflat
    split <;> simp [Source.Settled, hq, hnotify, hflat]

theorem mem_commandIndices {cmd : TransferCmd} (hj : j ∈ commandIndices setup i cmd) :
    i * 4 ≤ j ∧ j < (i + 1) * 4 := by
  unfold commandIndices at hj
  split at hj <;> split at hj <;> simp at hj <;> omega

/-- At the indices of the `i`th command its requests are read: its data, its arrival word, and
    then its tail or its notification, where it has one. -/
def ReadsCommand (setup : Setup) (epoch : BitVec 32) (qp : Int) (count i : Nat)
    (senderSeq : Nat → BitVec 32) (p : Polled) (t : Templates) : Prop :=
  (commandIndices setup i p.cmd).map (t.read setup) =
    (commandWrs setup epoch senderSeq qp count i p).1.map (some ∘ ofSendWr)

/-- What the loop makes of the rest of a batch: the links lead through its requests to the end,
    and the requests are those that are built for it. -/
structure Spec (setup : Setup) (epoch : BitVec 32) (qp : Int) (count i : Nat) (t t' : Templates)
    (batch : List Polled) : Prop where
  walk : Walk t'.next (if batch = [] then none else some (i * 4)) (batchIndices setup i batch) none
  read : (batchIndices setup i batch).map (read setup t') =
    (chainLoop setup epoch qp count t.senderSeq i batch).1.map (some ∘ ofSendWr)
  commands : ∀ k p, batch[k]? = some p →
    ReadsCommand setup epoch qp count (i + k)
      (chainLoop setup epoch qp count t.senderSeq i (batch.take k)).2 p t'
  senderSeq : t'.senderSeq = (chainLoop setup epoch qp count t.senderSeq i batch).2
  template : Template setup BATCH_SIZE t'

theorem spec_patchLoop (h : Template setup BATCH_SIZE t) (hc : i + batch.length = count)
    (hcount : count ≤ BATCH_SIZE)
    (hepoch : setup.cfg.useArrivalQueue = false → t.staging 0 = epoch) :
    Spec setup epoch qp count i t (patchLoop setup epoch qp count t i batch) batch := by
  induction batch generalizing i t with
  | nil => exact ⟨rfl, rfl, fun _ _ hk => absurd hk (by simp), rfl, h⟩
  | cons p ps ih =>
      rw [List.length_cons] at hc
      have hi : i < BATCH_SIZE := by omega
      have ht : Template setup BATCH_SIZE (patchCommand setup epoch qp count t i p.cmd) :=
        template_patchCommand h hi
      have hword : setup.cfg.useArrivalQueue = false →
          (patchCommand setup epoch qp count t i p.cmd).staging 0 = epoch := fun hq => by
        rw [staging_patchCommand_flat hq, hepoch hq]
      have hrest := ih ht (i := i + 1) (by omega) hword
      have hkeep : Keeps setup (i + 1) (patchCommand setup epoch qp count t i p.cmd)
          (patchLoop setup epoch qp count t i (p :: ps)) := keeps_patchLoop (by omega)
      have hlast : i + 1 = count ↔ ps = [] := by
        rw [← List.length_eq_zero_iff]
        omega
      -- The command's own requests stay as they were patched.
      have hown : ReadsCommand setup epoch qp count i t.senderSeq p
          (patchLoop setup epoch qp count t i (p :: ps)) := by
        rw [ReadsCommand, ← read_patchCommand h hi hepoch p]
        refine List.map_congr_left fun j hj => ?_
        have hlt := (mem_commandIndices hj).2
        exact read_keeps hkeep hlt (ht.wr j (by omega)) (settled_patchCommand h hi j hj)
      rcases hrest with ⟨hwalk, hread, hcommands, hseq, htemp⟩
      rw [senderSeq_patchCommand] at hread hcommands hseq
      refine ⟨?_, ?_, fun k q hk => ?_, hseq, htemp⟩
      · rw [if_neg (List.cons_ne_nil _ _)]
        have hfirst : Walk (patchCommand setup epoch qp count t i p.cmd).next (some (i * 4))
            (commandIndices setup i p.cmd) (if i + 1 = count then none else some ((i + 1) * 4)) :=
          walk_patchCommand h hi
        simp only [hlast] at hfirst
        refine (hfirst.congr fun j hj => ?_).append hwalk
        simp only [next, hkeep.wrs j (mem_commandIndices hj).2]
      · rw [batchIndices, List.map_append, chainLoop]
        dsimp only
        rw [List.map_append]
        exact congrArg₂ _ hown hread
      · cases k with
        | zero =>
            rw [List.getElem?_cons_zero, Option.some.injEq] at hk
            rw [← hk]
            exact hown
        | succ k =>
            rw [List.getElem?_cons_succ] at hk
            have hrec := hcommands k q hk
            rw [Nat.add_assoc, Nat.add_comm 1 k] at hrec
            exact hrec

end Loop

section Indices

variable {setup : Setup} {batch : List Polled} {i n : Nat}

/-- The indices of a batch lie in the array, and none comes twice. -/
theorem batchIndices_lt (hlen : i + batch.length ≤ n) :
    ∀ j ∈ batchIndices setup i batch, i * 4 ≤ j ∧ j < n * 4 := by
  induction batch generalizing i with
  | nil => exact fun _ hj => absurd hj List.not_mem_nil
  | cons p ps ih =>
      rw [List.length_cons] at hlen
      intro j hj
      rcases List.mem_append.mp hj with hj | hj
      · have := mem_commandIndices hj
        omega
      · have := ih (i := i + 1) (by omega) j hj
        omega

theorem nodup_batchIndices : (batchIndices setup i batch).Nodup := by
  induction batch generalizing i with
  | nil => exact List.nodup_nil
  | cons p ps ih =>
      refine List.nodup_append.mpr ⟨?_, ih, fun j hj k hk => ?_⟩
      · unfold commandIndices
        split <;> split <;> simp
      · have h1 := mem_commandIndices hj
        have h2 := batchIndices_lt (Nat.le_refl _) k hk
        omega

end Indices

/-- The arrays after any batches. Between two batches other code writes to the staging ring and
    moves the sequence counters, and the epoch and the QP are of each batch. -/
inductive History (setup : Setup) : Templates → Prop where
  /-- Before the first batch the arrays hold anything. -/
  | start (t : Templates) (h : t.initialized = false) : History setup t
  | batch {t : Templates} (h : History setup t) (staging senderSeq : Nat → BitVec 32)
      (epoch : BitVec 32) (qp : Int) (batch : List Polled) (hlen : batch.length ≤ BATCH_SIZE) :
      History setup (patchBatch setup epoch qp
        { t with staging := staging, senderSeq := senderSeq } batch)

/-- The chain that `ibv_post_send` is given. From the first request the links lead through the
    requests of each command in turn and end; each command's are read as they are built for it,
    and only the last one is signaled, with the number of commands. -/
structure Posts (setup : Setup) (epoch : BitVec 32) (senderSeq : Nat → BitVec 32) (qp : Int)
    (batch : List Polled) (t : Templates) : Prop where
  walk : Walk t.next (some 0) (batchIndices setup 0 batch) none
  inBounds : ∀ j ∈ batchIndices setup 0 batch, j < BATCH_SIZE * 4
  once : (batchIndices setup 0 batch).Nodup
  commands : ∀ k p, batch[k]? = some p →
    ReadsCommand setup epoch qp batch.length k
      (chainLoop setup epoch qp batch.length senderSeq 0 (batch.take k)).2 p t
  chain : (batchIndices setup 0 batch).map (t.read setup) =
    (batchChain setup epoch senderSeq qp batch).1.wrs.map (some ∘ ofSendWr)
  closed : (batchChain setup epoch senderSeq qp batch).1.Closed
  count : (batchChain setup epoch senderSeq qp batch).1.count = batch.length

section Run

variable {setup : Setup} {t : Templates}

/-- Before a batch is patched, the arrays are filled. -/
theorem template_filled (h : t.initialized = true → Template setup BATCH_SIZE t) :
    Template setup BATCH_SIZE (if t.initialized = true then t else initWrTemplates setup t) := by
  split
  · rename_i hi
    exact h hi
  · exact template_init setup t

/-- Filling the arrays moves no sequence counter. -/
theorem senderSeq_filled (setup : Setup) (t : Templates) :
    (if t.initialized = true then t else initWrTemplates setup t).senderSeq = t.senderSeq := by
  have hloop : ∀ (l : List Nat) (u : Templates),
      (l.foldl (initCommand setup) u).senderSeq = u.senderSeq := by
    intro l
    induction l with
    | nil => exact fun _ => rfl
    | cons k l ih =>
        intro u
        rw [List.foldl_cons, ih]
        rfl
  split
  · rfl
  · exact hloop _ _

/-- What patching a batch makes of filled arrays, or of arrays that are not filled yet. -/
theorem spec_patchBatch (h : t.initialized = true → Template setup BATCH_SIZE t)
    (epoch : BitVec 32) (qp : Int) {batch : List Polled} (hlen : batch.length ≤ BATCH_SIZE) :
    Spec setup epoch qp batch.length 0 t (patchBatch setup epoch qp t batch)
      batch := by
  have hfilled := template_filled h
  have hstaged : Template setup BATCH_SIZE
      ((if t.initialized = true then t else initWrTemplates setup t).stage 0 epoch) :=
    ⟨hfilled.wr, hfilled.data, hfilled.flag, hfilled.notify, hfilled.tail⟩
  have hspec : Spec setup epoch qp batch.length 0
      ((if t.initialized = true then t else initWrTemplates setup t).stage 0 epoch)
      (patchLoop setup epoch qp batch.length
        ((if t.initialized = true then t else initWrTemplates setup t).stage 0 epoch) 0 batch)
      batch :=
    spec_patchLoop hstaged (Nat.zero_add _) hlen fun _ => by rw [staging_stage, if_pos rfl]
  rcases hspec with ⟨hwalk, hread, hcommands, hseq, htemp⟩
  rw [senderSeq_stage, senderSeq_filled] at hread hcommands hseq
  exact ⟨hwalk, hread, hcommands, hseq, htemp⟩

/-- Once they are filled, the arrays keep what is never patched. -/
theorem template_of_history (h : History setup t) :
    t.initialized = true → Template setup BATCH_SIZE t := by
  induction h with
  | start t hn =>
      intro hi
      rw [hn] at hi
      exact absurd hi Bool.false_ne_true
  | batch h staging senderSeq epoch qp batch hlen ih =>
      refine fun _ => (spec_patchBatch (fun hi => ?_) epoch qp hlen).template
      rcases ih hi with ⟨hwr, hdata, hflag, hnotify, htail⟩
      exact ⟨hwr, hdata, hflag, hnotify, htail⟩

/-- After any batches, the chain of a new one is posted as if it were built anew. -/
theorem templates_chain (h : History setup t) (staging senderSeq : Nat → BitVec 32)
    (epoch : BitVec 32) (qp : Int) {batch : List Polled} (hne : batch ≠ [])
    (hlen : batch.length ≤ BATCH_SIZE) :
    Posts setup epoch senderSeq qp batch
      (patchBatch setup epoch qp { t with staging := staging, senderSeq := senderSeq } batch) := by
  -- Staging and sequence numbers are not in the templates.
  have hkept : t.initialized = true → Template setup BATCH_SIZE
      { t with staging := staging, senderSeq := senderSeq } := fun hi => by
    rcases template_of_history h hi with ⟨hwr, hdata, hflag, hnotify, htail⟩
    exact ⟨hwr, hdata, hflag, hnotify, htail⟩
  have hspec := spec_patchBatch (t := { t with staging := staging, senderSeq := senderSeq }) hkept
    epoch qp hlen
  rcases hspec with ⟨hwalk, hread, hcommands, -, -⟩
  rw [if_neg hne, Nat.zero_mul] at hwalk
  have hbound : batch.length < 2 ^ 31 := Nat.lt_of_le_of_lt hlen (by decide)
  refine ⟨hwalk, fun j hj => (batchIndices_lt (by omega) j hj).2, nodup_batchIndices, ?_, hread,
    (Built.batch epoch senderSeq qp hne hlen).closed, count_batchChain hne hbound⟩
  -- The commands stand in the batch's order.
  intro k p hk
  have hcommand := hcommands k p hk
  rw [Nat.zero_add] at hcommand
  exact hcommand

end Run

section Sample

/-- The arrival-queue layout with tails. -/
def tailSetup : Setup := Setup.ofConfig { sampleConfig with enableRemoteTail := true } none

/-- Arrays that hold links to themselves. -/
def unfilled : Templates where
  wrs j := { zeroWr with next := some j, signaled := true, wrId := 7 }
  sges _ := zeroSge
  notifyPayload _ := ForwardNotify.zero
  initialized := false
  staging _ := 0
  senderSeq _ := 0

/-- Three WRITEs on one QP, and then two on the other. -/
def first : List Polled := [⟨0, 0, writeCmd 0 0⟩, ⟨0, 1, writeCmd 0 1⟩, ⟨0, 2, writeCmd 0 2⟩]

def second : List Polled := [⟨0, 3, writeCmd 1 3⟩, ⟨0, 4, writeCmd 1 4⟩]

theorem templates_chain_second :
    batchIndices tailSetup 0 second = [0, 1, 3, 4, 5, 7] ∧
    Posts tailSetup 2 (fun _ => 5) 1 second
      (patchBatch tailSetup 2 1
        { patchBatch tailSetup 1 0 unfilled first with
          staging := fun _ => 9, senderSeq := fun _ => 5 }
        second) :=
  ⟨by decide, templates_chain (.batch (.start unfilled rfl) (fun _ => 0) (fun _ => 0) 1 0 first
    (by decide)) (fun _ => 9) (fun _ => 5) 2 1 (by decide) (by decide)⟩

end Sample

end Templates

end Cx7

end Internode

end MKernel
