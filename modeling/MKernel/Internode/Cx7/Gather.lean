import MKernel.Core.Chunks
import MKernel.Internode.Cx7.SendQueue
import MKernel.Internode.Cx7.Templates

/-!
# Strided Gather

How the CX7 proxy sends rows of a matrix that are not next to each other.

The rows are gathered by the NIC: an entry for each row stands in one array, and the requests in
another, each with a run of entries as long as a request may have, the last with what is left. The
rows land next to each other. Behind the data follow the arrival word and perhaps the tail, which
take the next places of the same two arrays. Three cursors move through the loop together, over
rows, entries and remote addresses; no array has more places than the limits at the top of the
function allow for.

`strided_gather` says what the arrays hold when they are given to `ibv_post_send`, for every
command the limits let through. The number of entries a request may have is not taken from the
configuration, which is sure of it being at most 32, but is any 32-bit number. Zero counts as one.
The number of requests is computed in 32 bits, and where the sum wraps, for limits close to
2 ^ 32, there is no data request at all (`strided_gather_limits`).

## Main definitions

* `Arrays`: The requests, their entries, and what the words are staged in.
* `fillRows`, `dataLoop`, `writeWords`: The parts of `post_strided_direct`.
* `postStridedDirect`: The whole, which may write beyond an array.
* `Arrays.read`: A request as the NIC sees it.
* `landings`: Where the entries of a request land.
* `Gathers`: What the arrays are to hold.

## Theorems

* `fillRows_eq`, `dataLoop_filled`: The entries and requests of the data.
* `writeWords_eq`: Those of the words.
* `flatMap_landings`: Where the rows land.
* `strided_gather`: What is posted.
* `stridedChain_gathered`: It is the chain that was built without arrays.
-/

namespace MKernel

namespace Internode

namespace Cx7

namespace Gather

open MKernel.Core Templates

/-- `wrs` and `sges`, with the staging ring and the sequence counters. -/
structure Arrays where
  wrs : Nat → TemplateWr
  sges : Nat → TemplateSge
  staging : Nat → BitVec 32
  senderSeq : Nat → BitVec 32

namespace Arrays

/-- Write a request, if the array has the place. -/
def setWr (a : Arrays) (j : Nat) (wr : TemplateWr) : Option Arrays :=
  if j < kMaxDataWrs + 2 then some { a with wrs := Function.update a.wrs j wr } else none

/-- Write an entry, if the array has the place. -/
def setSge (a : Arrays) (j : Nat) (s : TemplateSge) : Option Arrays :=
  if j < kMaxRows + 2 then some { a with sges := Function.update a.sges j s } else none

/-- Put a word into a slot of the staging ring, if it has the slot. -/
def stage (setup : Setup) (a : Arrays) (slot : Nat) (word : BitVec 32) : Option Arrays :=
  if slot < setup.cfg.flagStaging.count then
    some { a with staging := Function.update a.staging slot word }
  else none

/-- Count a sequence counter on, if there is one for the logical queue. -/
def countSeq (a : Arrays) (q : Nat) : Option Arrays :=
  if q < kMaxExchangeQPs * 16 then
    some { a with senderSeq := Function.update a.senderSeq q (a.senderSeq q + 1) }
  else none

end Arrays

section Build

variable (setup : Setup) (maxSendSge : BitVec 32) (epoch : BitVec 32) (qp : Int) (cmd : TransferCmd)

/-- `max_sge`. -/
def maxSge (maxSendSge : BitVec 32) : BitVec 32 := if 0 < maxSendSge then maxSendSge else 1

/-- `n_data_wrs`, in its 32-bit arithmetic. -/
def dataWrCount : BitVec 32 :=
  (cmd.rowCount.setWidth 32 + maxSge maxSendSge - 1) / maxSge maxSendSge

/-- The limits `post_strided_direct` checks. The number of requests is compared as an `int`. -/
def Fits : Prop :=
  setup.cfg.rowStrideBytes.setWidth 32 ≠ 0 ∧ cmd.rowCount ≠ 0 ∧ cmd.rowSpan ≠ 0 ∧
    cmd.rowCount.toNat ≤ kMaxRows ∧ (dataWrCount maxSendSge cmd).toInt ≤ kMaxDataWrs

instance : Decidable (Fits setup maxSendSge cmd) := inferInstanceAs (Decidable (_ ∧ _))

/-- Where a row is read. -/
def rowAddr (r : Nat) : BitVec 64 :=
  setup.cfg.clocalDataAddr + cmd.localOffset +
    BitVec.ofNat 64 r * (setup.cfg.rowStrideBytes.setWidth 32).setWidth 64

/-- The entry of a row. -/
def rowEntry (r : Nat) : TemplateSge :=
  ⟨.mem (rowAddr setup cmd r), cmd.rowSpan.setWidth 32, setup.cfg.clocalDataLkey⟩

/-- The loop over the rows of a request. -/
def fillRows (a : Arrays) (sgeCursor rowCursor : Nat) : Nat → Option Arrays
  | 0 => some a
  | n + 1 => (fillRows a sgeCursor rowCursor n).bind fun a =>
      a.setSge (sgeCursor + n) (rowEntry setup cmd (rowCursor + n))

/-- A data request, with the entries it begins at and their number. -/
def dataRequest (w sgeCursor n : Nat) (remoteCursor : BitVec 64) : TemplateWr :=
  { zeroWr with
    sgList := some sgeCursor
    numSge := n
    opcode := .rdmaWrite
    remoteAddr := remoteCursor
    rkey := setup.remoteDataRkeyForQp qp
    next := some (w + 1) }

/-- The loop over the data requests that are left, from the `w`th on. It gives the entry cursor
    on. -/
def dataLoop (a : Arrays) (w sgeCursor rowCursor : Nat) (remoteCursor : BitVec 64) :
    Nat → Option (Arrays × Nat)
  | 0 => some (a, sgeCursor)
  | k + 1 =>
      let n := min (cmd.rowCount.toNat - rowCursor) (maxSge maxSendSge).toNat
      (fillRows setup cmd a sgeCursor rowCursor n).bind fun a =>
        (a.setWr w (dataRequest setup qp w sgeCursor n remoteCursor)).bind fun a =>
          dataLoop a (w + 1) (sgeCursor + n) (rowCursor + n)
            (remoteCursor + BitVec.ofNat 64 n * cmd.rowSpan.setWidth 64) k

/-- A request for a word, of which the `wr_id`, the link and the signal are still open. -/
def wordRequest (sgeCursor : Nat) (remoteAddr : BitVec 64) (rkey : BitVec 32) : TemplateWr :=
  { zeroWr with
    sgList := some sgeCursor
    numSge := 1
    opcode := .rdmaWrite
    inlined := true
    remoteAddr := remoteAddr
    rkey := rkey }

/-- What closes the chain. -/
def closeWr (n : Nat) (wr : TemplateWr) : TemplateWr :=
  { wr with signaled := true, wrId := encodeWrId qp n, next := none }

/-- The arrival word and the tail, behind `n` data requests. -/
def writeWords (a : Arrays) (sgeCursor n : Nat) : Option (Arrays × Nat) :=
  let flagsRkey := setup.remoteFlagsRkeyForQp qp
  if setup.cfg.useArrivalQueue then
    let flagSlot := BATCH_SIZE * 2
    (a.stage setup flagSlot (packArrivalWork cmd.tileId (runTiles cmd.bytes))).bind fun a =>
    (a.setSge sgeCursor ⟨.staging flagSlot, 4, setup.cfg.flagStaging.lkey⟩).bind fun a =>
    let q := setup.logicalQueue cmd
    let qSlot := a.senderSeq q
    (a.countSeq q).bind fun a =>
    let flag := wordRequest sgeCursor (queueFlagAddr setup qp q qSlot) flagsRkey
    if setup.cfg.enableRemoteTail then
      let tailSlot := BATCH_SIZE * 2 + 1
      (a.setWr n { flag with next := some (n + 1) }).bind fun a =>
      (a.stage setup tailSlot (qSlot + 1)).bind fun a =>
      (a.setSge (sgeCursor + 1) ⟨.staging tailSlot, 4, setup.cfg.flagStaging.lkey⟩).bind fun a =>
      (a.setWr (n + 1) (closeWr qp (n + 2) (wordRequest (sgeCursor + 1)
        (setup.remoteTailAddrForQp qp + 4 * BitVec.ofNat 64 q)
        (setup.remoteTailRkeyForQp qp)))).map fun a => (a, n + 2)
    else (a.setWr n (closeWr qp (n + 1) flag)).map fun a => (a, n + 1)
  else
    (a.stage setup 0 epoch).bind fun a =>
    (a.setSge sgeCursor ⟨.staging 0, 4, setup.cfg.flagStaging.lkey⟩).bind fun a =>
    (a.setWr n (closeWr qp (n + 1) (wordRequest sgeCursor
      (setup.remoteFlagsAddrForQp qp + 4 * cmd.tileId.setWidth 64) flagsRkey))).map fun a =>
      (a, n + 1)

/-- How `post_strided_direct` comes to `ibv_post_send`. -/
inductive Outcome where
  | rejected
  /-- Something was written beyond an array. -/
  | outOfBounds
  /-- The first request is posted, and the number of requests returned. -/
  | built (a : Arrays) (n : Nat)

/-- `post_strided_direct`, up to the answer of `ibv_post_send`. -/
def postStridedDirect (a : Arrays) : Outcome :=
  if Fits setup maxSendSge cmd then
    let n := (dataWrCount maxSendSge cmd).toNat
    match (dataLoop setup maxSendSge qp cmd a 0 0 0
        (setup.remoteDataAddrForQp qp + cmd.remoteOffset) n).bind fun r =>
      writeWords setup epoch qp cmd r.1 r.2 n with
    | none => .outOfBounds
    | some (a, n) => .built a n
  else .rejected

end Build

/-! ## What the NIC reads -/

/-- A gather entry, of memory that is registered. -/
def entry (setup : Setup) (s : TemplateSge) : Option Sge :=
  match s.source with
  | .mem addr => some ⟨addr, s.length, s.lkey⟩
  | .staging slot => some ⟨setup.cfg.flagStaging.slotAddr slot, s.length, s.lkey⟩
  | .notify _ => none

/-- The word an inline request takes along, which is the one its entry refers to. -/
def Arrays.word (a : Arrays) (s : TemplateSge) : Option Payload :=
  match s.source with
  | .staging slot => some (.word (a.staging slot))
  | _ => none

/-- The request at an index as `ibv_post_send` reads it. -/
def Arrays.read (setup : Setup) (a : Arrays) (j : Nat) : Option Request :=
  let wr := a.wrs j
  wr.sgList.bind fun k =>
    ((List.range wr.numSge).mapM fun i => entry setup (a.sges (k + i))).map fun sgs =>
      ⟨wr.wrId, sgs, if wr.inlined then a.word (a.sges k) else none, wr.signaled, wr.remoteAddr,
        wr.rkey⟩

/-- The link of a request. -/
def Arrays.next (a : Arrays) (j : Nat) : Option Nat := (a.wrs j).next

/-- A request for a word in a slot of the staging ring. -/
def wordOf (setup : Setup) (wrId : BitVec 64) (signaled : Bool) (slot : Nat) (word : BitVec 32)
    (remoteAddr : BitVec 64) (rkey : BitVec 32) : Request :=
  ⟨wrId, [⟨setup.cfg.flagStaging.slotAddr slot, 4, setup.cfg.flagStaging.lkey⟩],
    some (.word word), signaled, remoteAddr, rkey⟩

/-- The requests that follow `n` data requests: the arrival word, and in the arrival-queue layout
    with published tails the tail. The last one closes the chain. -/
def wordRequests (setup : Setup) (epoch : BitVec 32) (senderSeq : Nat → BitVec 32) (qp : Int)
    (cmd : TransferCmd) (n : Nat) : List Request :=
  let q := setup.logicalQueue cmd
  let word := packArrivalWork cmd.tileId (runTiles cmd.bytes)
  let flagsRkey := setup.remoteFlagsRkeyForQp qp
  if setup.cfg.useArrivalQueue then
    let flagAddr := queueFlagAddr setup qp q (senderSeq q)
    if setup.cfg.enableRemoteTail then
      [wordOf setup 0 false (BATCH_SIZE * 2) word flagAddr flagsRkey,
        wordOf setup (encodeWrId qp (n + 2)) true (BATCH_SIZE * 2 + 1) (senderSeq q + 1)
          (setup.remoteTailAddrForQp qp + 4 * BitVec.ofNat 64 q) (setup.remoteTailRkeyForQp qp)]
    else [wordOf setup (encodeWrId qp (n + 1)) true (BATCH_SIZE * 2) word flagAddr flagsRkey]
  else
    [wordOf setup (encodeWrId qp (n + 1)) true 0 epoch
      (setup.remoteFlagsAddrForQp qp + 4 * cmd.tileId.setWidth 64) flagsRkey]

/-- Where the entries of a request land: one after the other, from an address on. -/
def landings (addr : BitVec 64) : List Sge → List (BitVec 64 × Sge)
  | [] => []
  | s :: l => (addr, s) :: landings (addr + s.length.setWidth 64) l

/-! ## The loops -/

section Loop

variable {setup : Setup} {maxSendSge epoch : BitVec 32} {qp : Int} {cmd : TransferCmd}
  {a : Arrays}

theorem maxSge_pos (maxSendSge : BitVec 32) : 0 < (maxSge maxSendSge).toNat := by
  unfold maxSge
  split
  · rename_i h
    exact BitVec.lt_def.mp h
  · decide

theorem maxSge_eq (maxSendSge : BitVec 32) :
    (maxSge maxSendSge).toNat = max 1 maxSendSge.toNat := by
  unfold maxSge
  split
  · rename_i h
    have hpos : 0 < maxSendSge.toNat := BitVec.lt_def.mp h
    omega
  · rename_i h
    have hzero : ¬ 0 < maxSendSge.toNat := fun hc => h (BitVec.lt_def.mpr hc)
    have hone : (1 : BitVec 32).toNat = 1 := rfl
    omega

/-- Where the sum does not wrap, the number of requests is the quotient, rounded up. -/
theorem dataWrCount_eq (hwrap : cmd.rowCount.toNat + (maxSge maxSendSge).toNat ≤ 2 ^ 32) :
    (dataWrCount maxSendSge cmd).toNat =
      (cmd.rowCount.toNat + (maxSge maxSendSge).toNat - 1) / (maxSge maxSendSge).toNat := by
  have hpos := maxSge_pos maxSendSge
  have hrows := cmd.rowCount.isLt
  have hw : (cmd.rowCount.setWidth 32).toNat = cmd.rowCount.toNat := by
    rw [BitVec.toNat_setWidth]
    omega
  have hsum : (cmd.rowCount.setWidth 32 + maxSge maxSendSge - 1).toNat =
      cmd.rowCount.toNat + (maxSge maxSendSge).toNat - 1 := by
    rw [BitVec.toNat_sub, BitVec.toNat_add, hw]
    have hone : (1 : BitVec 32).toNat = 1 := rfl
    omega
  rw [dataWrCount, BitVec.toNat_udiv, hsum]

/-- What the limits and the quotient say of the loop. -/
structure Sized (rows size count : Nat) : Prop where
  pos : 0 < rows
  rows_le : rows ≤ kMaxRows
  count_le : count ≤ kMaxDataWrs
  enough : rows ≤ count * size
  begun : ∀ w < count, w * size < rows

theorem sized_of_fits (hwrap : cmd.rowCount.toNat + (maxSge maxSendSge).toNat ≤ 2 ^ 32)
    (h : Fits setup maxSendSge cmd) :
    Sized cmd.rowCount.toNat (maxSge maxSendSge).toNat (dataWrCount maxSendSge cmd).toNat := by
  rcases h with ⟨-, hrows, -, hle, hcount⟩
  have hpos : 0 < cmd.rowCount.toNat :=
    Nat.pos_of_ne_zero fun hc => hrows (BitVec.eq_of_toNat_eq hc)
  have hsize := maxSge_pos maxSendSge
  have heq := dataWrCount_eq hwrap
  generalize (maxSge maxSendSge).toNat = m at hwrap hsize heq
  have hlt : cmd.rowCount.toNat + m - 1 < ((cmd.rowCount.toNat + m - 1) / m + 1) * m :=
    Nat.lt_mul_of_div_lt (Nat.lt_succ_self _) hsize
  have hbegun : ∀ w < (dataWrCount maxSendSge cmd).toNat, w * m < cmd.rowCount.toNat := by
    intro w hw
    rw [heq] at hw
    have := (Nat.le_div_iff_mul_le hsize).mp hw
    rw [Nat.succ_mul] at this
    omega
  have hfew : (dataWrCount maxSendSge cmd).toNat ≤ cmd.rowCount.toNat := by
    by_contra hc
    have := hbegun cmd.rowCount.toNat (by omega)
    have := Nat.le_mul_of_pos_right cmd.rowCount.toNat hsize
    omega
  -- So the number is not negative as an `int`.
  rw [BitVec.toInt_eq_toNat_of_lt (by simp only [kMaxRows] at hle; omega)] at hcount
  refine ⟨hpos, hle, by omega, ?_, hbegun⟩
  rw [heq]
  rw [Nat.succ_mul] at hlt
  omega

/-- The loop over the rows of a request writes an entry for each. -/
theorem fillRows_eq {sgeCursor rowCursor n : Nat} (h : sgeCursor + n ≤ kMaxRows + 2) :
    fillRows setup cmd a sgeCursor rowCursor n = some { a with
      sges := fun i => if sgeCursor ≤ i ∧ i < sgeCursor + n then
        rowEntry setup cmd (rowCursor + (i - sgeCursor)) else a.sges i } := by
  induction n with
  | zero =>
      have hsges : (fun i => if sgeCursor ≤ i ∧ i < sgeCursor + 0 then
          rowEntry setup cmd (rowCursor + (i - sgeCursor)) else a.sges i) = a.sges := by
        funext i
        rw [if_neg (by omega)]
      rw [hsges]
      rfl
  | succ n ih =>
      rw [fillRows, ih (by omega), Option.bind_some, Arrays.setSge, if_pos (by omega)]
      congr 2
      funext i
      by_cases hi : i = sgeCursor + n
      · rw [hi, Function.update_self, if_pos (by omega), Nat.add_sub_cancel_left]
      · rw [Function.update_of_ne hi]
        dsimp only
        by_cases hb : sgeCursor ≤ i ∧ i < sgeCursor + n
        · rw [if_pos hb, if_pos (by omega)]
        · rw [if_neg hb, if_neg (by omega)]

/-- The first `w` data requests and `r` entries are as they are to be. -/
structure Filled (setup : Setup) (maxSendSge : BitVec 32) (qp : Int) (cmd : TransferCmd)
    (a : Arrays) (w r : Nat) : Prop where
  wrs : ∀ j < w, a.wrs j = dataRequest setup qp j (j * (maxSge maxSendSge).toNat)
    (min (cmd.rowCount.toNat - j * (maxSge maxSendSge).toNat) (maxSge maxSendSge).toNat)
    (setup.remoteDataAddrForQp qp + cmd.remoteOffset +
      BitVec.ofNat 64 (j * (maxSge maxSendSge).toNat) * cmd.rowSpan.setWidth 64)
  sges : ∀ i < r, a.sges i = rowEntry setup cmd i

/-- The remote cursor after some more rows. -/
theorem remote_add (base span : BitVec 64) (r n : Nat) :
    base + BitVec.ofNat 64 r * span + BitVec.ofNat 64 n * span =
      base + BitVec.ofNat 64 (r + n) * span := by
  rw [BitVec.ofNat_add, BitVec.add_mul, BitVec.add_assoc]

/-- The loop over the data requests fills what is left. The three cursors are at the same row. -/
theorem dataLoop_filled {count : Nat}
    (hs : Sized cmd.rowCount.toNat (maxSge maxSendSge).toNat count) (k w row : Nat)
    (hw : w + k = count) (hrow : row = min (w * (maxSge maxSendSge).toNat) cmd.rowCount.toNat)
    (h : Filled setup maxSendSge qp cmd a w row) :
    ∃ a', dataLoop setup maxSendSge qp cmd a w row row
        (setup.remoteDataAddrForQp qp + cmd.remoteOffset +
          BitVec.ofNat 64 row * cmd.rowSpan.setWidth 64) k = some (a', cmd.rowCount.toNat) ∧
      Filled setup maxSendSge qp cmd a' count cmd.rowCount.toNat ∧
      a'.staging = a.staging ∧ a'.senderSeq = a.senderSeq := by
  induction k generalizing a w row with
  | zero =>
      -- All rows are in the requests, since there are enough of them.
      have hall := hs.enough
      rw [Nat.add_zero] at hw
      rw [← hw] at hall
      have hend : row = cmd.rowCount.toNat := by omega
      rw [← hw, hend]
      rw [hend] at h
      exact ⟨a, rfl, h, rfl, rfl⟩
  | succ k ih =>
      have hbegun := hs.begun w (by omega)
      have hrows := hs.rows_le
      have hcount := hs.count_le
      -- The requests before are full, so this one begins at a multiple of their size.
      have hhere : row = w * (maxSge maxSendSge).toNat := by omega
      rw [dataLoop, fillRows_eq (by omega), Option.bind_some, Arrays.setWr, if_pos (by omega),
        Option.bind_some, remote_add]
      generalize hn : min (cmd.rowCount.toNat - row) (maxSge maxSendSge).toNat = n
      have hnext : row + n = min ((w + 1) * (maxSge maxSendSge).toNat) cmd.rowCount.toNat := by
        rw [Nat.succ_mul]
        omega
      -- The entries from `row` on are those of this request, and those before stay.
      have hnew : Filled setup maxSendSge qp cmd
          { a with
            wrs := Function.update a.wrs w (dataRequest setup qp w row n
              (setup.remoteDataAddrForQp qp + cmd.remoteOffset +
                BitVec.ofNat 64 row * cmd.rowSpan.setWidth 64))
            sges := fun i => if row ≤ i ∧ i < row + n then rowEntry setup cmd (row + (i - row))
              else a.sges i } (w + 1) (row + n) := by
        refine ⟨fun j hj => ?_, fun i hi => ?_⟩
        · dsimp only
          by_cases hjw : j = w
          · rw [hjw, Function.update_self, ← hn, hhere]
          · rw [Function.update_of_ne hjw]
            exact h.wrs j (by omega)
        · dsimp only
          by_cases hi' : row ≤ i
          · rw [if_pos ⟨hi', hi⟩, Nat.add_sub_cancel' hi']
          · rw [if_neg fun hc => hi' hc.1]
            exact h.sges i (by omega)
      exact ih (w + 1) (row + n) (by omega) hnext hnew

/-- What the words are staged in has room for a strided command's. -/
structure Roomy (setup : Setup) : Prop where
  staging : BATCH_SIZE * 2 + 2 ≤ setup.cfg.flagStaging.count
  queues : setup.totalLogicalQueues ≤ kMaxExchangeQPs * 16

theorem logicalQueue_lt (h : Roomy setup) (cmd : TransferCmd) :
    setup.logicalQueue cmd < kMaxExchangeQPs * 16 := by
  have hq := h.queues
  unfold Setup.logicalQueue
  split
  · rename_i hpos
    exact Nat.lt_of_lt_of_le (Nat.mod_lt _ hpos) hq
  · decide

/-- The words of `n` data requests with `r` entries are written behind them. -/
structure Worded (setup : Setup) (epoch : BitVec 32) (qp : Int) (cmd : TransferCmd)
    (a a' : Arrays) (r n m : Nat) : Prop where
  wrs : ∀ j < n, a'.wrs j = a.wrs j
  sges : ∀ i < r, a'.sges i = a.sges i
  length : m = n + (wordRequests setup epoch a.senderSeq qp cmd n).length
  reads : (List.range' n (m - n)).map (a'.read setup) =
    (wordRequests setup epoch a.senderSeq qp cmd n).map some
  walk : Walk a'.next (some n) (List.range' n (m - n)) none

/-- A request for a word, as the NIC reads it. -/
theorem read_word (j k slot : Nat) (wr : TemplateWr) {word : BitVec 32} (hwr : a.wrs j = wr)
    (hs : a.sges k = ⟨.staging slot, 4, setup.cfg.flagStaging.lkey⟩) (hword : a.staging slot = word)
    (hk : wr.sgList = some k) (hone : wr.numSge = 1) (hin : wr.inlined = true) :
    a.read setup j =
      some (wordOf setup wr.wrId wr.signaled slot word wr.remoteAddr wr.rkey) := by
  have hentry : entry setup (a.sges (k + 0)) =
      some ⟨setup.cfg.flagStaging.slotAddr slot, 4, setup.cfg.flagStaging.lkey⟩ := by
    rw [Nat.add_zero, hs]
    rfl
  have hlist : (List.range 1).mapM (fun i => entry setup (a.sges (k + i))) =
      some [⟨setup.cfg.flagStaging.slotAddr slot, 4, setup.cfg.flagStaging.lkey⟩] := by
    rw [List.range_one, List.mapM_cons, List.mapM_nil, hentry]
    rfl
  simp only [Arrays.read, hwr, hk, hone, hin, hlist, hs, hword, Arrays.word, Option.bind_some,
    Option.map_some, if_true, wordOf]

theorem writeWords_eq (h : Roomy setup) {r n : Nat} (hr : r ≤ kMaxRows) (hn : n ≤ kMaxDataWrs) :
    ∃ a' m, writeWords setup epoch qp cmd a r n = some (a', m) ∧
      Worded setup epoch qp cmd a a' r n m := by
  have hstaging := h.staging
  have hq := logicalQueue_lt h cmd
  have hslot : BATCH_SIZE * 2 < setup.cfg.flagStaging.count := by omega
  have hslot' : BATCH_SIZE * 2 + 1 < setup.cfg.flagStaging.count := by omega
  have hzero : 0 < setup.cfg.flagStaging.count := by omega
  have hr1 : r < kMaxRows + 2 := by omega
  have hr2 : r + 1 < kMaxRows + 2 := by omega
  have hn1 : n < kMaxDataWrs + 2 := by omega
  have hn2 : n + 1 < kMaxDataWrs + 2 := by omega
  have hone : List.range' n (n + 1 - n) = [n] := by rw [Nat.add_sub_cancel_left]; rfl
  have htwo : List.range' n (n + 2 - n) = [n, n + 1] := by rw [Nat.add_sub_cancel_left]; rfl
  have hn : n ≠ n + 1 := Nat.ne_of_lt (Nat.lt_succ_self n)
  have hr : r ≠ r + 1 := Nat.ne_of_lt (Nat.lt_succ_self r)
  have hs : BATCH_SIZE * 2 ≠ BATCH_SIZE * 2 + 1 := by decide
  -- No two places of the flag, of the tail and of their entries are the same.
  let flagsRkey := setup.remoteFlagsRkeyForQp qp
  by_cases hqueue : setup.cfg.useArrivalQueue = true
  · let q := setup.logicalQueue cmd
    let flag := wordRequest r (queueFlagAddr setup qp q (a.senderSeq q)) flagsRkey
    by_cases htail : setup.cfg.enableRemoteTail = true
    · let tail := closeWr qp (n + 2) (wordRequest (r + 1)
        (setup.remoteTailAddrForQp qp + 4 * BitVec.ofNat 64 q) (setup.remoteTailRkeyForQp qp))
      simp only [writeWords, hqueue, htail, if_true, Arrays.stage, Arrays.setSge, Arrays.countSeq,
        Arrays.setWr, hslot, hslot', hr1, hr2, hn1, hn2, hq, Option.bind_some, Option.map_some]
      refine ⟨_, _, rfl, ⟨fun j hj => ?_, fun i hi => ?_, ?_, ?_, ?_⟩⟩
      · dsimp only
        rw [Function.update_of_ne (by omega), Function.update_of_ne (by omega)]
      · dsimp only
        rw [Function.update_of_ne (by omega), Function.update_of_ne (by omega)]
      · simp only [wordRequests, hqueue, htail, if_true, List.length_cons, List.length_nil]
      · rw [htwo]
        simp only [wordRequests, hqueue, htail, if_true, List.map_cons, List.map_nil]
        refine congrArg₂ List.cons ?_ (congrArg₂ List.cons ?_ rfl)
        · -- The flag is written, and then the tail behind it,
          refine read_word n r (BATCH_SIZE * 2) { flag with next := some (n + 1) } ?_ ?_ ?_ rfl rfl
            rfl
          · dsimp only
            rw [Function.update_of_ne hn, Function.update_self]
          · dsimp only
            rw [Function.update_of_ne hr, Function.update_self]
          · dsimp only
            rw [Function.update_of_ne hs, Function.update_self]
        · -- which closes the chain.
          refine read_word (n + 1) (r + 1) (BATCH_SIZE * 2 + 1) tail (Function.update_self ..)
            (Function.update_self ..) ?_ rfl rfl rfl
          dsimp only
          rw [Function.update_self]
      · rw [htwo]
        refine ⟨rfl, ?_, ?_⟩
        · simp only [Arrays.next, Function.update_of_ne hn, Function.update_self]
        · simp only [Arrays.next, Function.update_self, closeWr, walk_nil]
    · -- Without a remote tail the flag closes the chain.
      let last := closeWr qp (n + 1) flag
      simp only [writeWords, hqueue, htail, if_true, Bool.false_eq_true, if_false, Arrays.stage,
        Arrays.setSge, Arrays.countSeq, Arrays.setWr, hslot, hr1, hn1, hq, Option.bind_some,
        Option.map_some]
      refine ⟨_, _, rfl, ⟨fun j hj => ?_, fun i hi => ?_, ?_, ?_, ?_⟩⟩
      · exact Function.update_of_ne (by omega) ..
      · exact Function.update_of_ne (by omega) ..
      · simp only [wordRequests, hqueue, htail, if_true, Bool.false_eq_true, if_false,
          List.length_cons, List.length_nil]
      · rw [hone]
        simp only [wordRequests, hqueue, htail, if_true, Bool.false_eq_true, if_false,
          List.map_cons, List.map_nil]
        refine congrArg₂ List.cons ?_ rfl
        refine read_word n r (BATCH_SIZE * 2) last (Function.update_self ..)
          (Function.update_self ..) ?_ rfl rfl rfl
        dsimp only
        rw [Function.update_self]
      · rw [hone]
        refine ⟨rfl, ?_⟩
        simp only [Arrays.next, Function.update_self, closeWr, walk_nil]
  · -- Without the queue the word is the flag of the tile, which is staged in entry 0.
    let last := closeWr qp (n + 1) (wordRequest r
      (setup.remoteFlagsAddrForQp qp + 4 * cmd.tileId.setWidth 64) flagsRkey)
    simp only [writeWords, hqueue, Bool.false_eq_true, if_false, Arrays.stage, Arrays.setSge,
      Arrays.setWr, hzero, hr1, hn1, if_true, Option.bind_some, Option.map_some]
    refine ⟨_, _, rfl, ⟨fun j hj => ?_, fun i hi => ?_, ?_, ?_, ?_⟩⟩
    · exact Function.update_of_ne (by omega) ..
    · exact Function.update_of_ne (by omega) ..
    · simp only [wordRequests, hqueue, Bool.false_eq_true, if_false, List.length_cons,
        List.length_nil]
    · rw [hone]
      simp only [wordRequests, hqueue, Bool.false_eq_true, if_false, List.map_cons, List.map_nil]
      refine congrArg₂ List.cons ?_ rfl
      refine read_word n r 0 last (Function.update_self ..) (Function.update_self ..) ?_ rfl rfl rfl
      dsimp only
      rw [Function.update_self]
    · rw [hone]
      refine ⟨rfl, ?_⟩
      simp only [Arrays.next, Function.update_self, closeWr, walk_nil]

end Loop

/-! ## The rows -/

/-- The entry of a row as the NIC sees it. -/
def rowSge (setup : Setup) (cmd : TransferCmd) (r : Nat) : Sge :=
  ⟨rowAddr setup cmd r, cmd.rowSpan.setWidth 32, setup.cfg.clocalDataLkey⟩

/-- Where a row is to land: next to the one before. -/
def rowRemote (setup : Setup) (qp : Int) (cmd : TransferCmd) (r : Nat) : BitVec 64 :=
  setup.remoteDataAddrForQp qp + cmd.remoteOffset + BitVec.ofNat 64 r * cmd.rowSpan.setWidth 64

/-- The `j`th data request as the NIC sees it. -/
def dataRequestOf (setup : Setup) (maxSendSge : BitVec 32) (qp : Int) (cmd : TransferCmd)
    (j : Nat) : Request where
  wrId := 0
  sgList := chunk (maxSge maxSendSge).toNat
    ((List.range cmd.rowCount.toNat).map (rowSge setup cmd)) j
  payload := none
  signaled := false
  remoteAddr := rowRemote setup qp cmd (j * (maxSge maxSendSge).toNat)
  rkey := setup.remoteDataRkeyForQp qp

/-- What the arrays hold when the first request of a strided command is posted: `n` requests, of
    which the first are data. -/
structure Gathers (setup : Setup) (maxSendSge epoch : BitVec 32) (senderSeq : Nat → BitVec 32)
    (qp : Int) (cmd : TransferCmd) (a : Arrays) (n : Nat) (data : List Request) : Prop where
  walk : Walk a.next (some 0) (List.range n) none
  /-- The links lead through the data, then the arrival word, then the tail. -/
  reads : (List.range n).map (a.read setup) =
    (data ++ wordRequests setup epoch senderSeq qp cmd data.length).map some
  plain : ∀ r ∈ data, r.payload = none ∧ r.rkey = setup.remoteDataRkeyForQp qp
  /-- Every row is sent once, in order, and lands next to the one before. -/
  rows : (data.flatMap fun r => landings r.remoteAddr r.sgList) =
    (List.range cmd.rowCount.toNat).map fun r => (rowRemote setup qp cmd r, rowSge setup cmd r)
  entries : ∀ r ∈ data ++ wordRequests setup epoch senderSeq qp cmd data.length,
    r.sgList.length ≤ max 1 maxSendSge.toNat
  /-- Only the last request is signaled, and counts them all. -/
  closed : ∃ front last,
    data ++ wordRequests setup epoch senderSeq qp cmd data.length = front ++ [last] ∧
      (∀ r ∈ front, r.signaled = false) ∧ last.signaled = true ∧ decodeWrCount last.wrId = n

section Rows

variable {setup : Setup} {maxSendSge epoch : BitVec 32} {qp : Int} {cmd : TransferCmd}
  {a : Arrays} {count : Nat}

/-- Rows that land one after the other. -/
theorem landings_rows (n start : Nat) :
    landings (rowRemote setup qp cmd start) ((List.range' start n).map (rowSge setup cmd)) =
      (List.range' start n).map fun r => (rowRemote setup qp cmd r, rowSge setup cmd r) := by
  induction n generalizing start with
  | zero => rfl
  | succ n ih =>
      have hnext : rowRemote setup qp cmd start +
          (rowSge setup cmd start).length.setWidth 64 = rowRemote setup qp cmd (start + 1) := by
        have hspan : (rowSge setup cmd start).length.setWidth 64 =
            BitVec.ofNat 64 1 * cmd.rowSpan.setWidth 64 := by
          have hlt := cmd.rowSpan.isLt
          refine (BitVec.eq_of_toNat_eq ?_).trans (BitVec.one_mul _).symm
          simp only [rowSge, BitVec.toNat_setWidth]
          omega
        rw [hspan, rowRemote, remote_add, rowRemote]
      rw [List.range'_succ, List.map_cons, List.map_cons, landings, hnext, ih]

/-- The rows of a data request land where the request begins. -/
theorem landings_dataRequestOf (j : Nat) :
    landings (dataRequestOf setup maxSendSge qp cmd j).remoteAddr
        (dataRequestOf setup maxSendSge qp cmd j).sgList =
      chunk (maxSge maxSendSge).toNat ((List.range cmd.rowCount.toNat).map fun r =>
        (rowRemote setup qp cmd r, rowSge setup cmd r)) j := by
  simp only [dataRequestOf]
  rw [← map_chunk, ← map_chunk, chunk_range, ← List.range'_eq_map_range]
  exact landings_rows _ _

/-- All rows land next to each other. -/
theorem flatMap_landings
    (hs : Sized cmd.rowCount.toNat (maxSge maxSendSge).toNat count) :
    (((List.range count).map (dataRequestOf setup maxSendSge qp cmd)).flatMap fun r =>
        landings r.remoteAddr r.sgList) =
      (List.range cmd.rowCount.toNat).map fun r =>
        (rowRemote setup qp cmd r, rowSge setup cmd r) := by
  rw [List.flatMap_map]
  simp only [landings_dataRequestOf]
  refine flatMap_chunk ?_
  rw [List.length_map, List.length_range]
  exact hs.enough

theorem mapM_some {α β : Type} {f : α → Option β} {g : α → β} {l : List α}
    (h : ∀ x ∈ l, f x = some (g x)) : l.mapM f = some (l.map g) := by
  induction l with
  | nil => rfl
  | cons x l ih =>
      rw [List.mapM_cons, h x List.mem_cons_self, ih fun y hy => h y (List.mem_cons_of_mem _ hy)]
      rfl

/-- A data request, as the NIC reads it. -/
theorem read_data (h : Filled setup maxSendSge qp cmd a count cmd.rowCount.toNat) {j : Nat}
    (hj : j < count) : a.read setup j = some (dataRequestOf setup maxSendSge qp cmd j) := by
  have hwr := h.wrs j hj
  have hlist : ((List.range (min (cmd.rowCount.toNat - j * (maxSge maxSendSge).toNat)
      (maxSge maxSendSge).toNat)).mapM fun i =>
        entry setup (a.sges (j * (maxSge maxSendSge).toNat + i))) =
      some (dataRequestOf setup maxSendSge qp cmd j).sgList := by
    simp only [dataRequestOf]
    rw [← map_chunk, chunk_range, List.map_map, Nat.min_comm]
    refine mapM_some fun i hi => ?_
    rw [List.mem_range] at hi
    rw [h.sges _ (by omega)]
    rfl
  simp only [Arrays.read, hwr, dataRequest, Option.bind_some, hlist, Option.map_some]
  rfl

end Rows

/-! ## The whole -/

section Whole

variable {setup : Setup} {maxSendSge epoch : BitVec 32} {qp : Int} {cmd : TransferCmd}
  {a : Arrays}

/-- The last of the words closes the chain. -/
theorem wordRequests_closed (setup : Setup) (epoch : BitVec 32) (senderSeq : Nat → BitVec 32)
    (qp : Int) (cmd : TransferCmd) {n : Nat} (hn : n ≤ kMaxDataWrs) :
    ∃ front last, wordRequests setup epoch senderSeq qp cmd n = front ++ [last] ∧
      (∀ r ∈ front, r.signaled = false) ∧ last.signaled = true ∧
      decodeWrCount last.wrId =
        (n + (wordRequests setup epoch senderSeq qp cmd n).length : Nat) := by
  have hsmall : n + 2 < 2 ^ 31 := by
    simp only [kMaxDataWrs] at hn
    omega
  unfold wordRequests
  dsimp only
  split
  · split
    · refine ⟨[_], _, rfl, fun r hr => ?_, rfl, decodeWrCount_encodeWrId qp hsmall⟩
      rw [List.mem_singleton.mp hr]
      rfl
    · exact ⟨[], _, rfl, fun _ hr => absurd hr List.not_mem_nil, rfl,
        decodeWrCount_encodeWrId qp (by omega)⟩
  · exact ⟨[], _, rfl, fun _ hr => absurd hr List.not_mem_nil, rfl,
      decodeWrCount_encodeWrId qp (by omega)⟩

theorem sgList_wordRequests {senderSeq : Nat → BitVec 32} {n : Nat} :
    ∀ r ∈ wordRequests setup epoch senderSeq qp cmd n, r.sgList.length = 1 := by
  intro r hr
  unfold wordRequests at hr
  dsimp only at hr
  split at hr
  · split at hr
    · simp only [List.mem_cons, List.not_mem_nil, or_false] at hr
      rcases hr with rfl | rfl <;> rfl
    · rw [List.mem_singleton.mp hr]
      rfl
  · rw [List.mem_singleton.mp hr]
    rfl

/-- Links that each lead to the next place. -/
theorem walk_range {next : Nat → Option Nat} {n : Nat} (h : ∀ j < n, next j = some (j + 1)) :
    Walk next (some 0) (List.range n) (some n) := by
  induction n with
  | zero => rfl
  | succ n ih =>
      rw [List.range_succ]
      refine (ih fun j hj => h j (Nat.lt_succ_of_lt hj)).append ⟨rfl, ?_⟩
      exact h n (Nat.lt_succ_self n)

/-- Data and words together are what the arrays are to hold. -/
theorem gathers_of_worded {senderSeq : Nat → BitVec 32} {a' : Arrays} {count n : Nat}
    (hs : Sized cmd.rowCount.toNat (maxSge maxSendSge).toNat count)
    (hf : Filled setup maxSendSge qp cmd a' count cmd.rowCount.toNat)
    (hn : n = count + (wordRequests setup epoch senderSeq qp cmd count).length)
    (hreads : (List.range' count (n - count)).map (a'.read setup) =
      (wordRequests setup epoch senderSeq qp cmd count).map some)
    (hwalk : Walk a'.next (some count) (List.range' count (n - count)) none) :
    Gathers setup maxSendSge epoch senderSeq qp cmd a' n
      ((List.range count).map (dataRequestOf setup maxSendSge qp cmd)) := by
  have hlen : ((List.range count).map (dataRequestOf setup maxSendSge qp cmd)).length = count := by
    rw [List.length_map, List.length_range]
  have hsplit : List.range n = List.range count ++ List.range' count (n - count) := by
    have happ := List.range'_append_1 (s := 0) (m := count) (n := n - count)
    rw [Nat.zero_add, Nat.add_sub_cancel' (by omega)] at happ
    rw [List.range_eq_range', List.range_eq_range', happ]
  have hdata : (List.range count).map (a'.read setup) =
      ((List.range count).map (dataRequestOf setup maxSendSge qp cmd)).map some := by
    rw [List.map_map]
    exact List.map_congr_left fun j hj => read_data hf (List.mem_range.mp hj)
  -- A data request goes on to the one behind it.
  have hnext : ∀ j < count, a'.next j = some (j + 1) := fun j hj => by
    rw [Arrays.next, hf.wrs j hj]
    rfl
  -- It has no word of its own, and nobody is told of its completion.
  have hplain : ∀ r ∈ (List.range count).map (dataRequestOf setup maxSendSge qp cmd),
      (r.payload = none ∧ r.rkey = setup.remoteDataRkeyForQp qp) ∧ r.signaled = false ∧
        r.sgList.length ≤ (maxSge maxSendSge).toNat := by
    intro r hr
    rcases List.mem_map.mp hr with ⟨j, -, rfl⟩
    refine ⟨⟨rfl, rfl⟩, rfl, ?_⟩
    rw [dataRequestOf, length_chunk]
    exact Nat.min_le_left _ _
  refine ⟨?_, ?_, fun r hr => (hplain r hr).1, flatMap_landings hs, fun r hr => ?_, ?_⟩
  · rw [hsplit]
    exact (walk_range hnext).append hwalk
  · rw [hsplit, List.map_append, hdata, hreads, hlen, List.map_append]
  · rcases List.mem_append.mp hr with hr | hr
    · rw [← maxSge_eq]
      exact (hplain r hr).2.2
    · rw [sgList_wordRequests r hr]
      exact Nat.le_max_left _ _
  · -- The last of the words is the one that is signalled.
    rcases wordRequests_closed setup epoch senderSeq qp cmd hs.count_le with
      ⟨front, last, hw, hfront, hlast, hcount⟩
    rw [hlen, hw]
    refine ⟨(List.range count).map (dataRequestOf setup maxSendSge qp cmd) ++ front, last,
      (List.append_assoc _ _ _).symm, fun r hr => ?_, hlast, hn ▸ hcount⟩
    rcases List.mem_append.mp hr with hr | hr
    · exact (hplain r hr).2.1
    · exact hfront r hr

/-- A command within the limits is built. -/
theorem built_of_fits (hroom : Roomy setup)
    (hwrap : cmd.rowCount.toNat + (maxSge maxSendSge).toNat ≤ 2 ^ 32)
    (hfits : Fits setup maxSendSge cmd) (epoch : BitVec 32) (qp : Int) (a : Arrays) :
    ∃ a' n, postStridedDirect setup maxSendSge epoch qp cmd a = .built a' n ∧
      Gathers setup maxSendSge epoch a.senderSeq qp cmd a' n
        ((List.range (dataWrCount maxSendSge cmd).toNat).map
          (dataRequestOf setup maxSendSge qp cmd)) := by
  unfold postStridedDirect
  rw [if_pos hfits]
  have hs := sized_of_fits hwrap hfits
  generalize (dataWrCount maxSendSge cmd).toNat = count at hs
  -- At the beginning nothing is filled, and nothing is to be.
  have hempty : Filled setup maxSendSge qp cmd a 0 0 :=
    ⟨fun _ hj => absurd hj (Nat.not_lt_zero _), fun _ hj => absurd hj (Nat.not_lt_zero _)⟩
  have hbase : setup.remoteDataAddrForQp qp + cmd.remoteOffset +
      BitVec.ofNat 64 0 * cmd.rowSpan.setWidth 64 =
        setup.remoteDataAddrForQp qp + cmd.remoteOffset := by
    rw [BitVec.zero_mul, BitVec.add_zero]
  -- The data requests come first, all of whose rows are filled.
  rcases dataLoop_filled hs count 0 0 (Nat.zero_add _) (by omega) hempty with
    ⟨a₁, hloop, hfilled, -, hseq⟩
  rw [hbase] at hloop
  have hwords : ∃ a' m, writeWords setup epoch qp cmd a₁ cmd.rowCount.toNat count = some (a', m) ∧
      Worded setup epoch qp cmd a₁ a' cmd.rowCount.toNat count m :=
    writeWords_eq hroom hs.rows_le hs.count_le
  rcases hwords with ⟨a', m, hwrite, hworded⟩
  -- The words are behind them, and leave them as they are.
  refine ⟨a', m, by simp only [hloop, hwrite, Option.bind_some], ?_⟩
  rw [← hseq]
  exact gathers_of_worded hs ⟨fun j hj => (hworded.wrs j hj).trans (hfilled.wrs j hj),
    fun i hi => (hworded.sges i hi).trans (hfilled.sges i hi)⟩ hworded.length hworded.reads
    hworded.walk

/-- For every command that is within the limits, and every number of entries a request may have
    for which the number of requests does not wrap, no array is written beyond, and the arrays
    hold the rows, the arrival word and the tail. -/
theorem strided_gather (hroom : Roomy setup)
    (hwrap : cmd.rowCount.toNat + (maxSge maxSendSge).toNat ≤ 2 ^ 32)
    (hnot : postStridedDirect setup maxSendSge epoch qp cmd a ≠ .rejected) :
    ∃ a' n data, postStridedDirect setup maxSendSge epoch qp cmd a = .built a' n ∧
      Gathers setup maxSendSge epoch a.senderSeq qp cmd a' n data := by
  by_cases hfits : Fits setup maxSendSge cmd
  · rcases built_of_fits hroom hwrap hfits epoch qp a with ⟨a', n, hbuilt, hgathers⟩
    exact ⟨a', n, _, hbuilt, hgathers⟩
  · unfold postStridedDirect at hnot
    rw [if_neg hfits] at hnot
    exact absurd rfl hnot

/-- The data requests of the chain that is built without arrays. -/
theorem map_stridedDataWrs (qp : Int) {p : Polled} {count : Nat}
    (hs : Sized p.cmd.rowCount.toNat (maxSge setup.cfg.maxSendSge).toNat count) (k w row : Nat)
    (hw : w + k = count)
    (hrow : row = min (w * (maxSge setup.cfg.maxSendSge).toNat) p.cmd.rowCount.toNat) :
    (stridedDataWrs setup qp p k row (rowRemote setup qp p.cmd row)).map ofSendWr =
      (List.range' w k).map (dataRequestOf setup setup.cfg.maxSendSge qp p.cmd) := by
  induction k generalizing w row with
  | zero => rfl
  | succ k ih =>
      have hbegun := hs.begun w (by omega)
      -- The loop without arrays is at the same row.
      have hhere : row = w * (maxSge setup.cfg.maxSendSge).toNat := by omega
      have hsize : (if 0 < setup.cfg.maxSendSge then setup.cfg.maxSendSge.toNat else 1) =
          (maxSge setup.cfg.maxSendSge).toNat := by
        unfold maxSge
        split <;> rfl
      rw [stridedDataWrs, List.range'_succ, List.map_cons, List.map_cons, hsize]
      generalize hn : min (p.cmd.rowCount.toNat - row) (maxSge setup.cfg.maxSendSge).toNat = n
      have hnext : row + n =
          min ((w + 1) * (maxSge setup.cfg.maxSendSge).toNat) p.cmd.rowCount.toNat := by
        rw [Nat.succ_mul]
        omega
      have htail := ih (w + 1) (row + n) (by omega) hnext
      rw [rowRemote, ← remote_add] at htail
      refine congrArg₂ List.cons ?_ htail
      have hlist : (dataRequestOf setup setup.cfg.maxSendSge qp p.cmd w).sgList =
          (List.range n).map fun j => rowSge setup p.cmd (row + j) := by
        rw [dataRequestOf, ← map_chunk, chunk_range, List.map_map, Nat.min_comm, ← hhere, hn]
        rfl
      -- So the request has the same rows, and the same place at the peer.
      have hreq : dataRequestOf setup setup.cfg.maxSendSge qp p.cmd w =
          ⟨0, (List.range n).map fun j => rowSge setup p.cmd (row + j), none, false,
            rowRemote setup qp p.cmd row, setup.remoteDataRkeyForQp qp⟩ := by
        rw [← hlist, hhere]
        rfl
      rw [hreq]
      rfl

/-- The chain that is built without arrays is the data and the words. -/
theorem wrs_stridedChain {p : Polled} {c : Chain} {n : Nat} {senderSeq senderSeq' : Nat → BitVec 32}
    (h : stridedChain setup epoch senderSeq qp p = some (c, n, senderSeq')) :
    c.wrs.map ofSendWr =
      (stridedDataWrs setup qp p (nDataWrs setup p.cmd).toNat 0
        (setup.remoteDataAddrForQp qp + p.cmd.remoteOffset)).map ofSendWr ++
        wordRequests setup epoch senderSeq qp p.cmd (nDataWrs setup p.cmd).toNat := by
  unfold stridedChain at h
  unfold wordRequests
  split at h
  · dsimp only at h ⊢
    by_cases hqueue : setup.cfg.useArrivalQueue = true
    · by_cases htail : setup.cfg.enableRemoteTail = true <;>
        · simp only [hqueue, htail, if_true, Bool.false_eq_true, if_false, Option.some.injEq,
            Prod.mk.injEq] at h ⊢
          rw [← h.1, List.map_append]
          rfl
    · simp only [hqueue, Bool.false_eq_true, if_false, Option.some.injEq, Prod.mk.injEq] at h ⊢
      rw [← h.1, List.map_append]
      rfl
  · exact nomatch h

/-- What the arrays hold is the chain that is built without them. -/
theorem stridedChain_gathered (hroom : Roomy setup) {p : Polled} {c : Chain} {n : Nat}
    {senderSeq : Nat → BitVec 32}
    (h : stridedChain setup epoch a.senderSeq qp p = some (c, n, senderSeq)) :
    ∃ a', postStridedDirect setup setup.cfg.maxSendSge epoch qp p.cmd a = .built a' n ∧
      (List.range n).map (a'.read setup) = c.wrs.map (some ∘ ofSendWr) := by
  -- A chain is there, so the command fits.
  have hstrided : StridedFits setup p.cmd := by
    by_contra hc
    rw [stridedChain_eq_none.mpr hc] at h
    exact nomatch h
  -- The row counts do not wrap, as `maxSendSge` is small.
  have hle := setup.cfg.maxSendSge_le
  have hwrap : p.cmd.rowCount.toNat + (maxSge setup.cfg.maxSendSge).toNat ≤ 2 ^ 32 := by
    have hlt := p.cmd.rowCount.isLt
    rw [maxSge_eq]
    omega
  have hfits : Fits setup setup.cfg.maxSendSge p.cmd := by
    rcases hstrided with ⟨h1, h2, h3, h4, h5⟩
    refine ⟨h1, h2, h3, h4, ?_⟩
    have h5' : (dataWrCount setup.cfg.maxSendSge p.cmd).toNat ≤ kMaxDataWrs := h5
    rw [BitVec.toInt_eq_toNat_of_lt (by simp only [kMaxDataWrs] at h5'; omega)]
    exact Int.ofNat_le.mpr h5'
  -- The data requests of both are the same,
  have hdata := map_stridedDataWrs qp (sized_of_fits hwrap hfits) _ 0 0 (Nat.zero_add _) (by omega)
  have hbase : rowRemote setup qp p.cmd 0 =
      setup.remoteDataAddrForQp qp + p.cmd.remoteOffset := by
    rw [rowRemote, BitVec.zero_mul, BitVec.add_zero]
  have hcount : (dataWrCount setup.cfg.maxSendSge p.cmd).toNat = (nDataWrs setup p.cmd).toNat := rfl
  rw [hbase, ← List.range_eq_range', hcount] at hdata
  rcases built_of_fits hroom hwrap hfits epoch qp a with ⟨a', m, hbuilt, hgathers⟩
  have hreads := hgathers.reads
  have hlen : ((stridedDataWrs setup qp p (nDataWrs setup p.cmd).toNat 0
      (setup.remoteDataAddrForQp qp + p.cmd.remoteOffset)).map ofSendWr).length =
        (nDataWrs setup p.cmd).toNat := by
    rw [List.length_map, length_stridedDataWrs]
  rw [hcount, ← hdata, hlen, ← wrs_stridedChain h, List.map_map] at hreads
  -- and so is the number of all requests.
  have hm : m = n := by
    rw [← length_stridedChain h]
    have := congrArg List.length hreads
    rwa [List.length_map, List.length_map, List.length_range] at this
  rw [hm] at hbuilt hreads
  exact ⟨a', hbuilt, hreads⟩

end Whole

section Sample

/-- A strided command of two rows. -/
def twoRows : TransferCmd := { stridedCmd 0 0 with rowCount := 2 }

/-- Arrays with nothing in them. -/
def blank : Arrays := ⟨fun _ => zeroWr, fun _ => zeroSge, fun _ => 0, fun _ => 0⟩

/-- A limit of no entries counts as one, and one entry is more than none. Where the sum wraps, the
    arrival word is all that is sent. -/
theorem strided_gather_limits :
    (∃ a' n r, postStridedDirect sampleSetup 0 1 0 twoRows blank = .built a' n ∧
      a'.read sampleSetup 0 = some r ∧ ¬ r.sgList.length ≤ (0 : BitVec 32).toNat) ∧
    ∃ a', postStridedDirect sampleSetup 0xFFFFFFFF 1 0 twoRows blank = .built a' 1 :=
  ⟨⟨_, _, _, rfl, rfl, by decide⟩, _, rfl⟩

/-- Five rows in requests of two entries. -/
def fiveRows : TransferCmd := { stridedCmd 0 3 with rowCount := 5 }

theorem strided_gather_five :
    ∃ a' n data, postStridedDirect sampleSetup 2 1 0 fiveRows blank = .built a' n ∧
      Gathers sampleSetup 2 1 blank.senderSeq 0 fiveRows a' n data :=
  strided_gather ⟨by decide, by decide⟩ (by decide)
    (fun h => Outcome.noConfusion (h.symm.trans (show _ = Outcome.built _ _ from rfl)))

end Sample

end Gather

end Cx7

end Internode

end MKernel
