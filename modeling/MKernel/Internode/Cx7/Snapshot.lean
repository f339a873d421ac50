import MKernel.Core.System
import MKernel.Internode.Cx7.Proxy

/-!
# Snapshots of a Notification

What a proxy makes of a notification that is being written.

A notification arrives in its slot of the table as one write, but the proxy reads it field
by field, the epoch after all it forwards. If the epoch is right and so is the tile, it
builds a command from what it has read. The epoch says that the write had landed when the
epoch was read. It says nothing about the fields that were read before, which are those of
whatever the slot held until then: nothing but zeroes after a reset of the table.

So a write in the middle of a reading may be mixed with what it replaces. It does no harm if
what was read already is as in the write, or if the tile that was read is not the one of
the slot, for then the reading is thrown away (`Harmless`). Without harmful writes every
command is built from one notification (`built_from_one`).

## Main definitions

* `Poll`: A slot, and how far the proxy has got with reading it.
* `readField`: The reading of the next field.
* `Act`, `step`: Writes, reads and the check.
* `Same`: Records with the same fields, of those that commands are built from.
* `Harmless`: The condition on a write.

## Theorems

* `makeForwardCmdFromNotify_congr`: A command is built from these fields only.
* `inv_step`: What every step keeps.
* `built_from_one`: Without harmful writes, a command is built from one notification.
-/

namespace MKernel

namespace Internode

namespace Cx7

namespace Snapshot

open MKernel.Core

/-- `ForwardNotify{}`. -/
def zeroNotify : ForwardNotify where
  bytes := 0
  localOffset := 0
  tileId := 0
  laneId := 0
  reserved0 := 0
  srcView := 0
  epoch := 0
  reserved1 := 0

/-- A slot of the table, and the proxy that polls it: what it has read so far, how many fields
    that is, and when it last forwarded a notification of the slot. Also the notifications
    that were written, and the records that commands were built from. -/
structure Poll where
  src : ForwardNotify
  n : ForwardNotify
  read : Nat
  seenEpoch : BitVec 32
  written : List ForwardNotify
  built : List ForwardNotify
deriving DecidableEq

/-- What can happen next. -/
inductive Act where
  /-- A notification lands in the slot. -/
  | write (r : ForwardNotify)
  /-- The proxy reads the next field. -/
  | read
  /-- The proxy checks what it has read. If it builds a command, it may fail to post it. -/
  | check (posted : Bool)
deriving DecidableEq

/-- The next field is read, in the order of `poll_forward_notifications`. -/
def readField (src n : ForwardNotify) : Nat → ForwardNotify
  | 0 => { zeroNotify with bytes := src.bytes }
  | 1 => { n with localOffset := src.localOffset }
  | 2 => { n with tileId := src.tileId }
  | 3 => { n with laneId := src.laneId }
  | 4 => { n with reserved0 := src.reserved0 }
  | 5 => { n with srcView := src.srcView }
  | 6 => { n with epoch := src.epoch }
  | _ => { n with reserved1 := src.reserved1 }

/-- Nothing is read yet, and the slot holds something. -/
def init (src : ForwardNotify) (seenEpoch : BitVec 32) : Poll where
  src := src
  n := zeroNotify
  read := 0
  seenEpoch := seenEpoch
  written := []
  built := []

/-- One step in an epoch. A notification of the epoch is written to the slot of its tile. -/
def step (epoch slot : BitVec 32) (w : Poll) : Act → Option Poll
  | .write r =>
    if r.epoch = epoch ∧ r.tileId = slot then
      some { w with
        src := r
        written := w.written ++ [r] }
    else
      none
  | .read =>
    -- A slot that has been seen in this epoch is not read.
    if w.read < 8 ∧ (w.read = 0 → w.seenEpoch ≠ epoch) then
      some { w with
        n := readField w.src w.n w.read
        read := w.read + 1 }
    else
      none
  | .check posted =>
    if w.read = 8 then
      if w.n.epoch = epoch ∧ w.n.tileId = slot then
        some { w with
          read := 0
          seenEpoch := if posted then epoch else w.seenEpoch
          built := w.built ++ [w.n] }
      else
        some { w with read := 0 }
    else
      none

/-- Records with the same fields, of those that commands are built from. -/
structure Same (n r : ForwardNotify) : Prop where
  bytes : n.bytes = r.bytes
  localOffset : n.localOffset = r.localOffset
  tileId : n.tileId = r.tileId
  laneId : n.laneId = r.laneId

theorem Same.trans {a b c : ForwardNotify} (h : Same a b) (h' : Same b c) : Same a c where
  bytes := h.bytes.trans h'.bytes
  localOffset := h.localOffset.trans h'.localOffset
  tileId := h.tileId.trans h'.tileId
  laneId := h.laneId.trans h'.laneId

/-- A command is built from these fields only. -/
theorem makeForwardCmdFromNotify_congr (setup : Setup) {n r : ForwardNotify} (h : Same n r) :
    setup.makeForwardCmdFromNotify n = setup.makeForwardCmdFromNotify r := by
  simp only [Setup.makeForwardCmdFromNotify, h.bytes, h.localOffset, h.tileId, h.laneId]

/-- Of these fields, those among the first so many are the same. -/
structure Agrees (read : Nat) (n r : ForwardNotify) : Prop where
  bytes : 0 < read → n.bytes = r.bytes
  localOffset : 1 < read → n.localOffset = r.localOffset
  tileId : 2 < read → n.tileId = r.tileId
  laneId : 3 < read → n.laneId = r.laneId

instance (n r : ForwardNotify) : Decidable (Same n r) :=
  decidable_of_iff (n.bytes = r.bytes ∧ n.localOffset = r.localOffset ∧ n.tileId = r.tileId ∧
    n.laneId = r.laneId) ⟨fun h => ⟨h.1, h.2.1, h.2.2.1, h.2.2.2⟩,
      fun h => ⟨h.bytes, h.localOffset, h.tileId, h.laneId⟩⟩

instance (read : Nat) (n r : ForwardNotify) : Decidable (Agrees read n r) :=
  decidable_of_iff ((0 < read → n.bytes = r.bytes) ∧ (1 < read → n.localOffset = r.localOffset) ∧
    (2 < read → n.tileId = r.tileId) ∧ (3 < read → n.laneId = r.laneId))
      ⟨fun h => ⟨h.1, h.2.1, h.2.2.1, h.2.2.2⟩,
        fun h => ⟨h.bytes, h.localOffset, h.tileId, h.laneId⟩⟩

/-- What has been read will be thrown away: the tile is not the slot's. -/
def Rejected (slot : BitVec 32) (w : Poll) : Prop := 3 ≤ w.read ∧ w.n.tileId ≠ slot

instance (slot : BitVec 32) (w : Poll) : Decidable (Rejected slot w) :=
  inferInstanceAs (Decidable (_ ∧ _))

/-- A write lands when the epoch has been read, or when what has been read will be thrown away,
    or it is as what has been read. With no reading going on it always is. -/
def Harmless (slot : BitVec 32) (w : Poll) : Act → Prop
  | .write r => 7 ≤ w.read ∨ Rejected slot w ∨ Agrees w.read w.n r
  | _ => True

instance (slot : BitVec 32) : ∀ (w : Poll) (a : Act), Decidable (Harmless slot w a)
  | _, .write _ => inferInstanceAs (Decidable (_ ∨ _ ∨ _))
  | _, .read => isTrue trivial
  | _, .check _ => isTrue trivial

/-- What is being read is of the slot's record until the epoch is read, and then of one that
    was written, unless it will be thrown away. -/
structure Inv (epoch slot : BitVec 32) (w : Poll) : Prop where
  written : ∀ r ∈ w.written, r.epoch = epoch
  src : w.src.epoch = epoch → w.src ∈ w.written
  before : w.read ≤ 6 → Rejected slot w ∨ Agrees w.read w.n w.src
  after : 7 ≤ w.read → w.n.epoch = epoch → w.n.tileId = slot → ∃ r ∈ w.written, Same w.n r
  built : ∀ n ∈ w.built, ∃ r ∈ w.written, Same n r

section Steps

variable {epoch slot : BitVec 32} {w : Poll}

theorem same_of_agrees {read : Nat} {n r : ForwardNotify} (h : Agrees read n r) (hread : 4 ≤ read) :
    Same n r where
  bytes := h.bytes (by omega)
  localOffset := h.localOffset (by omega)
  tileId := h.tileId (by omega)
  laneId := h.laneId (by omega)

/-- The fields that commands are built from are read once each. -/
theorem same_readField (src n : ForwardNotify) {read : Nat} (hread : 4 ≤ read) :
    Same (readField src n read) n := by
  rcases Nat.exists_eq_add_of_le' hread with ⟨k, rfl⟩
  rcases k with _ | _ | _ | _ <;> exact ⟨rfl, rfl, rfl, rfl⟩

/-- The next field is that of the slot's record. -/
theorem agrees_readField {src n : ForwardNotify} {read : Nat} (h : Agrees read n src) :
    Agrees (read + 1) (readField src n read) src := by
  rcases read with _ | _ | _ | _ | read
  · exact ⟨fun _ => rfl, fun h => absurd h (by omega), fun h => absurd h (by omega),
      fun h => absurd h (by omega)⟩
  · exact ⟨fun _ => h.bytes (by omega), fun _ => rfl, fun h => absurd h (by omega),
      fun h => absurd h (by omega)⟩
  · exact ⟨fun _ => h.bytes (by omega), fun _ => h.localOffset (by omega), fun _ => rfl,
      fun h => absurd h (by omega)⟩
  · exact ⟨fun _ => h.bytes (by omega), fun _ => h.localOffset (by omega),
      fun _ => h.tileId (by omega), fun _ => rfl⟩
  · have hsame := same_readField src n (by omega : 4 ≤ read + 4)
    exact ⟨fun _ => hsame.bytes.trans (h.bytes (by omega)),
      fun _ => hsame.localOffset.trans (h.localOffset (by omega)),
      fun _ => hsame.tileId.trans (h.tileId (by omega)),
      fun _ => hsame.laneId.trans (h.laneId (by omega))⟩

/-- The tile is not read again. -/
theorem tileId_readField {src n : ForwardNotify} {read : Nat} (hread : 3 ≤ read) :
    (readField src n read).tileId = n.tileId := by
  rcases Nat.exists_eq_add_of_le' hread with ⟨k, rfl⟩
  rcases k with _ | _ | _ | _ | _ <;> rfl

theorem inv_write (hinv : Inv epoch slot w) {r : ForwardNotify} (hepoch : r.epoch = epoch)
    (hok : Harmless slot w (.write r)) :
    Inv epoch slot { w with
      src := r
      written := w.written ++ [r] } where
  written := by
    intro r' hr'
    rcases List.mem_append.mp hr' with hold | hnew
    · exact hinv.written r' hold
    · rw [List.mem_singleton.mp hnew]
      exact hepoch
  src _ := List.mem_append_right _ List.mem_cons_self
  before hread := by
    rcases hok with hlate | hok
    · -- No field is left to be read.
      exact absurd hread (Nat.not_le_of_lt hlate)
    · exact hok
  after hread he ht := by
    rcases hinv.after hread he ht with ⟨r', hr', hsame⟩
    exact ⟨r', List.mem_append_left _ hr', hsame⟩
  built n hn := by
    rcases hinv.built n hn with ⟨r', hr', hsame⟩
    exact ⟨r', List.mem_append_left _ hr', hsame⟩

theorem inv_read (hinv : Inv epoch slot w) :
    Inv epoch slot { w with
      n := readField w.src w.n w.read
      read := w.read + 1 } where
  written := hinv.written
  src := hinv.src
  before hread := by
    have hread : w.read ≤ 5 := Nat.le_of_succ_le_succ hread
    rcases hinv.before (by omega) with hrej | hagree
    · refine Or.inl ⟨Nat.le_succ_of_le hrej.1, ?_⟩
      change (readField w.src w.n w.read).tileId ≠ slot
      rw [tileId_readField hrej.1]
      exact hrej.2
    · exact Or.inr (agrees_readField hagree)
  after hread he ht := by
    have hread : 6 ≤ w.read := Nat.le_of_succ_le_succ hread
    rw [tileId_readField (by omega)] at ht
    by_cases hsix : w.read = 6
    · -- The epoch is that of the slot's record, and so are the fields before it.
      have hsrc : w.src.epoch = epoch := by
        rw [hsix] at he
        exact he
      rcases hinv.before (by omega) with hrej | hagree
      · exact absurd ht hrej.2
      · exact ⟨w.src, hinv.src hsrc,
          same_of_agrees (agrees_readField hagree) (by omega)⟩
    · have hlate : (readField w.src w.n w.read).epoch = w.n.epoch := by
        rcases Nat.exists_eq_add_of_le' (by omega : 7 ≤ w.read) with ⟨k, hk⟩
        rw [hk]
        rfl
      have hkept := same_readField w.src w.n (by omega : 4 ≤ w.read)
      rcases hinv.after (by omega) (hlate.symm.trans he) ht with ⟨r, hr, hsame⟩
      exact ⟨r, hr, hkept.trans hsame⟩
  built := hinv.built

/-- With no reading going on, nothing has been read. -/
theorem agrees_zero (n r : ForwardNotify) : Agrees 0 n r where
  bytes h := absurd h (Nat.lt_irrefl 0)
  localOffset h := absurd h (Nat.not_lt_zero 1)
  tileId h := absurd h (Nat.not_lt_zero 2)
  laneId h := absurd h (Nat.not_lt_zero 3)

theorem inv_check (hinv : Inv epoch slot w) (seenEpoch : BitVec 32) {built : List ForwardNotify}
    (hbuilt : ∀ n ∈ built, ∃ r ∈ w.written, Same n r) :
    Inv epoch slot { w with
      read := 0
      seenEpoch := seenEpoch
      built := built } where
  written := hinv.written
  src := hinv.src
  before _ := Or.inr (agrees_zero w.n w.src)
  after h := absurd h (Nat.not_succ_le_zero 6)
  built := hbuilt

theorem inv_step {u : Poll} {a : Act} (hinv : Inv epoch slot w) (hok : Harmless slot w a)
    (h : step epoch slot w a = some u) : Inv epoch slot u := by
  cases a with
  | write r =>
      by_cases hg : r.epoch = epoch ∧ r.tileId = slot
      · rw [step, if_pos hg, Option.some.injEq] at h
        rw [← h]
        -- The record is one of this slot and epoch, which was not read halfway.
        exact inv_write hinv hg.1 hok
      · rw [step, if_neg hg] at h
        exact absurd h (by simp only [reduceCtorEq, not_false_eq_true])
  | read =>
      by_cases hg : w.read < 8 ∧ (w.read = 0 → w.seenEpoch ≠ epoch)
      · rw [step, if_pos hg, Option.some.injEq] at h
        rw [← h]
        exact inv_read hinv
      · rw [step, if_neg hg] at h
        exact absurd h (by simp only [reduceCtorEq, not_false_eq_true])
  | check posted =>
      by_cases hread : w.read = 8
      · rw [step, if_pos hread] at h
        by_cases hg : w.n.epoch = epoch ∧ w.n.tileId = slot
        · rw [if_pos hg, Option.some.injEq] at h
          rw [← h]
          refine inv_check hinv _ ?_
          intro n hn
          -- The copy is built from now on, and is one of the records written.
          rcases List.mem_append.mp hn with hold | hnew
          · exact hinv.built n hold
          · rw [List.mem_singleton.mp hnew]
            exact hinv.after (by omega) hg.1 hg.2
        · rw [if_neg hg, Option.some.injEq] at h
          rw [← h]
          exact inv_check hinv w.seenEpoch hinv.built
      · rw [step, if_neg hread] at h
        exact absurd h (by simp only [reduceCtorEq, not_false_eq_true])

end Steps

theorem inv_init {epoch slot : BitVec 32} {src : ForwardNotify} (hsrc : src.epoch ≠ epoch)
    (seenEpoch : BitVec 32) : Inv epoch slot (init src seenEpoch) where
  written _ h := absurd h List.not_mem_nil
  src h := absurd h hsrc
  before _ := Or.inr (agrees_zero zeroNotify src)
  after h := absurd h (Nat.not_succ_le_zero 6)
  built _ h := absurd h List.not_mem_nil

/-- In every run without harmful writes, over a slot that holds nothing of the epoch yet, each
    command is built from one notification of the epoch: all fields it uses are that
    notification's. -/
theorem built_from_one (setup : Setup) (epoch slot : BitVec 32) (src : ForwardNotify)
    (seenEpoch : BitVec 32) (hsrc : src.epoch ≠ epoch) (w : Poll)
    (h : Reaches (step epoch slot) (Harmless slot) (init src seenEpoch) w) :
    ∀ n ∈ w.built, ∃ r ∈ w.written, r.epoch = epoch ∧ Same n r ∧
      setup.makeForwardCmdFromNotify n = setup.makeForwardCmdFromNotify r := by
  have hinv : Inv epoch slot w :=
    invariant_of_reaches (Inv epoch slot) (fun _ _ _ hs hok hst => inv_step hs hok hst) h
      (inv_init hsrc seenEpoch)
  intro n hn
  rcases hinv.built n hn with ⟨r, hr, hsame⟩
  exact ⟨r, hr, hinv.written r hr, hsame, makeForwardCmdFromNotify_congr setup hsame⟩

section Sample

/-- A notification for slot 5 in epoch 2. -/
def arrival : ForwardNotify where
  bytes := 0x10000
  localOffset := 0x50000
  tileId := 5
  laneId := 1
  reserved0 := 0
  srcView := 1
  epoch := 2
  reserved1 := 0

/-- It lands, and is read. -/
def wholePoll : Poll :=
  (run (step 2 5) (Harmless 5)
    (Act.write arrival :: List.replicate 8 Act.read ++ [Act.check true])
    (init zeroNotify 0)).get (by decide)

/-- The command is built from it. -/
theorem whole_poll_forwards :
    ∃ r ∈ wholePoll.written, r.epoch = 2 ∧ Same arrival r ∧
      sampleSetup.makeForwardCmdFromNotify arrival = sampleSetup.makeForwardCmdFromNotify r :=
  built_from_one sampleSetup 2 5 zeroNotify 0 (by decide) wholePoll
    (reaches_of_run _ _ _ (Option.some_get _).symm) arrival (by decide)

/-- It lands when the number of bytes and the offset have been read from the empty slot. -/
def tornPoll : Poll :=
  (run (step 2 5) always
    ([Act.read, .read, .write arrival] ++ List.replicate 6 Act.read ++ [Act.check true])
    (init zeroNotify 0)).get (by decide)

/-- The command is for its tile, but for no bytes, and from the beginning of the buffer. -/
theorem torn_poll_forwards :
    ¬ ∀ (epoch slot : BitVec 32) (src : ForwardNotify) (seenEpoch : BitVec 32),
      src.epoch ≠ epoch →
      ∀ w, Reaches (step epoch slot) always (init src seenEpoch) w →
        ∀ n ∈ w.built, ∃ r ∈ w.written, r.epoch = epoch ∧ Same n r := by
  intro h
  have hone := h 2 5 zeroNotify 0 (by decide) tornPoll
    (reaches_of_run _ _ _ (Option.some_get _).symm)
    { arrival with
      bytes := 0
      localOffset := 0 } (by decide)
  exact absurd hone (by decide)

end Sample

end Snapshot

end Cx7

end Internode

end MKernel
