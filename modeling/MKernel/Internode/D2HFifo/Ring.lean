import MKernel.Core.Ring
import MKernel.Core.System
import MKernel.Internode.Types

/-!
# The Device-to-Host FIFO

`D2HFifoDevice::push` and `D2HFifoHost::poll` over one shared ring, one memory
access at a time.

Any number of device threads push concurrently. A push claims a slot by an
atomic increment of `head`, waits until the slot is free, stores words 1 to 5
of the command and then word 0. Whether the slot is free is decided from
`tail_cache`, a plain variable every pushing thread refreshes from the host's
`tail` without any synchronisation: a thread that loaded an old `tail` may
store it after another thread stored a newer one, so the cache can move
backwards.

The host is one thread. It looks at the lowest byte of the slot at `cpu_head`,
copies the record out once that byte is not `EMPTY`, clears the byte and
advances `cpu_head`. `advance_tail` publishes progress, to any value up to
`cpu_head`.

Every load and store is an action of its own, so an interleaving is a list of
actions. Two lists that the code does not have, `claimed` and `polled`, record
the commands in claim order and the records `poll` returned.

The counters are 64-bit and the arithmetic on them wraps.

## Main definitions

* `Capacity`: A ring size that `create_d2h_fifo` accepts.
* `PushPc`, `PollPc`: Where a thread is inside `push` or `poll`.
* `State`: The shared ring, the threads, and the history.
* `step`: One memory access of one thread.
* `init`: The ring `create_d2h_fifo` returns.
* `Monotone`: The condition that `advance_tail` never moves the tail back.

## Theorems

* `slotIndex_eq_mod`: Masking with `capacity - 1` is the residue.
-/

namespace MKernel

namespace Internode

namespace D2HFifo

open MKernel.Core

/-- A ring size `create_d2h_fifo` accepts: positive, and sharing no bit with
    its predecessor. -/
structure Capacity where
  val : Nat
  pos : val ≠ 0
  mask : val &&& (val - 1) = 0

theorem Capacity.isPowerOfTwo (capacity : Capacity) : capacity.val.isPowerOfTwo :=
  (Nat.and_sub_one_eq_zero_iff_isPowerOfTwo capacity.pos).mp capacity.mask

/-- `slot & mask` with `mask = capacity - 1`. -/
def slotIndex (capacity : Capacity) (slot : Nat) : Nat := slot &&& (capacity.val - 1)

theorem slotIndex_eq_mod (capacity : Capacity) (slot : Nat) :
    slotIndex capacity slot = slot % capacity.val := by
  rcases capacity.isPowerOfTwo with ⟨k, hk⟩
  rw [slotIndex, hk, Nat.and_two_pow_sub_one_eq_mod]

/-- Unsigned 64-bit arithmetic. -/
def u64 (n : Nat) : Nat := n % 2 ^ 64

/-- Where a device thread is inside `push`, with the slot it claimed and the
    command it carries. -/
inductive PushPc where
  | idle
  /-- About to compare the slot with `capacity + *tail_cache`. -/
  | test (slot : Nat) (cmd : TransferCmd)
  /-- About to load the host's `tail`. -/
  | load (slot : Nat) (cmd : TransferCmd)
  /-- About to store the loaded value to `tail_cache` and test it. -/
  | refresh (slot : Nat) (cmd : TransferCmd) (t : Nat)
  /-- Words 1 to `wi - 1` are stored. -/
  | store (slot : Nat) (cmd : TransferCmd) (wi : Nat)
  deriving DecidableEq

/-- The slot a thread has claimed and not finished, with its command. -/
def PushPc.held : PushPc → Option (Nat × TransferCmd)
  | .idle => none
  | .test slot cmd => some (slot, cmd)
  | .load slot cmd => some (slot, cmd)
  | .refresh slot cmd _ => some (slot, cmd)
  | .store slot cmd _ => some (slot, cmd)

/-- Where the host is inside `poll`. -/
inductive PollPc where
  | idle
  /-- The type byte was seen set; words 0 to `wi - 1` are copied out. -/
  | copy (wi : Nat) (out : Slot)
  /-- The type byte is cleared; `cpu_head` is about to advance. -/
  | bump (out : Slot)

/-- The shared ring, the threads at work on it, and the history. -/
structure State (P : Type) where
  triggers : Nat → Slot
  head : Nat
  tail : Nat
  tailCache : Nat
  cpuHead : Nat
  push : P → PushPc
  poll : PollPc
  /-- The commands in the order their slots were claimed. -/
  claimed : List TransferCmd
  /-- The records `poll` returned. -/
  polled : List Slot

/-- The ring `create_d2h_fifo` returns: all zero. -/
def init (P : Type) : State P where
  triggers := fun _ _ => 0
  head := 0
  tail := 0
  tailCache := 0
  cpuHead := 0
  push := fun _ => .idle
  poll := .idle
  claimed := []
  polled := []

/-- Word `wi` of `dst` replaced by that of `src`. -/
def copyWord (dst src : Slot) (wi : Nat) : Slot := fun i => if i.val = wi then src i else dst i

/-- The type byte set to `EMPTY`, the rest of the record left as it is. -/
def clearCmdType (w : Slot) : Slot :=
  fun i => if i.val = 0 then w i &&& 0xFFFFFFFFFFFFFF00#64 else w i

inductive Action (P : Type) where
  /-- A thread calls `push`: the atomic increment of `head`. -/
  | push (p : P) (cmd : TransferCmd)
  /-- The next access of a thread inside `push`. -/
  | device (p : P)
  /-- The next access of the host inside `poll`. -/
  | host
  /-- `advance_tail`. -/
  | advanceTail (v : Nat)

variable {P : Type} [DecidableEq P]

/-- The next memory access of a `push` in progress. -/
def deviceStep (capacity : Capacity) (s : State P) (p : P) : Option (State P) :=
  match s.push p with
  | .idle => none
  | .test slot cmd =>
      let next := if u64 (capacity.val + s.tailCache) ≤ slot then PushPc.load slot cmd
        else PushPc.store slot cmd 1
      some { s with push := Function.update s.push p next }
  | .load slot cmd =>
      some { s with push := Function.update s.push p (.refresh slot cmd s.tail) }
  | .refresh slot cmd t =>
      let next := if slot < u64 (capacity.val + t) then PushPc.store slot cmd 1
        else PushPc.load slot cmd
      some { s with tailCache := t, push := Function.update s.push p next }
  | .store slot cmd wi =>
      let idx := slotIndex capacity slot
      if wi < kCmdWords then
        some { s with
          triggers := Function.update s.triggers idx (copyWord (s.triggers idx) cmd.words wi)
          push := Function.update s.push p (.store slot cmd (wi + 1)) }
      else
        -- The release store of word 0 publishes the record, and `push` returns.
        some { s with
          triggers := Function.update s.triggers idx (copyWord (s.triggers idx) cmd.words 0)
          push := Function.update s.push p .idle }

/-- The next memory access of `poll`. An idle host that finds the type byte
    `EMPTY` returns false and stays idle. -/
def hostStep (capacity : Capacity) (s : State P) : State P :=
  let idx := slotIndex capacity s.cpuHead
  match s.poll with
  | .idle =>
      if cmdTypeByte (s.triggers idx) = 0 then s
      else { s with poll := .copy 0 TransferCmd.zero.words }
  | .copy wi out =>
      if wi < kCmdWords then { s with poll := .copy (wi + 1) (copyWord out (s.triggers idx) wi) }
      else
        { s with
          triggers := Function.update s.triggers idx (clearCmdType (s.triggers idx))
          poll := .bump out }
  | .bump out =>
      { s with cpuHead := u64 (s.cpuHead + 1), poll := .idle, polled := s.polled ++ [out] }

/-- One memory access of one thread. A push carries a command whose type is
    not `EMPTY`; `advance_tail` is called between polls, by the polling
    thread, with a value up to `cpu_head`. -/
def step (capacity : Capacity) (s : State P) : Action P → Option (State P)
  | .push p cmd =>
      if s.push p = .idle ∧ cmd.cmdType ≠ .empty then
        some { s with
          head := u64 (s.head + 1)
          push := Function.update s.push p (.test s.head cmd)
          claimed := s.claimed ++ [cmd] }
      else none
  | .device p => deviceStep capacity s p
  | .host => some (hostStep capacity s)
  | .advanceTail v =>
      match s.poll with
      | .idle => if v ≤ s.cpuHead then some { s with tail := v } else none
      | _ => none

/-- `advance_tail` never moves the tail back, as in both proxies, which pass
    it a `cpu_head`. -/
def Monotone (s : State P) : Action P → Prop
  | .advanceTail v => s.tail ≤ v
  | _ => True

instance (s : State P) (a : Action P) : Decidable (Monotone s a) := by
  cases a <;> unfold Monotone <;> infer_instance

end D2HFifo

end Internode

end MKernel
