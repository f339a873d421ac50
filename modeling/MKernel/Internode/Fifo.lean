import MKernel.Core.System
import MKernel.Internode.Types

/-!
# The Command FIFO, Abstractly

What a device-to-host FIFO is for, with the ring, the threads and the memory
accesses left out.

A command is *claimed* when a device thread takes its place in the queue and
*published* when it and everything before it can be read. The host reads
published commands in claim order, one at a time. Nothing else happens to a
queue, so the commands read so far are always a prefix of the commands
claimed, and that is the whole contract the proxies rely on.

Between epochs the host may reset a queue, which zeroes its counters and wipes
what was not read. The positions here are never taken back, so that a command
keeps its place in the history of its queue; `base` is the position of the last
reset, and the counters the code sees are counted from there.

The inequalities between the counters are fields, so a queue that has read more
than was published cannot be built.

## Main definitions

* `Fifo`: A queue of commands with its three counters.
* `Fifo.claim`, `Fifo.publish`: What producers do to it.
* `Fifo.poll`, `Fifo.advanceTail`: What the host does to it.
* `Fifo.head`, `Fifo.hostHead`: The counters the code sees.
* `Fifo.reset`: What `commit_epoch` does to it.
* `Fifo.polled`: The commands read so far.
* `Fifo.Later`: A queue later on, with no reset in between.
* `Fifo.step`: The queue as a machine.
* `Polled`: A command read from a queue, with where it was read.

## Theorems

* `Fifo.poll_eq_some`: What a successful poll returns and leaves.
* `Fifo.polled_of_poll`: Polling appends the returned command to those read.
* `Fifo.polled_of_drained`: A host that has read up to `head` has read all.
* `Fifo.reaches_publish`: Publishing several commands, one after the other.
-/

namespace MKernel

namespace Internode

/-- A queue of commands: those claimed in order, how many of them are
    published, how many the host has read, where it was last reset, and the
    tail the host has given back. -/
structure Fifo where
  claimed : List TransferCmd
  published : Nat
  cpuHead : Nat
  base : Nat
  tail : Nat
  published_le : published ≤ claimed.length
  cpuHead_le : cpuHead ≤ published
  base_le : base ≤ cpuHead

namespace Fifo

/-- The queue `create_d2h_fifo` returns. -/
def empty : Fifo where
  claimed := []
  published := 0
  cpuHead := 0
  base := 0
  tail := 0
  published_le := Nat.le_refl _
  cpuHead_le := Nat.le_refl _
  base_le := Nat.le_refl _

/-- `head`: the number of slots claimed since the last reset. -/
def head (f : Fifo) : Nat := f.claimed.length - f.base

/-- `cpu_head`: the number of commands read since the last reset. -/
def hostHead (f : Fifo) : Nat := f.cpuHead - f.base

/-- A producer takes the next place in the queue. -/
def claim (f : Fifo) (cmd : TransferCmd) : Fifo where
  claimed := f.claimed ++ [cmd]
  published := f.published
  cpuHead := f.cpuHead
  base := f.base
  tail := f.tail
  published_le := by
    have := f.published_le
    rw [List.length_append]
    omega
  cpuHead_le := f.cpuHead_le
  base_le := f.base_le

/-- One more command can be read, if one is claimed. -/
def publish (f : Fifo) : Option Fifo :=
  if h : f.published < f.claimed.length then
    some
      { claimed := f.claimed
        published := f.published + 1
        cpuHead := f.cpuHead
        base := f.base
        tail := f.tail
        published_le := h
        cpuHead_le := Nat.le_succ_of_le f.cpuHead_le
        base_le := f.base_le }
  else none

/-- `poll`: the next published command, and the queue after it. -/
def poll (f : Fifo) : Option (TransferCmd × Fifo) :=
  if h : f.cpuHead < f.published then
    some (f.claimed.get ⟨f.cpuHead, Nat.lt_of_lt_of_le h f.published_le⟩,
      { claimed := f.claimed
        published := f.published
        cpuHead := f.cpuHead + 1
        base := f.base
        tail := f.tail
        published_le := f.published_le
        cpuHead_le := h
        base_le := Nat.le_succ_of_le f.base_le })
  else none

/-- `advance_tail`. -/
def advanceTail (f : Fifo) (v : Nat) : Fifo := { f with tail := v }

/-- The commands read so far. -/
def polled (f : Fifo) : List TransferCmd := f.claimed.take f.cpuHead

theorem cpuHead_le_length (f : Fifo) : f.cpuHead ≤ f.claimed.length :=
  Nat.le_trans f.cpuHead_le f.published_le

@[simp] theorem length_polled (f : Fifo) : f.polled.length = f.cpuHead := by
  rw [polled, List.length_take, Nat.min_eq_left f.cpuHead_le_length]

/-- The reset of `commit_epoch`: the counters go to zero and the slots are
    wiped. No kernel runs meanwhile. -/
def reset (f : Fifo) : Fifo where
  -- What was claimed and not read is lost with the slots.
  claimed := f.polled
  published := f.cpuHead
  cpuHead := f.cpuHead
  base := f.cpuHead
  tail := 0
  published_le := by rw [length_polled]
  cpuHead_le := Nat.le_refl _
  base_le := Nat.le_refl _

@[simp] theorem claimed_claim (f : Fifo) (cmd : TransferCmd) :
    (f.claim cmd).claimed = f.claimed ++ [cmd] := rfl

@[simp] theorem cpuHead_claim (f : Fifo) (cmd : TransferCmd) :
    (f.claim cmd).cpuHead = f.cpuHead := rfl

@[simp] theorem claimed_advanceTail (f : Fifo) (v : Nat) :
    (f.advanceTail v).claimed = f.claimed := rfl

@[simp] theorem cpuHead_advanceTail (f : Fifo) (v : Nat) :
    (f.advanceTail v).cpuHead = f.cpuHead := rfl

@[simp] theorem cpuHead_reset (f : Fifo) : f.reset.cpuHead = f.cpuHead := rfl

@[simp] theorem polled_claim (f : Fifo) (cmd : TransferCmd) : (f.claim cmd).polled = f.polled := by
  rw [polled, polled, claimed_claim, cpuHead_claim,
    List.take_append_of_le_length f.cpuHead_le_length]

@[simp] theorem polled_advanceTail (f : Fifo) (v : Nat) : (f.advanceTail v).polled = f.polled :=
  rfl

/-- A reset forgets no command that was read. -/
@[simp] theorem polled_reset (f : Fifo) : f.reset.polled = f.polled := by
  change (f.claimed.take f.cpuHead).take f.cpuHead = f.claimed.take f.cpuHead
  rw [List.take_take, Nat.min_self]

/-- Publishing changes neither the claims nor what was read. -/
theorem publish_eq_some {f g : Fifo} (h : f.publish = some g) :
    g.claimed = f.claimed ∧ g.cpuHead = f.cpuHead ∧ g.base = f.base ∧ g.tail = f.tail ∧
      g.published = f.published + 1 := by
  unfold publish at h
  split at h
  · rw [← Option.some.inj h]
    exact ⟨rfl, rfl, rfl, rfl, rfl⟩
  · exact absurd h (by simp only [reduceCtorEq, not_false_eq_true])

/-- A successful poll returns the command at `cpu_head` and moves past it. -/
theorem poll_eq_some {f g : Fifo} {cmd : TransferCmd} (h : f.poll = some (cmd, g)) :
    f.claimed[f.cpuHead]? = some cmd ∧ g.claimed = f.claimed ∧ g.cpuHead = f.cpuHead + 1 ∧
      g.base = f.base ∧ g.tail = f.tail := by
  unfold poll at h
  split at h
  · rename_i hlt
    simp only [Option.some.injEq, Prod.mk.injEq] at h
    rcases h with ⟨hcmd, hg⟩
    rw [← hg, ← hcmd]
    -- The place is below the published count, and so within the claims.
    exact ⟨List.getElem?_eq_getElem _, rfl, rfl, rfl, rfl⟩
  · exact absurd h (by simp only [reduceCtorEq, not_false_eq_true])

/-- A command pushed to an empty queue is polled, and the queue is empty again. -/
theorem push_empty (cmd : TransferCmd) :
    ∃ f g, (empty.claim cmd).publish = some f ∧ f.poll = some (cmd, g) ∧ g.poll = none :=
  ⟨_, _, rfl, rfl, rfl⟩

theorem poll_eq_none {f : Fifo} : f.poll = none ↔ f.cpuHead = f.published := by
  have := f.cpuHead_le
  unfold poll
  split
  · simp only [reduceCtorEq, false_iff]
    omega
  · simp only [true_iff]
    omega

theorem polled_of_publish {f g : Fifo} (h : f.publish = some g) : g.polled = f.polled := by
  rcases publish_eq_some h with ⟨hc, hh, -⟩
  rw [polled, polled, hc, hh]

/-- Polling appends the returned command to those read. -/
theorem polled_of_poll {f g : Fifo} {cmd : TransferCmd} (h : f.poll = some (cmd, g)) :
    g.polled = f.polled ++ [cmd] := by
  rcases poll_eq_some h with ⟨hget, hc, hh, -⟩
  -- One more place of the same list, and the command stands in it.
  rw [polled, polled, hc, hh, List.take_add_one, hget, Option.toList_some]

/-- A host that has read up to `head` has read everything claimed. -/
theorem polled_of_drained {f : Fifo} (h : f.head ≤ f.hostHead) : f.polled = f.claimed := by
  have hbase := f.base_le
  rw [head, hostHead] at h
  exact List.take_of_length_le (by omega)

/-- A queue later on, with no reset in between. -/
structure Later (f g : Fifo) : Prop where
  claimed : f.claimed <+: g.claimed
  cpuHead : f.cpuHead ≤ g.cpuHead
  base : g.base = f.base

theorem later_refl (f : Fifo) : Later f f := ⟨List.prefix_refl _, Nat.le_refl _, rfl⟩

theorem later_claim (f : Fifo) (cmd : TransferCmd) : Later f (f.claim cmd) :=
  ⟨List.prefix_append _ _, Nat.le_refl _, rfl⟩

theorem later_advanceTail (f : Fifo) (v : Nat) : Later f (f.advanceTail v) :=
  ⟨List.prefix_refl _, Nat.le_refl _, rfl⟩

theorem later_publish {f g : Fifo} (h : f.publish = some g) : Later f g := by
  rcases publish_eq_some h with ⟨hc, hh, hb, -⟩
  exact ⟨hc ▸ List.prefix_refl _, Nat.le_of_eq hh.symm, hb⟩

theorem later_poll {f g : Fifo} {cmd : TransferCmd} (h : f.poll = some (cmd, g)) : Later f g := by
  rcases poll_eq_some h with ⟨-, hc, hh, hb, -⟩
  exact ⟨hc ▸ List.prefix_refl _, by omega, hb⟩

/-- What can happen to a queue. -/
inductive Action where
  | claim (cmd : TransferCmd)
  | publish
  | poll
  | advanceTail (v : Nat)

/-- The queue as a machine. The host gives back no place it has not read. -/
def step (f : Fifo) : Action → Option Fifo
  | .claim cmd => some (f.claim cmd)
  | .publish => f.publish
  | .poll => f.poll.map Prod.snd
  | .advanceTail v => if v ≤ f.hostHead then some (f.advanceTail v) else none

/-- Publishing several commands, one after the other. -/
theorem reaches_publish {n : Nat} : ∀ {f : Fifo}, f.published ≤ n → n ≤ f.claimed.length →
    ∃ g, Core.Reaches step Core.always f g ∧ g.claimed = f.claimed ∧ g.cpuHead = f.cpuHead ∧
      g.base = f.base ∧ g.tail = f.tail ∧ g.published = n := by
  intro f hle
  -- Induct on how many commands are left to publish.
  induction h : n - f.published generalizing f with
  | zero =>
      intro _
      exact ⟨f, Core.reaches_refl _ _ _, rfl, rfl, rfl, rfl, by omega⟩
  | succ k ih =>
      intro hn
      cases hp : f.publish with
      | none =>
          unfold publish at hp
          -- Something is left to publish, so publishing is possible.
          rw [dif_pos (by omega)] at hp
          exact absurd hp (by simp only [reduceCtorEq, not_false_eq_true])
      | some g =>
          rcases publish_eq_some hp with ⟨hc, hh, hb, ht, hpub⟩
          rcases ih (f := g) (by omega) (by omega) (by rw [hc]; exact hn) with
            ⟨u, hu, hcu, hhu, hbu, htu, hpu⟩
          have hfirst : Core.Reaches step Core.always f g :=
            Core.reaches_step (Core.reaches_refl _ _ _) Action.publish trivial hp
          exact ⟨u, Core.reaches_trans hfirst hu, hcu.trans hc, hhu.trans hh, hbu.trans hb,
            htu.trans ht, hpu⟩

end Fifo

/-- A command as a proxy holds it: the queue it was read from, its position
    there, and the record. -/
structure Polled where
  fifo : Nat
  seq : Nat
  cmd : TransferCmd
  deriving DecidableEq, Repr

end Internode

end MKernel
