import MKernel.Internode.D2HFifo.Invariant

/-!
# What the Ring Delivers

The ring does what a command queue is for, in its own terms: the records
`poll` has returned are the claimed commands, in claim order and byte for
byte; none is missing once every claimed slot is written and the host finds
the type byte empty; a push that stores into a cell finds the command of the
lap before already polled; and the counters are ordered.

Two things have to be granted. The order of `tail_cache` and `tail` needs a
tail that only advances, which is how both proxies call `advance_tail`, and
the rest needs the 64-bit `head` not to have wrapped. `counters_unordered` is
a run without each.

## Main definitions

* `AllWritten`: Every claimed slot is written.
* `PollEmpty`: A poll would return false.

## Theorems

* `Inv.written_iff`: The type byte tells whether the slot is written.
* `fifo_delivers`: Delivery, completeness, no early overwrite, ordered counters.
* `counters_unordered`: A tail that moves back, and a head that wraps.
-/

namespace MKernel

namespace Internode

namespace D2HFifo

open MKernel.Core

variable {P : Type} {capacity : Capacity} {s : State P}

/-- Every claimed slot is written. -/
def AllWritten (s : State P) : Prop := ∀ j, j < s.claimed.length → Written s j

/-- The host is between polls, and the next one would return false. -/
def PollEmpty (capacity : Capacity) (s : State P) : Prop :=
  s.poll = .idle ∧ cmdTypeByte (s.triggers (slotIndex capacity s.cpuHead)) = 0

/-- The host has polled as many commands as it has advanced over. -/
theorem Inv.length_polled (h : Inv capacity s) : s.polled.length = s.cpuHead := by
  rw [h.polled_eq, List.length_map, List.length_take, Nat.min_eq_left h.cpuHead_le]

theorem not_cleared_of_idle (hp : s.poll = .idle) (j : Nat) : ¬ Cleared s j := by
  rintro ⟨_, out, hout⟩
  rw [hp] at hout
  exact absurd hout (by simp only [reduceCtorEq, not_false_eq_true])

/-- An empty type byte means the slot at `cpu_head` is not written. -/
theorem Inv.written_iff (h : Inv capacity s) (hp : s.poll = .idle) :
    Written s s.cpuHead ↔ cmdTypeByte (s.triggers (slotIndex capacity s.cpuHead)) ≠ 0 := by
  rw [slotIndex_eq_mod]
  constructor
  · intro hw
    exact h.type_of_full (Nat.le_refl _) ⟨hw, not_cleared_of_idle hp _⟩
  · intro ht
    exact (h.full_of_type (Nat.le_refl _) h.cpuHead_lt ht).1

/-- A host that finds nothing although every claimed slot is written has
    polled every command. -/
theorem Inv.polled_all (h : Inv capacity s) (hw : AllWritten s) (he : PollEmpty capacity s) :
    s.polled = s.claimed.map TransferCmd.words := by
  have hnot : ¬ Written s s.cpuHead := fun hc => (h.written_iff he.1).mp hc he.2
  have hle : s.claimed.length ≤ s.cpuHead := by
    by_contra hc
    exact hnot (hw _ (by omega))
  rw [h.polled_eq, List.take_of_length_le hle]

/-- A push storing into a cell finds the earlier commands of that cell
    polled. -/
theorem Inv.polled_before_store (h : Inv capacity s) {p : P} {slot j wi : Nat} {cmd : TransferCmd}
    (hp : s.push p = .store slot cmd wi) (hj : j < slot)
    (hcell : slotIndex capacity j = slotIndex capacity slot) : j < s.polled.length := by
  rw [slotIndex_eq_mod, slotIndex_eq_mod] at hcell
  rw [h.length_polled]
  by_contra hge
  have hslot := (h.admitted p slot cmd wi hp).1
  have hwindow : s.cpuHead ≤ j ∧ j < s.cpuHead + capacity.val := by omega
  have heq : j = slot := window_inj hwindow.1 hwindow.2 (by omega) hslot hcell
  omega

section Runs

variable [DecidableEq P]

/-- In every interleaving, as long as fewer than `2 ^ 64` slots have been
    claimed: the polled records are the first claimed commands, byte for byte;
    all of them, once every claimed slot is written and `poll` finds nothing; a
    push stores over a command only after it was polled; and the counters are
    ordered, `tail_cache` and `tail` too if the tail never moved back. -/
theorem fifo_delivers (h : Reaches (step capacity) always (init P) s)
    (hbound : s.claimed.length < 2 ^ 64) :
    s.polled = (s.claimed.take s.polled.length).map TransferCmd.words ∧
    (AllWritten s → PollEmpty capacity s → s.polled = s.claimed.map TransferCmd.words) ∧
    (∀ p slot cmd wi j, s.push p = .store slot cmd wi → j < slot →
      slotIndex capacity j = slotIndex capacity slot → j < s.polled.length) ∧
    (s.tail ≤ s.cpuHead ∧ s.cpuHead ≤ s.head ∧ s.tailCache ≤ s.cpuHead) ∧
    (Reaches (step capacity) Monotone (init P) s → s.tailCache ≤ s.tail) := by
  have hinv := inv_of_reaches h hbound
  refine ⟨?_, hinv.polled_all, ?_, ⟨hinv.tail_le, ?_, hinv.cache_le⟩, cache_le_tail_of_reaches⟩
  · rw [hinv.length_polled]
    exact hinv.polled_eq
  · intro p slot cmd wi j hp hj hcell
    exact hinv.polled_before_store hp hj hcell
  · rw [hinv.head_eq]
    exact hinv.cpuHead_le

end Runs

/-- A ring of one slot. -/
def oneSlot : Capacity := ⟨1, Nat.one_ne_zero, Nat.and_zero 1⟩

/-- One thread pushes and is polled, and the tail follows; a second thread
    claims the slot of the next lap and takes the new tail into the cache. -/
def secondLap : List (Action Bool) :=
  let cmd : TransferCmd := { TransferCmd.zero with cmdType := .write, tileId := 7 }
  [Action.push false cmd] ++ List.replicate 7 (Action.device false) ++
    List.replicate 9 Action.host ++
    [Action.advanceTail 1, .push true cmd] ++ List.replicate 3 (Action.device true)

/-- The ring after `secondLap`. -/
def secondLapState : State Bool :=
  (run (step oneSlot) always secondLap (init Bool)).get (by decide)

theorem reaches_secondLapState : Reaches (step oneSlot) always (init Bool) secondLapState :=
  reaches_of_run secondLap _ _ (Option.some_get _).symm

theorem fifo_delivers_second_lap :
    secondLapState.polled.length = 1 ∧
    secondLapState.polled = (secondLapState.claimed.take 1).map TransferCmd.words :=
  ⟨by decide, (fifo_delivers reaches_secondLapState (by decide)).1⟩

section Wrap

variable {base : Nat}

/-- Idle threads can claim any number of slots, and `head` counts them modulo
    `2 ^ 64`. -/
theorem reaches_claims {s : State Nat} (hidle : ∀ p, base ≤ p → s.push p = .idle)
    (hhead : s.head < 2 ^ 64) : ∀ k, ∃ t, Reaches (step capacity) always s t ∧
      t.head = u64 (s.head + k) ∧ t.cpuHead = s.cpuHead ∧
      ∀ p, base + k ≤ p → t.push p = .idle := by
  intro k
  induction k with
  | zero => exact ⟨s, reaches_refl _ _ _, (Nat.mod_eq_of_lt hhead).symm, rfl, hidle⟩
  | succ k ih =>
      rcases ih with ⟨t, ht, hth, htc, hti⟩
      let cmd : TransferCmd := { TransferCmd.zero with cmdType := .write }
      have hcmd : cmd.cmdType ≠ .empty := by decide
      have hstep : step capacity t (.push (base + k) cmd) = some { t with
          head := u64 (t.head + 1)
          push := Function.update t.push (base + k) (.test t.head cmd)
          claimed := t.claimed ++ [cmd] } := by
        rw [step, if_pos ⟨hti _ (Nat.le_refl _), hcmd⟩]
      refine ⟨_, reaches_step ht _ trivial hstep, ?_, htc, fun p hp => ?_⟩
      · simp only [u64, hth, Nat.mod_add_mod, Nat.add_assoc]
      · have hne : p ≠ base + k := by omega
        exact (Function.update_of_ne hne _ _).trans (hti p (by omega))

end Wrap

/-- One thread pushes and is polled. -/
def firstPoll : List (Action Nat) :=
  .push 0 { TransferCmd.zero with cmdType := .write } ::
    (List.replicate 7 (Action.device 0) ++ List.replicate 9 Action.host)

/-- The ring after `firstPoll`. -/
def firstPollState : State Nat :=
  (run (step oneSlot) always firstPoll (init Nat)).get (by decide)

/-- The counters are not ordered in every reachable state: `advance_tail` may
    be called with a smaller value than before, which leaves the cached tail
    above the tail, and after `2 ^ 64` claims `head` is back at zero. -/
theorem counters_unordered :
    (∃ s, Reaches (step oneSlot) always (init Bool) s ∧ ¬ s.tailCache ≤ s.tail) ∧
    (∃ s, Reaches (step oneSlot) always (init Nat) s ∧ ¬ s.cpuHead ≤ s.head) := by
  constructor
  · have hstep : step oneSlot secondLapState (.advanceTail 0)
        = some { secondLapState with tail := 0 } := rfl
    exact ⟨_, reaches_step reaches_secondLapState _ trivial hstep, by decide⟩
  · have hfirst : Reaches (step oneSlot) always (init Nat) firstPollState :=
      reaches_of_run firstPoll _ _ (Option.some_get _).symm
    have hidle : ∀ p, 1 ≤ p → firstPollState.push p = .idle := by
      intro p hp
      cases p with
      | zero => omega
      | succ p => rfl
    rcases @reaches_claims oneSlot 1 firstPollState hidle (by decide) (2 ^ 64 - 1) with
      ⟨t, ht, hth, htc, -⟩
    refine ⟨t, reaches_trans hfirst ht, ?_⟩
    have hhead : firstPollState.head = 1 := by decide
    have hcpu : firstPollState.cpuHead = 1 := by decide
    rw [hth, htc, hhead, hcpu, u64]
    omega

end D2HFifo

end Internode

end MKernel
