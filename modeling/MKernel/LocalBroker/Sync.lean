import Mathlib.Algebra.Order.BigOperators.Ring.Finset
import MKernel.Core.System
import MKernel.Core.Tally

/-!
# The Barrier of the Local Broker

`sync` of the broker, by which the processes of a node meet any number of times.

The processes share a counter and a sense. A process adds one to the counter, and the last
to do so sets the sense, for which all wait. Then each takes one off again, and the last to
do so clears the sense, for which all wait once more. So the counter is that of the
processes that are between the two (`Pc.weight`), and there are two kinds of states: while
the sense is clear the processes collect, and some may still be on their way out of the call
before, and while it is set all are in the same call (`Inv`). The process that saw
the last number is the one that turns the sense, and no process can see that number again
before it did.

The broker is constructed, so its vault has the init code. Each access to the vault is one
step, and a pass of a spin loop that goes on is none.

## Main definitions

* `Vault`: The shared words.
* `Pc`: Where a process is in `sync`.
* `syncStep`: The next step of a process.
* `State`, `step`: All processes.
* `entered`: The calls a process has entered.
* `Half`, `Collecting`, `Releasing`, `Inv`: The two kinds of states.

## Theorems

* `inv_step`: What every step keeps.
* `round_le_entered`: Nobody leaves a call that somebody has not entered.
* `exists_step`: In a call that all have entered somebody can go on.
* `exists_left`: All leave it, by steps of their own.
-/

namespace MKernel

namespace LocalBroker

open MKernel.Core

/-- The words of the vault that `sync` uses. -/
structure Vault where
  barrier : Int
  sense : Bool
deriving DecidableEq

/-- Where a process is in `sync`. -/
inductive Pc where
  | outside
  /-- About to add one. -/
  | arriving
  /-- The counter was `count` after the addition. -/
  | arrived (count : Int)
  /-- Spins until the sense is set. -/
  | waiting
  /-- About to take one off. -/
  | departing
  /-- The counter was `count` after that. -/
  | departed (count : Int)
  /-- Spins until the sense is clear. -/
  | leaving
deriving DecidableEq

/-- The next step of a process in `sync`, if it need not wait. -/
def syncStep (worldSize : Nat) (v : Vault) : Pc → Option (Vault × Pc)
  | .outside => some (v, .arriving)
  | .arriving => some ({ v with barrier := v.barrier + 1 }, .arrived (v.barrier + 1))
  | .arrived count =>
      some (if count = worldSize then { v with sense := true } else v, .waiting)
  | .waiting => if v.sense = true then some (v, .departing) else none
  | .departing => some ({ v with barrier := v.barrier - 1 }, .departed (v.barrier - 1))
  | .departed count => some (if count = 0 then { v with sense := false } else v, .leaving)
  | .leaving => if v.sense = true then none else some (v, .outside)

/-- The steps that a process has left in a call. -/
def Pc.left : Pc → Nat
  | .outside => 7
  | .arriving => 6
  | .arrived _ => 5
  | .waiting => 4
  | .departing => 3
  | .departed _ => 2
  | .leaving => 1

theorem Pc.left_pos (c : Pc) : 0 < c.left := by
  cases c <;> simp only [Pc.left, Nat.reduceLT, Nat.lt_add_one]

/-- What a process counts for in the counter. -/
def Pc.weight : Pc → Nat
  | .arrived _ | .waiting | .departing => 1
  | _ => 0

theorem Pc.weight_le (c : Pc) : c.weight ≤ 1 := by
  unfold Pc.weight
  split <;> omega

/-- A vault as `init_sync` leaves it. -/
def Vault.init : Vault where
  barrier := 0
  sense := false

namespace Sync

/-- The processes and their vault, with the number of calls each has left. -/
structure State (n : Nat) where
  vault : Vault
  pc : Fin n → Pc
  round : Fin n → Nat

variable {n : Nat}

def init : State n where
  vault := Vault.init
  pc := fun _ => .outside
  round := fun _ => 0

/-- A process that has made a step in the vault. -/
def State.move (s : State n) (p : Fin n) (next : Vault × Pc) : State n where
  vault := next.1
  pc := Function.update s.pc p next.2
  round := Function.update s.round p (s.round p + if next.2 = .outside then 1 else 0)

/-- One step of a process. -/
def step (s : State n) (p : Fin n) : Option (State n) :=
  (syncStep n s.vault (s.pc p)).map (s.move p)

/-- The calls a process has entered. -/
def entered (s : State n) (p : Fin n) : Nat := s.round p + if s.pc p = .outside then 0 else 1

/-- The process is in its call number `k`. -/
def Inside (k : Nat) (s : State n) (p : Fin n) : Prop := s.round p = k ∧ s.pc p ≠ .outside

instance (k : Nat) (s : State n) (p : Fin n) : Decidable (Inside k s p) :=
  inferInstanceAs (Decidable (_ ∧ _))

/-! ## The two kinds of states -/

variable {s t : State n} {p q : Fin n} {k : Nat}

theorem move_pc_self (next : Vault × Pc) : (s.move p next).pc p = next.2 :=
  Function.update_self ..

theorem move_pc_ne (next : Vault × Pc) (h : q ≠ p) : (s.move p next).pc q = s.pc q :=
  Function.update_of_ne h ..

theorem move_round_self {next : Vault × Pc} (h : next.2 ≠ .outside) :
    (s.move p next).round p = s.round p := by
  simp only [State.move, Function.update_self, if_neg h, Nat.add_zero]

theorem move_round_outside (v : Vault) : (s.move p (v, .outside)).round p = s.round p + 1 :=
  Function.update_self ..

theorem move_round_ne (next : Vault × Pc) (h : q ≠ p) : (s.move p next).round q = s.round q :=
  Function.update_of_ne h ..

/-- The counter after a step of one process. -/
theorem sum_weight_move (s : State n) (p : Fin n) (next : Vault × Pc) :
    (∑ q, (((s.move p next).pc q).weight : Int)) =
      (∑ q, ((s.pc q).weight : Int)) + next.2.weight - (s.pc p).weight := by
  rw [← Tally.sum_update (fun q => (s.pc q).weight) p next.2.weight]
  refine Finset.sum_congr rfl fun q _ => ?_
  by_cases hq : q = p
  · rw [hq, move_pc_self, if_pos rfl]
  · rw [move_pc_ne next hq, if_neg hq]

/-- All processes count where the counter is full. -/
theorem weight_of_full (h : (∑ q, ((s.pc q).weight : Int)) = n) (p : Fin n) :
    (s.pc p).weight = 1 := by
  by_contra hne
  have hle := (s.pc p).weight_le
  have hlt : ∑ q, ((s.pc q).weight : Int) < ∑ _q : Fin n, (1 : Int) := by
    refine Finset.sum_lt_sum (fun q _ => ?_) ⟨p, Finset.mem_univ p, ?_⟩
    · exact_mod_cast (s.pc q).weight_le
    · omega
  rw [h, Finset.sum_const, Finset.card_univ, Fintype.card_fin, nsmul_eq_mul, mul_one] at hlt
  omega

/-- None does where it is zero. -/
theorem weight_of_empty (h : (∑ q, ((s.pc q).weight : Int)) = 0) (p : Fin n) :
    (s.pc p).weight = 0 := by
  have hzero := (Finset.sum_eq_zero_iff_of_nonneg fun q _ => Int.natCast_nonneg _).mp h p
    (Finset.mem_univ p)
  omega

/-- Where a process is while call `k` collects. -/
def Collects (k : Nat) : Pc → Nat → Prop
  | .outside, r | .arriving, r | .arrived _, r | .waiting, r => r = k
  | .departing, _ => False
  | .departed _, r | .leaving, r => r + 1 = k

/-- Where a process is while call `k` is released. -/
def Releases (k : Nat) : Pc → Nat → Prop
  | .outside, _ | .arriving, _ => False
  | .arrived _, r | .waiting, r | .departing, r | .departed _, r | .leaving, r => r = k

theorem Collects.releases {c : Pc} {r : Nat} (h : Collects k c r) (hw : c.weight = 1) :
    Releases k c r := by
  cases c with
  | arrived | waiting => exact h
  | departing => exact h.elim
  | _ => exact absurd hw (by simp only [Pc.weight, zero_ne_one, not_false_eq_true])

theorem Releases.collects {c : Pc} {r : Nat} (h : Releases k c r) (hw : c.weight = 0) :
    Collects (k + 1) c r := by
  cases c with
  | outside | arriving => exact h.elim
  | departed | leaving => exact congrArg (· + 1) h
  | _ => exact absurd hw (by simp only [Pc.weight, one_ne_zero, not_false_eq_true])

/-- Half of a call, in which the sense does not change and the processes are where `Stands` says.
    Whoever saw the number that ends it, which is `value`, has not turned the sense yet. -/
structure Half (sense : Bool) (Stands : Pc → Nat → Prop) (ends : Pc) (value : Int)
    (s : State n) : Prop where
  sense : s.vault.sense = sense
  count : s.vault.barrier = ∑ q, ((s.pc q).weight : Int)
  place : ∀ q, Stands (s.pc q) (s.round q)
  seen : ∀ q, s.pc q = ends → s.vault.barrier = value
  last : 0 < n → s.vault.barrier = value → ∃ q, s.pc q = ends

/-- The sense is clear: the processes enter call `k`, or leave the one before, until the counter
    is full. -/
abbrev Collecting (k : Nat) (s : State n) : Prop := Half false (Collects k) (.arrived n) n s

/-- The sense is set: all are in call `k`, until the counter is empty. -/
abbrev Releasing (k : Nat) (s : State n) : Prop := Half true (Releases k) (.departed 0) 0 s

/-- What every step keeps. -/
def Inv (s : State n) : Prop := ∃ k, Collecting k s ∨ Releasing k s

theorem inv_init : Inv (init : State n) := by
  refine ⟨0, Or.inl ⟨rfl, ?_, fun _ => rfl, ?_, ?_⟩⟩
  · exact (Finset.sum_eq_zero fun _ _ => rfl).symm
  · intro q h
    exact absurd h (by simp only [init, reduceCtorEq, not_false_eq_true])
  · intro hn h
    have h0 : (0 : Int) = n := h
    omega

/-! ## One step -/

theorem step_eq_some (h : step s p = some t) :
    ∃ next, syncStep n s.vault (s.pc p) = some next ∧ t = s.move p next := by
  rcases Option.map_eq_some_iff.mp h with ⟨next, hnext, ht⟩
  exact ⟨next, hnext, ht.symm⟩

/-- A place of all processes after one of them has moved. -/
theorem place_move {P : Pc → Nat → Prop} (h : ∀ q, P (s.pc q) (s.round q)) (next : Vault × Pc)
    (hp : P next.2 ((s.move p next).round p)) (q : Fin n) :
    P ((s.move p next).pc q) ((s.move p next).round q) := by
  by_cases hq : q = p
  · rw [hq, move_pc_self]
    exact hp
  · rw [move_pc_ne next hq, move_round_ne next hq]
    exact h q

theorem exists_move {c : Pc} (h : ∃ q, s.pc q = c) (hne : s.pc p ≠ c) (next : Vault × Pc) :
    ∃ q, (s.move p next).pc q = c := by
  rcases h with ⟨q, hq⟩
  have hqp : q ≠ p := fun heq => hne (heq ▸ hq)
  exact ⟨q, (move_pc_ne next hqp).trans hq⟩

section Half

variable {sense : Bool} {Stands : Pc → Nat → Prop} {ends b c : Pc} {value : Int}

/-- A step that leaves the vault, and what the process counts for, and does not
    begin or end with a last one, stays in its half. -/
theorem half_move (h : Half sense Stands ends value s) (hpc : s.pc p = b)
    (hw : c.weight = b.weight) (hplace : Stands c ((s.move p (s.vault, c)).round p))
    (hlast : b ≠ ends) (hseen : c ≠ ends) :
    Half sense Stands ends value (s.move p (s.vault, c)) where
  sense := h.sense
  count := by
    rw [sum_weight_move, hpc, hw, ← h.count]
    simp only [State.move]
    omega
  place := place_move h.place _ hplace
  seen := by
    intro q hq
    by_cases hqp : q = p
    · rw [hqp, move_pc_self] at hq
      exact absurd hq hseen
    · rw [move_pc_ne _ hqp] at hq
      exact h.seen q hq
  last := fun hn hfull => exists_move (h.last hn hfull) (by rw [hpc]; exact hlast) _

/-- A step that counts does so too. It cannot come after the number that ends the half, and the
    process is a last one if it saw that number. -/
theorem half_count (h : Half sense Stands ends value s) (hpc : s.pc p = b) {barrier : Int}
    (hw : barrier = s.vault.barrier + c.weight - b.weight)
    (hplace : Stands c ((s.move p ({ s.vault with barrier := barrier }, c)).round p))
    (hne : s.vault.barrier ≠ value) (hends : c = ends ↔ barrier = value) :
    Half sense Stands ends value (s.move p ({ s.vault with barrier := barrier }, c)) where
  sense := h.sense
  count := by
    rw [sum_weight_move, hpc, ← h.count]
    exact hw
  place := place_move h.place _ hplace
  seen := by
    intro q hq
    by_cases hqp : q = p
    · rw [hqp, move_pc_self] at hq
      exact hends.mp hq
    · rw [move_pc_ne _ hqp] at hq
      exact absurd (h.seen q hq) hne
  last := fun _ hvalue => ⟨p, (move_pc_self _).trans (hends.mpr hvalue)⟩

/-- The last one turns the sense, and the other half begins, of which nobody has seen the end. -/
theorem half_turn {sense' : Bool} {Stands' : Pc → Nat → Prop} {ends' : Pc} {value' : Int}
    (h : Half sense Stands ends value s) (hpc : s.pc p = ends) (hw : c.weight = ends.weight)
    (hplace : ∀ q, Stands' (s.pc q) (s.round q))
    (hp : Stands' c ((s.move p ({ s.vault with sense := sense' }, c)).round p))
    (hends : ∀ q, s.pc q ≠ ends') (hc : c ≠ ends') (hvalue : 0 < n → value ≠ value') :
    Half sense' Stands' ends' value' (s.move p ({ s.vault with sense := sense' }, c)) where
  sense := rfl
  count := by
    -- The last one leaves the weight as it was, so the count is that of the other half.
    rw [sum_weight_move, hpc, hw, ← h.count]
    simp only [State.move]
    omega
  place := place_move hplace _ hp
  seen := by
    intro q hq
    -- Only the last one stands at an end, and it is not that of the other half.
    by_cases hqp : q = p
    · rw [hqp, move_pc_self] at hq
      exact absurd hq hc
    · rw [move_pc_ne _ hqp] at hq
      exact absurd hq (hends q)
  last := fun hn hend => absurd ((h.seen p hpc).symm.trans hend) (hvalue hn)

end Half

/-- One more has come. -/
theorem collecting_add (h : Collecting k s) (hpc : s.pc p = .arriving) :
    Collecting k (s.move p ({ s.vault with barrier := s.vault.barrier + 1 },
      .arrived (s.vault.barrier + 1))) := by
  refine half_count h hpc ?_ ?_ (fun hfull => ?_) ?_
  · simp only [Pc.weight]
    omega
  · have hround := h.place p
    rw [hpc] at hround
    rw [move_round_self (by simp only [reduceCtorEq, not_false_eq_true, ne_eq])]
    exact hround
  · -- The process does not count yet, so the counter is not full.
    have hone := weight_of_full (h.count.symm.trans hfull) p
    rw [hpc] at hone
    exact absurd hone (by decide)
  · rw [Pc.arrived.injEq]

/-- The last to come lets all go. -/
theorem releasing_of_last (h : Collecting k s) (hpc : s.pc p = .arrived n) :
    Releasing k (s.move p ({ s.vault with sense := true }, .waiting)) := by
  have hfull := weight_of_full (h.count.symm.trans (h.seen p hpc))
  refine half_turn h hpc rfl (fun q => (h.place q).releases (hfull q)) ?_ (fun q hq => ?_) ?_ ?_
  · rw [move_round_self (by simp only [reduceCtorEq, not_false_eq_true, ne_eq])]
    have hround := h.place p
    rw [hpc] at hround
    exact hround
  · have hone := hfull q
    rw [hq] at hone
    exact absurd hone (by decide)
  · simp only [reduceCtorEq, not_false_eq_true, ne_eq]
  · omega

/-- One has taken its one off. -/
theorem releasing_sub (h : Releasing k s) (hpc : s.pc p = .departing) :
    Releasing k (s.move p ({ s.vault with barrier := s.vault.barrier - 1 },
      .departed (s.vault.barrier - 1))) := by
  refine half_count h hpc ?_ ?_ (fun hempty => ?_) ?_
  · simp only [Pc.weight]
    omega
  · have hround := h.place p
    rw [hpc] at hround
    rw [move_round_self (by simp only [reduceCtorEq, not_false_eq_true, ne_eq])]
    exact hround
  · -- The process still counts, so the counter is not empty.
    have hzero := weight_of_empty (h.count.symm.trans hempty) p
    rw [hpc] at hzero
    exact absurd hzero (by decide)
  · rw [Pc.departed.injEq]

/-- The last to go lets all begin again. -/
theorem collecting_of_last (h : Releasing k s) (hpc : s.pc p = .departed 0) :
    Collecting (k + 1) (s.move p ({ s.vault with sense := false }, .leaving)) := by
  have hempty := weight_of_empty (h.count.symm.trans (h.seen p hpc))
  refine half_turn h hpc rfl (fun q => (h.place q).collects (hempty q)) ?_ (fun q hq => ?_) ?_ ?_
  · rw [move_round_self (by simp only [reduceCtorEq, not_false_eq_true, ne_eq])]
    have hround := h.place p
    rw [hpc] at hround
    exact congrArg (· + 1) hround
  · have hzero := hempty q
    rw [hq] at hzero
    exact absurd hzero (by simp only [Pc.weight, one_ne_zero, not_false_eq_true])
  · simp only [reduceCtorEq, not_false_eq_true, ne_eq]
  · omega

theorem collecting_step (h : Collecting k s) (hstep : step s p = some t) : Inv t := by
  rcases step_eq_some hstep with ⟨next, hnext, rfl⟩
  have hplace := h.place p
  cases hpc : s.pc p with
  | outside =>
      rw [hpc] at hnext hplace
      cases hnext
      refine ⟨k, Or.inl (half_move h hpc rfl ?_ ?_ ?_)⟩
      · rw [move_round_self (by simp only [reduceCtorEq, not_false_eq_true, ne_eq])]
        exact hplace
      · simp only [reduceCtorEq, not_false_eq_true, ne_eq]
      · simp only [reduceCtorEq, not_false_eq_true, ne_eq]
  | arriving =>
      rw [hpc] at hnext
      cases hnext
      exact ⟨k, Or.inl (collecting_add h hpc)⟩
  | arrived c =>
      rw [hpc] at hnext hplace
      by_cases hc : c = n
      · rw [syncStep, if_pos hc] at hnext
        cases hnext
        exact ⟨k, Or.inr (releasing_of_last h (hc ▸ hpc))⟩
      · rw [syncStep, if_neg hc] at hnext
        cases hnext
        refine ⟨k, Or.inl (half_move h hpc rfl ?_ ?_ ?_)⟩
        · rw [move_round_self (by simp only [reduceCtorEq, not_false_eq_true, ne_eq])]
          exact hplace
        · exact fun heq => hc (Pc.arrived.inj heq)
        · simp only [reduceCtorEq, not_false_eq_true, ne_eq]
  | waiting =>
      rw [hpc, syncStep, h.sense] at hnext
      exact absurd hnext (by simp only [Bool.false_eq_true, if_false, reduceCtorEq,
        not_false_eq_true])
  | departing =>
      rw [hpc] at hplace
      exact hplace.elim
  | departed c =>
      rw [hpc] at hnext hplace
      -- To clear the sense again changes nothing.
      have hvault : (if c = 0 then { s.vault with sense := false } else s.vault) = s.vault := by
        by_cases hc : c = 0
        · rw [if_pos hc, ← h.sense]
        · rw [if_neg hc]
      rw [syncStep, hvault] at hnext
      cases hnext
      refine ⟨k, Or.inl (half_move h hpc rfl ?_ ?_ ?_)⟩
      · rw [move_round_self (by simp only [reduceCtorEq, not_false_eq_true, ne_eq])]
        exact hplace
      · simp only [reduceCtorEq, not_false_eq_true, ne_eq]
      · simp only [reduceCtorEq, not_false_eq_true, ne_eq]
  | leaving =>
      rw [hpc] at hnext hplace
      rw [syncStep, h.sense] at hnext
      cases hnext
      refine ⟨k, Or.inl (half_move h hpc rfl ?_ ?_ ?_)⟩
      · rw [move_round_outside]
        exact hplace
      · simp only [reduceCtorEq, not_false_eq_true, ne_eq]
      · simp only [reduceCtorEq, not_false_eq_true, ne_eq]

theorem releasing_step (h : Releasing k s) (hstep : step s p = some t) : Inv t := by
  rcases step_eq_some hstep with ⟨next, hnext, rfl⟩
  have hplace := h.place p
  cases hpc : s.pc p with
  | outside | arriving =>
      rw [hpc] at hplace
      exact hplace.elim
  | arrived c =>
      rw [hpc] at hnext hplace
      -- To set the sense again changes nothing.
      have hvault : (if c = n then { s.vault with sense := true } else s.vault) = s.vault := by
        by_cases hc : c = n
        · rw [if_pos hc, ← h.sense]
        · rw [if_neg hc]
      rw [syncStep, hvault] at hnext
      cases hnext
      refine ⟨k, Or.inr (half_move h hpc rfl ?_ ?_ ?_)⟩
      · rw [move_round_self (by simp only [reduceCtorEq, not_false_eq_true, ne_eq])]
        exact hplace
      · simp only [reduceCtorEq, not_false_eq_true, ne_eq]
      · simp only [reduceCtorEq, not_false_eq_true, ne_eq]
  | waiting =>
      rw [hpc] at hnext hplace
      rw [syncStep, if_pos h.sense] at hnext
      cases hnext
      refine ⟨k, Or.inr (half_move h hpc rfl ?_ ?_ ?_)⟩
      · rw [move_round_self (by simp only [reduceCtorEq, not_false_eq_true, ne_eq])]
        exact hplace
      · simp only [reduceCtorEq, not_false_eq_true, ne_eq]
      · simp only [reduceCtorEq, not_false_eq_true, ne_eq]
  | departing =>
      rw [hpc] at hnext
      cases hnext
      exact ⟨k, Or.inr (releasing_sub h hpc)⟩
  | departed c =>
      rw [hpc] at hnext hplace
      by_cases hc : c = 0
      · rw [syncStep, if_pos hc] at hnext
        cases hnext
        exact ⟨k + 1, Or.inl (collecting_of_last h (hc ▸ hpc))⟩
      · rw [syncStep, if_neg hc] at hnext
        cases hnext
        refine ⟨k, Or.inr (half_move h hpc rfl ?_ ?_ ?_)⟩
        · rw [move_round_self (by simp only [reduceCtorEq, not_false_eq_true, ne_eq])]
          exact hplace
        · exact fun heq => hc (Pc.departed.inj heq)
        · simp only [reduceCtorEq, not_false_eq_true, ne_eq]
  | leaving =>
      rw [hpc, syncStep, if_pos h.sense] at hnext
      exact absurd hnext (by simp only [reduceCtorEq, not_false_eq_true])

/-- What every step keeps. -/
theorem inv_step (hinv : Inv s) (h : step s p = some t) : Inv t := by
  rcases hinv with ⟨k, hc | hr⟩
  · exact collecting_step hc h
  · exact releasing_step hr h

theorem inv_of_reaches {ok : State n → Fin n → Prop} (h : Reaches step ok init s) : Inv s :=
  invariant_of_reaches Inv (fun _ _ _ hinv _ hstep => inv_step hinv hstep) h inv_init

/-! ## Over whole runs -/

theorem Collects.bounds {c : Pc} {r : Nat} (h : Collects k c r) :
    r ≤ k ∧ k ≤ r + if c = .outside then 0 else 1 := by
  cases c <;> simp only [Collects] at h <;>
    simp only [reduceCtorEq, if_true, if_false] <;> omega

theorem Releases.bounds {c : Pc} {r : Nat} (h : Releases k c r) : r = k ∧ c ≠ .outside := by
  cases c <;> simp only [Releases] at h <;>
    exact ⟨h, by simp only [reduceCtorEq, not_false_eq_true, ne_eq]⟩

/-- Nobody has left a call that somebody has not entered. -/
theorem round_le_entered (hinv : Inv s) (p q : Fin n) : s.round p ≤ entered s q := by
  rcases hinv with ⟨k, hc | hr⟩
  · exact Nat.le_trans (hc.place p).bounds.1 (hc.place q).bounds.2
  · have hp := (hr.place p).bounds
    have hq := (hr.place q).bounds
    rw [entered, if_neg hq.2]
    omega

/-- Every spin loop ends when the sense is what it waits for. -/
theorem isSome_step (h : ¬ (s.pc p = .waiting ∧ s.vault.sense = false))
    (h' : ¬ (s.pc p = .leaving ∧ s.vault.sense = true)) : (step s p).isSome := by
  rw [step, Option.isSome_map]
  cases hpc : s.pc p with
  | waiting =>
      have hsense : s.vault.sense = true := by
        cases hs : s.vault.sense with
        | true => rfl
        | false => exact absurd ⟨hpc, hs⟩ h
      simp only [syncStep, hsense, if_true, Option.isSome_some]
  | leaving =>
      have hsense : s.vault.sense = false := by
        cases hs : s.vault.sense with
        | false => rfl
        | true => exact absurd ⟨hpc, hs⟩ h'
      simp only [syncStep, hsense, Bool.false_eq_true, if_false, Option.isSome_some]
  | _ => rfl

theorem inside_of_entered (h : k < entered s p) (hround : s.round p ≤ k) : Inside k s p := by
  unfold entered at h
  by_cases hout : s.pc p = .outside
  · rw [if_pos hout] at h
    omega
  · rw [if_neg hout] at h
    exact ⟨by omega, hout⟩

theorem Collecting.inside (h : Collecting k s) (hall : ∀ q, k < entered s q) (q : Fin n) :
    Inside k s q :=
  inside_of_entered (hall q) (h.place q).bounds.1

/-- In a call that all have entered somebody can go on. -/
theorem exists_step (hinv : Inv s) (hall : ∀ q, k < entered s q) (hp : Inside k s p) :
    ∃ q, Inside k s q ∧ (step s q).isSome := by
  have hn := p.isLt
  rcases hinv with ⟨j, hc | hr⟩
  · by_cases hjk : j = k
    · subst hjk
      by_cases hwait : ∀ q, s.pc q = .waiting
      · -- They do not all wait: one has seen the full counter.
        have hfull : s.vault.barrier = n := by
          rw [hc.count]
          simp only [hwait, Pc.weight, Nat.cast_one, Finset.sum_const, Finset.card_univ,
            Fintype.card_fin, nsmul_eq_mul, mul_one]
        rcases hc.last (by omega) hfull with ⟨q, hq⟩
        rw [hwait q] at hq
        exact absurd hq (by simp only [reduceCtorEq, not_false_eq_true])
      · push Not at hwait
        rcases hwait with ⟨q, hq⟩
        refine ⟨q, hc.inside hall q, isSome_step (fun h => hq h.1) fun h => ?_⟩
        rw [hc.sense] at h
        exact absurd h.2 (by decide)
    · -- The process is on its way out of the call before.
      refine ⟨p, hp, isSome_step (fun h => ?_) fun h => ?_⟩
      · have hplace := hc.place p
        rw [h.1, hp.1] at hplace
        exact hjk hplace.symm
      · rw [hc.sense] at h
        exact absurd h.2 (by decide)
  · have hinside : ∀ q, Inside k s q := fun q =>
      ⟨(hr.place q).bounds.1.trans ((hr.place p).bounds.1.symm.trans hp.1),
        (hr.place q).bounds.2⟩
    by_cases hleave : ∀ q, s.pc q = .leaving
    · have hempty : s.vault.barrier = 0 := by
        rw [hr.count]
        exact Finset.sum_eq_zero fun q _ => by rw [hleave q]; rfl
      rcases hr.last (by omega) hempty with ⟨q, hq⟩
      rw [hleave q] at hq
      exact absurd hq (by simp only [reduceCtorEq, not_false_eq_true])
    · push Not at hleave
      rcases hleave with ⟨q, hq⟩
      refine ⟨q, hinside q, isSome_step (fun h => ?_) fun h => hq h.1⟩
      rw [hr.sense] at h
      exact absurd h.2 (by decide)

/-! ## All leave -/

theorem syncStep_left {v : Vault} {c : Pc} {next : Vault × Pc}
    (h : syncStep n v c = some next) : next.2.left < c.left ∨ next.2 = .outside := by
  cases c with
  | waiting =>
      rw [syncStep, Option.ite_none_right_eq_some] at h
      cases h.2
      exact Or.inl (by simp only [Pc.left, Nat.reduceLT])
  | leaving =>
      rw [syncStep, Option.ite_none_left_eq_some] at h
      cases h.2
      exact Or.inr rfl
  | _ =>
      cases h
      exact Or.inl (by simp only [Pc.left, Nat.reduceLT])

/-- A call once entered stays entered. -/
theorem entered_le_of_step (h : step s p = some t) (q : Fin n) : entered s q ≤ entered t q := by
  rcases step_eq_some h with ⟨next, _, rfl⟩
  by_cases hq : q = p
  · rw [hq, entered, entered, move_pc_self]
    by_cases hout : next.2 = .outside
    · simp only [State.move, Function.update_self, if_pos hout]
      split <;> omega
    · rw [move_round_self hout, if_neg hout]
      split <;> omega
  · rw [entered, entered, move_pc_ne next hq, move_round_ne next hq]

/-- The steps of call `k` that are left. -/
def left (k : Nat) (s : State n) : Nat := ∑ q, if k < s.round q then 0 else (s.pc q).left

theorem left_lt (hin : Inside k s p) (h : step s p = some t) : left k t < left k s := by
  rcases step_eq_some h with ⟨next, hnext, rfl⟩
  have hpos := (s.pc p).left_pos
  have hround := hin.1
  have hlt : (if k < (s.move p next).round p then 0 else ((s.move p next).pc p).left) <
      if k < s.round p then 0 else (s.pc p).left := by
    rw [if_neg (by omega : ¬ k < s.round p), move_pc_self]
    rcases syncStep_left hnext with hless | hout
    · split <;> omega
    · rw [if_pos]
      · exact hpos
      · simp only [State.move, Function.update_self, if_pos hout]
        omega
  refine Finset.sum_lt_sum (fun q _ => ?_) ⟨p, Finset.mem_univ p, hlt⟩
  by_cases hq : q = p
  · rw [hq]
    exact Nat.le_of_lt hlt
  · rw [move_pc_ne next hq, move_round_ne next hq]

/-- All leave a call that all have entered, by steps of their own. -/
theorem exists_left (hinv : Inv s) (hall : ∀ q, k < entered s q) :
    ∃ t, Reaches step (Inside k) s t ∧ ∀ q, k < t.round q := by
  refine exists_goal (left k) fun t ht hgoal => ?_
  have hkeep : Inv t ∧ ∀ q, k < entered t q :=
    invariant_of_reaches (fun u => Inv u ∧ ∀ q, k < entered u q)
      (fun u p u' hu _ hstep => ⟨inv_step hu.1 hstep, fun q =>
        Nat.lt_of_lt_of_le (hu.2 q) (entered_le_of_step hstep q)⟩) ht ⟨hinv, hall⟩
  push Not at hgoal
  rcases hgoal with ⟨p, hp⟩
  rcases exists_step hkeep.1 hkeep.2 (inside_of_entered (hkeep.2 p) hp) with ⟨q, hq, hsome⟩
  rcases Option.isSome_iff_exists.mp hsome with ⟨u, hu⟩
  exact ⟨q, u, hq, hu, left_lt hq hu⟩

end Sync

end LocalBroker

end MKernel
