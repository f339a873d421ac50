import Mathlib.Algebra.BigOperators.Group.Finset.Piecewise
import Mathlib.Algebra.BigOperators.Ring.Finset
import Mathlib.Algebra.Order.BigOperators.Group.Finset

/-!
# Rounds Told by One Counter

Parties that come and go in rounds, with one counter of all that have come.

The counter is never set back. A party may come again once the counter is at the
number of parties times the rounds it has come for. This keeps the parties within one
round of each other (`Turns.come`): if one of them were a round behind, the others
could not make up for it, as none is more than a round ahead. So the counter tells
the rounds, though the comings of two rounds mix in it: it is at a multiple of the
number of parties just when all have come that often (`Turns.card_mul_le_iff`), and a
party that may come finds it in its own round (`Turns.sum_div`).

## Main definitions

* `Turns`: The parties keep to the rounds.

## Theorems

* `Turns.card_mul_le_iff`: What the counter tells.
* `Turns.sum_div`: What a party finds that comes.
* `Turns.come`, `Turns.go`: Parties that come and go keep to the rounds.
-/

namespace MKernel

namespace Core

variable {ι : Type*}

/-- The parties keep to the rounds: how often each has come, and which of them are within. -/
structure Turns (P : Finset ι) (came : ι → Nat) (inside : ι → Prop) : Prop where
  close : ∀ i ∈ P, ∀ j ∈ P, came i ≤ came j + 1
  free : ∀ i ∈ P, ¬ inside i → P.card * came i ≤ ∑ j ∈ P, came j

variable {P : Finset ι} {came : ι → Nat} {inside : ι → Prop}

/-- Before anyone has come. -/
theorem Turns.start (h : ∀ i ∈ P, came i = 0) : Turns P came inside := by
  refine ⟨fun i hi j _ => ?_, fun i hi _ => ?_⟩
  · rw [h i hi]
    exact Nat.zero_le _
  · rw [h i hi, Nat.mul_zero]
    exact Nat.zero_le _

/-- The counter is at so many rounds of all parties just when all have come for them. -/
theorem Turns.card_mul_le_iff (h : Turns P came inside) (n : Nat) :
    P.card * n ≤ ∑ j ∈ P, came j ↔ ∀ j ∈ P, n ≤ came j := by
  constructor
  · intro hle
    by_contra hnot
    push Not at hnot
    obtain ⟨j, hj, hlt⟩ := hnot
    -- With one party behind nobody is ahead.
    have hall : ∀ k ∈ P, came k ≤ n := fun k hk => by
      have hclose := h.close k hk j hj
      omega
    have hsum : ∑ k ∈ P, came k < ∑ _k ∈ P, n := Finset.sum_lt_sum hall ⟨j, hj, hlt⟩
    rw [Finset.sum_const, nsmul_eq_mul, Nat.cast_id] at hsum
    omega
  · intro hall
    have hsum : ∑ _k ∈ P, n ≤ ∑ k ∈ P, came k := Finset.sum_le_sum hall
    rw [Finset.sum_const, nsmul_eq_mul, Nat.cast_id] at hsum
    exact hsum

/-- A party that comes finds the counter in its own round. -/
theorem Turns.sum_div (h : Turns P came inside) {i : ι} (hi : i ∈ P) (hfree : ¬ inside i) :
    (∑ j ∈ P, came j) / P.card = came i := by
  have hle := h.free i hi hfree
  have hlt : ∑ j ∈ P, came j < ∑ _j ∈ P, (came i + 1) :=
    Finset.sum_lt_sum (fun j hj => h.close j hj i hi) ⟨i, hi, Nat.lt_succ_self _⟩
  rw [Finset.sum_const, nsmul_eq_mul, Nat.cast_id] at hlt
  rw [Nat.mul_comm] at hle hlt
  exact Nat.div_eq_of_lt_le hle hlt

/-- A party goes that finds the counter at its round. -/
theorem Turns.go {inside' : ι → Prop} (h : Turns P came inside) {i : ι}
    (hle : P.card * came i ≤ ∑ j ∈ P, came j) (hinside : ∀ j, ¬ inside' j → j = i ∨ ¬ inside j) :
    Turns P came inside' := by
  refine ⟨h.close, fun j hj hj' => ?_⟩
  rcases hinside j hj' with rfl | hout
  · exact hle
  · exact h.free j hj hout

variable [DecidableEq ι] {came' : ι → Nat}

/-- The counter counts who comes. -/
theorem sum_came {i : ι} (hi : i ∈ P) (hcame : came' = Function.update came i (came i + 1)) :
    ∑ j ∈ P, came' j = ∑ j ∈ P, came j + 1 := by
  rw [hcame, Finset.sum_update_of_mem hi, ← Finset.add_sum_erase P came hi,
    Finset.sdiff_singleton_eq_erase]
  omega

/-- A party comes that is not within. -/
theorem Turns.come {inside' : ι → Prop} (h : Turns P came inside) {i : ι} (hi : i ∈ P)
    (hfree : ¬ inside i) (hcame : came' = Function.update came i (came i + 1))
    (hinside : ∀ j, ¬ inside' j → j ≠ i ∧ ¬ inside j) : Turns P came' inside' := by
  -- The party is free, so all others have come as often as it has.
  have hall := (h.card_mul_le_iff _).mp (h.free i hi hfree)
  have hsum := sum_came hi hcame
  refine ⟨fun j hj k hk => ?_, fun j hj hj' => ?_⟩
  · have hclose := h.close j hj k hk
    have hk' := hall k hk
    rw [hcame]
    by_cases hji : j = i
    · subst hji
      rw [Function.update_self]
      by_cases hkj : k = j
      · subst hkj
        rw [Function.update_self]
        omega
      · rw [Function.update_of_ne hkj]
        omega
    · rw [Function.update_of_ne hji]
      by_cases hki : k = i
      · subst hki
        rw [Function.update_self]
        omega
      · rw [Function.update_of_ne hki]
        exact hclose
  · -- Who is still outside was so before, with all rounds complete.
    obtain ⟨hne, hout⟩ := hinside j hj'
    have hle := h.free j hj hout
    rw [hsum, hcame, Function.update_of_ne hne]
    omega

end Core

end MKernel
