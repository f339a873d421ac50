import Mathlib.Algebra.Group.Int.Defs
import Mathlib.Algebra.Group.Nat.Defs
import Mathlib.Data.Nat.Size

/-!
# Rounding up to a Power of Two

The rounding that spreads the highest bit of a number over all bits below it.

A number is disjoined with itself shifted by 1, then by 2, 4, 8 and 16. After
each of these steps a bit is set if one of the bits from it upwards was, twice
as many as before. In a number of 32 bits that is any bit above, in the end, so
what is left are all bits up to the highest, and one more is a power of two.

## Main definitions

* `Spread`: Each bit says whether one of a number of bits from it upwards was set.
* `smear`: The five steps.
* `roundUp`: The least power of two that is not below a number.

## Theorems

* `Spread.step`: A step doubles the number of bits.
* `smear_eq`: What the five steps leave.
* `roundUp_eq`, `le_roundUp`, `exists_roundUp`: The result is a power of two, and large enough.
-/

namespace MKernel

namespace Core

/-- Bit `i` of `w` says whether one of `n` bits of `v` is set, from `i` upwards. -/
def Spread (v n w : Nat) : Prop :=
  ∀ i, w.testBit i = true ↔ ∃ j, i ≤ j ∧ j < i + n ∧ v.testBit j = true

theorem Spread.refl (v : Nat) : Spread v 1 v := by
  intro i
  constructor
  · intro h
    exact ⟨i, Nat.le_refl i, Nat.lt_succ_self i, h⟩
  · rintro ⟨j, hle, hlt, h⟩
    have hj : j = i := by omega
    rw [← hj]
    exact h

/-- Shifting by as many bits as have been gathered gathers the ones above them. -/
theorem Spread.step {v n w : Nat} (h : Spread v n w) : Spread v (2 * n) (w ||| w >>> n) := by
  intro i
  rw [Nat.testBit_or, Nat.testBit_shiftRight, Bool.or_eq_true, h i, h (n + i)]
  constructor
  · rintro (⟨j, hle, hlt, hj⟩ | ⟨j, hle, hlt, hj⟩)
    · exact ⟨j, hle, by omega, hj⟩
    · exact ⟨j, by omega, by omega, hj⟩
  · rintro ⟨j, hle, hlt, hj⟩
    by_cases hn : j < i + n
    · exact Or.inl ⟨j, hle, hn, hj⟩
    · exact Or.inr ⟨j, by omega, by omega, hj⟩

/-- The disjunctions with the number shifted, one after the other. -/
def smear (v : Nat) : Nat :=
  let v := v ||| v >>> 1
  let v := v ||| v >>> 2
  let v := v ||| v >>> 4
  let v := v ||| v >>> 8
  v ||| v >>> 16

theorem spread_smear (v : Nat) : Spread v 32 (smear v) :=
  (Spread.refl v).step.step.step.step.step

/-- Of a number of 32 bits, all bits up to the highest are left. -/
theorem smear_eq {v : Nat} (h : v < 2 ^ 32) : smear v = 2 ^ v.size - 1 := by
  refine Nat.eq_of_testBit_eq fun i => ?_
  rw [Nat.testBit_two_pow_sub_one, Bool.eq_iff_iff, spread_smear v i, decide_eq_true_eq]
  constructor
  · rintro ⟨j, hle, -, hj⟩
    exact Nat.lt_of_le_of_lt hle (Nat.lt_size.mpr (Nat.ge_two_pow_of_testBit hj))
  · intro hi
    -- The highest bit is one of those above.
    have hsize : v.size ≤ 32 := Nat.size_le.mpr h
    have hpos : 0 < v.size := by omega
    refine ⟨v.size - 1, by omega, by omega, ?_⟩
    refine Nat.testBit_of_two_pow_le_and_two_pow_add_one_gt ?_ ?_
    · exact Nat.lt_size.mp (by omega)
    · rw [Nat.sub_add_cancel hpos]
      exact Nat.lt_size_self v

/-- `cap` rounded up. -/
def roundUp (cap : Nat) : Nat := smear (cap - 1) + 1

theorem roundUp_eq {cap : Nat} (h : cap ≤ 2 ^ 32) : roundUp cap = 2 ^ (cap - 1).size := by
  rw [roundUp, smear_eq (by omega)]
  exact Nat.sub_add_cancel Nat.one_le_two_pow

theorem le_roundUp {cap : Nat} (h : cap ≤ 2 ^ 32) : cap ≤ roundUp cap := by
  have hlt := Nat.lt_size_self (cap - 1)
  rw [roundUp_eq h]
  omega

/-- The same of a number that is rounded up in an integer. -/
theorem exists_roundUp {cap : Int} (h : cap ≤ 2 ^ 32) :
    ∃ k : Nat, (roundUp cap.toNat : Int) = 2 ^ k ∧ cap ≤ 2 ^ k := by
  have hle : (cap.toNat : Int) ≤ (roundUp cap.toNat : Int) :=
    Int.ofNat_le.mpr (le_roundUp (by omega))
  have hpow : (roundUp cap.toNat : Int) = 2 ^ (cap.toNat - 1).size := by
    rw [roundUp_eq (by omega), Int.natCast_pow]
    rfl
  rw [hpow] at hle
  exact ⟨(cap.toNat - 1).size, hpow, Int.le_trans (Int.self_le_toNat cap) hle⟩

end Core

end MKernel
