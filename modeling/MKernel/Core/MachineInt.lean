import Mathlib.Algebra.Group.Int.Defs
import Mathlib.Algebra.Group.Nat.Defs
import Mathlib.Data.Int.Basic

/-!
# Machine Integers

What the fixed-width integers of a machine keep of a number.

A number is an `Int`, and a cast or an operation keeps of it what fits, as two's
complement has it. So an expression of the source is written with a cast
around each operation, and where a bound shows that nothing is lost, the cast
goes away (`int32_eq`, `uint32_eq`, `uint64_eq`).

## Main definitions

* `int32`, `uint32`, `uint64`: What is kept of a number.

## Theorems

* `int32_wrap`: What is kept of a number that is out of range.
* `int32_eq`, `uint32_eq`, `uint64_eq`: Numbers in range are kept.
* `uint64_int32_iff`: When an offset survives an `int`.
-/

namespace MKernel

namespace Core

/-- What an `int` keeps of a number. -/
def int32 (x : Int) : Int := Int.bmod x (2 ^ 32)

/-- What a `uint32_t` keeps of a number. -/
def uint32 (x : Int) : Int := x % 2 ^ 32

/-- What a `uint64_t`, or a pointer, keeps of a number. -/
def uint64 (x : Int) : Int := x % 2 ^ 64

/-- The one number in the range of an `int` that differs by a multiple of 2^32. -/
theorem int32_wrap {x : Int} (k : Int) (hl : -2 ^ 31 ≤ x + 2 ^ 32 * k)
    (hu : x + 2 ^ 32 * k < 2 ^ 31) : int32 x = x + 2 ^ 32 * k := by
  have hbmod : (x + 2 ^ 32 * k).bmod (2 ^ 32) = x.bmod (2 ^ 32) :=
    Int.add_mul_bmod_self_left x (2 ^ 32) k
  rw [int32, ← hbmod]
  exact Int.bmod_eq_of_le (by omega) (by omega)

theorem int32_eq {x : Int} (hl : -2 ^ 31 ≤ x) (hu : x < 2 ^ 31) : int32 x = x := by
  have hwrap := int32_wrap (x := x) 0 (by omega) (by omega)
  omega

theorem int32_sub (x y : Int) : int32 (int32 x - y) = int32 (x - y) :=
  Int.bmod_sub_bmod

theorem uint32_eq {x : Int} (hl : 0 ≤ x) (hu : x < 2 ^ 32) : uint32 x = x :=
  Int.emod_eq_of_lt hl hu

theorem uint64_eq {x : Int} (hl : 0 ≤ x) (hu : x < 2 ^ 64) : uint64 x = x :=
  Int.emod_eq_of_lt hl hu

theorem int32_mem (x : Int) : -2 ^ 31 ≤ int32 x ∧ int32 x < 2 ^ 31 := by
  have hle := Int.le_bmod (x := x) (m := 2 ^ 32) (by omega)
  have hlt := Int.bmod_lt (x := x) (m := 2 ^ 32) (by omega)
  unfold int32
  omega

/-- Half of what an `int` keeps of an even number. -/
theorem int32_two_mul (x : Int) :
    ∃ k, int32 (2 * x) = 2 * (x + k * 2 ^ 31) ∧ -2 ^ 30 ≤ x + k * 2 ^ 31 ∧
      x + k * 2 ^ 31 < 2 ^ 30 := by
  refine ⟨-((x + 2 ^ 30) / 2 ^ 31), ?_, by omega, by omega⟩
  rw [int32_wrap (-((x + 2 ^ 30) / 2 ^ 31)) (by omega) (by omega)]
  omega

/-- A product that does not fit into an `int` is read at another address. -/
theorem uint64_int32_iff {x : Nat} {z : Int} (hx : x < 2 ^ 62) (hl : 0 ≤ z) (hu : z < 2 ^ 31) :
    uint64 (int32 x + z) = x + z ↔ x < 2 ^ 31 := by
  constructor
  · intro heq
    have hmem := int32_mem x
    unfold uint64 at heq
    omega
  · intro hfit
    rw [int32_eq (by omega) (by omega), uint64_eq (by omega) (by omega)]

end Core

end MKernel
