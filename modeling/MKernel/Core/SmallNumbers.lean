import Mathlib.Algebra.Group.Nat.Defs
import Mathlib.Algebra.GroupWithZero.Nat
import Mathlib.Algebra.NeZero

/-!
# Small Numbers

The machines that the general theorems are tried on have two processes or three,
and the structures that describe them carry the facts about their numbers. The
facts are stated here and used by name, so that a description holds no proof of
its own.

* `neZero_one`, `neZero_two`, `neZero_three`, `neZero_eight`: The literals of
  `Fin 1`, `Fin 2`, `Fin 3` and `Fin 8` are found by these.
-/

namespace MKernel

namespace Core

instance neZero_one : NeZero 1 := ⟨Nat.one_ne_zero⟩

instance neZero_two : NeZero 2 := ⟨by decide⟩

instance neZero_three : NeZero 3 := ⟨by decide⟩

instance neZero_eight : NeZero 8 := ⟨by decide⟩

theorem nat_zero_le_two : 0 ≤ 2 := Nat.zero_le 2

theorem two_le_two : 2 ≤ 2 := Nat.le_refl 2

theorem two_le_three : 2 ≤ 3 := Nat.le_succ 2

theorem one_le_thirtyOne : 1 ≤ 31 := by decide

theorem two_le_thirtyOne : 2 ≤ 31 := by decide

theorem nat_four_pos : 0 < 4 := Nat.succ_pos 3

theorem eight_pos : 0 < 8 := Nat.succ_pos 7

theorem two_lt_two_pow : 2 < 2 ^ 31 := by decide

end Core

end MKernel
