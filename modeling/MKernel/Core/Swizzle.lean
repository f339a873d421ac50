import Mathlib.Data.Nat.Bitwise
import Mathlib.Data.Set.Function

/-!
# Swizzled Addresses

An address is swizzled by adding some of its bits, without carry, to bits further down.

The `k` bits from `hi` on are added to those from `lo` on. As the former lie above the
latter they stay what they are, so that the same step leads back (`swizzle_swizzle`).
What lies below `lo` is not touched, and so the `2 ^ lo` bytes of a unit stay together
and in order (`swizzle_add`). Nor is what lies above the `k` bits, so that no address
leaves its block of `2 ^ (lo + k)` (`swizzle_div`). An array that begins and ends with
such a block is therefore swizzled onto itself (`bijOn_swizzle`).

## Main definitions

* `swizzle`: The swizzled address.
* `cells`: The addresses of the elements of an array.

## Theorems

* `swizzle_swizzle`: Swizzling twice changes nothing.
* `swizzle_add`: A unit stays together.
* `bijOn_swizzle`: The elements of an array are swizzled among themselves.
-/

namespace MKernel

namespace Core

/-- The `k` bits from `hi` on, added to those from `lo` on. -/
def swizzle (lo hi k x : Nat) : Nat := x ^^^ (x % 2 ^ (hi + k) / 2 ^ hi * 2 ^ lo)

section Swizzle

variable {lo hi k : Nat}

/-- The bits that are added, as a number. -/
theorem field_eq (x : Nat) : x % 2 ^ (hi + k) / 2 ^ hi = x / 2 ^ hi % 2 ^ k := by
  rw [Nat.pow_add, Nat.mod_mul_right_div_self]

/-- What is added has no more than `lo + k` bits. -/
theorem field_lt (x : Nat) : x % 2 ^ (hi + k) / 2 ^ hi * 2 ^ lo < 2 ^ (lo + k) := by
  rw [field_eq, Nat.add_comm, Nat.pow_add]
  exact Nat.mul_lt_mul_of_pos_right (Nat.mod_lt _ (Nat.two_pow_pos k)) (Nat.two_pow_pos lo)

/-- Above the bits that are changed an address stays what it is. -/
theorem swizzle_div {n : Nat} (hn : lo + k ≤ n) (x : Nat) :
    swizzle lo hi k x / 2 ^ n = x / 2 ^ n := by
  have hlt : x % 2 ^ (hi + k) / 2 ^ hi * 2 ^ lo < 2 ^ n :=
    Nat.lt_of_lt_of_le (field_lt x) (Nat.pow_le_pow_right Nat.two_pos hn)
  rw [swizzle, Nat.xor_div_two_pow, Nat.div_eq_of_lt hlt, Nat.xor_zero]

/-- Below the bits that are changed an address stays what it is. -/
theorem swizzle_mod (x : Nat) : swizzle lo hi k x % 2 ^ lo = x % 2 ^ lo := by
  rw [swizzle, Nat.xor_mod_two_pow, Nat.mul_mod_left, Nat.xor_zero]

/-- The units an address is swizzled by. -/
theorem swizzle_div_lo (x : Nat) :
    swizzle lo hi k x / 2 ^ lo = x / 2 ^ lo ^^^ (x / 2 ^ hi % 2 ^ k) := by
  rw [swizzle, Nat.xor_div_two_pow, Nat.mul_div_cancel _ (Nat.two_pow_pos lo), field_eq]

/-- An address is known by its unit and its place in the unit. -/
theorem eq_of_unit (lo : Nat) {x y : Nat} (hdiv : x / 2 ^ lo = y / 2 ^ lo)
    (hmod : x % 2 ^ lo = y % 2 ^ lo) : x = y := by
  rw [← Nat.div_add_mod x (2 ^ lo), ← Nat.div_add_mod y (2 ^ lo), hdiv, hmod]

/-- Swizzling twice changes nothing. -/
theorem swizzle_swizzle (h : lo + k ≤ hi) (x : Nat) :
    swizzle lo hi k (swizzle lo hi k x) = x := by
  apply eq_of_unit lo
  · -- The bits that are added are the same both times.
    rw [swizzle_div_lo, swizzle_div_lo, swizzle_div h, Nat.xor_assoc, Nat.xor_self, Nat.xor_zero]
  · rw [swizzle_mod, swizzle_mod]

/-- An address and a later one in its unit have the same bits above the unit. -/
theorem add_div_unit {x d n : Nat} (hd : x % 2 ^ lo + d < 2 ^ lo) (hn : lo ≤ n) :
    (x + d) / 2 ^ n = x / 2 ^ n := by
  have hunit : (x + d) / 2 ^ lo = x / 2 ^ lo := by
    rw [← Nat.div_add_mod x (2 ^ lo), Nat.add_assoc, Nat.mul_add_div (Nat.two_pow_pos lo),
      Nat.div_eq_of_lt hd, Nat.div_add_mod, Nat.add_zero]
  obtain ⟨m, rfl⟩ := Nat.exists_eq_add_of_le hn
  rw [Nat.pow_add, ← Nat.div_div_eq_div_mul, ← Nat.div_div_eq_div_mul, hunit]

/-- The addresses of a unit stay together and in order. -/
theorem swizzle_add (h : lo ≤ hi) {x d : Nat} (hd : x % 2 ^ lo + d < 2 ^ lo) :
    swizzle lo hi k (x + d) = swizzle lo hi k x + d := by
  have hd' : swizzle lo hi k x % 2 ^ lo + d < 2 ^ lo := by rwa [swizzle_mod]
  apply eq_of_unit lo
  · rw [swizzle_div_lo, add_div_unit hd (Nat.le_refl lo), add_div_unit hd h, ← swizzle_div_lo,
      add_div_unit hd' (Nat.le_refl lo)]
  · rw [swizzle_mod, Nat.add_mod, Nat.add_mod (swizzle lo hi k x), swizzle_mod]

end Swizzle

/-! ## Arrays -/

/-- The addresses of the `n` elements of an array at `p`, of `e` bytes each. -/
def cells (p e n : Nat) : Set Nat := {a | ∃ m < n, a = p + e * m}

/-- The addresses of an array are those in its range that are whole elements from its start. -/
theorem mem_cells_iff {p e n a : Nat} (he : 0 < e) (hp : e ∣ p) :
    a ∈ cells p e n ↔ p ≤ a ∧ a < p + e * n ∧ e ∣ a := by
  constructor
  · rintro ⟨m, hm, rfl⟩
    exact ⟨Nat.le_add_right _ _, Nat.add_lt_add_left (Nat.mul_lt_mul_of_pos_left hm he) p,
      Nat.dvd_add hp (Nat.dvd_mul_right e m)⟩
  · rintro ⟨hle, hlt, hdvd⟩
    obtain ⟨m, hm⟩ := Nat.dvd_sub hdvd hp
    refine ⟨m, ?_, by omega⟩
    exact Nat.lt_of_mul_lt_mul_left (a := e) (by omega)

/-- An array of whole blocks is swizzled onto itself. -/
theorem bijOn_swizzle {lo hi k p e n : Nat} (h : lo + k ≤ hi) (he : e ∣ 2 ^ lo)
    (hp : 2 ^ (lo + k) ∣ p) (hn : 2 ^ (lo + k) ∣ e * n) :
    Set.BijOn (swizzle lo hi k) (cells p e n) (cells p e n) := by
  have hpos : 0 < e := Nat.pos_of_dvd_of_pos he (Nat.two_pow_pos lo)
  have hep : e ∣ p := (he.trans (Nat.pow_dvd_pow 2 (Nat.le_add_right lo k))).trans hp
  have hmaps : Set.MapsTo (swizzle lo hi k) (cells p e n) (cells p e n) := by
    intro a ha
    obtain ⟨hle, hlt, hdvd⟩ := (mem_cells_iff hpos hep).mp ha
    have hblock : swizzle lo hi k a / 2 ^ (lo + k) = a / 2 ^ (lo + k) :=
      swizzle_div (Nat.le_refl _) a
    refine (mem_cells_iff hpos hep).mpr ⟨?_, ?_, ?_⟩
    · -- The block of the address is not before the first one.
      obtain ⟨u, rfl⟩ := hp
      rw [Nat.mul_comm, ← Nat.le_div_iff_mul_le (Nat.two_pow_pos _), hblock,
        Nat.le_div_iff_mul_le (Nat.two_pow_pos _), Nat.mul_comm]
      exact hle
    · obtain ⟨u, hu⟩ := Nat.dvd_add hp hn
      rw [hu, Nat.mul_comm, ← Nat.div_lt_iff_lt_mul (Nat.two_pow_pos _), hblock,
        Nat.div_lt_iff_lt_mul (Nat.two_pow_pos _), Nat.mul_comm, ← hu]
      exact hlt
    · rw [Nat.dvd_iff_mod_eq_zero, ← Nat.mod_mod_of_dvd _ he, swizzle_mod,
        Nat.mod_mod_of_dvd _ he]
      exact Nat.mod_eq_zero_of_dvd hdvd
  exact Set.InvOn.bijOn ⟨fun a _ => swizzle_swizzle h a, fun a _ => swizzle_swizzle h a⟩ hmaps hmaps

end Core

end MKernel
