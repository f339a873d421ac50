import Mathlib.Analysis.SpecialFunctions.Log.Basic
import Mathlib.Algebra.BigOperators.Group.List.Basic
import Mathlib.Algebra.Module.BigOperators

/-!
# Weighted Means by Logarithms of Weights

Means of points of a real vector space where each point comes with the
logarithm of its weight.

There are two ways to hold what has been summed up. One is the two sums, scaled
down by the exponential of some shift (`Scaled`). The shift is free, so it can
go with the largest logarithm: a new shift only rescales both sums
(`Scaled.append`). Before the first point both are zero and stand for any shift
(`Scaled.nil`). The other way is the mean with the logarithm of the total weight
(`Mean`). One goes over into the other when the sums are divided
(`Scaled.mean`), and two means are merged by the weights that their logarithms
stand for (`Mean.merge`).

## Main definitions

* `mass`: The total weight of some points.
* `weighted`: The weighted sum of some points.
* `Scaled`: Both sums, scaled down by a shift.
* `Mean`: The weighted mean, and the logarithm of the total weight.

## Theorems

* `Scaled.append`: More points come in, and the shift changes.
* `Scaled.mean`: The scaled sums divided.
* `Mean.merge`: Two means are merged.
* `Mean.perm`: The order of the points does not matter.
-/

namespace MKernel

namespace Core

open Real

variable {V : Type*}

/-! ## The total weight -/

/-- The total weight of some points. -/
noncomputable def mass (l : List (ℝ × V)) : ℝ := (l.map fun p => exp p.1).sum

@[simp] theorem mass_nil : mass ([] : List (ℝ × V)) = 0 := rfl

@[simp] theorem mass_cons (p : ℝ × V) (l : List (ℝ × V)) :
    mass (p :: l) = exp p.1 + mass l := List.sum_cons

theorem mass_append (l l' : List (ℝ × V)) : mass (l ++ l') = mass l + mass l' := by
  rw [mass, List.map_append, List.sum_append, mass, mass]

theorem mass_perm {l l' : List (ℝ × V)} (h : l.Perm l') : mass l = mass l' :=
  (h.map _).sum_eq

theorem mass_nonneg (l : List (ℝ × V)) : 0 ≤ mass l := by
  refine List.sum_nonneg fun x hx => ?_
  rcases List.mem_map.mp hx with ⟨p, -, rfl⟩
  exact (exp_pos p.1).le

/-- Every point has a positive weight. -/
theorem mass_pos {l : List (ℝ × V)} (h : l ≠ []) : 0 < mass l := by
  cases l with
  | nil => exact absurd rfl h
  | cons p l =>
    rw [mass_cons]
    exact add_pos_of_pos_of_nonneg (exp_pos p.1) (mass_nonneg l)

/-- The weights below a shift sum up to the mass, scaled down. -/
theorem sum_exp_sub (m : ℝ) (l : List (ℝ × V)) :
    (l.map fun p => exp (p.1 - m)).sum = exp (-m) * mass l := by
  induction l with
  | nil => rw [mass_nil, mul_zero, List.map_nil, List.sum_nil]
  | cons p l ih =>
    rw [List.map_cons, List.sum_cons, ih, mass_cons, mul_add, ← exp_add, neg_add_eq_sub]

variable [AddCommGroup V] [Module ℝ V]

/-! ## The weighted sum -/

/-- The weighted sum of some points. -/
noncomputable def weighted (l : List (ℝ × V)) : V := (l.map fun p => exp p.1 • p.2).sum

@[simp] theorem weighted_nil : weighted ([] : List (ℝ × V)) = 0 := rfl

@[simp] theorem weighted_cons (p : ℝ × V) (l : List (ℝ × V)) :
    weighted (p :: l) = exp p.1 • p.2 + weighted l := List.sum_cons

theorem weighted_append (l l' : List (ℝ × V)) :
    weighted (l ++ l') = weighted l + weighted l' := by
  rw [weighted, List.map_append, List.sum_append, weighted, weighted]

theorem weighted_perm {l l' : List (ℝ × V)} (h : l.Perm l') : weighted l = weighted l' :=
  (h.map _).sum_eq

theorem sum_exp_sub_smul (m : ℝ) (l : List (ℝ × V)) :
    (l.map fun p => exp (p.1 - m) • p.2).sum = exp (-m) • weighted l := by
  induction l with
  | nil => rw [weighted_nil, smul_zero, List.map_nil, List.sum_nil]
  | cons p l ih =>
    rw [List.map_cons, List.sum_cons, ih, weighted_cons, smul_add, smul_smul, ← exp_add,
      neg_add_eq_sub]

/-! ## Scaled sums -/

/-- The sums of some points, scaled down by a shift. -/
structure Scaled (l : List (ℝ × V)) (m n : ℝ) (o : V) : Prop where
  mass_eq : n = exp (-m) * mass l
  weighted_eq : o = exp (-m) • weighted l

/-- Before the first point there is nothing to scale. -/
theorem Scaled.nil (m : ℝ) : Scaled ([] : List (ℝ × V)) m 0 0 :=
  ⟨by rw [mass_nil, mul_zero], by rw [weighted_nil, smul_zero]⟩

/-- More points come in under a new shift, and what there is goes over to it. -/
theorem Scaled.append {l : List (ℝ × V)} {m n : ℝ} {o : V} (h : Scaled l m n o) (m' : ℝ)
    (l' : List (ℝ × V)) :
    Scaled (l ++ l') m' (n * exp (m - m') + (l'.map fun p => exp (p.1 - m')).sum)
      (exp (m - m') • o + (l'.map fun p => exp (p.1 - m') • p.2).sum) := by
  have hexp : exp (m - m') * exp (-m) = exp (-m') := by
    rw [← exp_add]
    congr 1
    ring
  refine ⟨?_, ?_⟩
  · rw [sum_exp_sub, mass_append, mul_add, h.mass_eq, mul_right_comm, mul_comm (exp (-m)), hexp]
  · rw [sum_exp_sub_smul, weighted_append, smul_add, h.weighted_eq, smul_smul, hexp]

/-! ## Means -/

/-- The weighted mean of some points, with the logarithm of their total weight. -/
structure Mean (l : List (ℝ × V)) (L : ℝ) (O : V) : Prop where
  log_eq : L = log (mass l)
  mean_eq : O = (mass l)⁻¹ • weighted l

/-- The shift drops out of the mean, and goes back into the logarithm. -/
theorem Scaled.mean {l : List (ℝ × V)} {m n : ℝ} {o : V} (h : Scaled l m n o) (hl : l ≠ []) :
    Mean l (log n + m) (n⁻¹ • o) := by
  have hpos := mass_pos hl
  refine ⟨?_, ?_⟩
  · rw [h.mass_eq, log_mul (exp_pos _).ne' hpos.ne', log_exp]
    ring
  · rw [h.mass_eq, h.weighted_eq, smul_smul, mul_inv, mul_right_comm,
      inv_mul_cancel₀ (exp_pos _).ne', one_mul]

/-- Two means are merged by the weights that their logarithms stand for. -/
theorem Mean.merge {l l' : List (ℝ × V)} {L L' : ℝ} {O O' : V} (h : Mean l L O)
    (h' : Mean l' L' O') (hl : l ≠ []) (hl' : l' ≠ []) :
    Mean (l ++ l') (log (exp (L' - L) + 1) + L)
      (exp (L - (log (exp (L' - L) + 1) + L)) • O +
        exp (L' - (log (exp (L' - L) + 1) + L)) • O') := by
  have hpos := mass_pos hl
  have hpos' := mass_pos hl'
  have hexp : exp L = mass l := by rw [h.log_eq, exp_log hpos]
  have hexp' : exp L' = mass l' := by rw [h'.log_eq, exp_log hpos']
  have hnew : log (exp (L' - L) + 1) + L = log (mass (l ++ l')) := by
    have hsum : mass (l ++ l') = (exp (L' - L) + 1) * exp L := by
      rw [mass_append, add_mul, one_mul, ← exp_add, sub_add_cancel, hexp, hexp', add_comm]
    rw [hsum, log_mul (by positivity) (exp_pos L).ne', log_exp]
  have htot : exp (log (mass (l ++ l'))) = mass (l ++ l') :=
    exp_log (mass_pos (List.append_ne_nil_of_left_ne_nil hl l'))
  refine ⟨hnew, ?_⟩
  rw [hnew, exp_sub, exp_sub, htot, hexp, hexp', h.mean_eq, h'.mean_eq, smul_smul, smul_smul,
    weighted_append, smul_add, div_mul_eq_mul_div, div_mul_eq_mul_div,
    mul_inv_cancel₀ hpos.ne', mul_inv_cancel₀ hpos'.ne', one_div]

/-- The order of the points does not matter. -/
theorem Mean.perm {l l' : List (ℝ × V)} {L : ℝ} {O : V} (h : Mean l L O) (hp : l.Perm l') :
    Mean l' L O :=
  ⟨mass_perm hp ▸ h.log_eq, mass_perm hp ▸ weighted_perm hp ▸ h.mean_eq⟩

end Core

end MKernel
