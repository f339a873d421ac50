import MKernel.Core.Spread
import Mathlib.Data.Set.Prod

/-!
# Orders of Tiles

Ways to number the tiles of a grid, so that each tile has one number.

A tile order takes the numbers below the number of tiles to row and column. Two orders
are given: through the rows, and through the columns. The others are made from orders of
parts. The rows may be divided into slices of one height, which are gone through one
after the other, each in the same order, and it does not matter which slice comes
when (`slices`). Or the slices take turns, a row of each in each round, again in any
order (`rounds`). And one order may follow another below it (`stack`), as where the
last slice is not as high as the others.

Workers who share the numbers in strides do each tile once, in whichever order they
are (`IsTileOrder.once`).

## Main definitions

* `IsTileOrder`: The numbers are those of the tiles.

## Theorems

* `rows`, `columns`: The two orders.
* `slices`, `rounds`, `stack`: Orders from orders.
* `bands`: Bands of rows, and a lower one at the end.
* `rotate`: A rotation of the slices.
* `IsTileOrder.once`: Workers do each tile once.
-/

namespace MKernel

namespace Core

open Set

/-- The numbers below the number of tiles are those of the tiles, one to one. -/
def IsTileOrder (order : Nat → Nat × Nat) (rows cols : Nat) : Prop :=
  BijOn order (Iio (rows * cols)) (Iio rows ×ˢ Iio cols)

namespace IsTileOrder

variable {order order' : Nat → Nat × Nat} {R S C : Nat}

/-- An order is known by the tiles of its numbers. -/
theorem congr (h : IsTileOrder order R C) (heq : ∀ i < R * C, order i = order' i) :
    IsTileOrder order' R C :=
  BijOn.congr h fun i hi => heq i hi

/-! ## Digits -/

/-- A number is determined by its block and its place in the block. -/
theorem bijOn_split (m n : Nat) :
    BijOn (fun i => (i / n, i % n)) (Iio (m * n)) (Iio m ×ˢ Iio n) := by
  refine ⟨fun i hi => ?_, fun i _ j _ heq => ?_, fun x hx => ?_⟩
  · have hn : 0 < n := Nat.pos_of_mul_pos_left (Nat.lt_of_le_of_lt (Nat.zero_le _) hi)
    exact ⟨(Nat.div_lt_iff_lt_mul hn).mpr hi, Nat.mod_lt _ hn⟩
  · have hdiv := congrArg Prod.fst heq
    have hmod := congrArg Prod.snd heq
    dsimp only at hdiv hmod
    rw [← Nat.div_add_mod' i n, hdiv, hmod, Nat.div_add_mod']
  · refine ⟨x.1 * n + x.2, place_lt hx.1 hx.2, ?_⟩
    refine Prod.ext (place_div hx.2) ?_
    dsimp only
    rw [Nat.mul_comm, Nat.mul_add_mod, Nat.mod_eq_of_lt hx.2]

/-- And the other way round. -/
theorem bijOn_join (m n : Nat) :
    BijOn (fun x : Nat × Nat => x.1 * n + x.2) (Iio m ×ˢ Iio n) (Iio (m * n)) := by
  refine ⟨fun x hx => place_lt hx.1 hx.2, fun x hx y hy heq => ?_, fun i hi => ?_⟩
  · rcases place_inj hx.2 hy.2 heq with ⟨h1, h2⟩
    exact Prod.ext h1 h2
  · exact ⟨(i / n, i % n), (bijOn_split m n).mapsTo hi, Nat.div_add_mod' i n⟩

/-- A rotation, by any number. -/
theorem rotate (n d : Nat) : BijOn (fun i => (i + d) % n) (Iio n) (Iio n) := by
  refine ⟨fun i hi => ?_, fun i hi j hj heq => ?_, fun j hj => ?_⟩
  · exact Nat.mod_lt _ (Nat.lt_of_le_of_lt (Nat.zero_le _) hi)
  · have hmod : i % n = j % n := Nat.ModEq.add_right_cancel' d heq
    rwa [Nat.mod_eq_of_lt hi, Nat.mod_eq_of_lt hj] at hmod
  · have hn : 0 < n := Nat.lt_of_le_of_lt (Nat.zero_le _) hj
    have hd := Nat.mod_lt d hn
    refine ⟨(j + (n - d % n)) % n, Nat.mod_lt _ hn, ?_⟩
    dsimp only
    -- What is added up is a whole round.
    have hround : j + (n - d % n) + d % n = j + n := by omega
    rw [Nat.mod_add_mod, ← Nat.add_mod_mod, hround, Nat.add_mod_right, Nat.mod_eq_of_lt hj]

/-! ## Orders -/

/-- Through the rows. -/
theorem rows (R C : Nat) : IsTileOrder (fun i => (i / C, i % C)) R C := bijOn_split R C

/-- Through the columns. -/
theorem columns (R C : Nat) : IsTileOrder (fun i => (i % R, i / R)) R C := by
  have hsplit := bijOn_split C R
  rw [Nat.mul_comm] at hsplit
  refine ⟨fun i hi => ?_, fun i hi j hj heq => ?_, fun x hx => ?_⟩
  · exact (hsplit.mapsTo hi).symm
  · exact hsplit.injOn hi hj (Prod.ext (Prod.mk.inj heq).2 (Prod.mk.inj heq).1)
  · rcases hsplit.surjOn (show x.swap ∈ Iio C ×ˢ Iio R from ⟨hx.2, hx.1⟩) with ⟨i, hi, heq⟩
    refine ⟨i, hi, ?_⟩
    rw [← Prod.swap_swap x, ← heq]
    rfl

/-- A tile of a slice, as one of all slices. -/
theorem bijOn_slice (S R C : Nat) :
    BijOn (fun x : Nat × (Nat × Nat) => (x.1 * R + x.2.1, x.2.2)) (Iio S ×ˢ (Iio R ×ˢ Iio C))
      (Iio (S * R) ×ˢ Iio C) := by
  refine ⟨fun x hx => ⟨place_lt hx.1 hx.2.1, hx.2.2⟩, fun x hx y hy heq => ?_, fun y hy => ?_⟩
  · rcases Prod.mk.inj heq with ⟨hrow, hcol⟩
    rcases place_inj hx.2.1 hy.2.1 hrow with ⟨hslice, hrb⟩
    exact Prod.ext hslice (Prod.ext hrb hcol)
  · rcases (bijOn_join S R).surjOn hy.1 with ⟨x, hx, heq⟩
    exact ⟨(x.1, x.2, y.2), ⟨hx.1, hx.2, hy.2⟩, Prod.ext heq rfl⟩

/-- Slices one after the other, each in the same order. -/
theorem slices (h : IsTileOrder order R C) {turn : Nat → Nat} (hturn : BijOn turn (Iio S) (Iio S)) :
    IsTileOrder (fun i =>
      (turn (i / (R * C)) * R + (order (i % (R * C))).1, (order (i % (R * C))).2)) (S * R) C := by
  have hall := (bijOn_slice S R C).comp ((hturn.prodMap h).comp (bijOn_split S (R * C)))
  rw [← Nat.mul_assoc] at hall
  exact hall

/-- A row of each slice in each round. -/
theorem rounds {turn : Nat → Nat} (hturn : BijOn turn (Iio S) (Iio S)) :
    IsTileOrder (fun i =>
      (turn (i % (S * C) / C) * R + i / (S * C), i % (S * C) % C)) (S * R) C := by
  have hplaces : BijOn (fun x : Nat × (Nat × Nat) => (x.2.1, (x.1, x.2.2)))
      (Iio R ×ˢ (Iio S ×ˢ Iio C)) (Iio S ×ˢ (Iio R ×ˢ Iio C)) := by
    refine ⟨fun x hx => ⟨hx.2.1, hx.1, hx.2.2⟩, fun x _ y _ heq => ?_, fun y hy => ?_⟩
    · rcases Prod.mk.inj heq with ⟨hslice, hrest⟩
      rcases Prod.mk.inj hrest with ⟨hround, hcol⟩
      exact Prod.ext hround (Prod.ext hslice hcol)
    · exact ⟨(y.2.1, y.1, y.2.2), ⟨hy.2.1, hy.1, hy.2.2⟩, rfl⟩
  have hturns : BijOn (fun x : Nat × Nat => (turn x.1, x.2)) (Iio S ×ˢ Iio C) (Iio S ×ˢ Iio C) :=
    hturn.prodMap (bijOn_id _)
  have hround : BijOn (fun i => (i / (S * C), i % (S * C))) (Iio (R * (S * C)))
      (Iio R ×ˢ Iio (S * C)) := bijOn_split R (S * C)
  have hall := (bijOn_slice S R C).comp (hplaces.comp
    (((bijOn_id _).prodMap (hturns.comp (bijOn_split S C))).comp hround))
  have hcount : R * (S * C) = S * R * C := by ring
  rw [hcount] at hall
  exact hall

/-- One order below another. -/
theorem stack (h : IsTileOrder order R C) (h' : IsTileOrder order' S C) :
    IsTileOrder (fun i =>
      if i < R * C then order i else (R + (order' (i - R * C)).1, (order' (i - R * C)).2))
      (R + S) C := by
  have hcount : (R + S) * C = R * C + S * C := Nat.add_mul R S C
  refine ⟨fun i hi => ?_, fun i hi j hj heq => ?_, fun x hx => ?_⟩
  · by_cases hlt : i < R * C
    · have hmem := h.mapsTo hlt
      simp only [if_pos hlt]
      exact ⟨Nat.lt_of_lt_of_le hmem.1 (Nat.le_add_right R S), hmem.2⟩
    · have hmem := h'.mapsTo (show i - R * C < S * C by rw [mem_Iio] at hi; omega)
      simp only [if_neg hlt]
      exact ⟨Nat.add_lt_add_left hmem.1 R, hmem.2⟩
  · rw [mem_Iio, hcount] at hi hj
    -- A tile of one order has another row than one of the other order.
    have hrows : ∀ a b, a < R * C → b < S * C →
        order a ≠ (R + (order' b).1, (order' b).2) := by
      intro a b ha hb hab
      have hrow : (order a).1 < R := (h.mapsTo ha).1
      rw [hab] at hrow
      exact absurd hrow (by simp only [Nat.not_lt, Nat.le_add_right])
    by_cases hlt : i < R * C <;> by_cases hlt' : j < R * C
    · simp only [if_pos hlt, if_pos hlt'] at heq
      exact h.injOn hlt hlt' heq
    · simp only [if_pos hlt, if_neg hlt'] at heq
      exact absurd heq (hrows _ _ hlt (by omega))
    · simp only [if_neg hlt, if_pos hlt'] at heq
      exact absurd heq.symm (hrows _ _ hlt' (by omega))
    · simp only [if_neg hlt, if_neg hlt'] at heq
      rcases Prod.mk.inj heq with ⟨hrow, hcol⟩
      have hsame := h'.injOn (show i - R * C < S * C by omega) (show j - R * C < S * C by omega)
        (Prod.ext (Nat.add_left_cancel hrow) hcol)
      omega
  · by_cases hlt : x.1 < R
    · rcases h.surjOn (show x ∈ Iio R ×ˢ Iio C from ⟨hlt, hx.2⟩) with ⟨i, hi, heq⟩
      refine ⟨i, ?_, ?_⟩
      · rw [mem_Iio] at hi ⊢
        omega
      · exact (if_pos hi).trans heq
    · have hrow : x.1 < R + S := hx.1
      rcases h'.surjOn (show (x.1 - R, x.2) ∈ Iio S ×ˢ Iio C from
        ⟨show x.1 - R < S by omega, hx.2⟩) with ⟨i, hi, heq⟩
      refine ⟨R * C + i, ?_, ?_⟩
      · rw [mem_Iio] at hi ⊢
        omega
      · dsimp only
        rw [if_neg (by omega), Nat.add_sub_cancel_left, heq]
        exact Prod.ext (by dsimp only; omega) rfl

/-- Through the columns of bands of `M` rows, and then of the rows that are left over. -/
theorem bands (R C M : Nat) :
    IsTileOrder (fun i =>
      if i < R / M * M * C then (i / (M * C) * M + i % (M * C) % M, i % (M * C) / M)
      else (R / M * M + (i - R / M * M * C) % (R - R / M * M),
        (i - R / M * M * C) / (R - R / M * M))) R C := by
  have hfull : IsTileOrder (fun i => (i / (M * C) * M + i % (M * C) % M, i % (M * C) / M))
      (R / M * M) C := slices (columns M C) (bijOn_id _)
  have hall := stack hfull (columns (R - R / M * M) C)
  rw [Nat.add_sub_cancel' (Nat.div_mul_le_self R M)] at hall
  exact hall

/-! ## Workers -/

/-- Workers who share the numbers in strides do each tile once, and nothing else. -/
theorem once (h : IsTileOrder order R C) {workers : Nat} (hpos : 0 < workers) (tile : Nat × Nat) :
    (((List.range workers).flatMap fun w => walk w workers (R * C)).map order).count tile =
      if tile.1 < R ∧ tile.2 < C then 1 else 0 := by
  rw [((perm_walks hpos (R * C)).map order).count_eq]
  have hnodup : ((List.range (R * C)).map order).Nodup :=
    List.nodup_range.map_on fun i hi j hj heq =>
      h.injOn (List.mem_range.mp hi) (List.mem_range.mp hj) heq
  have hmem : tile ∈ (List.range (R * C)).map order ↔ tile.1 < R ∧ tile.2 < C := by
    rw [List.mem_map]
    constructor
    · rintro ⟨i, hi, rfl⟩
      exact h.mapsTo (List.mem_range.mp hi)
    · intro hin
      rcases h.surjOn (show tile ∈ Iio R ×ˢ Iio C from hin) with ⟨i, hi, heq⟩
      exact ⟨i, List.mem_range.mpr hi, heq⟩
  rw [hnodup.count]
  exact if_congr hmem rfl rfl

end IsTileOrder

end Core

end MKernel
