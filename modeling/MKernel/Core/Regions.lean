import Mathlib.Algebra.Order.BigOperators.Group.List
import Mathlib.Algebra.Ring.Int.Defs
import Mathlib.Data.Int.ConditionallyCompleteOrder
import Mathlib.Data.List.Pairwise
import Mathlib.Order.CompletePartialOrder
import Mathlib.Order.ConditionallyCompleteLattice.Basic
import Mathlib.Order.Interval.Set.Disjoint
import MKernel.Core.MachineInt

/-!
# Regions of a Buffer

A buffer divided into regions, one behind the other.

A layout gives each region an offset and a size. It is written as a chain: the
offset of each region is that of the region before it, plus the size of that
one. In a chain the regions are disjoint and fill the buffer from end to end.

The chain of a program is computed in machine integers, and what has been shown
of numbers is not true of it where a sum wraps around. It is enough that the
size of all regions together fits: then no sum on the way is any larger.

## Main definitions

* `Regions`: Named regions, with their offsets and sizes.
* `Regions.cells`: The places of a region.
* `Regions.Chain`: A list of regions that follow one another.

## Theorems

* `Chain.bounds`: The regions of a chain lie in it.
* `Chain.disjoint`: Two of them have no place in common.
* `Chain.length`: Together they are as long as the chain.
* `Chain.of_int32`: A chain in machine integers that fits is a chain.
-/

namespace MKernel

namespace Core

/-- Named regions of a buffer. -/
structure Regions (ι : Type*) where
  offset : ι → Int
  size : ι → Int

namespace Regions

variable {ι : Type*} (p : Regions ι)

/-- The places of a region. -/
def cells (i : ι) : Set Int := Set.Ico (p.offset i) (p.offset i + p.size i)

/-- The regions of a list follow one another, from `a` to `b`. Sums are taken by
    `norm`. -/
def Chain (norm : Int → Int) : Int → List ι → Int → Prop
  | a, [], b => a = b
  | a, i :: is, b => p.offset i = a ∧ Chain norm (norm (p.offset i + p.size i)) is b

variable {p} {a b : Int} {is : List ι}

/-- A chain does not end before it begins. -/
theorem Chain.le (h : p.Chain id a is b) (hsize : ∀ i ∈ is, 0 ≤ p.size i) : a ≤ b := by
  induction is generalizing a with
  | nil => exact Int.le_of_eq h
  | cons i is ih =>
      have hhead := hsize i List.mem_cons_self
      have htail := ih h.2 fun j hj => hsize j (List.mem_cons_of_mem _ hj)
      rw [id, h.1] at htail
      omega

/-- The regions of a chain lie between its ends. -/
theorem Chain.bounds (h : p.Chain id a is b) (hsize : ∀ i ∈ is, 0 ≤ p.size i) {i : ι}
    (hi : i ∈ is) : a ≤ p.offset i ∧ p.offset i + p.size i ≤ b := by
  induction is generalizing a with
  | nil => exact absurd hi List.not_mem_nil
  | cons j is ih =>
      have hrest : ∀ k ∈ is, 0 ≤ p.size k := fun k hk => hsize k (List.mem_cons_of_mem _ hk)
      rcases h with ⟨hj, htail⟩
      rcases List.mem_cons.mp hi with rfl | hmem
      · have hle := htail.le hrest
        rw [id] at hle
        omega
      · have hhead := hsize j List.mem_cons_self
        have hbounds := ih htail hrest hmem
        rw [id] at hbounds
        omega

/-- Of two regions of a chain, one ends before the other begins. -/
theorem Chain.pairwise (h : p.Chain id a is b) (hsize : ∀ i ∈ is, 0 ≤ p.size i) :
    is.Pairwise fun i j => p.offset i + p.size i ≤ p.offset j := by
  induction is generalizing a with
  | nil => exact List.Pairwise.nil
  | cons i is ih =>
      have hrest : ∀ k ∈ is, 0 ≤ p.size k := fun k hk => hsize k (List.mem_cons_of_mem _ hk)
      rcases h with ⟨hi, htail⟩
      refine List.pairwise_cons.mpr ⟨?_, ih htail hrest⟩
      intro j hj
      have hbounds := htail.bounds hrest hj
      rw [id] at hbounds
      omega

/-- Two regions of a chain have no place in common. -/
theorem Chain.disjoint (h : p.Chain id a is b) (hsize : ∀ i ∈ is, 0 ≤ p.size i) {i j : ι}
    (hi : i ∈ is) (hj : j ∈ is) (hne : i ≠ j) : Disjoint (p.cells i) (p.cells j) := by
  have hsymm : Std.Symm fun i j => Disjoint (p.cells i) (p.cells j) := ⟨fun _ _ hd => hd.symm⟩
  have hpair : is.Pairwise fun i j => Disjoint (p.cells i) (p.cells j) :=
    (h.pairwise hsize).imp fun {i j} hle => by
      rw [cells, cells, Set.Ico_disjoint_Ico]
      exact (min_le_left _ _).trans (hle.trans (le_max_right _ _))
  exact hpair.forall hi hj hne

/-- A chain is as long as its regions together. -/
theorem Chain.length (h : p.Chain id a is b) : b = a + (is.map p.size).sum := by
  induction is generalizing a with
  | nil =>
      have hab : a = b := h
      rw [List.map_nil, List.sum_nil, hab, Int.add_zero]
  | cons i is ih =>
      have htail := ih h.2
      rw [id, h.1] at htail
      rw [List.map_cons, List.sum_cons, htail, Int.add_assoc]

/-- A chain that has been computed in machine integers is one of numbers, if it
    all fits. -/
theorem Chain.of_int32 (h : p.Chain int32 a is b) (hsize : ∀ i ∈ is, 0 ≤ p.size i)
    (ha : 0 ≤ a) (hfit : a + (is.map p.size).sum < 2 ^ 31) : p.Chain id a is b := by
  induction is generalizing a with
  | nil => exact h
  | cons i is ih =>
      have hrest : ∀ k ∈ is, 0 ≤ p.size k := fun k hk => hsize k (List.mem_cons_of_mem _ hk)
      have hhead := hsize i List.mem_cons_self
      have htail : 0 ≤ (is.map p.size).sum := by
        refine List.sum_nonneg ?_
        intro x hx
        obtain ⟨k, hk, rfl⟩ := List.mem_map.mp hx
        exact hrest k hk
      rw [List.map_cons, List.sum_cons] at hfit
      rcases h with ⟨hi, hchain⟩
      rw [hi, int32_eq (by omega) (by omega)] at hchain
      refine ⟨hi, ?_⟩
      rw [hi]
      exact ih hchain hrest (Int.add_nonneg ha hhead) (by rw [id]; omega)

end Regions

end Core

end MKernel
