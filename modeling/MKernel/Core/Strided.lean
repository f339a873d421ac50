import Mathlib.Data.Finset.Card
import Mathlib.Data.Fintype.Basic

/-!
# Strided Walks

Several workers sharing a range of indices: worker `c` of `S` takes `c`,
`c + S`, `c + 2S` and so on, each at its own pace.

The indices a worker takes are those congruent to its number, so no two
workers take the same one and together they take all of them. `next` is the
index a worker takes next, and it stays in the worker's class by construction
of the structure. `seen` is the set of indices taken so far: each step adds
exactly one index to it, one that was not there (`seen_advance`,
`next_notMem_seen`).

## Main definitions

* `Strided`: The index each worker takes next.
* `start`: Every worker at its first index.
* `advance`: A worker takes its index.
* `seen`: The indices below a bound that have been taken.

## Theorems

* `seen_start`: Nothing is taken at the start.
* `seen_advance`: A step adds the worker's index.
* `next_notMem_seen`: The index a worker takes is a new one.
* `card_filter_advance`: Counting the taken indices with some property.
-/

namespace MKernel

namespace Core

/-- The index each of `S` workers takes next. -/
structure Strided (S : Nat) where
  next : Fin S → Nat
  aligned : ∀ c, next c % S = c

namespace Strided

variable {S : Nat}

/-- Worker `c` starts at index `c`. -/
def start : Strided S where
  next := fun c => c
  aligned := fun c => Nat.mod_eq_of_lt c.isLt

/-- Worker `c` takes its index and moves on by `S`. -/
def advance (w : Strided S) (c : Fin S) : Strided S where
  next := fun d => if d = c then w.next c + S else w.next d
  aligned := fun d => by
    by_cases hd : d = c
    · rw [if_pos hd, Nat.add_mod_right, w.aligned, hd]
    · rw [if_neg hd, w.aligned]

/-- Index `t` has been taken by the worker of its class. -/
def Visited (w : Strided S) (t : Nat) : Prop := ∃ c : Fin S, t % S = c ∧ t < w.next c

instance (w : Strided S) : DecidablePred w.Visited :=
  fun t => inferInstanceAs (Decidable (∃ c : Fin S, t % S = c ∧ t < w.next c))

/-- The indices below `n` that have been taken. -/
def seen (w : Strided S) (n : Nat) : Finset Nat := (Finset.range n).filter w.Visited

theorem mem_seen {w : Strided S} {n t : Nat} : t ∈ w.seen n ↔ t < n ∧ w.Visited t := by
  rw [seen, Finset.mem_filter, Finset.mem_range]

/-- Nothing is taken at the start. -/
theorem not_visited_start (t : Nat) : ¬ (start : Strided S).Visited t := by
  rintro ⟨c, hc, hlt⟩
  have hle := Nat.mod_le t S
  change t < c.val at hlt
  omega

theorem seen_start (n : Nat) : (start : Strided S).seen n = ∅ := by
  ext t
  rw [mem_seen]
  exact ⟨fun h => absurd h.2 (not_visited_start t), fun h => absurd h (Finset.notMem_empty t)⟩

/-- A worker's own index has not been taken. -/
theorem next_notMem_seen (w : Strided S) (c : Fin S) (n : Nat) : w.next c ∉ w.seen n := by
  rw [mem_seen]
  rintro ⟨-, d, hd, hlt⟩
  have hdc : d = c := Fin.ext (hd.symm.trans (w.aligned c))
  rw [hdc] at hlt
  exact absurd hlt (lt_irrefl _)

/-- A step takes the worker's index and no other. -/
theorem visited_advance (w : Strided S) (c : Fin S) (t : Nat) :
    (w.advance c).Visited t ↔ t = w.next c ∨ w.Visited t := by
  constructor
  · rintro ⟨d, hd, hlt⟩
    by_cases hdc : d = c
    · -- Below the new position and in the class means below the old one or at it.
      subst hdc
      have hnext : t < w.next d + S := by simpa only [advance, if_true] using hlt
      rcases lt_or_ge t (w.next d) with hold | hge
      · exact Or.inr ⟨d, hd, hold⟩
      · left
        have hmod : t % S = w.next d % S := by rw [hd, w.aligned]
        have hdiv := Nat.div_add_mod t S
        have hdiv' := Nat.div_add_mod (w.next d) S
        have hlow : w.next d / S ≤ t / S := Nat.div_le_div_right hge
        have hhigh : t / S < w.next d / S + 1 := by
          by_contra hge'
          have hmul := Nat.mul_le_mul_left S (Nat.le_of_not_lt hge')
          rw [Nat.mul_add, Nat.mul_one] at hmul
          omega
        have heq : t / S = w.next d / S := by omega
        rw [heq, hmod] at hdiv
        omega
    · exact Or.inr ⟨d, hd, by simpa only [advance, if_neg hdc] using hlt⟩
  · rintro (rfl | ⟨d, hd, hlt⟩)
    · refine ⟨c, w.aligned c, ?_⟩
      have hpos : 0 < S := lt_of_le_of_lt (Nat.zero_le _) c.isLt
      simp only [advance, if_true]
      omega
    · refine ⟨d, hd, ?_⟩
      by_cases hdc : d = c
      · subst hdc
        simp only [advance, if_true]
        omega
      · simpa only [advance, if_neg hdc] using hlt

theorem seen_advance (w : Strided S) (c : Fin S) {n : Nat} (h : w.next c < n) :
    (w.advance c).seen n = insert (w.next c) (w.seen n) := by
  ext t
  rw [Finset.mem_insert, mem_seen, mem_seen, visited_advance]
  constructor
  · rintro ⟨ht, heq | hv⟩
    · exact Or.inl heq
    · exact Or.inr ⟨ht, hv⟩
  · rintro (rfl | ⟨ht, hv⟩)
    · exact ⟨h, Or.inl rfl⟩
    · exact ⟨ht, Or.inr hv⟩

/-- The number of indices taken that have a property goes up by one if the
    index taken has it. -/
theorem card_filter_advance (w : Strided S) (c : Fin S) {n : Nat} (h : w.next c < n)
    (p : Nat → Prop) [DecidablePred p] :
    (((w.advance c).seen n).filter p).card =
      ((w.seen n).filter p).card + if p (w.next c) then 1 else 0 := by
  rw [seen_advance w c h, Finset.filter_insert]
  by_cases hp : p (w.next c)
  · rw [if_pos hp, if_pos hp, Finset.card_insert_of_notMem]
    exact fun hmem => next_notMem_seen w c n (Finset.mem_of_mem_filter _ hmem)
  · rw [if_neg hp, if_neg hp, Nat.add_zero]

/-- No more indices with a property are taken than there are. -/
theorem card_filter_le (w : Strided S) (n : Nat) (p : Nat → Prop) [DecidablePred p] :
    ((w.seen n).filter p).card ≤ ((Finset.range n).filter p).card :=
  Finset.card_le_card (Finset.filter_subset_filter p (Finset.filter_subset _ _))

end Strided

end Core

end MKernel
