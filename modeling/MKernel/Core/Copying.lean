import Mathlib.Logic.Function.Basic

/-!
# Copies in Transit

Transfers that copy cells of a memory one at a time, in any order, while others do too.

The cells have a content they are meant to have. A cell that has it is settled. A copy from
a settled cell settles the cell it copies to, where both are meant to have the same, and
unsettles none. So a transfer whose cells are all settled before it begins has settled all
it copied to, whatever else was copied meanwhile (`sound_begin`, `sound_copy`, `sound_move`).

## Main definitions

* `copy`: A cell is copied to another.
* `Settled`: A cell has the content it is meant to have.
* `Transit`: A transfer and how far it has got.
* `Sound`: A transfer copies from settled cells, and has settled those it copied to.

## Theorems

* `settled_copy`, `settled_copy_dst`: What a copy does to settled cells.
* `sound_begin`: A transfer from settled cells is sound.
* `sound_copy`, `sound_move`: A transfer stays so.
-/

namespace MKernel

namespace Core

variable {C α J : Type*} {ideal mem : C → α} {s d c : C}

/-- A cell is copied to another. -/
def copy [DecidableEq C] (mem : C → α) (s d : C) : C → α := Function.update mem d (mem s)

/-- A cell has the content it is meant to have. -/
def Settled (ideal mem : C → α) (c : C) : Prop := mem c = ideal c

theorem settled_copy_dst [DecidableEq C] (hs : Settled ideal mem s) (heq : ideal s = ideal d) :
    Settled ideal (copy mem s d) d := by
  rw [Settled, copy, Function.update_self, ← heq]
  exact hs

/-- A copy from a settled cell unsettles none. -/
theorem settled_copy [DecidableEq C] (hs : Settled ideal mem s) (heq : ideal s = ideal d)
    (hc : Settled ideal mem c) : Settled ideal (copy mem s d) c := by
  by_cases hcd : c = d
  · rw [hcd]
    exact settled_copy_dst hs heq
  · rw [Settled, copy, Function.update_of_ne hcd]
    exact hc

/-- A transfer, with the places it has copied. -/
structure Transit (J : Type*) where
  job : J
  moved : Nat → Bool

namespace Transit

/-- One more place is copied. -/
def move (t : Transit J) (x : Nat) : Transit J :=
  { t with moved := Function.update t.moved x true }

/-- Nothing is copied yet. -/
def start (job : J) : Transit J where
  job := job
  moved := fun _ => false

end Transit

/-- A transfer copies from settled cells, and has settled those it copied to. `size` is
    how many places it has, `src` and `dst` are their cells. -/
structure Sound (size : J → Nat) (src dst : J → Nat → C) (ideal mem : C → α) (t : Transit J) :
    Prop where
  same : ∀ x < size t.job, ideal (src t.job x) = ideal (dst t.job x)
  settled : ∀ x < size t.job, Settled ideal mem (src t.job x)
  moved : ∀ x < size t.job, t.moved x = true → Settled ideal mem (dst t.job x)

section Transfers

variable {size : J → Nat} {src dst : J → Nat → C} {t u : Transit J} {x : Nat}

theorem sound_begin {job : J} (hsame : ∀ x < size job, ideal (src job x) = ideal (dst job x))
    (hsettled : ∀ x < size job, Settled ideal mem (src job x)) :
    Sound size src dst ideal mem (Transit.start job) where
  same := hsame
  settled := hsettled
  moved _ _ h := absurd h (by simp only [Transit.start, Bool.false_eq_true, not_false_eq_true])

/-- A copy of one transfer keeps the others sound. -/
theorem sound_copy [DecidableEq C] (ht : Sound size src dst ideal mem t)
    (hu : Sound size src dst ideal mem u) (hx : x < size t.job) :
    Sound size src dst ideal (copy mem (src t.job x) (dst t.job x)) u where
  same := hu.same
  settled y hy := settled_copy (ht.settled x hx) (ht.same x hx) (hu.settled y hy)
  moved y hy hm := settled_copy (ht.settled x hx) (ht.same x hx) (hu.moved y hy hm)

/-- The transfer itself has settled one more. -/
theorem sound_move [DecidableEq C] (ht : Sound size src dst ideal mem t) (hx : x < size t.job) :
    Sound size src dst ideal (copy mem (src t.job x) (dst t.job x)) (t.move x) where
  same := ht.same
  settled := (sound_copy ht ht hx).settled
  moved y hy hm := by
    by_cases hyx : y = x
    · rw [hyx]
      exact settled_copy_dst (ht.settled x hx) (ht.same x hx)
    · have hold : t.moved y = true := by
        rw [← hm, Transit.move]
        exact (Function.update_of_ne hyx _ _).symm
      exact (sound_copy ht ht hx).moved y hy hold

end Transfers

end Core

end MKernel
