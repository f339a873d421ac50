import Mathlib.Data.Nat.ModEq
import Mathlib.Logic.Function.Basic

/-!
# Ring Storage

Cells addressed by an ever-growing position, taken modulo a capacity.

A ring buffer's bookkeeping is done on positions that only grow; the storage
is touched at the position's residue. Two positions share a cell exactly when
a multiple of the capacity separates them, so inside a window no longer than
the capacity a write to one position leaves the others alone. That is the only
fact about residues a ring's invariant needs, and it is stated once here.

## Main definitions

* `cell`: What the storage holds at a position.
* `setCell`: The storage after a write at a position.

## Theorems

* `window_inj`: Positions of one window with the same residue are equal.
* `cell_setCell_self`: A written position reads back.
* `cell_setCell_window`: Other positions of the window are untouched.
* `window_shift`: The position a window gains sits in the cell it gives up.
-/

namespace MKernel

namespace Core

variable {α : Type*}

/-- Two positions of one window of at most `capacity` positions that fall in
    the same cell are the same position. -/
theorem window_inj {capacity base i j : Nat} (hi : base ≤ i) (hi' : i < base + capacity)
    (hj : base ≤ j) (hj' : j < base + capacity) (h : i % capacity = j % capacity) : i = j := by
  refine Nat.ModEq.eq_of_abs_lt (m := capacity) h ?_
  rw [abs_lt]
  omega

/-- What the storage holds at a position. -/
def cell (mem : Nat → α) (capacity pos : Nat) : α := mem (pos % capacity)

/-- The storage after a write at a position. -/
def setCell (mem : Nat → α) (capacity pos : Nat) (v : α) : Nat → α :=
  Function.update mem (pos % capacity) v

@[simp] theorem cell_setCell_self (mem : Nat → α) (capacity pos : Nat) (v : α) :
    cell (setCell mem capacity pos v) capacity pos = v := by
  simp only [cell, setCell, Function.update_self]

/-- A write at one position of a window leaves the other positions alone. -/
theorem cell_setCell_window {mem : Nat → α} {capacity base i j : Nat} {v : α}
    (hi : base ≤ i) (hi' : i < base + capacity) (hj : base ≤ j) (hj' : j < base + capacity)
    (h : j ≠ i) : cell (setCell mem capacity i v) capacity j = cell mem capacity j := by
  have hne : j % capacity ≠ i % capacity := fun hc => h (window_inj hj hj' hi hi' hc)
  simp only [cell, setCell, Function.update_of_ne hne]

/-- The position a window gains when it advances sits in the cell of the
    position it gives up. -/
theorem window_shift (mem : Nat → α) (capacity base : Nat) :
    cell mem capacity (base + capacity) = cell mem capacity base := by
  simp only [cell, Nat.add_mod_right]

end Core

end MKernel
