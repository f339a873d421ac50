import Mathlib.Data.List.Basic
import Mathlib.Data.List.Range
import Mathlib.Tactic.Common

/-!
# Chunks

Lists that are handed over in pieces of one size, the last of which may be smaller.

The `j`th chunk is what is left after `j` whole ones, up to the size. Enough chunks, one after the
other, are the list, whatever is done to each item.

## Main definitions

* `chunk`: One of the pieces.

## Theorems

* `flatMap_chunk`: The chunks in order are the list.
* `chunk_range`: The numbers in a chunk of a range.
-/

namespace MKernel

namespace Core

variable {α β : Type*}

/-- The `j`th of the pieces of at most `size` items. -/
def chunk (size : Nat) (l : List α) (j : Nat) : List α := (l.drop (j * size)).take size

theorem length_chunk (size : Nat) (l : List α) (j : Nat) :
    (chunk size l j).length = min size (l.length - j * size) := by
  rw [chunk, List.length_take, List.length_drop]

theorem map_chunk (f : α → β) (size : Nat) (l : List α) (j : Nat) :
    (chunk size l j).map f = chunk size (l.map f) j := by
  rw [chunk, chunk, List.map_take, List.map_drop]

/-- Some chunks, one after the other, are the beginning of the list. -/
theorem flatMap_chunk_take (size : Nat) (l : List α) (k : Nat) :
    (List.range k).flatMap (chunk size l) = l.take (k * size) := by
  induction k with
  | zero => rw [Nat.zero_mul]; rfl
  | succ k ih =>
      rw [List.range_succ, List.flatMap_append, ih, List.flatMap_singleton, Nat.succ_mul,
        List.take_add, chunk]

/-- Enough chunks, one after the other, are the list. -/
theorem flatMap_chunk {size k : Nat} {l : List α} (h : l.length ≤ k * size) :
    (List.range k).flatMap (chunk size l) = l := by
  rw [flatMap_chunk_take, List.take_of_length_le h]

/-- The numbers in a chunk of a range. -/
theorem chunk_range (size n j : Nat) :
    chunk size (List.range n) j = (List.range (min size (n - j * size))).map (j * size + ·) := by
  refine List.ext_getElem ?_ fun i h1 h2 => ?_
  · rw [length_chunk, List.length_range, List.length_map, List.length_range]
  · simp only [chunk, List.getElem_take, List.getElem_drop, List.getElem_range, List.getElem_map]

end Core

end MKernel
