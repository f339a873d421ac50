import MKernel.Core.Spread

/-!
# Walks that are Carried over

One loop in strides after another, where the loop variable is not set anew but
carried over.

A worker goes through several segments of work. In each it takes the items at
its index and on in strides, until the index is past the end of the segment.
Then it takes the length of the segment off the index and goes on with the next
segment. So the index is always the worker's place in all segments put
together, less what is before the segment, and the loops are one walk through
all items (`carriedWalk_eq`). The walks of all workers together are all the
items, once each (`perm_carriedWalks`), however the items are cut into segments.

## Main definitions

* `Segment`: Some items by their index.
* `carriedWalk`: The items one worker takes.
* `allItems`: The items of all segments.

## Theorems

* `walk_add`: A walk through two segments is a walk through each.
* `carriedWalk_eq`: The loops are one walk.
* `perm_carriedWalks`: The walks of all workers are all the items.
-/

namespace MKernel

namespace Core

/-- Some items by their index. -/
structure Segment (α : Type*) where
  length : Nat
  item : Nat → α

variable {α : Type*}

/-- The items of a segment. -/
def Segment.items (seg : Segment α) : List α := (List.range seg.length).map seg.item

/-- The items of all segments. -/
def allItems (segs : List (Segment α)) : List α := segs.flatMap Segment.items

/-- Where a loop variable is after the loop. -/
def afterWalk (t S n : Nat) : Nat := t + rounds (n - t) S * S

/-- The items a worker takes that comes to the segments with an index. -/
def carriedWalk (S : Nat) : List (Segment α) → Nat → List α
  | [], _ => []
  | seg :: segs, t =>
      (walk t S seg.length).map seg.item ++ carriedWalk S segs
        (afterWalk t S seg.length - seg.length)

theorem le_afterWalk {S : Nat} (hS : 0 < S) (t n : Nat) : n ≤ afterWalk t S n := by
  have hle : n - t ≤ rounds (n - t) S * S := le_rounds_mul hS
  rw [afterWalk]
  omega

/-- A walk through two segments is a walk through the first and, with the index carried
    over, one through the second. -/
theorem walk_add {S : Nat} (hS : 0 < S) (t n m : Nat) :
    walk t S (n + m) = walk t S n ++ (walk (afterWalk t S n - n) S m).map (n + ·) := by
  have hle := le_afterWalk hS t n
  have hrounds : rounds (n + m - t) S =
      rounds (n - t) S + rounds (m - (afterWalk t S n - n)) S := by
    refine eq_of_forall_ge_iff fun k => ?_
    rw [rounds_le_iff hS]
    by_cases hk : rounds (n - t) S ≤ k
    · -- The first rounds are taken off both sides.
      have hmul := Nat.mul_le_mul_right S hk
      have hsplit : rounds (n - t) S + rounds (m - (afterWalk t S n - n)) S ≤ k ↔
          rounds (m - (afterWalk t S n - n)) S ≤ k - rounds (n - t) S := by omega
      rw [hsplit, rounds_le_iff hS, Nat.sub_mul]
      rw [afterWalk] at hle ⊢
      omega
    · have hmore : ¬ n - t ≤ k * S := fun h => hk ((rounds_le_iff hS).mpr h)
      refine iff_of_false ?_ ?_
      · omega
      · omega
  rw [walk, walk, walk, hrounds, ← List.range'_append, List.map_add_range']
  congr 2
  rw [afterWalk] at hle ⊢
  rw [Nat.mul_comm S]
  omega

/-- The items at all places of a list. -/
theorem filterMap_getElem?_range (l : List α) :
    (List.range l.length).filterMap (fun x => l[x]?) = l := by
  induction l with
  | nil => rfl
  | cons a l ih =>
      rw [List.length_cons, List.range_succ_eq_map, List.filterMap_cons, List.filterMap_map]
      exact congrArg (a :: ·) ih

/-- The loops are one walk through the items of all segments. -/
theorem carriedWalk_eq {S : Nat} (hS : 0 < S) (segs : List (Segment α)) (t : Nat) :
    carriedWalk S segs t =
      (walk t S (allItems segs).length).filterMap fun x => (allItems segs)[x]? := by
  induction segs generalizing t with
  | nil =>
      rw [carriedWalk, allItems, List.flatMap_nil]
      exact (List.filterMap_eq_nil_iff.mpr fun _ _ => List.getElem?_nil).symm
  | cons seg segs ih =>
      have hlen : seg.items.length = seg.length := by
        rw [Segment.items, List.length_map, List.length_range]
      have hall : allItems (seg :: segs) = seg.items ++ allItems segs := List.flatMap_cons
      rw [carriedWalk, ih, hall, List.length_append, hlen, walk_add hS, List.filterMap_append,
        List.filterMap_map]
      congr 1
      · -- What is visited in the segment lies in it.
        rw [← List.filterMap_eq_map]
        refine List.filterMap_congr fun x hx => ?_
        have hlt := lt_of_mem_walk hS hx
        rw [List.getElem?_append_left (by omega), Segment.items, List.getElem?_map,
          List.getElem?_range hlt]
        rfl
      · refine List.filterMap_congr fun x _ => ?_
        rw [Function.comp_apply, List.getElem?_append_right (by omega), hlen,
          Nat.add_sub_cancel_left]

/-- The walks of all workers are all the items, once each. -/
theorem perm_carriedWalks {S : Nat} (hS : 0 < S) (segs : List (Segment α)) :
    ((List.range S).flatMap (carriedWalk S segs)).Perm (allItems segs) := by
  have hwalks : (List.range S).flatMap (carriedWalk S segs) =
      ((List.range S).flatMap fun c => walk c S (allItems segs).length).filterMap
        fun x => (allItems segs)[x]? := by
    rw [List.filterMap_flatMap]
    exact congrArg (List.flatMap · _) (funext fun c => carriedWalk_eq hS segs c)
  rw [hwalks]
  exact ((perm_walks hS _).filterMap _).trans (List.Perm.of_eq (filterMap_getElem?_range _))

end Core

end MKernel
