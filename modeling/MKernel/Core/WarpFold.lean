import Mathlib.Algebra.GroupWithZero.Nat
import Mathlib.Data.List.Perm.Basic

/-!
# Folds over Warps

Lanes put together what they have by shuffles.

With each shuffle a lane takes in what the lane `d` further up has so far. What it has in the
end is from the lanes that lie as far up as some of the distances added together
(`folds_shuffleDown`). Lanes near the end of the warp find no lane further up and take in
their own value once more. What they have is of no use, and nobody reads it.

A value stands for a list if adding it is adding the elements of the list, one
after the other (`Folds`). So nothing needs to be said of a neutral element, which the maximum
does not have.

## Main definitions

* `Folds`: A value stands for a list.
* `shflDown`, `shfl`: The shuffles of a warp.
* `shuffleDown`: Shuffles over some distances.
* `reach`: The distances a lane has taken in.

## Theorems

* `Folds.append`, `Folds.foldl`: Values put together stand for the lists one after the other.
* `Folds.perm`: The order does not matter.
* `folds_shuffleDown`: What a lane has in the end.
-/

namespace MKernel

namespace Core

variable {V : Type*}

/-- Adding the value is adding the elements of the list. -/
def Folds (op : V → V → V) (v : V) (l : List V) : Prop :=
  ∀ a, op a v = l.foldl op a

section Folds

variable {op : V → V → V}

theorem Folds.single (v : V) : Folds op v [v] := fun _ => rfl

/-- Two values put together stand for the two lists. -/
theorem Folds.append [Std.Associative op] {v w : V} {l m : List V} (hv : Folds op v l)
    (hw : Folds op w m) : Folds op (op v w) (l ++ m) := by
  have hassoc : ∀ a b c, op (op a b) c = op a (op b c) := Std.Associative.assoc
  intro a
  rw [← hassoc, hv, hw, List.foldl_append]

/-- Values added one after the other. -/
theorem Folds.foldl [Std.Associative op] {α : Type*} {f : α → V} {g : α → List V} {v : V}
    {l : List V} (hv : Folds op v l) {xs : List α} (h : ∀ x ∈ xs, Folds op (f x) (g x)) :
    Folds op (xs.foldl (fun v x => op v (f x)) v) (l ++ xs.flatMap g) := by
  induction xs generalizing v l with
  | nil => simpa using hv
  | cons x xs ih =>
      rw [List.foldl_cons, List.flatMap_cons, ← List.append_assoc]
      exact ih (hv.append (h x List.mem_cons_self)) fun y hy => h y (List.mem_cons_of_mem x hy)

/-- The order of the elements does not matter. -/
theorem Folds.perm [Std.Commutative op] [Std.Associative op] {v : V} {l m : List V}
    (hv : Folds op v l) (hperm : l.Perm m) : Folds op v m := by
  intro a
  rw [hv a]
  exact hperm.foldl_eq a

end Folds

/-! ## Shuffles -/

/-- `__shfl_down_sync`, for all lanes: Where there is no lane further up, a lane reads itself. -/
def shflDown (x : Nat → V) (delta lane : Nat) : V :=
  if lane + delta < 32 then x (lane + delta) else x lane

/-- `__shfl_sync`, for all lanes. -/
def shfl (x : Nat → V) (src : Nat) : V := x (src % 32)

/-- Each lane takes in the lanes further up, by one distance after the other. -/
def shuffleDown (op : V → V → V) (x : Nat → V) : List Nat → Nat → V
  | [], lane => x lane
  | d :: ds, lane => shuffleDown op (fun lane => op (x lane) (shflDown x d lane)) ds lane

/-- How far up the lanes are that a lane has taken in. -/
def reach : List Nat → List Nat
  | [] => [0]
  | d :: ds => (reach ds).flatMap fun o => [o, o + d]

theorem le_of_mem_reach {ds : List Nat} {o : Nat} (h : o ∈ reach ds) : o ≤ ds.sum := by
  induction ds generalizing o with
  | nil =>
      rw [reach, List.mem_singleton] at h
      rw [h]
      exact Nat.zero_le _
  | cons d ds ih =>
      simp only [reach, List.mem_flatMap, List.mem_cons, List.not_mem_nil, or_false] at h
      obtain ⟨p, hp, hor⟩ := h
      have := ih hp
      rw [List.sum_cons]
      omega

/-- A lane that is far enough from the end has taken in the lanes in its reach. -/
theorem folds_shuffleDown {op : V → V → V} [Std.Associative op] {ds : List Nat} {x : Nat → V}
    {g : Nat → List V} {lane : Nat} (hlane : lane + ds.sum < 32)
    (hx : ∀ l < 32, Folds op (x l) (g l)) :
    Folds op (shuffleDown op x ds lane) ((reach ds).flatMap fun o => g (lane + o)) := by
  induction ds generalizing x g with
  | nil => simpa [shuffleDown, reach] using hx lane hlane
  | cons d ds ih =>
      rw [List.sum_cons] at hlane
      -- What the lanes have after the first shuffle, if they are not too near to the end.
      let g' (l : Nat) : List V := if l + d < 32 then g l ++ g (l + d) else g l ++ g l
      have hx' : ∀ l < 32, Folds op (op (x l) (shflDown x d l)) (g' l) := by
        intro l hl
        unfold shflDown
        simp only [g']
        split_ifs with h
        · exact (hx l hl).append (hx (l + d) h)
        · exact (hx l hl).append (hx l hl)
      have hfold := ih (by omega) hx'
      rw [shuffleDown, reach, List.flatMap_assoc]
      have hlist : ((reach ds).flatMap fun o => g' (lane + o)) =
          (reach ds).flatMap fun o => [o, o + d].flatMap fun o => g (lane + o) := by
        apply List.flatMap_congr
        intro o ho
        have := le_of_mem_reach ho
        simp only [g', List.flatMap_cons, List.flatMap_nil, List.append_nil]
        rw [if_pos (by omega), Nat.add_assoc]
      rw [← hlist]
      exact hfold

end Core

end MKernel
