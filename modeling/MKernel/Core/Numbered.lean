import Mathlib.Data.List.Range
import Mathlib.Data.List.Basic
import Mathlib.Logic.Function.Basic

/-!
# Numbered Items

Items with keys, where the items of each key are numbered one after the other.

Whoever numbers them keeps a counter for each key, gives an item the number its
key's counter stands at, and moves that counter on. So an item's number is where
its key's counter started and the number of items of that key before it. The
items of one key then have consecutive numbers, whatever comes between them.

## Main definitions

* `keyCount`: The number of items of a key.
* `Numbered`: The items of each key have consecutive numbers.

## Theorems

* `numbered_append`: Items that follow are numbered from where the others end.
* `length_le_of_keyCount`: A bound for the items of each key is one for all items.
* `Numbered.map_eq`: What is determined by key and number, in order.
-/

namespace MKernel

namespace Core

variable {α β κ : Type*} [DecidableEq κ]

/-- The items of a key, in order. -/
def ofKey (key : α → κ) (k : κ) (xs : List α) : List α := xs.filter fun x => key x = k

/-- The number of items of a key. -/
def keyCount (key : α → κ) (xs : List α) (k : κ) : Nat := (ofKey key k xs).length

/-- The items of each key have consecutive numbers from its start. -/
def Numbered (key : α → κ) (no : α → Nat → Prop) (start : κ → Nat) (xs : List α) : Prop :=
  ∀ k i x, (ofKey key k xs)[i]? = some x → no x (start k + i)

variable {key : α → κ} {no : α → Nat → Prop} {start : κ → Nat} {xs ys : List α}

@[simp] theorem ofKey_nil (k : κ) : ofKey key k [] = [] := rfl

@[simp] theorem ofKey_append (k : κ) :
    ofKey key k (xs ++ ys) = ofKey key k xs ++ ofKey key k ys :=
  List.filter_append ..

theorem ofKey_singleton_self (x : α) : ofKey key (key x) [x] = [x] := by
  rw [ofKey, List.filter_cons_of_pos (by simp only [decide_true]), List.filter_nil]

theorem ofKey_singleton_of_ne {k : κ} {x : α} (h : key x ≠ k) : ofKey key k [x] = [] := by
  rw [ofKey, List.filter_cons_of_neg (by simp only [h, decide_false, not_false_eq_true,
    Bool.false_eq_true]), List.filter_nil]

@[simp] theorem keyCount_nil (k : κ) : keyCount key [] k = 0 := rfl

theorem keyCount_append (k : κ) :
    keyCount key (xs ++ ys) k = keyCount key xs k + keyCount key ys k := by
  rw [keyCount, ofKey_append, List.length_append]
  rfl

theorem keyCount_singleton (x : α) (k : κ) :
    keyCount key [x] k = if k = key x then 1 else 0 := by
  by_cases h : k = key x
  · rw [if_pos h, h, keyCount, ofKey_singleton_self, List.length_singleton]
  · rw [if_neg h, keyCount, ofKey_singleton_of_ne (Ne.symm h), List.length_nil]

theorem keyCount_perm (h : xs.Perm ys) (k : κ) : keyCount key xs k = keyCount key ys k :=
  (h.filter _).length_eq

theorem keyCount_sublist (h : xs.Sublist ys) (k : κ) : keyCount key xs k ≤ keyCount key ys k :=
  (h.filter _).length_le

theorem keyCount_eq_zero {k : κ} (h : ∀ x ∈ xs, key x ≠ k) : keyCount key xs k = 0 := by
  rw [keyCount, ofKey, List.filter_eq_nil_iff.mpr fun x hx => by simpa using h x hx]
  rfl

theorem keyCount_le_length (k : κ) : keyCount key xs k ≤ xs.length := List.length_filter_le ..

/-- Where of each key at most `n` items come to one that is picked, so it is of all items. -/
theorem length_le_of_keyCount (key : α → κ) {p : α → Bool} {n : Nat}
    (h : ∀ k, keyCount key xs k ≤ n * keyCount key (xs.filter p) k) :
    xs.length ≤ n * (xs.filter p).length := by
  -- The items of one key at a time: strong induction on their number.
  induction hlen : xs.length using Nat.strong_induction_on generalizing xs with
  | _ m ih =>
    cases xs with
    | nil => rw [← hlen]; exact Nat.zero_le _
    | cons x t =>
        generalize hl : x :: t = l at h hlen ⊢
        have hsplit : ∀ l' : List α,
            l'.length = keyCount key l' (key x) + (l'.filter fun y => key y ≠ key x).length := by
          intro l'
          rw [List.length_eq_length_filter_add fun y => decide (key y = key x)]
          simp only [keyCount, ofKey, ne_eq, decide_not]
        have hcomm : ∀ q : α → Bool, (l.filter q).filter p = (l.filter p).filter q := by
          intro q
          rw [List.filter_filter, List.filter_filter]
          exact List.filter_congr fun y _ => Bool.and_comm _ _
        have hpos : 0 < keyCount key l (key x) := by
          rw [← hl, keyCount, ofKey, List.filter_cons_of_pos (by simp only [decide_true])]
          exact Nat.succ_pos _
        have hrest : (l.filter fun y => key y ≠ key x).length ≤
            n * ((l.filter fun y => key y ≠ key x).filter p).length := by
          refine ih _ ?_ (fun k => ?_) rfl
          · have := hsplit l
            omega
          · rw [hcomm]
            by_cases hk : k = key x
            · rw [keyCount_eq_zero fun y hy hy' => ?_]
              · exact Nat.zero_le _
              · have hne := (List.mem_filter.mp hy).2
                rw [hy', hk] at hne
                simp at hne
            · have hkeep : ∀ l' : List α,
                  keyCount key (l'.filter fun y => key y ≠ key x) k = keyCount key l' k := by
                intro l'
                rw [keyCount, keyCount, ofKey, ofKey, List.filter_filter]
                congr 1
                refine List.filter_congr fun y _ => ?_
                by_cases hy : key y = k
                · simp [hy, hk]
                · simp [hy]
              rw [hkeep, hkeep]
              exact h k
        calc m = keyCount key l (key x) + (l.filter fun y => key y ≠ key x).length := by
              rw [← hlen, hsplit l]
          _ ≤ n * keyCount key (l.filter p) (key x) +
              n * ((l.filter fun y => key y ≠ key x).filter p).length :=
            Nat.add_le_add (h _) hrest
          _ = n * (l.filter p).length := by
            rw [hcomm, ← Nat.mul_add, ← hsplit]

theorem numbered_nil : Numbered key no start [] := by
  intro k i x h
  rw [ofKey_nil, List.getElem?_nil] at h
  exact absurd h (Option.some_ne_none x).symm

theorem numbered_singleton {x : α} (h : no x (start (key x))) : Numbered key no start [x] := by
  intro k i y hy
  by_cases hk : key x = k
  · subst hk
    rw [ofKey_singleton_self] at hy
    rcases List.getElem?_eq_some_iff.mp hy with ⟨hi, rfl⟩
    have hi0 : i = 0 := Nat.lt_one_iff.mp hi
    subst hi0
    exact h
  · rw [ofKey_singleton_of_ne hk, List.getElem?_nil] at hy
    exact absurd hy (Option.some_ne_none y).symm

/-- Items that follow are numbered from where the others end. -/
theorem numbered_append (hx : Numbered key no start xs)
    (hy : Numbered key no (fun k => start k + keyCount key xs k) ys) :
    Numbered key no start (xs ++ ys) := by
  intro k i x h
  rw [ofKey_append] at h
  by_cases hi : i < (ofKey key k xs).length
  · rw [List.getElem?_append_left hi] at h
    exact hx k i x h
  · have hle := Nat.le_of_not_lt hi
    rw [List.getElem?_append_right hle] at h
    have hno := hy k _ x h
    rw [Nat.add_assoc, keyCount, Nat.add_sub_cancel' hle] at hno
    exact hno

/-- What is determined by key and number comes in the order of the numbers. -/
theorem Numbered.map_eq (h : Numbered key no start xs) (k : κ) {f : α → β} {g : Nat → β}
    (hfg : ∀ x ∈ ofKey key k xs, ∀ n, no x n → f x = g n) :
    (ofKey key k xs).map f = (List.range (keyCount key xs k)).map fun i => g (start k + i) := by
  refine List.ext_getElem ?_ ?_
  · rw [List.length_map, List.length_map, List.length_range]
    rfl
  · intro i hi _
    rw [List.length_map] at hi
    rw [List.getElem_map, List.getElem_map, List.getElem_range]
    exact hfg _ (List.getElem_mem hi) _ (h k i _ (List.getElem?_eq_getElem hi))

end Core

end MKernel
