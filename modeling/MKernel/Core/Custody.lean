import Mathlib.Data.Finset.Card
import Mathlib.Data.Finset.Range
import Mathlib.Data.List.Nodup

/-!
# Items in Custody

Items that are taken once, pass from holder to holder, and are let go of once.

A holder has one item at most, and an item that was taken has one holder at
most. Whoever takes an item finds it untaken, a holder may hand its item to a
holder that has none, and in the end one lets it go. What was let go of is kept
in a list, which therefore never has an item twice. A chain of two such stages,
where letting go in the first is taking in the second, is two instances of the
same structure.

A holder that already has an item and takes another one would lose the first. As long as none does,
whatever was taken was let go of or is held (`Kept`), and is not lost.

If all items are below a bound, so is the number of those let go of, and once it
reaches the bound, all items were (`length_le`, `mem_of_length`).

## Main definitions

* `Custody`: Items that were taken, who holds them, and those let go of.
* `Kept`: Nothing that was taken is lost.

## Theorems

* `Custody.claim`: A holder takes an item.
* `Custody.hand`: It hands the item on.
* `Custody.release`: It lets go of it.
* `Kept.claim`, `Kept.hand`, `Kept.release`: In all three, nothing is lost.
* `countP_le_card`, `countP_eq_card_iff`: Items of a kind, without repetition.
* `length_le`, `mem_of_length`: Items without repetition, and a bound.
-/

namespace MKernel

namespace Core

variable {H C : Type*}

/-- Which item each holder has, the items that were taken, and those that were let
    go of, in order. -/
structure Custody (held : H → Option C) (taken : C → Prop) (out : List C) : Prop where
  taken_of_held : ∀ h c, held h = some c → taken c
  taken_of_out : ∀ c ∈ out, taken c
  holder_inj : ∀ h g c, held h = some c → held g = some c → h = g
  notMem_of_held : ∀ h c, held h = some c → c ∉ out
  nodup : out.Nodup

namespace Custody

variable {held held' : H → Option C} {taken taken' : C → Prop} {out : List C} {h g : H} {c : C}

theorem init (hheld : ∀ h, held h = none) : Custody held taken [] where
  taken_of_held h c hc := by
    rw [hheld h] at hc
    exact absurd hc (by simp only [reduceCtorEq, not_false_eq_true])
  taken_of_out c hc := absurd hc List.not_mem_nil
  holder_inj h g c hc := by
    rw [hheld h] at hc
    exact absurd hc (by simp only [reduceCtorEq, not_false_eq_true])
  notMem_of_held _ _ _ := List.not_mem_nil
  nodup := List.nodup_nil

theorem congr (hc : Custody held taken out) (hheld : ∀ k, held' k = held k)
    (htaken : ∀ x, taken' x ↔ taken x) : Custody held' taken' out := by
  rw [funext hheld, funext fun x => propext (htaken x)]
  exact hc

/-- A holder without an item takes one that nobody has taken. -/
theorem claim (hc : Custody held taken out) (hfresh : ¬ taken c)
    (hother : ∀ k, k ≠ h → held' k = held k) (hheld : held' h = some c)
    (htaken : ∀ x, taken' x ↔ taken x ∨ x = c) : Custody held' taken' out := by
  have hcases : ∀ k x, held' k = some x → k = h ∧ x = c ∨ k ≠ h ∧ held k = some x := by
    intro k x hk
    by_cases heq : k = h
    · rw [heq, hheld] at hk
      exact Or.inl ⟨heq, (Option.some.inj hk).symm⟩
    · rw [hother k heq] at hk
      exact Or.inr ⟨heq, hk⟩
  refine ⟨fun k x hk => ?_, fun x hx => (htaken x).mpr (Or.inl (hc.taken_of_out x hx)),
    fun k k' x hk hk' => ?_, fun k x hk => ?_, hc.nodup⟩
  · rw [htaken x]
    rcases hcases k x hk with ⟨_, hx⟩ | ⟨_, hx⟩
    · exact Or.inr hx
    · exact Or.inl (hc.taken_of_held k x hx)
  · -- Another holder would have taken the item before.
    rcases hcases k x hk with ⟨rfl, rfl⟩ | ⟨_, hx⟩
    · rcases hcases k' x hk' with ⟨rfl, _⟩ | ⟨_, hx'⟩
      · rfl
      · exact absurd (hc.taken_of_held k' x hx') hfresh
    · rcases hcases k' x hk' with ⟨_, rfl⟩ | ⟨_, hx'⟩
      · exact absurd (hc.taken_of_held k x hx) hfresh
      · exact hc.holder_inj k k' x hx hx'
  · rcases hcases k x hk with ⟨_, rfl⟩ | ⟨_, hx⟩
    · exact fun hout => hfresh (hc.taken_of_out x hout)
    · exact hc.notMem_of_held k x hx

/-- A holder hands its item to one that has none. -/
theorem hand (hc : Custody held taken out) (hheld : held h = some c)
    (hother : ∀ k, k ≠ h → k ≠ g → held' k = held k) (hgive : held' h = none)
    (htake : held' g = some c) : Custody held' taken out := by
  -- Whoever has an item afterwards had it before, or has it from `h`.
  have hcases : ∀ k x, held' k = some x → k = g ∧ x = c ∨ k ≠ h ∧ held k = some x := by
    intro k x hk
    by_cases hkg : k = g
    · rw [hkg, htake] at hk
      exact Or.inl ⟨hkg, (Option.some.inj hk).symm⟩
    · by_cases hkh : k = h
      · rw [hkh, hgive] at hk
        exact absurd hk (by simp only [reduceCtorEq, not_false_eq_true])
      · rw [hother k hkh hkg] at hk
        exact Or.inr ⟨hkh, hk⟩
  refine ⟨fun k x hk => ?_, hc.taken_of_out, fun k k' x hk hk' => ?_, fun k x hk => ?_, hc.nodup⟩
  · rcases hcases k x hk with ⟨_, rfl⟩ | ⟨_, hx⟩
    · exact hc.taken_of_held h x hheld
    · exact hc.taken_of_held k x hx
  · rcases hcases k x hk with ⟨rfl, rfl⟩ | ⟨hkh, hx⟩
    · rcases hcases k' x hk' with ⟨rfl, _⟩ | ⟨hkh', hx'⟩
      · rfl
      · exact absurd (hc.holder_inj k' h x hx' hheld) hkh'
    · rcases hcases k' x hk' with ⟨_, rfl⟩ | ⟨_, hx'⟩
      · exact absurd (hc.holder_inj k h x hx hheld) hkh
      · exact hc.holder_inj k k' x hx hx'
  · rcases hcases k x hk with ⟨_, rfl⟩ | ⟨_, hx⟩
    · exact hc.notMem_of_held h x hheld
    · exact hc.notMem_of_held k x hx

/-- A holder lets go of its item. -/
theorem release (hc : Custody held taken out) (hheld : held h = some c)
    (hother : ∀ k, k ≠ h → held' k = held k) (hgive : held' h = none) :
    Custody held' taken (out ++ [c]) := by
  -- Who holds something now held it before, and is another.
  have hcases : ∀ k x, held' k = some x → k ≠ h ∧ held k = some x := by
    intro k x hk
    by_cases heq : k = h
    · rw [heq, hgive] at hk
      exact absurd hk (by simp only [reduceCtorEq, not_false_eq_true])
    · rw [hother k heq] at hk
      exact ⟨heq, hk⟩
  refine ⟨fun k x hk => hc.taken_of_held k x (hcases k x hk).2, fun x hx => ?_,
    fun k k' x hk hk' => hc.holder_inj k k' x (hcases k x hk).2 (hcases k' x hk').2,
    fun k x hk => ?_, ?_⟩
  · rw [List.mem_append, List.mem_singleton] at hx
    rcases hx with hx | rfl
    · exact hc.taken_of_out x hx
    · exact hc.taken_of_held h x hheld
  · rcases hcases k x hk with ⟨hne, hx⟩
    rw [List.mem_append, List.mem_singleton, not_or]
    -- The item let go of was held by one only.
    refine ⟨hc.notMem_of_held k x hx, ?_⟩
    rintro rfl
    exact hne (hc.holder_inj k h x hx hheld)
  · rw [← List.concat_eq_append]
    exact hc.nodup.concat (hc.notMem_of_held h c hheld)

end Custody

/-- Nothing that was taken is lost: it was let go of, or someone has it. -/
def Kept (held : H → Option C) (taken : C → Prop) (out : List C) : Prop :=
  ∀ c, taken c → c ∈ out ∨ ∃ h, held h = some c

namespace Kept

variable {held held' : H → Option C} {taken taken' : C → Prop} {out : List C} {h g : H} {c : C}

theorem init (hnone : ∀ c, ¬ taken c) : Kept held taken out := fun c hc => absurd hc (hnone c)

theorem congr (hk : Kept held taken out) (hheld : ∀ k, held' k = held k)
    (htaken : ∀ x, taken' x ↔ taken x) : Kept held' taken' out := by
  rw [funext hheld, funext fun x => propext (htaken x)]
  exact hk

/-- What another holder has, it keeps. -/
theorem other (hk : Kept held taken out) (hnone : held h = none)
    (hother : ∀ k, k ≠ h → held' k = held k) {x : C} (hx : taken x) :
    x ∈ out ∨ ∃ k, held' k = some x := by
  rcases hk x hx with hout | ⟨k, hheld⟩
  · exact Or.inl hout
  · refine Or.inr ⟨k, ?_⟩
    rw [hother k, hheld]
    rintro rfl
    rw [hnone] at hheld
    exact absurd hheld (by simp only [reduceCtorEq, not_false_eq_true])

/-- A holder without an item takes one. -/
theorem claim (hk : Kept held taken out) (hnone : held h = none)
    (hother : ∀ k, k ≠ h → held' k = held k) (hheld : held' h = some c)
    (htaken : ∀ x, taken' x ↔ taken x ∨ x = c) : Kept held' taken' out := by
  intro x hx
  rcases (htaken x).mp hx with hold | rfl
  · exact hk.other hnone hother hold
  · exact Or.inr ⟨h, hheld⟩

/-- A holder hands its item to one that has none. -/
theorem hand (hk : Kept held taken out) (hheld : held h = some c) (hnone : held g = none)
    (hother : ∀ k, k ≠ h → k ≠ g → held' k = held k) (htake : held' g = some c) :
    Kept held' taken out := by
  intro x hx
  rcases hk x hx with hout | ⟨k, hkx⟩
  · exact Or.inl hout
  · right
    by_cases hkh : k = h
    · rw [hkh, hheld] at hkx
      cases hkx
      exact ⟨g, htake⟩
    · refine ⟨k, ?_⟩
      rw [hother k hkh, hkx]
      rintro rfl
      rw [hnone] at hkx
      exact absurd hkx (by simp only [reduceCtorEq, not_false_eq_true])

/-- A holder lets go of its item. -/
theorem release (hk : Kept held taken out) (hheld : held h = some c)
    (hother : ∀ k, k ≠ h → held' k = held k) : Kept held' taken (out ++ [c]) := by
  intro x hx
  rw [List.mem_append, List.mem_singleton]
  rcases hk x hx with hout | ⟨k, hkx⟩
  · exact Or.inl (Or.inl hout)
  · by_cases hkh : k = h
    · rw [hkh, hheld] at hkx
      cases hkx
      exact Or.inl (Or.inr rfl)
    · exact Or.inr ⟨k, by rw [hother k hkh, hkx]⟩

/-- If nobody has anything, everything was let go of. -/
theorem mem_out (hk : Kept held taken out) (hnone : ∀ k, held k = none) (hc : taken c) :
    c ∈ out := by
  rcases hk c hc with hout | ⟨k, hheld⟩
  · exact hout
  · rw [hnone k] at hheld
    exact absurd hheld (by simp only [reduceCtorEq, not_false_eq_true])

end Kept

section Counts

variable {α : Type*} [DecidableEq α] {l : List α} {p : α → Prop} [DecidablePred p] {S : Finset α}

theorem countP_eq_card (hl : l.Nodup) : l.countP (fun y => p y) = (l.toFinset.filter p).card := by
  rw [List.countP_eq_length_filter, ← List.toFinset_card_of_nodup (hl.filter _),
    List.toFinset_filter]
  simp only [decide_eq_true_eq]

/-- Items of a kind, without repetition, are no more than there are of the kind. -/
theorem countP_le_card (hl : l.Nodup) (hS : ∀ y ∈ l, p y → y ∈ S) :
    l.countP (fun y => p y) ≤ S.card := by
  rw [countP_eq_card hl]
  refine Finset.card_le_card fun y hy => ?_
  rw [Finset.mem_filter, List.mem_toFinset] at hy
  exact hS y hy.1 hy.2

/-- If they are as many, they are all. -/
theorem countP_eq_card_iff (hl : l.Nodup) (hS : ∀ y ∈ l, p y → y ∈ S) (hp : ∀ y ∈ S, p y) :
    l.countP (fun y => p y) = S.card ↔ ∀ y ∈ S, y ∈ l := by
  have hsub : l.toFinset.filter p ⊆ S := by
    intro y hy
    rw [Finset.mem_filter, List.mem_toFinset] at hy
    exact hS y hy.1 hy.2
  rw [countP_eq_card hl]
  constructor
  · intro h y hy
    rw [← Finset.eq_of_subset_of_card_le hsub (le_of_eq h.symm), Finset.mem_filter,
      List.mem_toFinset] at hy
    exact hy.1
  · intro h
    refine congrArg Finset.card (Finset.Subset.antisymm hsub fun y hy => ?_)
    exact Finset.mem_filter.mpr ⟨List.mem_toFinset.mpr (h y hy), hp y hy⟩

end Counts

/-- Items below a bound, without repetition, are no more than the bound. -/
theorem length_le {l : List Nat} {n : Nat} (hl : l.Nodup) (hn : ∀ x ∈ l, x < n) : l.length ≤ n := by
  have hsub : l.toFinset ⊆ Finset.range n := by
    intro x hx
    rw [Finset.mem_range]
    exact hn x (List.mem_toFinset.mp hx)
  have hcard := Finset.card_le_card hsub
  rwa [List.toFinset_card_of_nodup hl, Finset.card_range] at hcard

/-- If they are as many as the bound, they are all. -/
theorem mem_of_length {l : List Nat} {n x : Nat} (hl : l.Nodup) (hn : ∀ x ∈ l, x < n)
    (hlen : n ≤ l.length) (hx : x < n) : x ∈ l := by
  have hsub : l.toFinset ⊆ Finset.range n := by
    intro y hy
    rw [Finset.mem_range]
    exact hn y (List.mem_toFinset.mp hy)
  have hall : l.toFinset = Finset.range n := by
    refine Finset.eq_of_subset_of_card_le hsub ?_
    rwa [List.toFinset_card_of_nodup hl, Finset.card_range]
  rw [← List.mem_toFinset, hall, Finset.mem_range]
  exact hx

end Core

end MKernel
