import MKernel.Core.Custody
import Mathlib.Logic.Function.Basic

/-!
# Ticket Queues

A queue several parties put items into and take items from, with one counter for
each end.

Whoever puts an item in draws a ticket from the tail, which is the place of the
item, and whoever takes one out draws a ticket from the head. The items at the
places are given when the tickets are drawn; that the entry in memory is stored
later is of no concern to who has which item. A place the head has not come to
has its item (`waiting`), and drawing from the head hands the item of the first
such place to the party that draws.

So the places of the queue are holders as the parties are, and the chain from
the tail to the last party is one custody, from which nothing gets lost
(`Handed`).

## Main definitions

* `Handed`: Items in custody, of which none is lost.
* `waiting`: The item of a place the head has not come to.
* `Queued`: The places of a queue and the parties that draw from it.
* `EntryOf`: What may be read in memory at a place.

## Theorems

* `Handed.claim`, `Handed.release`: One party takes an item, and lets go of it.
* `Queued.push`, `Queued.pop`, `Queued.release`: The ways of a queue.
-/

namespace MKernel

namespace Core

variable {H C : Type*}

/-- Items in custody, of which none is lost. -/
structure Handed (held : H → Option C) (taken : C → Prop) (out : List C) : Prop where
  custody : Custody held taken out
  kept : Kept held taken out

namespace Handed

variable {held : H → Option C} {taken taken' : C → Prop} {out : List C} {h : H} {c : C}

theorem init (hheld : ∀ h, held h = none) (hnone : ∀ c, ¬ taken c) : Handed held taken [] where
  custody := Custody.init hheld
  kept := Kept.init hnone

theorem congr (hc : Handed held taken out) {held' : H → Option C} (hheld : held' = held)
    (htaken : ∀ x, taken' x ↔ taken x) : Handed held' taken' out := by
  rw [hheld]
  exact ⟨hc.custody.congr (fun _ => rfl) htaken, hc.kept.congr (fun _ => rfl) htaken⟩

variable [DecidableEq H]

/-- A party without an item takes one that nobody has taken. -/
theorem claim (hc : Handed held taken out) (hnone : held h = none) (hfresh : ¬ taken c)
    (htaken : ∀ x, taken' x ↔ taken x ∨ x = c) :
    Handed (Function.update held h (some c)) taken' out where
  custody := hc.custody.claim hfresh (fun _ hk => Function.update_of_ne hk _ _)
    (Function.update_self _ _ _) htaken
  kept := hc.kept.claim hnone (fun _ hk => Function.update_of_ne hk _ _)
    (Function.update_self _ _ _) htaken

/-- It lets go of its item. -/
theorem release (hc : Handed held taken out) (hheld : held h = some c) :
    Handed (Function.update held h none) taken (out ++ [c]) where
  custody := hc.custody.release hheld (fun _ hk => Function.update_of_ne hk _ _)
    (Function.update_self _ _ _)
  kept := hc.kept.release hheld (fun _ hk => Function.update_of_ne hk _ _)

end Handed

/-- The item of a place the head has not come to. -/
def waiting (items : List C) (head place : Nat) : Option C :=
  if head ≤ place then items[place]? else none

/-- The places of a queue and the parties that draw from it have the items of the
    queue, until the parties let go of them. -/
def Queued (items : List C) (head : Nat) (held : H → Option C) (out : List C) : Prop :=
  Handed (Sum.elim (waiting items head) held) (· ∈ items) out

section Queue

variable {items : List C} {head : Nat} {held : H → Option C} {out : List C} {h : H} {c : C}

/-- A place before the end of a queue keeps its item. -/
theorem getElem?_concat_of_lt {i : Nat} (hi : i < items.length) : (items ++ [c])[i]? = items[i]? :=
  List.getElem?_append_left hi

theorem getElem?_concat_length : (items ++ [c])[items.length]? = some c := by
  rw [List.getElem?_append_right (Nat.le_refl _), Nat.sub_self]
  rfl

/-- What is at a place stays there when the queue gets longer. -/
theorem getElem?_concat {i : Nat} {x : C} (hi : items[i]? = some x) :
    (items ++ [c])[i]? = some x := by
  rcases List.getElem?_eq_some_iff.mp hi with ⟨hlt, -⟩
  rw [getElem?_concat_of_lt hlt]
  exact hi

theorem Queued.init (hheld : ∀ h, held h = none) : Queued ([] : List C) head held [] :=
  Handed.init (fun k => by
    cases k with
    | inl place => simp only [Sum.elim_inl, waiting, List.getElem?_nil, ite_self]
    | inr k => exact hheld k) fun _ => List.not_mem_nil

theorem Queued.congr (hq : Queued items head held out) {held' : H → Option C}
    (hheld : held' = held) : Queued items head held' out := by
  rw [hheld]
  exact hq

theorem waiting_concat (hle : head ≤ items.length) :
    waiting (items ++ [c]) head = Function.update (waiting items head) items.length (some c) := by
  funext place
  simp only [waiting, Function.update_apply]
  by_cases hplace : place = items.length
  · rw [hplace, if_pos hle, if_pos rfl, getElem?_concat_length]
  · rw [if_neg hplace]
    by_cases hlt : place < items.length
    · rw [getElem?_concat_of_lt hlt]
    · have hnone : (items ++ [c])[place]? = none := by
        rw [List.getElem?_eq_none_iff, List.length_append, List.length_singleton]
        omega
      rw [hnone, List.getElem?_eq_none (by omega)]

theorem waiting_succ :
    waiting items (head + 1) = Function.update (waiting items head) head none := by
  funext place
  simp only [waiting, Function.update_apply]
  by_cases hplace : place = head
  · rw [if_pos hplace, if_neg (by omega)]
  · rw [if_neg hplace]
    exact if_congr (by omega) rfl rfl

/-- An item nobody has put in before gets the next place. -/
theorem Queued.push [DecidableEq H] (hq : Queued items head held out) (hle : head ≤ items.length)
    (hfresh : c ∉ items) : Queued (items ++ [c]) head held out := by
  have hplace : Sum.elim (waiting items head) held (.inl items.length) = none := by
    rw [Sum.elim_inl, waiting, if_pos hle]
    exact List.getElem?_eq_none (Nat.le_refl _)
  have hclaim : Handed (Function.update (Sum.elim (waiting items head) held) (.inl items.length)
      (some c)) (· ∈ items ++ [c]) out :=
    Handed.claim hq hplace hfresh fun x => by rw [List.mem_append, List.mem_singleton]
  rw [Queued, waiting_concat hle, ← Sum.update_elim_inl]
  exact hclaim

/-- A party without an item draws the one of the first place. -/
theorem Queued.pop [DecidableEq H] (hq : Queued items head held out) (hnone : held h = none)
    (hc : items[head]? = some c) :
    Queued items (head + 1) (Function.update held h (some c)) out := by
  have hplace : Sum.elim (waiting items head) held (.inl head) = some c := by
    rw [Sum.elim_inl, waiting, if_pos (Nat.le_refl _)]
    exact hc
  have hparty : Sum.elim (waiting items head) held (.inr h) = none := hnone
  have hother : ∀ k : Nat ⊕ H, k ≠ .inl head → k ≠ .inr h →
      Sum.elim (waiting items (head + 1)) (Function.update held h (some c)) k =
        Sum.elim (waiting items head) held k := by
    rintro (place | k) hkl hkr
    · rw [Sum.elim_inl, Sum.elim_inl, waiting_succ,
        Function.update_of_ne fun heq => hkl (congrArg Sum.inl heq)]
    · rw [Sum.elim_inr, Sum.elim_inr,
        Function.update_of_ne fun heq => hkr (congrArg Sum.inr heq)]
  have hgive : Sum.elim (waiting items (head + 1)) (Function.update held h (some c))
      (.inl head) = none := by
    rw [Sum.elim_inl, waiting_succ, Function.update_self]
  have htake : Sum.elim (waiting items (head + 1)) (Function.update held h (some c))
      (.inr h) = some c := by
    rw [Sum.elim_inr, Function.update_self]
  exact ⟨hq.custody.hand hplace hother hgive htake, hq.kept.hand hplace hparty hother htake⟩

/-- A party lets go of the item it has drawn. -/
theorem Queued.release [DecidableEq H] (hq : Queued items head held out) (hheld : held h = some c) :
    Queued items head (Function.update held h none) (out ++ [c]) := by
  rw [Queued, ← Sum.update_elim_inr]
  exact Handed.release hq hheld

/-- What may be read in memory at a place: nothing yet, or its item as it is
    written there. -/
def EntryOf {W : Type*} [Zero W] (items : List C) (encode : C → W) (place : Nat) (w : W) : Prop :=
  w = 0 ∨ ∃ x, items[place]? = some x ∧ w = encode x

theorem EntryOf.concat {W : Type*} [Zero W] {encode : C → W} {place : Nat} {w : W}
    (hw : EntryOf items encode place w) : EntryOf (items ++ [c]) encode place w :=
  hw.imp_right fun ⟨x, hx, hwx⟩ => ⟨x, getElem?_concat hx, hwx⟩

end Queue

end Core

end MKernel
