import Mathlib.Data.List.Perm.Basic

/-!
# A Wire

Chains of requests that land one by one.

What is posted together lands in order, and chains that are under way at the same time land in
any order. Nothing is lost and nothing comes of itself: what has landed and what is under way
together are what was posted (`sent_post`, `sent_land`). If a request is posted only when
another one has landed, or behind it in its chain, it lands after that one (`InOrder`).

## Main definitions

* `Wire`: The chains under way, and what has landed, the last first.
* `post`, `land`: A chain is posted, and the first of what is left of a chain lands.
* `sent`: All that was posted.
* `InOrder`: Requests that land only after others.

## Theorems

* `sent_post`, `sent_land`: What was posted.
* `exists_land`: If something is under way, something can land.
* `InOrder.post`, `InOrder.land`: The order is kept.
-/

namespace MKernel

namespace Core

variable {α : Type*}

/-- What is left of the chains under way, and what has landed. -/
structure Wire (α : Type*) where
  flight : List (List α)
  landed : List α
deriving DecidableEq

namespace Wire

def empty : Wire α where
  flight := []
  landed := []

/-- A chain is posted. -/
def post (w : Wire α) (chain : List α) : Wire α := { w with flight := chain :: w.flight }

/-- The next request of a chain lands. -/
def land (w : Wire α) (i : Nat) : Option (Wire α) :=
  match w.flight[i]? with
  | some (x :: xs) => some ⟨w.flight.set i xs, x :: w.landed⟩
  | _ => none

/-- How much is under way. -/
def pending (w : Wire α) : Nat := w.flight.flatten.length

/-- All that was posted. -/
def sent (w : Wire α) : List α := w.landed ++ w.flight.flatten

variable {w u : Wire α} {i : Nat}

theorem land_eq_some (h : w.land i = some u) :
    ∃ x xs, w.flight[i]? = some (x :: xs) ∧ u = ⟨w.flight.set i xs, x :: w.landed⟩ := by
  unfold land at h
  split at h
  · rename_i x xs hchain
    exact ⟨x, xs, hchain, (Option.some.inj h).symm⟩
  · exact absurd h (by simp only [reduceCtorEq, not_false_eq_true])

@[simp] theorem pending_post (w : Wire α) (chain : List α) :
    (w.post chain).pending = chain.length + w.pending := by
  simp only [pending, post, List.flatten_cons, List.length_append]

theorem sent_post (w : Wire α) (chain : List α) : (w.post chain).sent.Perm (chain ++ w.sent) := by
  simp only [sent, post, List.flatten_cons, ← List.append_assoc]
  exact List.Perm.append_right _ List.perm_append_comm

/-- The first of a chain is taken out of all that is under way. -/
theorem flatten_set_perm {x : α} {xs : List α} : ∀ (l : List (List α)) (i : Nat),
    l[i]? = some (x :: xs) → l.flatten.Perm (x :: (l.set i xs).flatten) := by
  intro l
  induction l with
  | nil =>
      intro i h
      rw [List.getElem?_nil] at h
      exact absurd h (by simp only [reduceCtorEq, not_false_eq_true])
  | cons c l ih =>
      intro i h
      cases i with
      | zero =>
          rw [List.getElem?_cons_zero, Option.some.injEq] at h
          rw [h, List.set_cons_zero, List.flatten_cons, List.flatten_cons, List.cons_append]
      | succ i =>
          rw [List.getElem?_cons_succ] at h
          rw [List.set_cons_succ, List.flatten_cons, List.flatten_cons]
          exact (List.Perm.append_left c (ih i h)).trans List.perm_middle

/-- What lands was posted before. -/
theorem sent_land (h : w.land i = some u) : u.sent.Perm w.sent := by
  rcases land_eq_some h with ⟨x, xs, hchain, rfl⟩
  have hperm := flatten_set_perm w.flight i hchain
  simp only [sent, List.cons_append]
  exact (List.perm_middle.symm.trans (List.Perm.append_left w.landed hperm.symm))

theorem pending_land (h : w.land i = some u) : u.pending + 1 = w.pending := by
  rcases land_eq_some h with ⟨x, xs, hchain, rfl⟩
  have hlen := (flatten_set_perm w.flight i hchain).length_eq
  rw [List.length_cons] at hlen
  exact hlen.symm

/-- If something is under way, something can land. -/
theorem exists_land (h : w.flight.flatten ≠ []) : ∃ i u, w.land i = some u := by
  rcases List.exists_mem_of_ne_nil _ h with ⟨x, hx⟩
  rcases List.mem_flatten.mp hx with ⟨c, hc, hmem⟩
  rcases List.getElem?_of_mem hc with ⟨i, hi⟩
  cases c with
  | nil => exact absurd hmem List.not_mem_nil
  | cons y ys => exact ⟨i, ⟨w.flight.set i ys, y :: w.landed⟩, by rw [land, hi]⟩

/-- If nothing is under way, all that was posted has landed. -/
theorem sent_of_done (h : w.flight.flatten = []) : w.sent = w.landed := by
  rw [sent, h, List.append_nil]

theorem landed_subset (w : Wire α) : w.landed ⊆ w.sent := List.subset_append_left _ _

/-- Of requests that were posted once each, none lands twice. -/
theorem nodup_landed (h : w.sent.Nodup) : w.landed.Nodup := (List.nodup_append.mp h).1

/-- What a request needs has landed, or is before it in its chain. -/
structure InOrder (need : α → α → Prop) (w : Wire α) : Prop where
  landed : ∀ b ∈ w.landed, ∀ a, need b a → a ∈ w.landed
  flight : ∀ xs b ys, xs ++ b :: ys ∈ w.flight → ∀ a, need b a → a ∈ w.landed ∨ a ∈ xs

namespace InOrder

variable {need : α → α → Prop} {chain : List α}

theorem empty : InOrder need (Wire.empty : Wire α) :=
  ⟨fun _ hb => absurd hb List.not_mem_nil, fun _ _ _ hc => absurd hc List.not_mem_nil⟩

theorem post (h : w.InOrder need)
    (hchain : ∀ xs b ys, chain = xs ++ b :: ys → ∀ a, need b a → a ∈ w.landed ∨ a ∈ xs) :
    (w.post chain).InOrder need where
  landed := h.landed
  flight xs b ys hc := by
    rcases List.mem_cons.mp hc with heq | hmem
    · exact hchain xs b ys heq.symm
    · exact h.flight xs b ys hmem

/-- What lands is the first of its chain, so what it needs has landed. -/
theorem land (h : w.InOrder need) (hland : w.land i = some u) : u.InOrder need := by
  rcases land_eq_some hland with ⟨x, xs, hchain, rfl⟩
  have hmem : x :: xs ∈ w.flight := List.mem_of_getElem? hchain
  refine ⟨fun b hb a ha => ?_, fun ys b zs hc a ha => ?_⟩
  · rcases List.mem_cons.mp hb with rfl | hb
    · rcases h.flight [] b xs hmem a ha with hin | hin
      · exact List.mem_cons_of_mem _ hin
      · exact absurd hin List.not_mem_nil
    · exact List.mem_cons_of_mem _ (h.landed b hb a ha)
  · rcases List.mem_or_eq_of_mem_set hc with hc | heq
    · exact (h.flight ys b zs hc a ha).imp_left (List.mem_cons_of_mem _)
    · rw [← heq] at hmem
      rcases h.flight (x :: ys) b zs hmem a ha with hin | hin
      · exact Or.inl (List.mem_cons_of_mem _ hin)
      · rcases List.mem_cons.mp hin with rfl | hin
        · exact Or.inl List.mem_cons_self
        · exact Or.inr hin

end InOrder

end Wire

end Core

end MKernel
