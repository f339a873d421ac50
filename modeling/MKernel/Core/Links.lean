import Mathlib.Logic.Function.Basic

/-!
# Links

Lists that are strung together by links in their cells.

Each cell names the next one, or none. A walk from a link visits the cells it comes by, one
after the other, up to another link. Walks are put together end to end, they depend on the
links of the cells they visit and on no others, and a walk to the end is determined by where
it begins.

## Main definitions

* `Walk`: The cells visited between two links.

## Theorems

* `Walk.append`: Walks end to end.
* `Walk.congr`: A walk depends on the cells it visits.
* `Walk.eq_of_end`: There is one walk to the end.
-/

namespace MKernel

namespace Core

variable {ι : Type*} {next next' : ι → Option ι}

/-- From one link, through some cells, to another link. -/
def Walk (next : ι → Option ι) : Option ι → List ι → Option ι → Prop
  | start, [], stop => start = stop
  | start, i :: l, stop => start = some i ∧ Walk next (next i) l stop

@[simp] theorem walk_nil {start stop : Option ι} : Walk next start [] stop ↔ start = stop := Iff.rfl

@[simp] theorem walk_cons {start stop : Option ι} {i : ι} {l : List ι} :
    Walk next start (i :: l) stop ↔ start = some i ∧ Walk next (next i) l stop :=
  Iff.rfl

theorem Walk.append {start middle stop : Option ι} {l l' : List ι} (h : Walk next start l middle)
    (h' : Walk next middle l' stop) : Walk next start (l ++ l') stop := by
  induction l generalizing start with
  | nil =>
      rw [Walk] at h
      rw [h]
      exact h'
  | cons i l ih => exact ⟨h.1, ih h.2⟩

/-- A walk depends on the links of the cells it visits. -/
theorem Walk.congr {start stop : Option ι} {l : List ι} (h : Walk next start l stop)
    (heq : ∀ i ∈ l, next' i = next i) : Walk next' start l stop := by
  induction l generalizing start with
  | nil => exact h
  | cons i l ih =>
      refine ⟨h.1, ?_⟩
      rw [heq i List.mem_cons_self]
      exact ih h.2 fun j hj => heq j (List.mem_cons_of_mem _ hj)

/-- Where a walk begins determines the walk to the end. -/
theorem Walk.eq_of_end {start : Option ι} {l l' : List ι} (h : Walk next start l none)
    (h' : Walk next start l' none) : l = l' := by
  induction l generalizing start l' with
  | nil =>
      rw [Walk] at h
      cases l' with
      | nil => rfl
      | cons j l' =>
        exact absurd (h.symm.trans h'.1) (by simp only [reduceCtorEq, not_false_eq_true])
  | cons i l ih =>
      cases l' with
      | nil =>
          rw [Walk] at h'
          exact absurd (h.1.symm.trans h') (by simp only [reduceCtorEq, not_false_eq_true])
      | cons j l' =>
          have hij : i = j := Option.some.inj (h.1.symm.trans h'.1)
          rw [hij] at h ⊢
          rw [ih h.2 h'.2]

end Core

end MKernel
