import Mathlib.Data.List.Infix

/-!
# Histories

Statements about the order of events, over a list of events with the newest
last.

`Along Q h` says that every event of `h` satisfies `Q` in the light of what
came before it: `Q before e` for each split `before ++ e :: after` of the
history. A safety property about order, "no event of this kind before one of
that kind", is such a statement, and it is proved one event at a time:
`along_concat` reduces the history with one more event to the history without
it and the new event. `along_append` is the same for several events at once
when the older part is known.

## Main definitions

* `Along`: Every event satisfies a predicate of its past and itself.

## Theorems

* `along_concat`: One more event.
* `along_append`: Several more events, one at a time.
-/

namespace MKernel

namespace Core

variable {ε : Type*} {Q : List ε → ε → Prop}

/-- Every event of a history satisfies `Q` of its past and itself. -/
def Along (Q : List ε → ε → Prop) (h : List ε) : Prop :=
  ∀ before e after, h = before ++ e :: after → Q before e

theorem along_nil : Along Q [] := by
  intro before e after h
  exact absurd h (by simp only [List.nil_eq_append_iff, reduceCtorEq, and_false, not_false_eq_true])

/-- One more event satisfies the predicate of the whole history so far. -/
theorem along_concat {h : List ε} {e : ε} : Along Q (h ++ [e]) ↔ Along Q h ∧ Q h e := by
  constructor
  · intro ha
    refine ⟨fun before d after hs => ?_, ha h e [] rfl⟩
    exact ha before d (after ++ [e]) (by rw [hs, List.append_assoc, List.cons_append])
  · rintro ⟨ha, he⟩ before d after hs
    -- The last event of the split is either the new one or an old one.
    rcases List.eq_nil_or_concat after with hnil | ⟨after', x, hx⟩
    · rw [hnil] at hs
      rcases List.append_inj' hs rfl with ⟨rfl, hd⟩
      rw [← List.head_eq_of_cons_eq hd]
      exact he
    · rw [hx, List.concat_eq_append, ← List.cons_append, ← List.append_assoc] at hs
      exact ha before d after' (List.append_inj' hs rfl).1

/-- Several more events, each judged by everything before it. -/
theorem along_append {h l : List ε} (ha : Along Q h)
    (hl : ∀ before e after, l = before ++ e :: after → Q (h ++ before) e) :
    Along Q (h ++ l) := by
  induction l using List.reverseRecOn with
  | nil => simpa only [List.append_nil] using ha
  | append_singleton l e ih =>
      rw [← List.append_assoc, along_concat]
      refine ⟨ih (fun before d after hs => ?_), hl l e [] rfl⟩
      exact hl before d (after ++ [e]) (by rw [hs, List.append_assoc, List.cons_append])

end Core

end MKernel
