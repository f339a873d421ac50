import Mathlib.Logic.Function.Basic
import MKernel.Core.System

/-!
# Families of Machines

Machines that run side by side, each on a state of its own.

An action of the family is an action of one member, and the others stay where
they are. In any run of the family each member goes through a run of its own, so
what holds of every run of a member holds of it in the family, however the steps
interleave.

## Main definitions

* `familyStep`: One action of one member.
* `familyOk`: A condition on the steps of each member.

## Theorems

* `reaches_member`: Each member goes through a run of its own.
-/

namespace MKernel

namespace Core

variable {ι σ α : Type*} [DecidableEq ι]

/-- One action of one member. -/
def familyStep (step : ι → σ → α → Option σ) (s : ι → σ) (x : ι × α) : Option (ι → σ) :=
  (step x.1 (s x.1) x.2).map (Function.update s x.1)

/-- A condition on the steps of each member. -/
def familyOk (ok : ι → σ → α → Prop) (s : ι → σ) (x : ι × α) : Prop := ok x.1 (s x.1) x.2

instance (ok : ι → σ → α → Prop) [∀ i s a, Decidable (ok i s a)] (s : ι → σ) (x : ι × α) :
    Decidable (familyOk ok s x) :=
  inferInstanceAs (Decidable (ok x.1 (s x.1) x.2))

/-- Each member of a family goes through a run of its own. -/
theorem reaches_member {step : ι → σ → α → Option σ} {ok : ι → σ → α → Prop} {s t : ι → σ}
    (h : Reaches (familyStep step) (familyOk ok) s t) (i : ι) :
    Reaches (step i) (ok i) (s i) (t i) := by
  refine reaches_map (fun u : ι → σ => u i) ?_ h
  rintro u ⟨j, a⟩ v hok hstep
  rcases Option.map_eq_some_iff.mp hstep with ⟨w, hw, rfl⟩
  by_cases hij : i = j
  · subst hij
    simp only [Function.update_self]
    exact reaches_step (reaches_refl _ _ _) a hok hw
  · simp only [Function.update_of_ne hij]
    exact reaches_refl _ _ _

end Core

end MKernel
