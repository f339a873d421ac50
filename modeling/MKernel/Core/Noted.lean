import MKernel.Core.System

/-!
# Machines with a Note

A machine with something written down beside it.

The note is written by the observer and not by the machine: an action takes the machine where it
would have gone anyway, and the note is changed in the light of the state before and the state
after. So the runs of the machine with its note are the runs of the machine (`reaches_of_noted`),
and a statement about a run may speak of what was noted on the way.

## Main definitions

* `notedStep`: One action of a machine with its note.

## Theorems

* `notedStep_eq_some`: What one action does.
* `reaches_of_noted`: Without the notes, a run is one of the machine.
-/

namespace MKernel

namespace Core

variable {σ ι μ : Type*} {step : σ → ι → Option σ} {note : σ → ι → σ → μ → μ}

/-- One action of a machine, and what is noted of it. -/
def notedStep (step : σ → ι → Option σ) (note : σ → ι → σ → μ → μ) (t : σ × μ) (a : ι) :
    Option (σ × μ) :=
  (step t.1 a).map fun s => (s, note t.1 a s t.2)

theorem notedStep_eq_some {t u : σ × μ} {a : ι} (h : notedStep step note t a = some u) :
    step t.1 a = some u.1 ∧ u.2 = note t.1 a u.1 t.2 := by
  rcases Option.map_eq_some_iff.mp h with ⟨s, hs, rfl⟩
  exact ⟨hs, rfl⟩

/-- Without the notes, a run is one of the machine. -/
theorem reaches_of_noted {ok : σ → ι → Prop} {ok' : σ × μ → ι → Prop} {t u : σ × μ}
    (hok : ∀ t a, ok' t a → ok t.1 a) (h : Reaches (notedStep step note) ok' t u) :
    Reaches step ok t.1 u.1 := by
  refine invariant_of_reaches (fun u => Reaches step ok t.1 u.1) (fun v a v' hv ha hstep => ?_) h
    (reaches_refl _ _ _)
  exact reaches_step hv a (hok v a ha) (notedStep_eq_some hstep).1

end Core

end MKernel
