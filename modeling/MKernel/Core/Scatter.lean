import Mathlib.Data.List.Perm.Basic
import Mathlib.Logic.Function.Basic

/-!
# Scattered Writes

Writes of many threads to one memory, in whichever order they arrive.

Where no two writes disagree about an address, the order does not matter: an address
that is written has the value written to it (`scatter_of_mem`), and the others keep
theirs (`scatter_of_notMem`).

## Main definitions

* `scatter`: The memory after the writes.
* `Agree`: No two writes disagree about an address.

## Theorems

* `scatter_of_mem`: What is written stays.
* `scatter_of_notMem`: What is not written stays.
* `scatter_perm`: The order does not matter.
-/

namespace MKernel

namespace Core

variable {α V : Type*} [DecidableEq α]

/-- The memory after the writes, in their order. -/
def scatter (m : α → V) (ws : List (α × V)) : α → V :=
  ws.foldl (fun m w => Function.update m w.1 w.2) m

/-- No two writes disagree about an address. -/
def Agree (ws : List (α × V)) : Prop :=
  ∀ a v v', (a, v) ∈ ws → (a, v') ∈ ws → v = v'

@[simp] theorem scatter_nil (m : α → V) : scatter m [] = m := rfl

@[simp] theorem scatter_cons (m : α → V) (w : α × V) (ws : List (α × V)) :
    scatter m (w :: ws) = scatter (Function.update m w.1 w.2) ws := rfl

/-- An address that is not written keeps its value. -/
theorem scatter_of_notMem {m : α → V} {ws : List (α × V)} {a : α}
    (h : ∀ v, (a, v) ∉ ws) : scatter m ws a = m a := by
  induction ws generalizing m with
  | nil => rfl
  | cons w ws ih =>
      rw [scatter_cons, ih fun v hv => h v (List.mem_cons_of_mem w hv), Function.update_of_ne]
      rintro rfl
      exact h w.2 List.mem_cons_self

/-- An address that is written has the value written to it. -/
theorem scatter_of_mem {m : α → V} {ws : List (α × V)} {a : α} {v : V} (hagree : Agree ws)
    (h : (a, v) ∈ ws) : scatter m ws a = v := by
  induction ws generalizing m v with
  | nil => exact absurd h List.not_mem_nil
  | cons w ws ih =>
      have hrest : Agree ws := fun b x y hx hy =>
        hagree b x y (List.mem_cons_of_mem w hx) (List.mem_cons_of_mem w hy)
      by_cases hlater : ∃ v', (a, v') ∈ ws
      · -- A later write to the address is of the same value.
        obtain ⟨v', hv'⟩ := hlater
        rw [hagree a v v' h (List.mem_cons_of_mem w hv')]
        exact ih hrest hv'
      · rw [scatter_cons, scatter_of_notMem fun v' hv' => hlater ⟨v', hv'⟩]
        rcases List.mem_cons.mp h with heq | hmem
        · rw [← heq, Function.update_self]
        · exact absurd ⟨v, hmem⟩ hlater

/-- The order of writes that agree does not matter. -/
theorem scatter_perm {m : α → V} {ws ws' : List (α × V)} (hagree : Agree ws)
    (hperm : ws'.Perm ws) : scatter m ws' = scatter m ws := by
  have hagree' : Agree ws' := fun a v v' hv hv' =>
    hagree a v v' (hperm.mem_iff.mp hv) (hperm.mem_iff.mp hv')
  funext a
  by_cases h : ∃ v, (a, v) ∈ ws
  · obtain ⟨v, hv⟩ := h
    rw [scatter_of_mem hagree hv, scatter_of_mem hagree' (hperm.mem_iff.mpr hv)]
  · rw [scatter_of_notMem fun v hv => h ⟨v, hv⟩,
      scatter_of_notMem fun v hv => h ⟨v, hperm.mem_iff.mp hv⟩]

end Core

end MKernel
