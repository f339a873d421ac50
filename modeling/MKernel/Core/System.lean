import Mathlib.Logic.Relation

/-!
# Step Systems

Machines that move by named actions, and the two ways of talking about their
runs.

A machine is a partial step function `σ → ι → Option σ`: in a state, an action
either is impossible or leads to one next state. All nondeterminism sits in
the choice of the action, so an interleaving of threads, a device completing
requests in any order and an oracle answering a system call are all the same
thing, a list of actions.

`Reaches` is the relation the theorems are stated with. It carries a condition
`ok` on each action in the state it is taken in, so that "in every run whose
steps all meet the condition" is one hypothesis; `always` is the condition
that excludes nothing. `run` is its executable counterpart, which evaluates a
list of actions and checks the condition on the way, and `reaches_of_run`
turns an evaluation into a reachability.

`invariant_of_reaches` is the induction every safety theorem goes through:
what holds at the start and is kept by each permitted step holds wherever a
run leads.

## Main definitions

* `always`: The condition that permits every action.
* `Step`: One permitted step, its action forgotten.
* `Reaches`: Reachability by permitted steps.
* `run`: Executing a list of actions.

## Theorems

* `reaches_mono`: Weakening the condition keeps a run.
* `reaches_strengthen`: A condition all steps of a run meet can be added.
* `invariant_of_reaches`: What every permitted step keeps, every run keeps.
* `reaches_of_run`: An evaluated list of actions is a run.
* `reaches_map`: A state map that follows each step follows each run.
* `exists_forall`: Goals that last are reached together.
* `exists_goal`: What can always go on and not for ever gets there.
* `run_countP_le`: What leads down cannot go on for ever.
-/

namespace MKernel

namespace Core

variable {σ τ ι κ : Type*}

/-- The condition that permits every action. -/
def always : σ → ι → Prop := fun _ _ => True

instance : ∀ (s : σ) (a : ι), Decidable (always s a) := fun _ _ => isTrue trivial

/-- One permitted step, its action forgotten. -/
def Step (step : σ → ι → Option σ) (ok : σ → ι → Prop) (s t : σ) : Prop :=
  ∃ a, ok s a ∧ step s a = some t

/-- Reachability by permitted steps. -/
def Reaches (step : σ → ι → Option σ) (ok : σ → ι → Prop) : σ → σ → Prop :=
  Relation.ReflTransGen (Step step ok)

theorem reaches_refl (step : σ → ι → Option σ) (ok : σ → ι → Prop) (s : σ) :
    Reaches step ok s s :=
  Relation.ReflTransGen.refl

theorem reaches_trans {step : σ → ι → Option σ} {ok : σ → ι → Prop} {s t u : σ}
    (h1 : Reaches step ok s t) (h2 : Reaches step ok t u) : Reaches step ok s u :=
  Relation.ReflTransGen.trans h1 h2

theorem reaches_step {step : σ → ι → Option σ} {ok : σ → ι → Prop} {s t u : σ}
    (h : Reaches step ok s t) (a : ι) (hok : ok t a) (hstep : step t a = some u) :
    Reaches step ok s u :=
  Relation.ReflTransGen.tail h ⟨a, hok, hstep⟩

/-- Weakening the condition keeps a run. -/
theorem reaches_mono {step : σ → ι → Option σ} {ok ok' : σ → ι → Prop}
    (hok : ∀ s a, ok s a → ok' s a) {s t : σ} (h : Reaches step ok s t) :
    Reaches step ok' s t :=
  Relation.ReflTransGen.mono (fun _ _ ⟨a, ha, hs⟩ => ⟨a, hok _ a ha, hs⟩) s t h

/-- What holds at the start and is kept by every permitted step holds in
    every state a run of permitted steps leads to. -/
theorem invariant_of_reaches {step : σ → ι → Option σ} {ok : σ → ι → Prop} (I : σ → Prop)
    (hstep : ∀ s a t, I s → ok s a → step s a = some t → I t) {s t : σ}
    (h : Reaches step ok s t) (h0 : I s) : I t := by
  induction h with
  | refl => exact h0
  | tail _ hst ih =>
      rcases hst with ⟨a, ha, hs⟩
      exact hstep _ a _ ih ha hs

/-- A condition that every step of the runs from a state meets can be put in the
    place of the one they are permitted by. -/
theorem reaches_strengthen {step : σ → ι → Option σ} {ok ok' : σ → ι → Prop} {s : σ}
    (hok : ∀ t a u, Reaches step ok s t → ok t a → step t a = some u → ok' t a) {t : σ}
    (h : Reaches step ok s t) : Reaches step ok' s t := by
  induction h with
  | refl => exact reaches_refl _ _ _
  | tail hr hst ih =>
      rcases hst with ⟨a, ha, hs⟩
      exact reaches_step ih a (hok _ a _ hr ha hs) hs

/-- A state map that follows each permitted step, by any number of steps of
    another machine, follows each run. -/
theorem reaches_map {step : σ → ι → Option σ} {ok : σ → ι → Prop}
    {step' : τ → κ → Option τ} {ok' : τ → κ → Prop} (f : σ → τ)
    (hf : ∀ s a t, ok s a → step s a = some t → Reaches step' ok' (f s) (f t)) {s t : σ}
    (h : Reaches step ok s t) : Reaches step' ok' (f s) (f t) := by
  induction h with
  | refl => exact reaches_refl _ _ _
  | tail _ hst ih =>
      rcases hst with ⟨a, ha, hs⟩
      exact reaches_trans ih (hf _ a _ ha hs)

/-- Goals that last once they are reached can be reached together, if each can be reached
    from wherever one is. -/
theorem exists_forall (R : σ → σ → Prop) (goal : κ → σ → Prop) (hrefl : ∀ s, R s s)
    (htrans : ∀ s t u, R s t → R t u → R s u)
    (hlast : ∀ x s t, R s t → goal x s → goal x t) (l : List κ) {s : σ}
    (h : ∀ t, R s t → ∀ x ∈ l, ∃ u, R t u ∧ goal x u) : ∃ u, R s u ∧ ∀ x ∈ l, goal x u := by
  induction l with
  | nil => exact ⟨s, hrefl s, fun x hx => absurd hx List.not_mem_nil⟩
  | cons x l ih =>
      rcases ih (fun t ht y hy => h t ht y (List.mem_cons_of_mem x hy)) with ⟨t, ht, hall⟩
      rcases h t ht x List.mem_cons_self with ⟨u, hu, hx⟩
      refine ⟨u, htrans s t u ht hu, fun y hy => ?_⟩
      rcases List.mem_cons.mp hy with rfl | hmem
      · exact hx
      · exact hlast y t u hu (hall y hmem)

/-- A machine that can go on until it is at a goal, by steps that lead down, can get there. -/
theorem exists_goal {step : σ → ι → Option σ} {ok : σ → ι → Prop} {goal : σ → Prop}
    (left : σ → Nat) {s : σ}
    (h : ∀ t, Reaches step ok s t → ¬ goal t →
      ∃ a u, ok t a ∧ step t a = some u ∧ left u < left t) :
    ∃ u, Reaches step ok s u ∧ goal u := by
  suffices ∀ n t, Reaches step ok s t → left t = n → ∃ u, Reaches step ok s u ∧ goal u from
    this _ s (reaches_refl _ _ _) rfl
  intro n
  induction n using Nat.strongRecOn with
  | _ n ih =>
    intro t ht hn
    by_cases hgoal : goal t
    · exact ⟨t, ht, hgoal⟩
    · rcases h t ht hgoal with ⟨a, u, hok, hstep, hlt⟩
      exact ih _ (hn ▸ hlt) u (reaches_step ht a hok hstep) rfl

/-- Execute a list of actions, or `none` if one of them is impossible or not
    permitted in the state it is reached in. -/
def run (step : σ → ι → Option σ) (ok : σ → ι → Prop) [∀ s a, Decidable (ok s a)] :
    List ι → σ → Option σ
  | [], s => some s
  | a :: as, s => if ok s a then (step s a).bind (run step ok as) else none

section Run

variable {step : σ → ι → Option σ} {ok : σ → ι → Prop} [∀ s a, Decidable (ok s a)]

theorem reaches_of_run : ∀ (as : List ι) (s t : σ), run step ok as s = some t →
    Reaches step ok s t := by
  intro as
  induction as with
  | nil =>
      intro s t h
      simp only [run, Option.some.injEq] at h
      rw [h]
      exact reaches_refl _ _ _
  | cons a as ih =>
      intro s t h
      by_cases hok : ok s a
      · rw [run, if_pos hok] at h
        rcases Option.bind_eq_some_iff.mp h with ⟨u, hu, hrest⟩
        exact reaches_trans (Relation.ReflTransGen.single ⟨a, hok, hu⟩) (ih u t hrest)
      · rw [run, if_neg hok] at h
        exact absurd h (by simp only [reduceCtorEq, not_false_eq_true])

/-- If actions of a kind lead down and no others lead up, a run has no more of them than there is
    left at its start. -/
theorem run_countP_le (left : σ → Nat) (p : ι → Bool) {I : σ → Prop}
    (hI : ∀ s a t, I s → ok s a → step s a = some t → I t)
    (hleft : ∀ s a t, I s → ok s a → step s a = some t → left t + (if p a then 1 else 0) ≤ left s) :
    ∀ (as : List ι) (s t : σ), I s → run step ok as s = some t → as.countP p ≤ left s := by
  intro as
  induction as with
  | nil => exact fun s _ _ _ => Nat.zero_le (left s)
  | cons a as ih =>
      intro s t hs h
      by_cases hok : ok s a
      · rw [run, if_pos hok] at h
        rcases Option.bind_eq_some_iff.mp h with ⟨u, hu, hrest⟩
        have hle := ih u t (hI s a u hs hok hu) hrest
        have hdown := hleft s a u hs hok hu
        rw [List.countP_cons]
        omega
      · rw [run, if_neg hok] at h
        exact absurd h (by simp only [reduceCtorEq, not_false_eq_true])

end Run

end Core

end MKernel
