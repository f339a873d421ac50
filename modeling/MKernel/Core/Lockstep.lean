import Mathlib.Data.List.Basic
import Mathlib.Data.List.Infix

/-!
# Streams in Lockstep

Streams that all run the same list of kernels, with barriers in it.

A stream runs its kernels one after the other, and goes past a barrier only when
every stream has come to it. In a list in which every kernel that matters is followed
by a barrier, with only kernels that do not matter in between, all streams are
therefore at the same phase: the ones that have not begun the kernel of the phase
stand at the barrier before it, and the ones that are past it have not gone past
the barrier after it (`advance`). So what holds of a phase can be shown phase by
phase, whatever the skew of the streams.

## Main definitions

* `segment`, `laid`: The list of kernels, laid out from the phases.
* `Passable`: The barrier a stream stands at, if it does, can be passed.
* `Stand`, `Stands`: Where a stream stands in a phase.
* `Carried`: The part of the work of a phase a stream has carried out.

## Theorems

* `Stands.working`: A stream at a kernel that matters is at the kernel of the phase.
* `advance`: What a stream's next step does to the phase.
-/

namespace MKernel

namespace Core

namespace Lockstep

variable {κ ι β : Type*}

/-- The kernel of a phase, with what is run after it. -/
def segment (bar : κ) (tail : κ → List κ) (k : κ) : List κ := k :: (tail k ++ [bar])

/-- The kernels of all phases. -/
def laid (bar : κ) (tail : κ → List κ) (ks : List κ) : List κ := ks.flatMap (segment bar tail)

/-- Where stream `d` stands at a barrier, all streams have come to it. -/
def Passable (bar : κ) (rest : ι → List κ) (d : ι) : Prop :=
  (rest d).head? = some bar → ∀ e, (rest e).length ≤ (rest d).length

/-- The three ways a stream can stand in a phase. -/
inductive Stand where
  /-- At the barrier before the kernel of the phase. -/
  | before
  /-- At the kernel of the phase. -/
  | running
  /-- Past the kernel. -/
  | after
deriving DecidableEq

variable {bar : κ} {tail : κ → List κ} {k : κ} {ks r : List κ} {s : Stand}

/-- The kernels a stream has still to run, in the phase of kernel `k`. -/
def Stands (bar : κ) (tail : κ → List κ) (k : κ) (ks r : List κ) : Stand → Prop
  | .before => r = bar :: (segment bar tail k ++ laid bar tail ks)
  | .running => r = segment bar tail k ++ laid bar tail ks
  | .after => ∃ t, t <:+ tail k ++ [bar] ∧ r = t ++ laid bar tail ks ∧ (t = [] → ks = [])

/-- The part of the work of the phase that a stream has carried out, where `done` is
    what it has of the kernel it is at. -/
def Carried (items done : List β) : Stand → β → Prop
  | .before, _ => False
  | .running, i => i ∈ done
  | .after, i => i ∈ items

theorem laid_cons (k' : κ) (ks' : List κ) :
    laid bar tail (k' :: ks') = segment bar tail k' ++ laid bar tail ks' := rfl

theorem stands_laid (k' : κ) (ks' : List κ) :
    Stands bar tail k' ks' (laid bar tail (k' :: ks')) .running := rfl

/-- A stream at a kernel that is neither a barrier nor run after one that matters is
    at the kernel of the phase. -/
theorem Stands.working {x : κ} (h : Stands bar tail k ks (x :: r) s) (hbar : x ≠ bar)
    (htail : ∀ k', x ∉ tail k') : s = .running ∧ x = k := by
  cases s with
  | before =>
      simp only [Stands, List.cons.injEq] at h
      exact absurd h.1 hbar
  | running =>
      simp only [Stands, segment, List.cons_append, List.cons.injEq] at h
      exact ⟨rfl, h.1⟩
  | after =>
      rcases h with ⟨t, hsuffix, hr, hks⟩
      cases t with
      | nil =>
          rw [hks rfl] at hr
          exact absurd hr (by simp only [laid, List.flatMap_nil, List.append_nil, reduceCtorEq,
            not_false_eq_true])
      | cons y t =>
          simp only [List.cons_append, List.cons.injEq] at hr
          have hmem : x ∈ tail k ++ [bar] := by
            rw [hr.1]
            exact hsuffix.subset List.mem_cons_self
          rcases List.mem_append.mp hmem with hin | hin
          · exact absurd hin (htail k)
          · exact absurd (List.mem_singleton.mp hin) hbar

/-- Before the kernel of the phase only the barrier is left. -/
theorem Stands.begin (h : Stands bar tail k ks (x :: r) .before) :
    Stands bar tail k ks r .running := (List.cons.inj h).2

/-- The kernel of the phase is over. -/
theorem Stands.finish {x : κ} (h : Stands bar tail k ks (x :: r) .running) :
    Stands bar tail k ks r .after := by
  simp only [Stands, segment, List.cons_append, List.cons.injEq] at h
  exact ⟨tail k ++ [bar], List.suffix_refl _, h.2, fun hnil => by simp at hnil⟩

/-- How far a stream has still to go tells where it stands, as far as this matters:
    if it has no more left than the barrier, it stands there. -/
theorem Stands.last {k' : κ} {ks' : List κ} (h : Stands bar tail k (k' :: ks') r s)
    (hle : r.length ≤ (laid bar tail (k' :: ks')).length + 1) :
    s = .after ∧ Stands bar tail k' ks' r .before := by
  cases s with
  | before =>
      simp only [Stands] at h
      rw [h] at hle
      simp only [List.length_cons, List.length_append, segment] at hle
      omega
  | running =>
      simp only [Stands] at h
      rw [h] at hle
      simp only [List.length_cons, List.length_append, List.length_nil, segment] at hle
      omega
  | after =>
      rcases h with ⟨t, hsuffix, hr, hks⟩
      rw [hr, List.length_append] at hle
      have hne : t ≠ [] := fun hnil => absurd (hks hnil) (List.cons_ne_nil _ _)
      have hone : t.length = 1 := by
        have hpos := List.length_pos_of_ne_nil hne
        omega
      rcases List.length_eq_one_iff.mp hone with ⟨y, rfl⟩
      have hy : y = bar := by
        rcases hsuffix with ⟨u, hu⟩
        exact List.singleton_inj.mp (List.append_inj' hu rfl).2
      rw [hy] at hr
      exact ⟨rfl, hr⟩

/-- A stream past the kernel either stays in the phase, or stands at the last of its
    barriers. -/
theorem Stands.leave {x : κ} (h : Stands bar tail k ks (x :: r) .after) :
    Stands bar tail k ks r .after ∨
      ∃ k' ks', ks = k' :: ks' ∧ x = bar ∧ r = laid bar tail (k' :: ks') := by
  rcases h with ⟨t, hsuffix, hr, hks⟩
  cases t with
  | nil =>
      rw [hks rfl] at hr
      exact absurd hr (by simp only [laid, List.flatMap_nil, List.append_nil, reduceCtorEq,
        not_false_eq_true])
  | cons y t =>
      simp only [List.cons_append, List.cons.injEq] at hr
      by_cases hnil : t = [] → ks = []
      · exact Or.inl ⟨t, (List.suffix_cons y t).trans hsuffix, hr.2, hnil⟩
      · push Not at hnil
        rcases List.exists_cons_of_ne_nil hnil.2 with ⟨k', ks', rfl⟩
        refine Or.inr ⟨k', ks', rfl, ?_, ?_⟩
        · rw [hnil.1] at hsuffix
          rcases hsuffix with ⟨u, hu⟩
          rw [hr.1]
          exact List.singleton_inj.mp (List.append_inj' hu rfl).2
        · rw [hr.2, hnil.1, List.nil_append]

/-- A stream goes on. Either it stays in the phase, and has begun the kernel, ended
    it or gone on after it, or it is the first in the next phase. Then all streams are
    past the kernel. -/
theorem advance {rest : ι → List κ} {σ : ι → Stand} {d : ι} {x : κ}
    (h : ∀ e, Stands bar tail k ks (rest e) (σ e)) (hd : rest d = x :: r)
    (hpass : Passable bar rest d) :
    (σ d = .before ∧ Stands bar tail k ks r .running) ∨
    (σ d = .running ∧ x = k ∧ Stands bar tail k ks r .after) ∨
    (σ d = .after ∧ Stands bar tail k ks r .after) ∨
    ∃ k' ks', ks = k' :: ks' ∧ (∀ e, σ e = .after) ∧ Stands bar tail k' ks' r .running ∧
      ∀ e, Stands bar tail k' ks' (rest e) .before := by
  have hsd := h d
  rw [hd] at hsd
  cases hs : σ d with
  | before =>
      rw [hs] at hsd
      exact Or.inl ⟨rfl, hsd.begin⟩
  | running =>
      rw [hs] at hsd
      -- The kernel that is running is the one of this phase.
      have hx : x = k := by
        simp only [Stands, segment, List.cons_append, List.cons.injEq] at hsd
        exact hsd.1
      exact Or.inr (Or.inl ⟨rfl, hx, hsd.finish⟩)
  | after =>
      rw [hs] at hsd
      rcases hsd.leave with hstay | ⟨k', ks', rfl, rfl, rfl⟩
      · exact Or.inr (Or.inr (Or.inl ⟨rfl, hstay⟩))
      · -- A barrier is passed only with all streams at its end.
        have hall := hpass (by rw [hd]; rfl)
        have hlast : ∀ e, σ e = .after ∧ Stands x tail k' ks' (rest e) .before := fun e =>
          (h e).last (by
            have hle := hall e
            rw [hd] at hle
            exact hle)
        exact Or.inr (Or.inr (Or.inr ⟨k', ks', rfl, fun e => (hlast e).1, stands_laid k' ks',
          fun e => (hlast e).2⟩))

end Lockstep

end Core

end MKernel
