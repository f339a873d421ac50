import MKernel.Core.System
import Mathlib.Data.Fintype.Basic
import Mathlib.Data.List.Infix

/-!
# Blocks of Threads

Threads of one block, which share a memory and meet at barriers.

A thread takes its own steps on the memory, in any order with those of the others, until
it calls a barrier. There it waits, and when every thread of the block waits or has ended,
all that wait go on. Nothing says that they wait at the same call: a thread that took
another way through the code may have called the barrier in another place, and is let go
with the rest. Besides the threads, what is outside of the block writes to the memory
whenever it likes.

That the threads do meet at the same calls is shown by phases. A phase says how far a
thread may have come, and all threads are in the same one. A thread's step leaves them in
it, and when all of them wait, the next phase begins (`phase_of_reaches`). What the
threads have noted on their way then differs by at most what they note in the phase
(`prefix_or_prefix`).

## Main definitions

* `Threads`: What the threads of a block do.
* `Block`: The memory and the threads.
* `Threads.step`: A step of a thread, a barrier that is passed, or a write from outside.

## Theorems

* `Threads.phase_of_reaches`: All threads are in one phase.
* `prefix_or_prefix`: What two threads have noted.
-/

namespace MKernel

namespace Core

variable {ι μ τ κ ε Φ α : Type*}

/-- What the threads of a block do: a step on the memory, the call of a barrier a thread waits
    at, where it goes on behind it, and what the memory becomes by a write from outside. -/
structure Threads (ι μ τ κ ε : Type*) where
  act : ι → μ → τ → Option (μ × τ)
  site : τ → Option κ
  ended : τ → Bool
  resume : ι → κ → τ → τ
  env : ε → μ → Option μ

/-- The memory and the threads of a block. -/
structure Block (ι μ τ : Type*) where
  mem : μ
  thread : ι → τ

/-- What can happen next. -/
inductive BlockAction (ι ε : Type*) where
  | thread (i : ι)
  /-- The barrier is passed. -/
  | release
  /-- A write from outside. -/
  | env (e : ε)

namespace Threads

variable (p : Threads ι μ τ κ ε)

/-- A thread that waits goes on. -/
def resumed (i : ι) (t : τ) : τ :=
  match p.site t with
  | some k => p.resume i k t
  | none => t

/-- Every thread waits or has ended, and some thread waits. -/
def Met (b : Block ι μ τ) : Prop :=
  (∀ i, (p.site (b.thread i)).isSome ∨ p.ended (b.thread i)) ∧ ∃ i, (p.site (b.thread i)).isSome

variable [DecidableEq ι] [Fintype ι]

instance (b : Block ι μ τ) : Decidable (p.Met b) := inferInstanceAs (Decidable (_ ∧ _))

def step (b : Block ι μ τ) : BlockAction ι ε → Option (Block ι μ τ)
  | .thread i => (p.act i b.mem (b.thread i)).map fun x =>
      { mem := x.1, thread := Function.update b.thread i x.2 }
  | .release =>
      if p.Met b then some { b with thread := fun i => p.resumed i (b.thread i) } else none
  | .env e => (p.env e b.mem).map fun m => { b with mem := m }

variable {p} {ok : Block ι μ τ → BlockAction ι ε → Prop} {b b' : Block ι μ τ}

theorem step_thread {i : ι} (h : p.step b (.thread i) = some b') :
    ∃ x, p.act i b.mem (b.thread i) = some x ∧
      b' = { mem := x.1, thread := Function.update b.thread i x.2 } := by
  rcases Option.map_eq_some_iff.mp h with ⟨x, hx, heq⟩
  exact ⟨x, hx, heq.symm⟩

theorem step_release (h : p.step b .release = some b') :
    p.Met b ∧ b' = { b with thread := fun i => p.resumed i (b.thread i) } := by
  by_cases hmet : p.Met b
  · rw [step, if_pos hmet] at h
    exact ⟨hmet, (Option.some.inj h).symm⟩
  · rw [step, if_neg hmet] at h
    exact absurd h (by simp only [reduceCtorEq, not_false_eq_true])

theorem step_env {e : ε} (h : p.step b (.env e) = some b') :
    ∃ m, p.env e b.mem = some m ∧ b' = { b with mem := m } := by
  rcases Option.map_eq_some_iff.mp h with ⟨m, hm, heq⟩
  exact ⟨m, hm, heq.symm⟩

/-- A step of a thread, as one of the block. -/
theorem reaches_act {i : ι} {m : μ} {t t' : τ} (ht : b.thread i = t)
    (hact : p.act i b.mem t = some (m, t')) :
    Reaches p.step always b { mem := m, thread := Function.update b.thread i t' } := by
  refine reaches_step (reaches_refl _ _ b) (.thread i) trivial ?_
  rw [step, ht, hact]
  rfl

/-- All threads are in one phase, if they begin in one, no step takes a thread out of the phase of
    the others, and threads that all wait go on in one phase. -/
theorem phase_of_reaches (Stands : Φ → ι → μ → τ → Prop)
    (hact : ∀ ph b i x, (∀ j, Stands ph j b.mem (b.thread j)) → ok b (.thread i) →
      p.act i b.mem (b.thread i) = some x →
      Stands ph i x.1 x.2 ∧ ∀ j, j ≠ i → Stands ph j x.1 (b.thread j))
    (hmet : ∀ ph b, (∀ j, Stands ph j b.mem (b.thread j)) → p.Met b →
      ∃ ph', ∀ j, Stands ph' j b.mem (p.resumed j (b.thread j)))
    (henv : ∀ ph b e m, (∀ j, Stands ph j b.mem (b.thread j)) → ok b (.env e) →
      p.env e b.mem = some m → ∃ ph', ∀ j, Stands ph' j m (b.thread j))
    (h : Reaches p.step ok b b') (h0 : ∃ ph, ∀ j, Stands ph j b.mem (b.thread j)) :
    ∃ ph, ∀ j, Stands ph j b'.mem (b'.thread j) := by
  refine invariant_of_reaches (fun b => ∃ ph, ∀ j, Stands ph j b.mem (b.thread j))
    (fun s a s' hs hok hstep => ?_) h h0
  rcases hs with ⟨ph, hph⟩
  cases a with
  | thread i =>
      rcases step_thread hstep with ⟨x, hx, rfl⟩
      rcases hact ph s i x hph hok hx with ⟨hown, hothers⟩
      refine ⟨ph, fun j => ?_⟩
      -- The thread moves within the phase, and none of the others is taken out of it.
      by_cases hj : j = i
      · subst hj
        simp only [Function.update_self]
        exact hown
      · simp only [Function.update_of_ne hj]
        exact hothers j hj
  | release =>
      rcases step_release hstep with ⟨hm, rfl⟩
      exact hmet ph s hph hm
  | env e =>
      rcases step_env hstep with ⟨m, hm, rfl⟩
      exact henv ph s e m hph hok hm

end Threads

/-! ## Notes -/

/-- Of two lists that are both one list, with at most one and the same entry behind it, one is the
    beginning of the other. -/
theorem prefix_or_prefix {l k k' : List α} {x : α} (h : k = l ∨ k = l ++ [x])
    (h' : k' = l ∨ k' = l ++ [x]) : k <+: k' ∨ k' <+: k := by
  rcases h with rfl | rfl
  · left
    rcases h' with rfl | rfl
    · exact List.prefix_rfl
    · exact List.prefix_append _ _
  · right
    rcases h' with rfl | rfl
    · exact List.prefix_append _ _
    · exact List.prefix_rfl

/-- And of two that differ in that entry neither is. -/
theorem not_prefix_of_last {l : List α} {x y : α} (h : x ≠ y) : ¬ l ++ [x] <+: l ++ [y] := by
  rw [List.prefix_append_right_inj, List.cons_prefix_cons]
  exact fun heq => h heq.1

end Core

end MKernel
