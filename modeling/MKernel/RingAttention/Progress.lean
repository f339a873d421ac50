import MKernel.RingAttention.Shards

/-!
# Through the Schedule

Every GPU gets through what the host launches.

Whatever the GPUs of a node have done of a kernel, they can carry out the rest of it and
go on to the next, one after the other. Nothing a kernel of the ring does depends on the
other GPUs, and at a barrier the one that is first waits only until all are there. So
every stage is reached.

## Theorems

* `reaches_items`: A GPU carries out the work of its kernel.
* `reaches_next`: It goes on to the next kernel.
* `reaches_all`: All GPUs go on.
* `reaches_stage`: All GPUs come to a stage.
-/

namespace MKernel

namespace RingAttention

open MKernel.Core

variable {setup : Setup} {α : Type*} {c : Contents setup α} {w : World setup α}
  {d : Fin setup.numDevices} {k : Kernel} {ks : List Kernel}

/-- A GPU carries out pieces of work of the kernel it is at. -/
theorem reaches_items (hrest : w.rest d = k :: ks) (l : List Item)
    (hl : ∀ i ∈ l, i ∈ setup.items k) :
    ∃ w', Reaches (step c) always w w' ∧ w'.rest = w.rest ∧ ∀ i ∈ l, i ∈ w'.done d := by
  induction l with
  | nil => exact ⟨w, reaches_refl _ _ _, rfl, fun _ hi => absurd hi List.not_mem_nil⟩
  | cons i l ih =>
      rcases ih fun j hj => hl j (List.mem_cons_of_mem _ hj) with ⟨w', hreach, hsame, hdone⟩
      by_cases hi : i ∈ w'.done d
      · refine ⟨w', hreach, hsame, fun j hj => ?_⟩
        rcases List.mem_cons.mp hj with rfl | hj
        · exact hi
        · exact hdone j hj
      · have hrest' : w'.rest d = k :: ks := by rw [hsame, hrest]
        have hstep : step c w' (.finish d i) = some { w' with
            done := Function.update w'.done d (w'.done d ++ [i])
            mem := finished c d w'.mem k i
            out := pushed d w'.mem w'.out i } := by
          simp only [step, hrest']
          rw [if_pos ⟨hl i List.mem_cons_self, hi⟩]
        refine ⟨_, reaches_step hreach _ trivial hstep, hsame, fun j hj => ?_⟩
        simp only [Function.update_self]
        rcases List.mem_cons.mp hj with rfl | hj
        · exact List.mem_append_right _ (List.mem_singleton_self _)
        · exact List.mem_append_left _ (hdone j hj)

/-- A GPU goes on, at a barrier if all others have come there. -/
theorem reaches_next (hrest : w.rest d = k :: ks)
    (hall : ∀ e, (w.rest e).length ≤ (w.rest d).length) :
    ∃ w', Reaches (step c) always w w' ∧ w'.rest = Function.update w.rest d ks := by
  rcases reaches_items (c := c) hrest (setup.items k) fun _ hi => hi with
    ⟨w', hreach, hsame, hdone⟩
  have hrest' : w'.rest d = k :: ks := by rw [hsame, hrest]
  have hstep : step c w' (.next d) = some { w' with
      rest := Function.update w'.rest d ks
      done := Function.update w'.done d [] } := by
    have hpass : k = .barrier → ∀ e, (w'.rest e).length ≤ (k :: ks).length := fun _ e => by
      rw [hsame, ← hrest]
      exact hall e
    simp only [step, hrest']
    rw [if_pos ⟨hdone, hpass⟩]
  refine ⟨_, reaches_step hreach _ trivial hstep, ?_⟩
  simp only [hsame]

/-- All GPUs of a list go on, where the others have gone before. -/
theorem reaches_all (l : List (Fin setup.numDevices)) (hl : l.Nodup)
    (hat : ∀ e ∈ l, w.rest e = k :: ks) (hgone : ∀ e ∉ l, w.rest e = ks) :
    ∃ w', Reaches (step c) always w w' ∧ ∀ e, w'.rest e = ks := by
  induction l generalizing w with
  | nil => exact ⟨w, reaches_refl _ _ _, fun e => hgone e List.not_mem_nil⟩
  | cons d l ih =>
      have hd := hat d List.mem_cons_self
      have hlen : ∀ e, (w.rest e).length ≤ (w.rest d).length := by
        intro e
        rw [hd]
        by_cases he : e ∈ d :: l
        · rw [hat e he]
        · rw [hgone e he]
          exact Nat.le_succ _
      rcases reaches_next (c := c) hd hlen with ⟨w', hreach, hrest⟩
      rw [List.nodup_cons] at hl
      have hat' : ∀ e ∈ l, w'.rest e = k :: ks := fun e he => by
        have hed : e ≠ d := fun heq => hl.1 (heq ▸ he)
        rw [hrest, Function.update_of_ne hed]
        exact hat e (List.mem_cons_of_mem _ he)
      have hgone' : ∀ e ∉ l, w'.rest e = ks := fun e he => by
        by_cases hed : e = d
        · rw [hrest, hed, Function.update_self]
        · rw [hrest, Function.update_of_ne hed]
          exact hgone e fun hm => (List.mem_cons.mp hm).elim hed he
      rcases ih hl.2 hat' hgone' with ⟨w'', hreach', hall⟩
      exact ⟨w'', reaches_trans hreach hreach', hall⟩

/-- All GPUs get through kernels that are launched one after the other. -/
theorem reaches_rest (l : List Kernel) (h : ∀ e, w.rest e = l ++ ks) :
    ∃ w', Reaches (step c) always w w' ∧ ∀ e, w'.rest e = ks := by
  induction l generalizing w with
  | nil => exact ⟨w, reaches_refl _ _ _, h⟩
  | cons k l ih =>
      rcases reaches_all (c := c) (List.finRange setup.numDevices) (List.nodup_finRange _)
        (fun e _ => h e) (fun e he => absurd (List.mem_finRange e) he) with ⟨w', hreach, hrest⟩
      rcases ih hrest with ⟨w'', hreach', hall⟩
      exact ⟨w'', reaches_trans hreach hreach', hall⟩

/-- All GPUs come to each of the stages. -/
theorem reaches_stage (c : Contents setup α) {stage : Nat}
    (h : stage < setup.numNodes * setup.numDevices) :
    ∃ w rest, Reaches (step c) always (init c) w ∧ ∀ e, w.rest e = .stage stage :: rest := by
  have hmem : stage ∈ setup.hostSchedule.filterMap stage? := by
    rw [stages_hostSchedule]
    exact List.mem_range.mpr h
  rcases List.mem_filterMap.mp hmem with ⟨k, hk, hstage⟩
  have hk' : k = .stage stage := by
    cases k with
    | stage s => rw [Option.some.inj hstage]
    | _ => exact absurd hstage (by simp only [stage?, reduceCtorEq, not_false_eq_true])
  rcases List.append_of_mem hk with ⟨before, rest, hsplit⟩
  rcases reaches_rest (c := c) (w := init c) before (fun _ => hsplit) with ⟨w, hreach, hrest⟩
  exact ⟨w, rest, hreach, fun e => by rw [hrest e, hk']⟩

end RingAttention

end MKernel
