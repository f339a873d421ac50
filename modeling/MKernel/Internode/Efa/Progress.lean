import MKernel.Internode.Efa.Proxy

/-!
# A Proxy Left Alone

What an EFA proxy does when nothing but a device thread works beside it.

A proxy that was just started reaches its poll loop, takes the WRITE pushed to
the FIFO it polls, finds nothing more, spins until its budget is used up, and
posts. Nothing in this depends on the configuration. The steps are those of
the proxy and the device thread, so they can be taken at one endpoint of a
network with the rest of it standing still.

## Main definitions

* `Action.Local`: An action the network has no part in.

## Theorems

* `reaches_of_accumulate`, `reaches_of_fill`: The loops of step 1 end.
* `reaches_filling`: The poll loop is reached.
* `reaches_posted`: A pushed WRITE is posted.
-/

namespace MKernel

namespace Internode

namespace Efa

open MKernel.Core

/-- An action the network has no part in. -/
def Action.Local : Action → Prop
  | .place _ => False
  | .recv _ => False
  | _ => True

/-- Local steps of one proxy. -/
def localSteps (_w : World) (a : Action) : Prop := a.Local

/-- With its FIFO empty, the spin loop comes to an end. -/
theorem reaches_of_accumulate {setup : Setup} {c : Collect} : ∀ (n : Nat) (w : World) (s m : Nat),
    spinCap setup - s = n → w.pc = .accumulate c s m →
    (w.fifos (currentFifo setup w)).poll = none →
    ∃ head, Reaches (step setup) localSteps w { w with pendingCpuHead := head, pc := .post c } := by
  intro n
  -- Induct on the turns that are left.
  induction n with
  | zero =>
      intro w s m hn hpc _
      rcases endAccumulate_eq setup w c with ⟨head, heq⟩
      have hstep : step setup w (.proxy true 0) =
          some { w with pendingCpuHead := head, pc := .post c } := by
        simp only [step, proxyStep, hpc]
        rw [accumulateStep, if_neg (fun h => absurd h.1 (by omega)), heq]
      exact ⟨head, reaches_step (reaches_refl _ _ _) (.proxy true 0) trivial hstep⟩
  | succ n ih =>
      intro w s m hn hpc hempty
      by_cases hspin : Spins setup c s m
      · have hstep : step setup w (.proxy true 0) =
            some { w with pc := .accumulate c (s + 1) (m + 1) } := by
          simp only [step, proxyStep, hpc]
          rw [accumulateStep, if_pos hspin]
          simp only [pollFifo, hempty, Option.map_none]
        rcases ih { w with pc := .accumulate c (s + 1) (m + 1) } (s + 1) (m + 1) (by omega) rfl
          hempty with ⟨head, hr⟩
        exact ⟨head, reaches_trans (reaches_step (reaches_refl _ _ _) (.proxy true 0) trivial hstep)
          hr⟩
      · rcases endAccumulate_eq setup w c with ⟨head, heq⟩
        have hstep : step setup w (.proxy true 0) =
            some { w with pendingCpuHead := head, pc := .post c } := by
          simp only [step, proxyStep, hpc]
          rw [accumulateStep, if_neg hspin, heq]
        exact ⟨head, reaches_step (reaches_refl _ _ _) (.proxy true 0) trivial hstep⟩

/-- With its FIFO empty, the poll loop comes to an end. -/
theorem reaches_of_fill {setup : Setup} {w : World} {c : Collect} (hpc : w.pc = .fill c)
    (hempty : (w.fifos (currentFifo setup w)).poll = none) :
    ∃ head, Reaches (step setup) localSteps w { w with pendingCpuHead := head, pc := .post c } := by
  rcases endFill_eq setup w c with ⟨head, pc, heq, hcl⟩
  have hstep : step setup w (.proxy true 0) = some { w with pendingCpuHead := head, pc := pc } := by
    simp only [step, proxyStep, hpc, Option.some.injEq]
    unfold fillStep
    split
    · simp only [pollFifo, hempty, Option.map_none, heq]
    · exact heq
  have hr := reaches_step (reaches_refl (step setup) localSteps w) (.proxy true 0) trivial hstep
  rcases hcl with rfl | ⟨rfl, -, -⟩
  · exact ⟨head, hr⟩
  · rcases reaches_of_accumulate (c := c) (spinCap setup) { w with
      pendingCpuHead := head, pc := .accumulate c 0 0 } 0 0 rfl rfl hempty with ⟨head', hr'⟩
    exact ⟨head', reaches_trans hr hr'⟩

/-- A proxy that was just started comes to its first poll loop. -/
theorem reaches_filling (setup : Setup) :
    ∃ idx, Reaches (step setup) localSteps (init setup)
      { init setup with currentFifoIdx := idx, pc := .fill ⟨[], 0, 0⟩ } := by
  have hcollect :
      Reaches (step setup) localSteps (init setup) { init setup with pc := .collect } := by
    refine reaches_step (reaches_step (reaches_step (reaches_refl _ _ _) (.proxy true 0) trivial
      (t := init setup) (u := { init setup with pc := .pauseGate }) rfl) (.proxy true 0) trivial
      (u := { init setup with pc := .barrierGate }) rfl) (.proxy true 0) trivial rfl
  have hb := collectStep_begin setup { init setup with pc := .collect }
  have hstep : step setup { init setup with pc := .collect } (.proxy true 0) =
      some (collectStep setup { init setup with pc := .collect }) := rfl
  generalize collectStep setup { init setup with pc := .collect } = w at hb hstep
  cases hb with
  | retry hb => exact absurd rfl hb
  | seed idx p _ hcmd _ =>
      exact absurd hcmd (by simp only [init, reduceCtorEq, not_false_eq_true])
  | fresh idx _ _ => exact ⟨idx, reaches_step hcollect (.proxy true 0) trivial hstep⟩

/-- The poll loop of an idle proxy takes a WRITE. -/
theorem step_of_fill {setup : Setup} {w w₁ : World} {p : Polled} (hpc : w.pc = .fill ⟨[], 0, 0⟩)
    (hp : pollFifo setup w = some (p, w₁)) (hw : p.cmd.cmdType = .write) :
    step setup w (.proxy true 0) =
      some { w₁ with pc := .fill ⟨[p], setup.mapToLocalQp p.cmd, 0⟩ } := by
  have hcap : 0 < batchCap setup := by
    unfold batchCap
    split <;> decide
  have heff := setup.effective_pos
  simp only [step, proxyStep, hpc, Option.some.injEq]
  rw [fillStep, if_pos ⟨hcap, by simpa using heff⟩]
  simp only [hp, hw, if_pos]

/-- Every proxy can come to post one pushed WRITE, by local steps alone. -/
theorem reaches_posted (setup : Setup) {cmd : TransferCmd} (hw : cmd.cmdType = .write) :
    ∃ w p peer qpn, Reaches (step setup) localSteps (init setup) w ∧
      w.nic.sent = (postBatch setup peer qpn setup.cfg.epoch FlagState.init [p]).1 := by
  rcases reaches_filling setup with ⟨idx, hfilling⟩
  rcases Fifo.push_empty cmd with ⟨f, g, hpublish, hpoll, hnone⟩
  let filling : World := { init setup with currentFifoIdx := idx, pc := .fill ⟨[], 0, 0⟩ }
  let k := currentFifo setup filling
  -- A device thread pushes the command to the FIFO being polled.
  have hclaimed : Reaches (step setup) localSteps (init setup) { filling with
      fifos := Function.update filling.fifos k (Fifo.empty.claim cmd) } :=
    reaches_step hfilling (.claim k cmd) trivial rfl
  let pushed : World := { filling with
    fifos := Function.update (Function.update filling.fifos k (Fifo.empty.claim cmd)) k f }
  have hpushed : Reaches (step setup) localSteps (init setup) pushed := by
    refine reaches_step hclaimed (.publish k) trivial ?_
    simp only [step, Function.update_self, hpublish, Option.map_some]
    rfl
  -- The proxy polls it, finds the FIFO empty, and posts.
  let p : Polled := ⟨k, f.cpuHead, cmd⟩
  let taken : World := { pushed with
    fifos := Function.update pushed.fifos k g
    hist := [.polled p] }
  let c : Collect := ⟨[p], setup.mapToLocalQp cmd, 0⟩
  have hself : pushed.fifos k = f := Function.update_self _ _ _
  have hp : pollFifo setup pushed = some (p, taken) := by
    have hk : currentFifo setup pushed = k := rfl
    simp only [pollFifo, hk, hself, hpoll, Option.map_some]
    rfl
  have hpolled : Reaches (step setup) localSteps (init setup) { taken with pc := .fill c } :=
    reaches_step hpushed (.proxy true 0) trivial (step_of_fill (w := pushed) rfl hp hw)
  have hempty : (taken.fifos k).poll = none := by
    have hg : taken.fifos k = g := Function.update_self _ _ _
    rw [hg, hnone]
  have hfill : ({ taken with pc := .fill c } : World).pc = .fill c := rfl
  rcases reaches_of_fill hfill hempty with ⟨head, hposting⟩
  exact ⟨_, p, _, _, reaches_step (reaches_trans hpolled hposting) (.proxy true 0) trivial rfl, rfl⟩

end Efa

end Internode

end MKernel
