import MKernel.Internode.Efa.Proxy

/-!
# What an Action of the EFA Proxy Leaves Alone

The parts of the proxy's state that few actions touch, and how.

Only the host sets the epoch and resets a FIFO, and only a device thread claims
a place in one. All other actions keep the epoch and what is claimed, and the
FIFOs are only read further (`Frame`). What they record is stamped: a polled
command with the FIFO of the iteration, a stage barrier with the epoch that is
configured. With several FIFOs the current one is among those the proxy was
given (`FifoIdx`), so every polled command comes from one of them
(`polled_readFifos`).

## Main definitions

* `Stamped`: What an event says about the state it was recorded in.
* `Frame`: What an action keeps.
* `Action.Plain`: The actions that keep it.
* `readFifos`: The FIFOs of a proxy.
* `FifoIdx`: The current FIFO is one of them.

## Theorems

* `turn_frame`, `proxyStep_frame`, `step_frame`: One action.
* `currentFifo_mem`: The current FIFO is among those of the proxy.
* `polled_readFifos`: So every polled command comes from one of them.
-/

namespace MKernel

namespace Internode

namespace Efa

open MKernel.Core

variable {setup : Setup} {w w' : World}

/-- A polled command comes from the FIFO of the iteration, and a stage barrier
    carries the configured epoch. -/
def Stamped (setup : Setup) (w : World) : Event → Prop
  | .polled p => p.fifo = currentFifo setup w
  | .stageBarrier _ token => token = w.epoch
  | _ => True

/-- What an action keeps. -/
structure Frame (setup : Setup) (w w' : World) : Prop where
  epoch : w'.epoch = w.epoch
  idx : w'.currentFifoIdx = w.currentFifoIdx ∨
    1 < setup.cfg.numFifos ∧ w'.currentFifoIdx = (w.currentFifoIdx + 1) % setup.cfg.numFifos
  events : ∃ l, w'.hist = w.hist ++ l ∧ ∀ e ∈ l, Stamped setup w e
  fifos : ∀ k, Fifo.Later (w.fifos k) (w'.fifos k)
  claimed : ∀ k, (w'.fifos k).claimed = (w.fifos k).claimed

/-- The actions that neither set the epoch nor reset or fill a FIFO. -/
def Action.Plain : Action → Prop
  | .claim _ _ => False
  | .setEpoch _ => False
  | .fifoReset _ => False
  | _ => True

/-- A step that records some stamped events. -/
theorem Frame.of_events {l : List Event} (hhist : w'.hist = w.hist ++ l)
    (hl : ∀ e ∈ l, Stamped setup w e) (hepoch : w'.epoch = w.epoch)
    (hidx : w'.currentFifoIdx = w.currentFifoIdx) (hfifos : w'.fifos = w.fifos) :
    Frame setup w w' :=
  ⟨hepoch, Or.inl hidx, ⟨l, hhist, hl⟩, fun k => by rw [hfifos]; exact Fifo.later_refl _,
    fun k => by rw [hfifos]⟩

/-- A step that records nothing. -/
theorem Frame.of_same (hhist : w'.hist = w.hist) (hepoch : w'.epoch = w.epoch)
    (hidx : w'.currentFifoIdx = w.currentFifoIdx) (hfifos : w'.fifos = w.fifos) :
    Frame setup w w' :=
  .of_events (l := []) (by rw [hhist, List.append_nil])
    (fun _ he => absurd he List.not_mem_nil) hepoch hidx hfifos

/-- Replacing one FIFO by a later one. -/
theorem later_update {fifos : Nat → Fifo} {k : Nat} {f : Fifo} (hf : Fifo.Later (fifos k) f)
    (j : Nat) : Fifo.Later (fifos j) (Function.update fifos k f j) := by
  by_cases hj : j = k
  · rw [hj, Function.update_self]
    exact hf
  · rw [Function.update_of_ne hj]
    exact Fifo.later_refl _

theorem claimed_update {fifos : Nat → Fifo} {k : Nat} {f : Fifo}
    (hf : f.claimed = (fifos k).claimed) (j : Nat) :
    (Function.update fifos k f j).claimed = (fifos j).claimed := by
  by_cases hj : j = k
  · rw [hj, Function.update_self, hf]
  · rw [Function.update_of_ne hj]

/-- A step on one FIFO that records nothing. -/
theorem Frame.of_fifo {k : Nat} {f : Fifo} (hf : Fifo.Later (w.fifos k) f)
    (hc : f.claimed = (w.fifos k).claimed) (hhist : w'.hist = w.hist) (hepoch : w'.epoch = w.epoch)
    (hidx : w'.currentFifoIdx = w.currentFifoIdx)
    (hfifos : w'.fifos = Function.update w.fifos k f) : Frame setup w w' := by
  refine ⟨hepoch, Or.inl hidx, ⟨[], by rw [hhist, List.append_nil],
    fun _ he => absurd he List.not_mem_nil⟩, fun j => ?_, fun j => ?_⟩
  · rw [hfifos]
    exact later_update hf j
  · rw [hfifos]
    exact claimed_update hc j

/-- A step that polls one command. -/
theorem Frame.of_polled {p : Polled} {w₁ : World} (hp : pollFifo setup w = some (p, w₁))
    (hhist : w'.hist = w₁.hist) (hepoch : w'.epoch = w₁.epoch)
    (hidx : w'.currentFifoIdx = w₁.currentFifoIdx) (hfifos : w'.fifos = w₁.fifos) :
    Frame setup w w' := by
  rcases pollFifo_eq_some hp with ⟨f, hpoll, hk, -, rfl⟩
  refine ⟨hepoch, Or.inl hidx, ⟨[.polled p], hhist, fun e he => ?_⟩, fun j => ?_, fun j => ?_⟩
  · rw [List.mem_singleton.mp he]
    exact hk
  · rw [hfifos]
    exact later_update (Fifo.later_poll hpoll) j
  · rw [hfifos]
    exact claimed_update (Fifo.poll_eq_some hpoll).2.1 j

/-- The loops of step 1 poll. -/
theorem turn_frame {c : Collect} (ht : Turn setup w c w') : Frame setup w w' := by
  cases ht with
  | close head pc hcl => exact .of_same rfl rfl rfl rfl
  | miss spin misses hw => exact .of_same rfl rfl rfl rfl
  | ignored p w₁ pc hp => exact .of_polled hp rfl rfl rfl rfl
  | inlineNotify p w₁ hp => exact .of_polled hp rfl rfl rfl rfl
  | flagNotify p w₁ head pc hp => exact .of_polled hp rfl rfl rfl rfl
  | first p w₁ hp => exact .of_polled hp rfl rfl rfl rfl
  | join p w₁ pc hp => exact .of_polled hp rfl rfl rfl rfl
  | stash p w₁ head hp => exact .of_polled hp rfl rfl rfl rfl

theorem drainReap_frame (ne : Nat) : Frame setup w (pollNic drainReap w ne) := by
  rw [pollNic_drainReap]
  refine .of_events rfl (fun e he => ?_) rfl rfl rfl
  rcases List.mem_map.mp he with ⟨wr, -, rfl⟩
  exact trivial

/-- Step 1 may move on to the next FIFO. -/
theorem collectStep_frame (setup : Setup) (w : World) : Frame setup w (collectStep setup w) := by
  -- Seeding a batch only touches the batch and the stash.
  have hseed : ∀ v : World, Frame setup w v → Frame setup w (seedBatch setup v) := by
    intro v hv
    unfold seedBatch
    split
    · split
      · exact ⟨hv.epoch, hv.idx, hv.events, hv.fifos, hv.claimed⟩
      · exact ⟨hv.epoch, hv.idx, hv.events, hv.fifos, hv.claimed⟩
    · exact ⟨hv.epoch, hv.idx, hv.events, hv.fifos, hv.claimed⟩
  have hsame : Frame setup w w := .of_same rfl rfl rfl rfl
  by_cases hb : w.pendingBatch ≠ []
  · rw [collectStep, if_pos hb]
    exact .of_same rfl rfl rfl rfl
  · rw [collectStep, if_neg hb]
    refine hseed _ ?_
    -- With one FIFO there is nowhere to move on to.
    by_cases hn : 1 < setup.cfg.numFifos
    · rw [rotateFifo, if_pos hn]
      exact ⟨rfl, Or.inr ⟨hn, rfl⟩, hsame.events, hsame.fifos, hsame.claimed⟩
    · rw [rotateFifo, if_neg hn]
      exact hsame

theorem proxyStep_frame {ok : Bool} {ne : Nat} (hstep : proxyStep setup w ok ne = some w') :
    Frame setup w w' := by
  unfold proxyStep at hstep
  cases hpc : w.pc with
  | loop | pauseGate | pausedSpin | ackStore | ackClear | account c =>
      simp only [hpc, Option.some.injEq] at hstep
      rw [← hstep]
      exact .of_same rfl rfl rfl rfl
  | stageCount site p =>
      simp only [hpc, Option.some.injEq] at hstep
      rw [← hstep]
      exact .of_same rfl rfl rfl rfl
  | advanceTail =>
      simp only [hpc, Option.some.injEq] at hstep
      rw [← hstep]
      refine .of_fifo (Fifo.later_advanceTail (w.fifos (currentFifo setup w)) w.pendingCpuHead) ?_
        rfl rfl rfl rfl
      exact Fifo.claimed_advanceTail _ _
  | barrierGate =>
      simp only [hpc] at hstep
      split at hstep <;> rw [← Option.some.inj hstep] <;> exact .of_same rfl rfl rfl rfl
  | drainCq site =>
      simp only [hpc] at hstep
      split at hstep <;> rw [← Option.some.inj hstep]
      · exact drainReap_frame ne
      · exact .of_same rfl rfl rfl rfl
  | exitDrain =>
      simp only [hpc] at hstep
      split at hstep <;> rw [← Option.some.inj hstep]
      · exact drainReap_frame ne
      · exact .of_same rfl rfl rfl rfl
  | stageBarrier site p =>
      simp only [hpc, Option.some.injEq] at hstep
      rw [← hstep]
      unfold stageBarrierStep
      split
      · dsimp only
        split
        · exact .of_same rfl rfl rfl rfl
        · split
          · -- The one event is the barrier's, which polls nothing.
            refine .of_events rfl (fun e he => ?_) rfl rfl rfl
            rw [List.mem_singleton.mp he]
            rfl
          · exact .of_same rfl rfl rfl rfl
      · exact .of_same rfl rfl rfl rfl
  | collect =>
      simp only [hpc, Option.some.injEq] at hstep
      rw [← hstep]
      exact collectStep_frame setup w
  | fill c =>
      simp only [hpc, Option.some.injEq] at hstep
      rw [← hstep]
      exact turn_frame (fillStep_turn hpc)
  | accumulate c spin misses =>
      simp only [hpc, Option.some.injEq] at hstep
      rw [← hstep]
      exact turn_frame (accumulateStep_turn hpc)
  | post c =>
      simp only [hpc, Option.some.injEq] at hstep
      rw [← hstep]
      unfold postStep
      split
      · exact .of_same rfl rfl rfl rfl
      · dsimp only
        split
        · refine .of_events rfl (fun e he => ?_) rfl rfl rfl
          rw [List.mem_singleton.mp he]
          exact trivial
        · exact .of_same rfl rfl rfl rfl
  | pollCq posted =>
      simp only [hpc, Option.some.injEq] at hstep
      rcases pollNic_reap setup w ne with ⟨es, arrival, hw, -, hes, -⟩
      rw [← hstep, hw]
      refine .of_events rfl (fun e he => ?_) rfl rfl rfl
      -- The completions poll nothing either.
      rcases hes e he with ⟨wr, rfl⟩ | ⟨r, rfl, -⟩ <;> exact trivial
  | exited => simp only [hpc, reduceCtorEq] at hstep

/-- One plain action of anybody. -/
theorem step_frame {a : Action} (ha : a.Plain) (hstep : step setup w a = some w') :
    Frame setup w w' := by
  cases a with
  | setEpoch epoch => exact absurd ha not_false
  | fifoReset k => exact absurd ha not_false
  | claim k cmd => exact absurd ha not_false
  | stop =>
      rw [← Option.some.inj hstep]
      exact .of_same rfl rfl rfl rfl
  | publish k =>
      rcases Option.map_eq_some_iff.mp hstep with ⟨f, hf, rfl⟩
      exact .of_fifo (Fifo.later_publish hf) (Fifo.publish_eq_some hf).1 rfl rfl rfl rfl
  -- The NIC, the peers and the host's flags are not in the frame.
  | place i | complete i | host b =>
      rcases Option.map_eq_some_iff.mp hstep with ⟨x, -, rfl⟩
      exact .of_same rfl rfl rfl rfl
  | recv r | hostReset =>
      simp only [step, Option.ite_none_right_eq_some, Option.some.injEq] at hstep
      rw [← hstep.2]
      exact .of_same rfl rfl rfl rfl
  | hostDrain ne =>
      simp only [step, Option.ite_none_right_eq_some, Option.some.injEq] at hstep
      rw [← hstep.2]
      exact drainReap_frame ne
  | hostBarrier p slot token ok =>
      simp only [step, Option.ite_none_right_eq_some, Option.some.injEq] at hstep
      rw [← hstep.2]
      cases ok with
      | true =>
          refine .of_events rfl (fun e he => ?_) rfl rfl rfl
          rw [List.mem_singleton.mp he]
          exact trivial
      | false => exact .of_same rfl rfl rfl rfl
  | proxy ok ne => exact proxyStep_frame hstep

/-- The FIFOs of a proxy. -/
def readFifos (setup : Setup) : List Nat :=
  match setup.cfg.fifos with
  | some fifos =>
    if 1 < setup.cfg.numFifos then (List.range setup.cfg.numFifos).map fifos else [setup.cfg.fifo]
  | none => [setup.cfg.fifo]

/-- With several FIFOs the current one is one of them, and every command polled
    came from one of them. -/
structure FifoIdx (setup : Setup) (w : World) : Prop where
  idx : 1 < setup.cfg.numFifos → w.currentFifoIdx < setup.cfg.numFifos
  polled : ∀ p ∈ polledOf w.hist, p.fifo ∈ readFifos setup

theorem currentFifo_mem (h : 1 < setup.cfg.numFifos → w.currentFifoIdx < setup.cfg.numFifos) :
    currentFifo setup w ∈ readFifos setup := by
  unfold currentFifo readFifos
  cases hf : setup.cfg.fifos with
  | none => exact List.mem_singleton_self _
  | some fifos =>
      by_cases hn : 1 < setup.cfg.numFifos
      · simp only [if_pos hn]
        exact List.mem_map_of_mem (List.mem_range.mpr (h hn))
      · simp only [if_neg hn]
        exact List.mem_singleton_self _

theorem FifoIdx.of_frame (h : FifoIdx setup w) (hf : Frame setup w w') : FifoIdx setup w' where
  idx := by
    intro hn
    -- The turn stays, or goes around.
    rcases hf.idx with heq | ⟨-, heq⟩
    · rw [heq]
      exact h.idx hn
    · rw [heq]
      exact Nat.mod_lt _ (by omega)
  polled := by
    intro p hp
    rcases hf.events with ⟨l, hhist, hl⟩
    rw [hhist, polledOf_append] at hp
    rcases List.mem_append.mp hp with hold | hnew
    · exact h.polled p hold
    · -- A command just polled is of the FIFO whose turn it is.
      rcases List.mem_filterMap.mp hnew with ⟨e, he, hep⟩
      have hst := hl e he
      cases e with
      | polled q =>
          rw [← Option.some.inj hep]
          rw [show q.fifo = currentFifo setup w from hst]
          exact currentFifo_mem h.idx
      | _ => exact absurd hep (by simp only [Event.polled?, reduceCtorEq, not_false_eq_true])

theorem polled_readFifos {ok : World → Action → Prop}
    (h : Reaches (step setup) ok (init setup) w) : FifoIdx setup w := by
  refine invariant_of_reaches (FifoIdx setup) (fun w a w' hi _ hstep => ?_) h
    ⟨fun hn => Nat.lt_of_succ_lt hn, fun _ hp => absurd hp List.not_mem_nil⟩
  cases a with
  | claim k cmd | setEpoch epoch | fifoReset k =>
      rw [← Option.some.inj hstep]
      exact ⟨hi.idx, hi.polled⟩
  | _ => exact hi.of_frame (step_frame (by exact trivial) hstep)

end Efa

end Internode

end MKernel
