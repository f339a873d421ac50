import MKernel.Internode.Cx7.Accounting
import MKernel.Internode.Cx7.Order
import MKernel.Internode.Session

/-!
# The CX7 Proxy under its Host

The CX7 proxy as the host of a session sees it, and what a stopped proxy with
an empty counter still has to do.

A notify is served where it is polled and a batch that cannot be posted is given
up, so all that this proxy can hold at the top of its loop is a stashed command.
If every command can be served, and the proxy acknowledges a pause with an empty
stash, then a stopped proxy with an empty counter has posted and completed all
it has polled (`quiet_of_stopped`).

## Main definitions

* `api`: The proxy as its host sees it.
* `Acknowledges`: The condition on a run.
* `Quiet`: All that was polled is posted and completed.
* `plan`: The proxies of a session.

## Theorems

* `api_lawful`: The proxy does what a host relies on.
* `handed_of_reaches`: A paused proxy has an empty stash.
* `quiet_of_stopped`: A stopped one with an empty counter is quiet.
-/

namespace MKernel

namespace Internode

namespace Cx7

open MKernel.Core

variable {setup : Setup} {w w' : World}

/-- The actions that are calls of the host. -/
def Action.byHost : Action → Bool
  | .host _ => true
  | .stop => true
  | .hostDrain _ => true
  | .hostReset => true
  | .setEpoch _ => true
  | .fifoReset => true
  | .resetForwardNotifyTable => true
  | .hostBarrier _ _ _ => true
  | _ => false

/-- The actions of the proxy thread. -/
def Action.byThread : Action → Bool
  | .proxy _ _ => true
  | _ => false

/-- The proxy as its host sees it. -/
def api (setup : Setup) : Session.Api World Action where
  step := step setup
  init := init setup
  fifo := fun _ w => w.fifo
  inflight := World.inflight
  gate := World.gate
  host := .host
  drainCq := .hostDrain
  resetInflight := .hostReset
  byHost := Action.byHost
  byThread := Action.byThread

/-- An action of others leaves a stopped proxy stopped and its counter alone. -/
theorem stopped_kept {ok : World → Action → Prop} (hr : Reaches (step setup) ok (init setup) w)
    (hs : w.gate.Stopped) {a : Action} (ha : a.byHost = false)
    (hstep : step setup w a = some w') : w'.gate.Stopped ∧ w'.inflight = w.inflight := by
  cases a with
  | proxy ok ne =>
      have hpc := spin_of_stopped (handshake_inv hr) hs
      rw [proxyStep_paused hpc hs.2 hstep]
      exact ⟨hs, rfl⟩
  | claim cmd | forwardNotify slot n =>
      rw [← Option.some.inj hstep]
      exact ⟨hs, rfl⟩
  | publish =>
      rcases Option.map_eq_some_iff.mp hstep with ⟨x, -, rfl⟩
      exact ⟨hs, rfl⟩
  | place i | complete i =>
      simp only [step, Option.ite_none_right_eq_some] at hstep
      rcases Option.map_eq_some_iff.mp hstep.2 with ⟨x, -, rfl⟩
      exact ⟨hs, rfl⟩
  | _ => exact absurd ha (by simp only [Action.byHost, reduceCtorEq, not_false_eq_true])

theorem endFill_fifo (setup : Setup) (w : World) (c : Collect) :
    (endFill setup w c).fifo = w.fifo := by
  unfold endFill
  split <;> rfl

theorem collectWrite_fifo (setup : Setup) (w : World) (c : Collect) (p : Polled) :
    (collectWrite setup w c p).fifo = w.fifo := by
  unfold collectWrite
  split
  · dsimp only
    split
    · rfl
    · split
      · rfl
      · split
        · rfl
        · exact endFill_fifo setup _ c
  · rfl

/-- The collection loop reads at most one command. -/
theorem fillStep_fifo (setup : Setup) (w : World) (c : Collect) :
    (fillStep setup w c).fifo = w.fifo ∨
      ∃ cmd, w.fifo.poll = some (cmd, (fillStep setup w c).fifo) := by
  unfold fillStep
  split
  · cases hp : pollFifo setup w with
    | none => exact Or.inl (endFill_fifo setup w c)
    | some r =>
        rcases r with ⟨p, w₁⟩
        refine Or.inr ⟨p.cmd, ?_⟩
        have hpoll : w.fifo.poll = some (p.cmd, w₁.fifo) := by
          rcases pollFifo_eq_some hp with ⟨f, hpoll, -, rfl⟩
          exact hpoll
        dsimp only
        cases p.cmd.cmdType with
        | write =>
            dsimp only
            rw [collectWrite_fifo]
            exact hpoll
        | barrierNotify | empty | fence => exact hpoll
  · exact Or.inl (endFill_fifo setup w c)

/-- The proxy touches its FIFO where it reads it, and where it frees what it
    has read. -/
theorem proxyStep_fifo {ok : Bool} {ne : Nat} (hstep : proxyStep setup w ok ne = some w') :
    w'.fifo = w.fifo ∨ (∃ cmd, w.fifo.poll = some (cmd, w'.fifo)) ∨
      (w.pc = .advanceTail ∧ w'.fifo = w.fifo.advanceTail w.fifo.hostHead) := by
  unfold proxyStep at hstep
  cases hpc : w.pc with
  | fill c =>
      simp only [hpc, Option.some.injEq] at hstep
      -- Only the fill loop polls,
      rw [← hstep]
      exact (fillStep_fifo setup w c).imp_right Or.inl
  | advanceTail =>
      simp only [hpc, Option.some.injEq] at hstep
      rw [← hstep]
      -- and only step 4 frees.
      exact Or.inr (Or.inr ⟨rfl, rfl⟩)
  | loop | pauseGate | pausedSpin | ackStore | ackClear =>
      simp only [hpc, Option.some.injEq] at hstep
      rw [← hstep]
      exact Or.inl rfl
  | forwardCount i | account count stridedPosted =>
      simp only [hpc, Option.some.injEq] at hstep
      rw [← hstep]
      exact Or.inl rfl
  | stageCount c p | stridedCount stridedPosted posted =>
      simp only [hpc, Option.some.injEq] at hstep
      rw [← hstep]
      exact Or.inl rfl
  | forwardGate =>
      simp only [hpc] at hstep
      split at hstep <;> rw [← Option.some.inj hstep] <;> exact Or.inl rfl
  | forward i =>
      simp only [hpc, Option.some.injEq] at hstep
      rw [← hstep]
      refine Or.inl ?_
      unfold forwardStep
      split
      · dsimp only
        split
        · rfl
        · split
          · split <;> rfl
          · rfl
      · rfl
  | collect =>
      simp only [hpc, Option.some.injEq] at hstep
      rw [← hstep]
      refine Or.inl ?_
      unfold collectStep
      split
      · split <;> rfl
      · rfl
  | stageBarrier c p =>
      simp only [hpc, Option.some.injEq] at hstep
      rw [← hstep]
      refine Or.inl ?_
      unfold stageBarrierStep
      split
      · split <;> rfl
      · rfl
  | filter rest kept qp stridedPosted =>
      simp only [hpc, Option.some.injEq] at hstep
      rw [← hstep]
      refine Or.inl ?_
      unfold filterStep
      split
      · rfl
      · split
        · split
          · split <;> rfl
          · rfl
        · rfl
  | post batch qp stridedPosted =>
      simp only [hpc, Option.some.injEq] at hstep
      rw [← hstep]
      refine Or.inl ?_
      unfold postStep
      split
      · rfl
      · dsimp only
        split <;> rfl
  | pollCq posted =>
      simp only [hpc, Option.some.injEq] at hstep
      rw [← hstep, pollNic_eq]
      exact Or.inl rfl
  | exitDrain =>
      simp only [hpc] at hstep
      split at hstep
      · rw [← Option.some.inj hstep, pollNic_eq]
        exact Or.inl rfl
      · rw [← Option.some.inj hstep]
        exact Or.inl rfl
  | exited => simp only [hpc, reduceCtorEq] at hstep

/-- The proxy reads its FIFO on, and frees what it has read. -/
theorem proxyStep_later {ok : Bool} {ne : Nat} (hstep : proxyStep setup w ok ne = some w') :
    Fifo.Later w.fifo w'.fifo := by
  rcases proxyStep_fifo hstep with hsame | ⟨cmd, hpoll⟩ | ⟨-, hfree⟩
  · rw [hsame]
    exact Fifo.later_refl _
  · exact Fifo.later_poll hpoll
  · rw [hfree]
    exact Fifo.later_advanceTail _ _

theorem api_lawful (setup : Setup) : (api setup).Lawful where
  later := by
    intro w a w' ha hstep k
    change step setup w a = some w' at hstep
    cases a with
    -- What the FIFO has read and freed only grows.
    | proxy ok ne => exact proxyStep_later hstep
    | claim cmd =>
        rw [← Option.some.inj hstep]
        exact Fifo.later_claim _ _
    | publish =>
        rcases Option.map_eq_some_iff.mp hstep with ⟨f, hf, rfl⟩
        exact Fifo.later_publish hf
    | forwardNotify slot n =>
        rw [← Option.some.inj hstep]
        exact Fifo.later_refl _
    | place i | complete i =>
        simp only [step, Option.ite_none_right_eq_some] at hstep
        rcases Option.map_eq_some_iff.mp hstep.2 with ⟨x, -, rfl⟩
        exact Fifo.later_refl _
    | _ => exact absurd ha.symm Bool.false_ne_true
  stopped := fun hr hs ha hstep => stopped_kept hr hs ha hstep
  acked := by
    intro w w' hr hstep
    rcases Option.map_eq_some_iff.mp hstep with ⟨g, hg, rfl⟩
    -- The acknowledgement is given after the stop, and taken away by the host alone.
    exact Handshake.stopped_of_acked (handshake_inv hr) hg
  fifo_host := by
    intro w b w' hstep k
    rcases Option.map_eq_some_iff.mp hstep with ⟨g, -, rfl⟩
    rfl
  drain := by
    intro w ne w' hstep
    simp only [api, step, Option.ite_none_right_eq_some, Option.some.injEq] at hstep
    rw [← hstep.2, pollNic_eq]
    exact ⟨rfl, fun _ => rfl⟩
  reset := by
    intro w w' hstep
    simp only [api, step, Option.ite_none_right_eq_some, Option.some.injEq] at hstep
    rw [← hstep.2]
    exact ⟨rfl, le_refl _, fun _ => rfl⟩

/-! ## What a stopped proxy holds -/

/-- The condition on a run: every WRITE pushed can be served, every
    `ibv_post_send` succeeds, and the proxy acknowledges a pause with an empty
    stash. -/
def Acknowledges (setup : Setup) (w : World) (a : Action) : Prop :=
  Lossless setup w a ∧
    match a with
    | .proxy _ _ => w.pc = .ackStore → w.pendingCmd = none
    | _ => True

instance (setup : Setup) (w : World) (a : Action) : Decidable (Acknowledges setup w a) := by
  unfold Acknowledges
  refine @instDecidableAnd _ _ inferInstance ?_
  apply @Action.casesOn _ a <;> intros <;> infer_instance

/-- Every WRITE the proxy has polled is posted in a chain whose completion is
    reaped, every notify has its stage barriers, nothing is held, and no chain
    is outstanding. -/
structure Quiet (setup : Setup) (w : World) : Prop where
  posted : ∀ p ∈ writesPolled w.hist, ∃ batch chain,
    .posted batch chain ∈ w.hist ∧ p ∈ batch ∧ chain ∈ reapedOf w.hist
  notified : ∀ i < barrierIters setup, notifies w.hist = barriersOf i w.hist
  held : held w = []
  outstanding : w.nic.outstanding = []

/-- A paused proxy has an empty stash. -/
theorem handed_of_reaches (h : Reaches (step setup) (Acknowledges setup) (init setup) w)
    (hpc : w.pc = .pausedSpin) : w.pendingCmd = none := by
  refine invariant_of_reaches (fun w => w.pc = .pausedSpin → w.pendingCmd = none) ?_ h ?_ hpc
  · intro w a w' hi hok hstep hpc'
    cases a with
    | proxy ok ne =>
        change proxyStep setup w ok ne = some w' at hstep
        -- The thread comes from the gate, where it had nothing stashed, or was paused already.
        have hfrom := pc_before_spin hstep hpc'
        have hhand := hfrom.elim hok.2 hi
        rcases hfrom with hpc | hpc <;>
          · simp only [proxyStep, hpc, Option.some.injEq] at hstep
            rw [← hstep]
            exact hhand
    | claim cmd | stop | setEpoch epoch | fifoReset =>
        rw [← Option.some.inj hstep] at hpc' ⊢
        exact hi hpc'
    | forwardNotify slot n | resetForwardNotifyTable =>
        rw [← Option.some.inj hstep] at hpc' ⊢
        exact hi hpc'
    | publish | host b =>
        rcases Option.map_eq_some_iff.mp hstep with ⟨x, -, rfl⟩
        exact hi hpc'
    | place i | complete i =>
        simp only [step, Option.ite_none_right_eq_some] at hstep
        rcases Option.map_eq_some_iff.mp hstep.2 with ⟨x, -, rfl⟩
        exact hi hpc'
    | hostReset | hostBarrier p slot token =>
        simp only [step, Option.ite_none_right_eq_some, Option.some.injEq] at hstep
        rw [← hstep.2] at hpc' ⊢
        exact hi hpc'
    | hostDrain ne =>
        simp only [step, Option.ite_none_right_eq_some, Option.some.injEq] at hstep
        rw [← hstep.2, pollNic_eq] at hpc' ⊢
        exact hi hpc'
  · intro hloop
    exact absurd hloop (by simp only [init, reduceCtorEq, not_false_eq_true])

/-- A stopped proxy with an empty counter has posted what it polled, and all of
    it is in. -/
theorem quiet_of_stopped (h : Reaches (step setup) (Acknowledges setup) (init setup) w)
    (hs : w.gate.Stopped) (hle : w.inflight ≤ 0) : Quiet setup w := by
  have hpc : w.pc = .pausedSpin := spin_of_stopped (handshake_inv h) hs
  have hless : LosslessInv setup w :=
    lossless_of_reaches (reaches_mono (fun _ _ hok => hok.1) h)
  have ha : AccountInv w := account_of_reaches h
  have hheld : held w = [] := by
    rw [held, hpc, handed_of_reaches h hpc]
    rfl
  have hout : w.nic.outstanding = [] := ha.outstanding_eq (by rw [hpc]; rfl) hle
  refine ⟨fun p hp => ?_, fun i hi => ?_, hheld, hout⟩
  · -- Nothing is given up or held, so it was posted, and nothing is outstanding.
    have hperm := hless.order.perm
    rw [hless.dropped, hheld, List.append_nil, List.append_nil] at hperm
    rcases List.mem_flatMap.mp (hperm.subset hp) with ⟨e, he, hpe⟩
    cases e with
    | posted batch chain =>
        rcases ha.posted batch chain he with hnic | hreaped
        · rw [hout] at hnic
          exact absurd hnic List.not_mem_nil
        · exact ⟨batch, chain, he, hpe, hreaped⟩
    | _ => exact absurd hpe List.not_mem_nil
  · have hsucceeds : ∀ w a, Acknowledges setup w a → Succeeds a := by
      rintro w a hok ne rfl
      exact absurd hok.1 Bool.false_ne_true
    rw [notifies_eq hsucceeds h hi, hpc]
    rfl

/-- The proxies of a CX7 session, each with the FIFO of its number, and how it
    prepares an epoch. -/
def plan (setups : Nat → Setup) (numProxyThreads : Nat) : Session.Plan World Action where
  api := fun t => api (setups t)
  numProxyThreads := numProxyThreads
  numFifos := numProxyThreads
  owner := id
  resetsTogether := true
  readsFast := false

end Cx7

end Internode

end MKernel
