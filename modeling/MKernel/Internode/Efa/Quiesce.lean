import MKernel.Internode.Efa.Drain
import MKernel.Internode.Efa.Frame
import MKernel.Internode.Efa.Nic
import MKernel.Internode.Efa.Notify
import MKernel.Internode.Session

/-!
# The EFA Proxy under its Host

The EFA proxy as the host of a session sees it, and what a stopped proxy with
an empty counter still has to do.

The proxy looks at the pause flag at the top of its loop and nowhere else. It
acknowledges there whatever it holds, so a stopped proxy may hold a batch that
failed to post, a stashed command or the flag of a notify. If it acknowledges
with empty hands, and the counter is empty, then all it has polled is posted and
completed (`quiet_of_stopped`).

## Main definitions

* `api`: The proxy as its host sees it.
* `EmptyHanded`: No retry buffer, no stash and no notify.
* `Acknowledges`: The condition on a run.
* `Quiet`: All that was polled is posted and completed.

## Theorems

* `api_lawful`: It does what a host relies on.
* `handed_of_reaches`: A paused proxy has empty hands.
* `quiet_of_stopped`: So a stopped one with an empty counter is quiet.
-/

namespace MKernel

namespace Internode

namespace Efa

open MKernel.Core

variable {setup : Setup} {w w' : World}

/-- The actions that are calls of the host. -/
def Action.byHost : Action → Bool
  | .host _ => true
  | .stop => true
  | .hostDrain _ => true
  | .hostReset => true
  | .setEpoch _ => true
  | .fifoReset _ => true
  | .hostBarrier _ _ _ _ => true
  | _ => false

/-- The actions of the proxy thread. -/
def Action.byThread : Action → Bool
  | .proxy _ _ => true
  | _ => false

/-- The proxy as its host sees it. -/
def api (setup : Setup) : Session.Api World Action where
  step := step setup
  init := init setup
  fifo := fun k w => w.fifos k
  inflight := World.inflight
  gate := World.gate
  host := .host
  drainCq := .hostDrain
  resetInflight := .hostReset
  byHost := Action.byHost
  byThread := Action.byThread

/-- An action of others leaves a stopped proxy stopped and its counter alone. -/
theorem stopped_kept {ok : World → Action → Prop} (hr : Reaches (step setup) ok (init setup) w)
    (hs : w.gate.Stopped) {a : Action} (ha : a.byHost = false)
    (hstep : step setup w a = some w') : w'.gate.Stopped ∧ w'.inflight = w.inflight := by
  cases a with
  | proxy ok ne =>
      have hpc := spin_of_stopped (handshake_inv hr) hs
      rw [proxyStep_paused hpc hs.2 hstep]
      exact ⟨hs, rfl⟩
  | claim k cmd =>
      rw [← Option.some.inj hstep]
      exact ⟨hs, rfl⟩
  | publish k | place i | complete i =>
      rcases Option.map_eq_some_iff.mp hstep with ⟨x, -, rfl⟩
      exact ⟨hs, rfl⟩
  | recv r =>
      simp only [step, Option.ite_none_right_eq_some, Option.some.injEq] at hstep
      rw [← hstep.2]
      exact ⟨hs, rfl⟩
  | _ => exact absurd ha (by simp only [Action.byHost, reduceCtorEq, not_false_eq_true])

theorem api_lawful (setup : Setup) : (api setup).Lawful where
  later := by
    intro w a w' ha hstep
    change step setup w a = some w' at hstep
    cases a with
    | setEpoch epoch => exact absurd ha.symm Bool.false_ne_true
    | fifoReset k => exact absurd ha.symm Bool.false_ne_true
    | claim k cmd =>
        rw [← Option.some.inj hstep]
        exact later_update (Fifo.later_claim _ _)
    -- Plain actions leave what was claimed and only add to what was read.
    | _ => exact (step_frame (by exact trivial) hstep).fifos
  stopped := fun hr hs ha hstep => stopped_kept hr hs ha hstep
  acked := by
    intro w w' hr hstep
    rcases Option.map_eq_some_iff.mp hstep with ⟨g, hg, rfl⟩
    -- The acknowledgement is given after the stop, and taken away by the host alone.
    exact Handshake.stopped_of_acked (handshake_inv hr) hg
  fifo_host := by
    intro w b w' hstep k
    rcases Option.map_eq_some_iff.mp hstep with ⟨g, -, rfl⟩
    rfl
  drain := by
    intro w ne w' hstep
    simp only [api, step, Option.ite_none_right_eq_some, Option.some.injEq] at hstep
    rw [← hstep.2]
    refine ⟨(pollNic_drainReap_gate w ne).1, fun k => ?_⟩
    rw [pollNic_drainReap]
    rfl
  reset := by
    intro w w' hstep
    simp only [api, step, Option.ite_none_right_eq_some, Option.some.injEq] at hstep
    rw [← hstep.2]
    exact ⟨rfl, le_refl _, fun _ => rfl⟩

/-! ## What a stopped proxy holds -/

/-- Nothing polled waits in the retry buffer or the stash, and no notify waits
    behind a batch. -/
def EmptyHanded (w : World) : Prop :=
  w.pendingBatch = [] ∧ w.pendingCmd = none ∧ w.hasPendingBarrier = false

instance (w : World) : Decidable (EmptyHanded w) := inferInstanceAs (Decidable (_ ∧ _ ∧ _))

/-- The condition on a run: the proxy acknowledges a pause with empty hands, no
    notify is lost or merged with another, and the requests of a command that
    count complete last. -/
def Acknowledges (setup : Setup) (w : World) (a : Action) : Prop :=
  NotifyCounted setup w a ∧ CountsLast setup w a ∧
    match a with
    | .proxy _ _ => w.pc = .ackStore → EmptyHanded w
    | _ => True

instance (setup : Setup) (w : World) (a : Action) : Decidable (Acknowledges setup w a) := by
  unfold Acknowledges
  refine @instDecidableAnd _ _ inferInstance (@instDecidableAnd _ _ inferInstance ?_)
  apply @Action.casesOn _ a <;> intros <;> infer_instance

/-- Every WRITE the proxy has polled is posted and the request that counts it is
    reaped, every notify has its stage barriers, nothing is held, and no request
    is outstanding. -/
structure Quiet (setup : Setup) (w : World) : Prop where
  posted : ∀ p ∈ writesPolled w.hist, p ∈ postedOf w.hist ∧ ∃ wr ∈ reapedOf w.hist, Counts wr p
  notified : ∀ q, Addressed setup q → notifies w.hist = barriersTo q w.hist
  held : held w = []
  handed : EmptyHanded w
  outstanding : w.nic.outstanding = []

/-- A paused proxy has empty hands. -/
theorem handed_of_reaches (h : Reaches (step setup) (Acknowledges setup) (init setup) w)
    (hpc : w.pc = .pausedSpin) : EmptyHanded w := by
  refine invariant_of_reaches (fun w => w.pc = .pausedSpin → EmptyHanded w) ?_ h ?_ hpc
  · intro w a w' hi hok hstep hpc'
    cases a with
    | proxy ok ne =>
        change proxyStep setup w ok ne = some w' at hstep
        -- The thread comes from the gate, where its hands were empty, or was paused already.
        have hfrom := pc_before_spin hstep hpc'
        have hhand := hfrom.elim hok.2.2 hi
        rcases hfrom with hpc | hpc <;>
          · simp only [proxyStep, hpc, Option.some.injEq] at hstep
            rw [← hstep]
            exact hhand
    | claim k cmd | stop | setEpoch epoch | fifoReset k =>
        rw [← Option.some.inj hstep] at hpc' ⊢
        exact hi hpc'
    | publish k | place i | complete i | host b =>
        rcases Option.map_eq_some_iff.mp hstep with ⟨x, -, rfl⟩
        exact hi hpc'
    | recv r =>
        simp only [step, Option.ite_none_right_eq_some, Option.some.injEq] at hstep
        rw [← hstep.2] at hpc' ⊢
        exact hi hpc'
    | hostBarrier p slot token ok =>
        simp only [step, Option.ite_none_right_eq_some, Option.some.injEq] at hstep
        rw [← hstep.2] at hpc' ⊢
        cases ok <;> exact hi hpc'
    | hostDrain ne =>
        simp only [step, Option.ite_none_right_eq_some, Option.some.injEq] at hstep
        rw [← hstep.2, pollNic_drainReap] at hpc' ⊢
        exact hi hpc'
    | hostReset =>
        simp only [step, Option.ite_none_right_eq_some, Option.some.injEq] at hstep
        rw [← hstep.2] at hpc' ⊢
        rcases hi hpc' with ⟨hbatch, hcmd, -⟩
        -- The reset sets `inflight` to zero itself.
        exact ⟨hbatch, hcmd, rfl⟩
  · intro hloop
    exact absurd hloop (by simp only [init, reduceCtorEq, not_false_eq_true])

/-- A stopped proxy with an empty counter has posted what it polled, and all of
    it is in. -/
theorem quiet_of_stopped (h : Reaches (step setup) (Acknowledges setup) (init setup) w)
    (hs : w.gate.Stopped) (hle : w.inflight ≤ 0) : Quiet setup w := by
  have hpc : w.pc = .pausedSpin := spin_of_stopped (handshake_inv h) hs
  have hhand := handed_of_reaches h hpc
  have hheld : held w = [] := by
    rw [held, hpc, hhand.1, hhand.2.1]
    rfl
  have hun : w.pc.uncounted = 0 := by rw [hpc]; rfl
  have ha : AccountInv w := account_of_reaches h
  refine ⟨fun p hp => ?_, fun q hq => ?_, hheld, hhand, ?_⟩
  · rw [(order_of_reaches h).split, hheld, List.append_nil] at hp
    exact ⟨hp, ha.reaped_of_drained hun hle p hp⟩
  · have hcount := notifies_eq (reaches_mono (fun _ _ hok => hok.1) h) q hq
    rw [hcount, owed, hpc, hhand.2.2]
    rfl
  · exact outstanding_empty_of_drained ha
      (covered_of_reaches (reaches_mono (fun _ _ hok => hok.2.1) h)) hun hle

/-- The proxies of an EFA session, and how it prepares an epoch. -/
def plan (setups : Nat → Setup) (numProxyThreads numFifos : Nat) (owner : Nat → Nat) :
    Session.Plan World Action where
  api := fun t => api (setups t)
  numProxyThreads := numProxyThreads
  numFifos := numFifos
  owner := owner
  resetsTogether := false
  readsFast := true

end Efa

end Internode

end MKernel
