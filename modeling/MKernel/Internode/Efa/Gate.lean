import MKernel.Internode.Efa.Proxy

/-!
# The Pause Gate of the EFA Proxy

The EFA proxy's loop takes part in the pause handshake as the handshake says a
proxy does.

Only four places of `run` look at the two flags or store them: the check at the
top of the loop, the store of the acknowledgement, the inner loop and the store
that clears the acknowledgement. Forgetting everything else, an action of the
proxy is the corresponding action of the handshake or none, so every run of the
proxy is a run of the handshake (`follows_handshake`), and what holds of the
handshake's states holds of the proxy's. In particular a stopped proxy stands
in the inner loop (`spin_of_stopped`), which is what the host relies on when it
touches the proxy's counters.

## Main definitions

* `Pc.gate`: The place in `run`, as far as the flags are concerned.
* `toHandshake`: The handshake a proxy takes part in.
* `Action.toHandshake`: The action of the handshake an action stands for.

## Theorems

* `proxyStep_handshake`: One action of the proxy.
* `follows_handshake`: So the proxy follows the handshake.
* `spin_of_stopped`: A stopped proxy is in the inner loop.
* `proxyStep_paused`: There it changes nothing.
-/

namespace MKernel

namespace Internode

namespace Efa

open MKernel.Core

variable {setup : Setup} {w w' : World}

/-- The place in `run`, as far as the flags are concerned. -/
def Pc.gate : Pc → Handshake.ProxyPc
  | .pauseGate => .check
  | .ackStore => .ackStore
  | .pausedSpin => .spin
  | .ackClear => .ackClear
  | _ => .body

/-- The handshake a proxy takes part in. -/
def toHandshake (w : World) : Handshake.State := ⟨w.gate, w.pc.gate⟩

/-- The action of the handshake an action stands for, if any. -/
def Action.toHandshake : Action → Option Handshake.Action
  | .host a => some (.host a)
  | .proxy _ _ => some .proxy
  | _ => none

theorem pollFifo_gate {p : Polled} {w₁ : World} (hp : pollFifo setup w = some (p, w₁)) :
    w₁.gate = w.gate := by
  rcases pollFifo_eq_some hp with ⟨f, -, -, -, rfl⟩
  rfl

theorem Closes.gate {c : Collect} {cmd : Option Polled} {pc : Pc} (h : Closes c cmd pc) :
    pc.gate = .body := by
  rcases h with rfl | ⟨rfl, -⟩ <;> rfl

/-- The loops of step 1 do not look at the flags. -/
theorem turn_handshake {c : Collect} (ht : Turn setup w c w') :
    w'.gate = w.gate ∧ w'.pc.gate = .body := by
  cases ht with
  | close head pc hcl => exact ⟨rfl, hcl.gate⟩
  | miss spin misses hw => exact ⟨rfl, rfl⟩
  | ignored p w₁ pc hp hw hn hpc =>
      have hg := pollFifo_gate hp
      refine ⟨hg, ?_⟩
      rcases hpc with ⟨-, rfl⟩ | ⟨-, s, m, rfl⟩ <;> rfl
  | inlineNotify p w₁ hp hn hw hb hlt =>
      have hg := pollFifo_gate hp
      exact ⟨hg, rfl⟩
  | flagNotify p w₁ head pc hp hn hb hcl =>
      have hg := pollFifo_gate hp
      exact ⟨hg, hcl.gate⟩
  | first p w₁ hp hwr hw hb hlt =>
      have hg := pollFifo_gate hp
      exact ⟨hg, rfl⟩
  | join p w₁ pc hp hwr ha hpc =>
      have hg := pollFifo_gate hp
      refine ⟨hg, ?_⟩
      rcases hpc with ⟨-, rfl⟩ | ⟨-, s, m, rfl⟩ <;> rfl
  | stash p w₁ head hp hwr hb =>
      have hg := pollFifo_gate hp
      exact ⟨hg, rfl⟩

/-- Where the proxy neither starts nor ends at the gate and leaves the flags
    alone, the handshake does not move. -/
theorem handshake_stutter (hgate : w'.gate = w.gate) (hpc : w.pc.gate = .body)
    (hpc' : w'.pc.gate = .body) : toHandshake w' = toHandshake w := by
  rw [toHandshake, toHandshake, hgate, hpc, hpc']

theorem pollNic_drainReap_gate (w : World) (ne : Nat) :
    (pollNic drainReap w ne).gate = w.gate ∧ (pollNic drainReap w ne).pc = w.pc := by
  rw [pollNic_drainReap]
  exact ⟨rfl, rfl⟩

/-- One action of the proxy is one action of the handshake's proxy, or none. -/
theorem proxyStep_handshake {ok : Bool} {ne : Nat} (hstep : proxyStep setup w ok ne = some w') :
    toHandshake w' = toHandshake w ∨
      Handshake.step (toHandshake w) .proxy = some (toHandshake w') := by
  unfold proxyStep at hstep
  cases hpc : w.pc with
  | loop =>
      simp only [hpc, Option.some.injEq] at hstep
      rw [← hstep]
      cases hr : w.running with
      | true =>
          refine Or.inr ?_
          -- Where the thread looks at `running`, both go to the gate,
          simp only [toHandshake, hpc, Pc.gate, Handshake.step, Handshake.proxyStep, if_true]
      -- and where it ends the handshake stands still.
      | false => exact Or.inl (handshake_stutter rfl (by rw [hpc]; rfl) rfl)
  | pauseGate | pausedSpin =>
      simp only [hpc, Option.some.injEq] at hstep
      rw [← hstep]
      refine Or.inr ?_
      cases hp : w.gate.paused <;>
        simp [toHandshake, hpc, Pc.gate, Handshake.step, Handshake.proxyStep, hp]
  | ackStore | ackClear =>
      simp only [hpc, Option.some.injEq] at hstep
      rw [← hstep]
      refine Or.inr ?_
      simp only [toHandshake, hpc, Pc.gate, Handshake.step, Handshake.proxyStep]
  | barrierGate =>
      simp only [hpc] at hstep
      split at hstep <;> rw [← Option.some.inj hstep] <;>
        exact Or.inl (handshake_stutter rfl (by rw [hpc]; rfl) rfl)
  | drainCq site =>
      simp only [hpc] at hstep
      split at hstep
      · rw [← Option.some.inj hstep]
        rcases pollNic_drainReap_gate w ne with ⟨hg, hp⟩
        -- A drain does not leave its place.
        exact Or.inl (handshake_stutter hg (by rw [hpc]; rfl) (by rw [hp, hpc]; rfl))
      · rw [← Option.some.inj hstep]
        exact Or.inl (handshake_stutter rfl (by rw [hpc]; rfl) rfl)
  | stageBarrier site p =>
      simp only [hpc, Option.some.injEq] at hstep
      rw [← hstep]
      refine Or.inl (handshake_stutter ?_ (by rw [hpc]; rfl) ?_)
      · unfold stageBarrierStep
        dsimp only
        repeat' split
        all_goals rfl
      · unfold stageBarrierStep
        dsimp only
        split
        · split
          · rfl
          · split <;> rfl
        · cases site <;> rfl
  | collect =>
      simp only [hpc, Option.some.injEq] at hstep
      rw [← hstep]
      have hb := collectStep_begin setup w
      generalize collectStep setup w = v at hb
      cases hb <;> exact Or.inl (handshake_stutter rfl (by rw [hpc]; rfl) rfl)
  | fill c =>
      simp only [hpc, Option.some.injEq] at hstep
      rw [← hstep]
      rcases turn_handshake (fillStep_turn hpc) with ⟨hg, hp⟩
      exact Or.inl (handshake_stutter hg (by rw [hpc]; rfl) hp)
  | accumulate c spin misses =>
      simp only [hpc, Option.some.injEq] at hstep
      rw [← hstep]
      rcases turn_handshake (accumulateStep_turn hpc) with ⟨hg, hp⟩
      exact Or.inl (handshake_stutter hg (by rw [hpc]; rfl) hp)
  | post c =>
      simp only [hpc, Option.some.injEq] at hstep
      rw [← hstep]
      refine Or.inl (handshake_stutter ?_ (by rw [hpc]; rfl) ?_) <;> unfold postStep <;>
        dsimp only <;> repeat' split
      all_goals rfl
  | stageCount site p | account c | advanceTail =>
      simp only [hpc, Option.some.injEq] at hstep
      rw [← hstep]
      exact Or.inl (handshake_stutter rfl (by rw [hpc]; rfl) rfl)
  | pollCq posted =>
      simp only [hpc, Option.some.injEq] at hstep
      rcases pollNic_reap setup w ne with ⟨es, arrival, hw, -, -, -⟩
      rw [← hstep, hw]
      refine Or.inl (handshake_stutter rfl (by rw [hpc]; rfl) ?_)
      dsimp only
      split <;> rfl
  | exitDrain =>
      simp only [hpc] at hstep
      split at hstep
      · rw [← Option.some.inj hstep]
        rcases pollNic_drainReap_gate w ne with ⟨hg, hp⟩
        exact Or.inl (handshake_stutter hg (by rw [hpc]; rfl) (by rw [hp, hpc]; rfl))
      · rw [← Option.some.inj hstep]
        exact Or.inl (handshake_stutter rfl (by rw [hpc]; rfl) rfl)
  | exited => simp only [hpc, reduceCtorEq] at hstep

/-- Whatever is neither the proxy's action nor the handshake's leaves the flags
    and the proxy's place alone. -/
theorem follows_handshake : Handshake.Follows (step setup) toHandshake Action.toHandshake := by
  intro w a w' hstep
  cases a with
  | publish k | place i | complete i =>
      rcases Option.map_eq_some_iff.mp hstep with ⟨x, -, rfl⟩
      exact Or.inl ⟨rfl, Handshake.not_host_of_none rfl⟩
  | host b =>
      rcases Option.map_eq_some_iff.mp hstep with ⟨g, hg, rfl⟩
      refine Or.inr ⟨.host b, rfl, ?_⟩
      simp only [Handshake.step, toHandshake, hg, Option.map_some]
  | claim k cmd | stop | setEpoch epoch | fifoReset k =>
      rw [← Option.some.inj hstep]
      exact Or.inl ⟨rfl, Handshake.not_host_of_none rfl⟩
  | hostDrain ne =>
      simp only [step, Option.ite_none_right_eq_some, Option.some.injEq] at hstep
      rcases pollNic_drainReap_gate w ne with ⟨hg, hp⟩
      rw [← hstep.2]
      exact Or.inl ⟨by rw [toHandshake, toHandshake, hg, hp], Handshake.not_host_of_none rfl⟩
  | proxy ok ne =>
      rcases proxyStep_handshake hstep with h | h
      · exact Or.inl ⟨h, Handshake.not_host_of_proxy rfl⟩
      · exact Or.inr ⟨.proxy, rfl, h⟩
  | recv r | hostReset =>
      simp only [step, Option.ite_none_right_eq_some, Option.some.injEq] at hstep
      rw [← hstep.2]
      exact Or.inl ⟨rfl, Handshake.not_host_of_none rfl⟩
  | hostBarrier p slot token ok =>
      simp only [step, Option.ite_none_right_eq_some, Option.some.injEq] at hstep
      rw [← hstep.2]
      cases ok <;> exact Or.inl ⟨rfl, Handshake.not_host_of_none rfl⟩

/-- What the flags say, in every state of the proxy. -/
theorem handshake_inv {ok : World → Action → Prop} (h : Reaches (step setup) ok (init setup) w) :
    Handshake.Inv (toHandshake w) :=
  follows_handshake.inv_of_reaches rfl h

/-- Only one place in `run` is in the inner loop of the handshake. -/
theorem pc_of_spin (hspin : w.pc.gate = .spin) : w.pc = .pausedSpin := by
  cases hpc : w.pc with
  | pausedSpin => rfl
  | _ =>
      rw [hpc] at hspin
      exact absurd hspin (by simp only [Pc.gate, reduceCtorEq, not_false_eq_true])

/-- Only one place in `run` is before the acknowledgement. -/
theorem pc_of_ackStore (hack : w.pc.gate = .ackStore) : w.pc = .ackStore := by
  cases hpc : w.pc with
  | ackStore => rfl
  | _ =>
      rw [hpc] at hack
      exact absurd hack (by simp only [Pc.gate, reduceCtorEq, not_false_eq_true])

/-- The proxy comes into the inner loop from the acknowledgement. -/
theorem pc_before_spin {ok : Bool} {ne : Nat} (hstep : proxyStep setup w ok ne = some w')
    (hpc : w'.pc = .pausedSpin) : w.pc = .ackStore ∨ w.pc = .pausedSpin := by
  have hspin : (toHandshake w').proxy = .spin := by
    rw [toHandshake, hpc]
    rfl
  rcases proxyStep_handshake hstep with hsame | hmove
  · rw [hsame] at hspin
    exact Or.inr (pc_of_spin hspin)
  · rw [← Option.some.inj hmove] at hspin
    exact (Handshake.proxy_of_spin hspin).imp pc_of_ackStore pc_of_spin

/-- A stopped proxy is in the inner loop. -/
theorem spin_of_stopped (h : Handshake.Inv (toHandshake w)) (hs : w.gate.Stopped) :
    w.pc = .pausedSpin :=
  pc_of_spin (h.spin_of_stopped hs)

/-- In the inner loop the proxy changes nothing while `paused_` is set. -/
theorem proxyStep_paused {ok : Bool} {ne : Nat} (hpc : w.pc = .pausedSpin)
    (hp : w.gate.paused = true) (hstep : proxyStep setup w ok ne = some w') : w' = w := by
  simp only [proxyStep, hpc, hp, if_true, Option.some.injEq] at hstep
  rw [← hstep, ← hpc]

end Efa

end Internode

end MKernel
