import MKernel.Internode.Cx7.Proxy

/-!
# The Pause Gate of the CX7 Proxy

The CX7 proxy's loop takes part in the pause handshake as the handshake says a
proxy does.

The gate is word for word that of the other proxy: a check at the top of the
loop, the store of the acknowledgement, the inner loop and the store that
clears the acknowledgement. Whatever else the proxy does leaves the two flags
alone (`Idles`), so a run of the proxy is a run of the handshake.

## Main definitions

* `Pc.gate`: The place in `run`, as far as the flags are concerned.
* `toHandshake`: The handshake a proxy takes part in.
* `Action.toHandshake`: The action of the handshake an action stands for.
* `Idles`: An action that has nothing to do with the flags.

## Theorems

* `proxyStep_handshake`: One action of the proxy.
* `follows_handshake`: So the proxy follows the handshake.
* `spin_of_stopped`: A stopped proxy is in the inner loop.
* `proxyStep_paused`: There it changes nothing.
-/

namespace MKernel

namespace Internode

namespace Cx7

open MKernel.Core

variable {setup : Setup} {w w' : World}

/-- The place in `run`, as far as the flags are concerned. -/
def Pc.gate : Pc → Handshake.ProxyPc
  | .pauseGate => .check
  | .ackStore => .ackStore
  | .pausedSpin => .spin
  | .ackClear => .ackClear
  | _ => .body

/-- The handshake a proxy takes part in. -/
def toHandshake (w : World) : Handshake.State := ⟨w.gate, w.pc.gate⟩

/-- The action of the handshake an action stands for, if any. -/
def Action.toHandshake : Action → Option Handshake.Action
  | .host a => some (.host a)
  | .proxy _ _ => some .proxy
  | _ => none

/-- The flags are left alone, and the proxy ends outside the gate. -/
def Idles (w w' : World) : Prop := w'.gate = w.gate ∧ w'.pc.gate = .body

theorem endFill_idles (setup : Setup) (w : World) (c : Collect) : Idles w (endFill setup w c) := by
  unfold endFill
  split <;> exact ⟨rfl, rfl⟩

/-- The collection loop does not look at the flags. -/
theorem fillStep_idles (setup : Setup) (w : World) (c : Collect) :
    Idles w (fillStep setup w c) := by
  unfold fillStep
  split
  · cases hp : pollFifo setup w with
    | none => exact endFill_idles setup w c
    | some r =>
        rcases r with ⟨p, w₁⟩
        rcases pollFifo_eq_some hp with ⟨f, -, -, rfl⟩
        simp only
        cases p.cmd.cmdType with
        -- A WRITE joins the batch, is lost, or closes it.
        | write =>
            simp only
            unfold collectWrite
            split
            · dsimp only
              split
              · exact ⟨rfl, rfl⟩
              · split
                · exact ⟨rfl, rfl⟩
                · split
                  · exact ⟨rfl, rfl⟩
                  · exact endFill_idles setup _ c
            · exact ⟨rfl, rfl⟩
        | barrierNotify | empty | fence => exact ⟨rfl, rfl⟩
  · exact endFill_idles setup w c

theorem collectStep_idles (setup : Setup) (w : World) : Idles w (collectStep setup w) := by
  unfold collectStep
  split
  · split <;> exact ⟨rfl, rfl⟩
  · exact ⟨rfl, rfl⟩

theorem forwardStep_idles (setup : Setup) (w : World) (i : Nat) (ok : Bool) :
    Idles w (forwardStep setup w i ok) := by
  unfold forwardStep
  split
  · dsimp only
    split
    · exact ⟨rfl, rfl⟩
    · split
      · split <;> exact ⟨rfl, rfl⟩
      · exact ⟨rfl, rfl⟩
  · exact ⟨rfl, rfl⟩

theorem stageBarrierStep_idles (setup : Setup) (w : World) (c : Collect) (p : Nat) (ok : Bool) :
    Idles w (stageBarrierStep setup w c p ok) := by
  unfold stageBarrierStep
  split
  · split <;> exact ⟨rfl, rfl⟩
  · exact ⟨rfl, rfl⟩

theorem filterStep_idles (setup : Setup) (w : World) (rest kept : List Polled)
    (qp stridedPosted : Int) (ok : Bool) :
    Idles w (filterStep setup w rest kept qp stridedPosted ok) := by
  unfold filterStep
  split
  · exact ⟨rfl, rfl⟩
  · split
    · split
      · split <;> exact ⟨rfl, rfl⟩
      · exact ⟨rfl, rfl⟩
    · exact ⟨rfl, rfl⟩

theorem postStep_idles (setup : Setup) (w : World) (batch : List Polled) (qp stridedPosted : Int)
    (ok : Bool) : Idles w (postStep setup w batch qp stridedPosted ok) := by
  unfold postStep
  split
  · exact ⟨rfl, rfl⟩
  · dsimp only
    split <;> exact ⟨rfl, rfl⟩

theorem pollNic_gate (w : World) (ne : Nat) :
    (pollNic w ne).gate = w.gate ∧ (pollNic w ne).pc = w.pc := by
  rw [pollNic_eq]
  exact ⟨rfl, rfl⟩

/-- One action of the proxy is one action of the handshake's proxy, or none. -/
theorem proxyStep_handshake {ok : Bool} {ne : Nat} (hstep : proxyStep setup w ok ne = some w') :
    toHandshake w' = toHandshake w ∨
      Handshake.step (toHandshake w) .proxy = some (toHandshake w') := by
  -- Where the proxy neither starts nor ends at the gate, the handshake does not move.
  have hidle : w.pc.gate = .body → Idles w w' → toHandshake w' = toHandshake w := by
    rintro hpc ⟨hg, hp⟩
    rw [toHandshake, toHandshake, hg, hp, hpc]
  unfold proxyStep at hstep
  cases hpc : w.pc with
  | loop =>
      simp only [hpc, Option.some.injEq] at hstep
      rw [← hstep] at hidle ⊢
      cases hr : w.running with
      | true =>
          refine Or.inr ?_
          simp only [toHandshake, hpc, Pc.gate, Handshake.step, Handshake.proxyStep, if_true]
      | false =>
          rw [hr] at hidle
          exact Or.inl (hidle (by rw [hpc]; rfl) ⟨rfl, rfl⟩)
  | pauseGate =>
      simp only [hpc, Option.some.injEq] at hstep
      rw [← hstep]
      refine Or.inr ?_
      cases hp : w.gate.paused <;>
        simp [toHandshake, hpc, Pc.gate, Handshake.step, Handshake.proxyStep, hp]
  | ackStore | ackClear =>
      simp only [hpc, Option.some.injEq] at hstep
      rw [← hstep]
      refine Or.inr ?_
      simp only [toHandshake, hpc, Pc.gate, Handshake.step, Handshake.proxyStep]
  | pausedSpin =>
      simp only [hpc, Option.some.injEq] at hstep
      rw [← hstep]
      refine Or.inr ?_
      cases hp : w.gate.paused <;>
        simp [toHandshake, hpc, Pc.gate, Handshake.step, Handshake.proxyStep, hp]
  | forwardGate =>
      simp only [hpc] at hstep
      split at hstep <;>
        · rw [← Option.some.inj hstep] at hidle ⊢
          exact Or.inl (hidle (by rw [hpc]; rfl) ⟨rfl, rfl⟩)
  | forward i =>
      simp only [hpc, Option.some.injEq] at hstep
      rw [← hstep] at hidle ⊢
      exact Or.inl (hidle (by rw [hpc]; rfl) (forwardStep_idles setup w i ok))
  | forwardCount i | account count stridedPosted | advanceTail =>
      simp only [hpc, Option.some.injEq] at hstep
      rw [← hstep] at hidle ⊢
      exact Or.inl (hidle (by rw [hpc]; rfl) ⟨rfl, rfl⟩)
  | stageCount c p | stridedCount stridedPosted posted =>
      simp only [hpc, Option.some.injEq] at hstep
      rw [← hstep] at hidle ⊢
      exact Or.inl (hidle (by rw [hpc]; rfl) ⟨rfl, rfl⟩)
  | collect =>
      simp only [hpc, Option.some.injEq] at hstep
      rw [← hstep] at hidle ⊢
      exact Or.inl (hidle (by rw [hpc]; rfl) (collectStep_idles setup w))
  | fill c =>
      simp only [hpc, Option.some.injEq] at hstep
      rw [← hstep] at hidle ⊢
      exact Or.inl (hidle (by rw [hpc]; rfl) (fillStep_idles setup w c))
  | stageBarrier c p =>
      simp only [hpc, Option.some.injEq] at hstep
      rw [← hstep] at hidle ⊢
      exact Or.inl (hidle (by rw [hpc]; rfl) (stageBarrierStep_idles setup w c p ok))
  | filter rest kept qp stridedPosted =>
      simp only [hpc, Option.some.injEq] at hstep
      rw [← hstep] at hidle ⊢
      exact Or.inl
        (hidle (by rw [hpc]; rfl) (filterStep_idles setup w rest kept qp stridedPosted ok))
  | post batch qp stridedPosted =>
      simp only [hpc, Option.some.injEq] at hstep
      rw [← hstep] at hidle ⊢
      exact Or.inl (hidle (by rw [hpc]; rfl) (postStep_idles setup w batch qp stridedPosted ok))
  | pollCq posted =>
      simp only [hpc, Option.some.injEq] at hstep
      rw [← hstep] at hidle ⊢
      refine Or.inl (hidle (by rw [hpc]; rfl) ⟨(pollNic_gate w ne).1, ?_⟩)
      dsimp only
      split <;> rfl
  | exitDrain =>
      simp only [hpc] at hstep
      split at hstep
      · rw [← Option.some.inj hstep] at hidle ⊢
        rcases pollNic_gate w ne with ⟨hg, hp⟩
        exact Or.inl (hidle (by rw [hpc]; rfl) ⟨hg, by rw [hp, hpc]; rfl⟩)
      · rw [← Option.some.inj hstep] at hidle ⊢
        exact Or.inl (hidle (by rw [hpc]; rfl) ⟨rfl, rfl⟩)
  | exited => simp only [hpc, reduceCtorEq] at hstep

/-- Whatever is neither the proxy's action nor the handshake's leaves the flags
    and the proxy's place alone. -/
theorem follows_handshake : Handshake.Follows (step setup) toHandshake Action.toHandshake := by
  intro w a w' hstep
  cases a with
  | claim cmd | stop | fifoReset =>
      rw [← Option.some.inj hstep]
      exact Or.inl ⟨rfl, Handshake.not_host_of_none rfl⟩
  | forwardNotify slot n | resetForwardNotifyTable | setEpoch epoch =>
      rw [← Option.some.inj hstep]
      exact Or.inl ⟨rfl, Handshake.not_host_of_none rfl⟩
  | publish =>
      rcases Option.map_eq_some_iff.mp hstep with ⟨f, -, rfl⟩
      exact Or.inl ⟨rfl, Handshake.not_host_of_none rfl⟩
  | place i | complete i =>
      simp only [step, Option.ite_none_right_eq_some] at hstep
      rcases Option.map_eq_some_iff.mp hstep.2 with ⟨x, -, rfl⟩
      exact Or.inl ⟨rfl, Handshake.not_host_of_none rfl⟩
  | host b =>
      rcases Option.map_eq_some_iff.mp hstep with ⟨g, hg, rfl⟩
      refine Or.inr ⟨.host b, rfl, ?_⟩
      simp only [Handshake.step, toHandshake, hg, Option.map_some]
  | hostDrain ne =>
      simp only [step, Option.ite_none_right_eq_some, Option.some.injEq] at hstep
      rcases pollNic_gate w ne with ⟨hg, hp⟩
      rw [← hstep.2]
      -- A drain does not touch the flags.
      exact Or.inl ⟨by rw [toHandshake, toHandshake, hg, hp], Handshake.not_host_of_none rfl⟩
  | hostReset | hostBarrier p slot token =>
      simp only [step, Option.ite_none_right_eq_some, Option.some.injEq] at hstep
      rw [← hstep.2]
      exact Or.inl ⟨rfl, Handshake.not_host_of_none rfl⟩
  | proxy ok ne =>
      rcases proxyStep_handshake hstep with h | h
      · exact Or.inl ⟨h, Handshake.not_host_of_proxy rfl⟩
      · exact Or.inr ⟨.proxy, rfl, h⟩

/-- What the flags say, in every state of the proxy. -/
theorem handshake_inv {ok : World → Action → Prop} (h : Reaches (step setup) ok (init setup) w) :
    Handshake.Inv (toHandshake w) :=
  follows_handshake.inv_of_reaches rfl h

/-- Only one place in `run` is in the inner loop of the handshake. -/
theorem pc_of_spin (hspin : w.pc.gate = .spin) : w.pc = .pausedSpin := by
  cases hpc : w.pc with
  | pausedSpin => rfl
  | _ =>
      rw [hpc] at hspin
      exact absurd hspin (by simp only [Pc.gate, reduceCtorEq, not_false_eq_true])

/-- Only one place in `run` is before the acknowledgement. -/
theorem pc_of_ackStore (hack : w.pc.gate = .ackStore) : w.pc = .ackStore := by
  cases hpc : w.pc with
  | ackStore => rfl
  | _ =>
      rw [hpc] at hack
      exact absurd hack (by simp only [Pc.gate, reduceCtorEq, not_false_eq_true])

/-- The proxy comes into the inner loop from the acknowledgement. -/
theorem pc_before_spin {ok : Bool} {ne : Nat} (hstep : proxyStep setup w ok ne = some w')
    (hpc : w'.pc = .pausedSpin) : w.pc = .ackStore ∨ w.pc = .pausedSpin := by
  have hspin : (toHandshake w').proxy = .spin := by
    rw [toHandshake, hpc]
    rfl
  rcases proxyStep_handshake hstep with hsame | hmove
  · rw [hsame] at hspin
    exact Or.inr (pc_of_spin hspin)
  · rw [← Option.some.inj hmove] at hspin
    exact (Handshake.proxy_of_spin hspin).imp pc_of_ackStore pc_of_spin

/-- A stopped proxy is in the inner loop. -/
theorem spin_of_stopped (h : Handshake.Inv (toHandshake w)) (hs : w.gate.Stopped) :
    w.pc = .pausedSpin :=
  pc_of_spin (h.spin_of_stopped hs)

/-- In the inner loop the proxy changes nothing while `paused_` is set. -/
theorem proxyStep_paused {ok : Bool} {ne : Nat} (hpc : w.pc = .pausedSpin)
    (hp : w.gate.paused = true) (hstep : proxyStep setup w ok ne = some w') : w' = w := by
  simp only [proxyStep, hpc, hp, if_true, Option.some.injEq] at hstep
  rw [← hstep, ← hpc]

end Cx7

end Internode

end MKernel
