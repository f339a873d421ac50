import MKernel.Internode.Efa.Gate
import MKernel.Internode.Cx7.Gate

/-!
# Pausing Either Proxy

Whether `pause` returns, and what the host has once it did, on both backends.

Both proxies follow the handshake, so both share its one weakness. The
acknowledgement is stored on entry to the inner loop only, and `resume` does not
wait for the proxy to leave it. A host that resumes a proxy and pauses it again
before the proxy has looked at the flag waits for an acknowledgement that was
cleared and will not be stored again, and the proxy waits for the flag to clear.

In a run that pauses only proxies out of the inner loop this cannot happen, any
other pause of a running proxy leads straight into it, and no run leads out.

Once `pause` did return, the proxy is in the inner loop and stays there until
the next `resume` begins, whatever else happens: an acknowledgement left over
from an earlier round cannot satisfy a later `pause`, since `resume` clears it
before it lets the proxy go. In the inner loop the proxy changes nothing.

## Main definitions

* `PauseSafe`: When the host and a proxy wait for each other.
* `NotResuming`: The actions of a host that keeps a proxy paused.
* `Held`: What the handshake looks like meanwhile.
* `Exclusive`: A paused proxy changes nothing.
* `pauseTwice`: A host that does not give the proxy time to leave.

## Theorems

* `pauseSafe_of_follows`: What holds of any machine that follows the handshake.
* `pause_returns`: It holds of both proxies.
* `pause_hangs`: Either proxy can be paused too early.
* `held_of_reaches`: From the return of `pause` to the next `resume`.
* `pause_exclusive`: A paused proxy changes nothing, on both backends.
-/

namespace MKernel

namespace Internode

namespace Pausing

open MKernel.Core Handshake

section Machine

variable {σ ι : Type*} {machine : σ → ι → Option σ} {view : σ → State}
  {stands : ι → Option Handshake.Action} {start : σ}

/-- When the host and a proxy wait for each other: not in runs that pause only
    proxies out of the inner loop; elsewhere, from the first pause of a proxy
    in the inner loop on, and for good. -/
structure PauseSafe (machine : σ → ι → Option σ) (view : σ → State)
    (stands : ι → Option Handshake.Action) (start : σ) : Prop where
  safe : ∀ x, Reaches machine (PausesLeft view stands) start x → ¬ Deadlocked (view x)
  first : ∀ x i y, Reaches machine always start x → ¬ Deadlocked (view x) →
    machine x i = some y → (Deadlocked (view y) ↔ ¬ PausesLeft view stands x i)
  stuck : ∀ x y, Reaches machine always start x → Deadlocked (view x) →
    Reaches machine always x y → Deadlocked (view y)

theorem pauseSafe_of_follows (hf : Follows machine view stands) (hstart : view start = init) :
    PauseSafe machine view stands start where
  safe := by
    intro x hx
    have hrun := hf.reaches hx
    rw [hstart] at hrun
    exact not_deadlocked_of_reaches hrun
  first := by
    intro x i y hx hd hstep
    exact hf.deadlocked_iff (hf.inv_of_reaches hstart hx) hstep hd
  stuck := by
    intro x y hx hd hy
    have hboth : Inv (view y) ∧ Deadlocked (view y) := by
      refine invariant_of_reaches (fun x => Inv (view x) ∧ Deadlocked (view x)) ?_ hy
        ⟨hf.inv_of_reaches hstart hx, hd⟩
      rintro u i v ⟨hi, hu⟩ - hstep
      refine ⟨hf.step_inv hi hstep, ?_⟩
      -- What is no action of the handshake leaves it as it is.
      rcases hf u i v hstep with ⟨heq, -⟩ | ⟨a, -, hs⟩
      · rw [heq]
        exact hu
      · rw [deadlocked_stays hi hu hs]
        exact hu
    exact hboth.2

end Machine

/-- On both backends, `pause` waits in vain exactly when it pauses a running
    proxy that is still in the inner loop. -/
theorem pause_returns (efa : Efa.Setup) (cx7 : Cx7.Setup) :
    PauseSafe (Efa.step efa) Efa.toHandshake Efa.Action.toHandshake (Efa.init efa) ∧
      PauseSafe (Cx7.step cx7) Cx7.toHandshake Cx7.Action.toHandshake (Cx7.init cx7) :=
  ⟨pauseSafe_of_follows Efa.follows_handshake rfl,
    pauseSafe_of_follows Cx7.follows_handshake rfl⟩

/-- A host that pauses, resumes and pauses again. -/
def pauseTwice : List HostAction := [.acked, .resume, .unpause, .pause]

/-- A proxy that does not run between `resume` and the next `pause` is in the
    inner loop with the acknowledgement cleared, on both backends. -/
theorem pause_hangs :
    ¬ ((∀ (setup : Efa.Setup) (w : Efa.World),
          Reaches (Efa.step setup) always (Efa.init setup) w → ¬ Deadlocked (Efa.toHandshake w)) ∨
        ∀ (setup : Cx7.Setup) (w : Cx7.World),
          Reaches (Cx7.step setup) always (Cx7.init setup) w →
            ¬ Deadlocked (Cx7.toHandshake w)) := by
  rintro (h | h)
  · have hrun : ((run (Efa.step Efa.writeImmSetup) always
        (Efa.Action.host .pause :: Efa.goes 3 ++ pauseTwice.map Efa.Action.host)
        (Efa.init Efa.writeImmSetup)).any fun w => Deadlocked (Efa.toHandshake w)) = true := by
      decide +kernel
    rcases (Option.any_eq_true _ _).mp hrun with ⟨w, hw, hd⟩
    exact h _ w (reaches_of_run _ _ _ hw) (of_decide_eq_true hd)
  · have hrun : ((run (Cx7.step Cx7.sampleSetup) always
        (Cx7.Action.host .pause :: Cx7.goes 3 ++ pauseTwice.map Cx7.Action.host)
        (Cx7.init Cx7.sampleSetup)).any fun w => Deadlocked (Cx7.toHandshake w)) = true := by
      decide +kernel
    rcases (Option.any_eq_true _ _).mp hrun with ⟨w, hw, hd⟩
    exact h _ w (reaches_of_run _ _ _ hw) (of_decide_eq_true hd)

section Exclusion

variable {σ ι : Type*} {machine : σ → ι → Option σ} {view : σ → State}
  {stands : ι → Option Handshake.Action} {start : σ}

/-- Any action but the beginning of `resume`. -/
def NotResuming (stands : ι → Option Handshake.Action) : σ → ι → Prop :=
  fun _ i => stands i ≠ some (.host .resume)

instance (x : σ) (i : ι) : Decidable (NotResuming stands x i) := by
  unfold NotResuming
  infer_instance

/-- The proxy is in the inner loop, and the host has not begun to let it go. -/
def Held (s : State) : Prop :=
  s.gate.paused = true ∧ s.gate.host ≠ .resuming ∧ s.proxy = .spin

/-- `pause` returns only with the proxy in the inner loop. -/
theorem held_of_acked {s t : State} (h : Handshake.Inv s)
    (hstep : Handshake.step s (.host .acked) = some t) : Held t := by
  rcases Option.map_eq_some_iff.mp hstep with ⟨g, hg, rfl⟩
  simp only [Gate.hostStep, Option.ite_none_right_eq_some, Option.some.injEq] at hg
  rcases hg with ⟨⟨hwait, hack⟩, rfl⟩
  unfold Handshake.Inv at h
  -- While `pause` waits, `paused_` is set, and an acknowledgement means the inner loop.
  cases hp : s.gate.paused with
  | true =>
      rw [hwait, hp] at h
      exact ⟨rfl, by simp only [ne_eq, reduceCtorEq, not_false_eq_true], h hack⟩
  | false =>
      rw [hwait, hp] at h
      exact absurd h id

/-- Every action but the beginning of `resume` leaves the proxy in the inner
    loop. -/
theorem held_step {s t : State} {a : Handshake.Action} (h : Held s) (ha : a ≠ .host .resume)
    (hstep : Handshake.step s a = some t) : Held t := by
  rcases h with ⟨hp, hh, hspin⟩
  cases a with
  | proxy =>
      -- With `paused_` set the inner loop goes round.
      rw [← Option.some.inj hstep]
      simp only [Handshake.proxyStep, hspin, hp, if_true]
      exact ⟨hp, hh, hspin⟩
  | host a =>
      rcases Option.map_eq_some_iff.mp hstep with ⟨g, hg, rfl⟩
      cases a with
      | pause =>
          simp only [Gate.hostStep, Option.ite_none_right_eq_some, Option.some.injEq] at hg
          rw [← hg.2]
          exact ⟨rfl, by simp only [ne_eq, reduceCtorEq, not_false_eq_true], hspin⟩
      | acked =>
          simp only [Gate.hostStep, Option.ite_none_right_eq_some, Option.some.injEq] at hg
          rw [← hg.2]
          exact ⟨hp, by simp only [ne_eq, reduceCtorEq, not_false_eq_true], hspin⟩
      -- Of the host's actions only the beginning of `resume` is ruled out.
      | resume => exact absurd rfl ha
      | unpause =>
          simp only [Gate.hostStep, Option.ite_none_right_eq_some, Option.some.injEq] at hg
          -- `resume` has not begun, so it does not clear `paused_`.
          exact absurd hg.1 hh

/-- From the return of `pause` until the next `resume` begins, the proxy is in
    the inner loop. -/
theorem held_of_reaches (hf : Follows machine view stands) {x z : σ} (hx : Held (view x))
    (h : Reaches machine (NotResuming stands) x z) : Held (view z) := by
  refine invariant_of_reaches (fun u => Held (view u)) ?_ h hx
  intro u i v hu hi hstep
  rcases hf u i v hstep with ⟨heq, -⟩ | ⟨a, ha, hs⟩
  · rw [heq]
    exact hu
  · refine held_step hu (fun hres => hi ?_) hs
    rw [ha, hres]

/-- From the return of `pause` until the next `resume` begins, whatever the
    host and the network do, an action of the proxy changes nothing: it polls
    no command, posts no request and reaps no completion. -/
def Exclusive (machine : σ → ι → Option σ) (stands : ι → Option Handshake.Action) (start : σ) :
    Prop :=
  ∀ x y z t i j, Reaches machine always start x → stands i = some (.host .acked) →
    machine x i = some y → Reaches machine (NotResuming stands) y z →
    stands j = some .proxy → machine z j = some t → t = z

/-- A machine that follows the handshake keeps its proxy still, if a proxy in
    the inner loop changes nothing while `paused_` is set. -/
theorem exclusive_of_follows (hf : Follows machine view stands) (hstart : view start = init)
    (hspin : ∀ z j t, Held (view z) → stands j = some .proxy → machine z j = some t → t = z) :
    Exclusive machine stands start := by
  intro x y z t i j hx hi hxy hyz hj hzt
  have hheld : Held (view y) := by
    -- The action stands for the return of `pause`.
    rcases hf x i y hxy with ⟨-, hnone⟩ | ⟨a, ha, hs⟩
    · exact absurd hi (hnone _)
    · rw [Option.some.inj (ha.symm.trans hi)] at hs
      exact held_of_acked (hf.inv_of_reaches hstart hx) hs
  exact hspin z j t (held_of_reaches hf hheld hyz) hj hzt

end Exclusion

/-- On both backends the host has a paused proxy's queues, flags and counters
    to itself. -/
theorem pause_exclusive (efa : Efa.Setup) (cx7 : Cx7.Setup) :
    Exclusive (Efa.step efa) Efa.Action.toHandshake (Efa.init efa) ∧
      Exclusive (Cx7.step cx7) Cx7.Action.toHandshake (Cx7.init cx7) := by
  refine ⟨exclusive_of_follows Efa.follows_handshake rfl fun z j t hz hj hzt => ?_,
    exclusive_of_follows Cx7.follows_handshake rfl fun z j t hz hj hzt => ?_⟩
  · have hpc := Efa.pc_of_spin hz.2.2
    cases j with
    -- Only the proxy's own actions stand for the proxy.
    | proxy ok ne => exact Efa.proxyStep_paused hpc hz.1 hzt
    | _ => exact absurd hj (by simp only [Efa.Action.toHandshake, reduceCtorEq,
        Option.some.injEq, not_false_eq_true])
  · have hpc := Cx7.pc_of_spin hz.2.2
    cases j with
    | proxy ok ne => exact Cx7.proxyStep_paused hpc hz.1 hzt
    | _ => exact absurd hj (by simp only [Cx7.Action.toHandshake, reduceCtorEq,
        Option.some.injEq, not_false_eq_true])

section Sample

/-- A proxy that has stored the acknowledgement. -/
def acknowledged : Efa.World :=
  (run (Efa.step Efa.writeImmSetup) always (.host .pause :: Efa.goes 3)
    (Efa.init Efa.writeImmSetup)).get (by decide +kernel)

/-- The same proxy when `pause` has returned. -/
def held : Efa.World :=
  (Efa.step Efa.writeImmSetup acknowledged (.host .acked)).get (by decide +kernel)

theorem pause_exclusive_held : Efa.step Efa.writeImmSetup held (.proxy true 0) = some held := by
  have hsome : (Efa.step Efa.writeImmSetup held (.proxy true 0)).isSome = true := by
    decide +kernel
  have hstep := (Option.some_get hsome).symm
  rw [hstep, (pause_exclusive Efa.writeImmSetup Cx7.sampleSetup).1 acknowledged held held _
    (.host .acked) (.proxy true 0) (reaches_of_run _ _ _ (Option.some_get _).symm) rfl
    (Option.some_get _).symm (reaches_refl _ _ _) rfl hstep]

end Sample

end Pausing

end Internode

end MKernel
