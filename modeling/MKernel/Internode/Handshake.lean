import Mathlib.Logic.Basic
import Mathlib.Tactic.ByContra
import MKernel.Core.System

/-!
# Pausing a Proxy

The handshake by which the host stops a proxy thread, which both proxies share
store by store and load by load.

`pause` stores `paused_` and spins until it loads `ack_paused_` as true;
`resume` clears `ack_paused_` and then `paused_`. The proxy looks at `paused_`
at the top of its loop. If it is set, the proxy stores the acknowledgement once
and spins in an inner loop until `paused_` is clear, then clears the
acknowledgement and goes back to the top.

The acknowledgement is stored on entry to the inner loop and nowhere else, and
`resume` clears it without waiting for the proxy to leave. A `pause` that comes
while the proxy is still in the inner loop of the pause before therefore waits
for a store nobody will make, while the proxy waits for `paused_` to clear:
`deadlocked_iff` says this is the only way into that state, and
`deadlocked_stays` that there is no way out.

The place of the host between its calls is `ready`; whether it has the proxy
stopped there is what `paused_` says.

## Main definitions

* `Gate`: The two flags, and where the host is.
* `ProxyPc`: Where the proxy is, as far as the flags are concerned.
* `step`: One load or store of either side.
* `Deadlocked`: Both sides wait for the other.
* `LeftInnerLoop`: The proxy is out of the inner loop when it is paused.
* `Inv`: What the flags say about the two sides.
* `Follows`: A machine whose actions are actions of the handshake, or none.
* `PausesLeft`: `LeftInnerLoop`, for such a machine.

## Theorems

* `inv_of_reaches`: What the flags say, in every reachable state.
* `Inv.spin_of_stopped`: A stopped proxy is in the inner loop.
* `deadlocked_iff`: The step into a deadlock.
* `deadlocked_stays`: No step leaves one.
* `not_deadlocked_of_reaches`: Pausing only proxies that left the inner loop.
* `Follows.reaches`, `Follows.deadlocked_iff`: The same for such a machine.
-/

namespace MKernel

namespace Internode

namespace Handshake

open MKernel.Core

/-- Where the host is in its calls. -/
inductive HostPc where
  /-- Between two calls. -/
  | ready
  /-- Inside `pause`, `paused_` stored. -/
  | waiting
  /-- Inside `resume`, `ack_paused_` cleared. -/
  | resuming
  deriving DecidableEq, Repr

/-- The two flags, and where the host is. -/
structure Gate where
  paused : Bool
  ackPaused : Bool
  host : HostPc
  deriving DecidableEq, Repr

/-- Where the proxy is, as far as the flags are concerned. -/
inductive ProxyPc where
  /-- Anywhere outside the pause gate. -/
  | body
  /-- At the top of the loop, about to load `paused_`. -/
  | check
  /-- `paused_` was loaded as true. -/
  | ackStore
  /-- The inner loop. -/
  | spin
  /-- `paused_` was loaded as false in the inner loop. -/
  | ackClear
  deriving DecidableEq, Repr

/-- The gate of a proxy that was just constructed. -/
def Gate.init : Gate := ⟨false, false, .ready⟩

/-- Whether the host has the proxy stopped: `pause` has returned and `resume`
    has not begun. -/
def Gate.Stopped (g : Gate) : Prop := g.host = .ready ∧ g.paused = true

instance (g : Gate) : Decidable g.Stopped := by unfold Gate.Stopped; infer_instance

inductive HostAction where
  /-- `pause` stores `paused_`. -/
  | pause
  /-- `pause` loads `ack_paused_` as true and returns. -/
  | acked
  /-- `resume` clears `ack_paused_`. -/
  | resume
  /-- `resume` clears `paused_` and returns. -/
  | unpause
  deriving DecidableEq, Repr

/-- One load or store of the host. -/
def Gate.hostStep (g : Gate) : HostAction → Option Gate
  | .pause => if g.host = .ready then some { g with paused := true, host := .waiting } else none
  | .acked =>
      if g.host = .waiting ∧ g.ackPaused = true then some { g with host := .ready } else none
  | .resume =>
      if g.host = .ready then some { g with ackPaused := false, host := .resuming } else none
  | .unpause =>
      if g.host = .resuming then some { g with paused := false, host := .ready } else none

/-- The handshake on its own: the gate, and where the proxy is. -/
structure State where
  gate : Gate
  proxy : ProxyPc
  deriving DecidableEq, Repr

def init : State := ⟨Gate.init, .body⟩

inductive Action where
  | host (a : HostAction)
  | proxy
  deriving DecidableEq, Repr

/-- One load or store of the proxy, or its coming to the top of the loop. There
    it may find `paused_` clear and go on; in the inner loop it may find it still
    set. -/
def proxyStep (s : State) : State :=
  match s.proxy with
  | .body => { s with proxy := .check }
  | .check => { s with proxy := if s.gate.paused = true then .ackStore else .body }
  | .ackStore => { gate := { s.gate with ackPaused := true }, proxy := .spin }
  -- While `paused_` is set the inner loop loads it again and changes nothing.
  | .spin => if s.gate.paused = true then s else { s with proxy := .ackClear }
  | .ackClear => { gate := { s.gate with ackPaused := false }, proxy := .body }

def step (s : State) : Action → Option State
  | .host a => (s.gate.hostStep a).map fun g => { s with gate := g }
  | .proxy => some (proxyStep s)

/-- The host waits in `pause` for an acknowledgement that is clear, and the
    proxy is in the inner loop. -/
def Deadlocked (s : State) : Prop :=
  s.gate.host = .waiting ∧ s.gate.ackPaused = false ∧ s.proxy = .spin

instance (s : State) : Decidable (Deadlocked s) := by unfold Deadlocked; infer_instance

/-- A proxy that is not stopped has left the inner loop when `pause` is
    called. -/
def LeftInnerLoop (s : State) : Action → Prop
  | .host .pause => s.gate.paused = false → s.proxy ≠ .spin
  | _ => True

instance (s : State) (a : Action) : Decidable (LeftInnerLoop s a) := by
  unfold LeftInnerLoop
  split <;> infer_instance

/-- What the flags say, by the place of the host and whether `paused_` is set.
    Between its calls the host either has the proxy stopped in the inner loop,
    or the acknowledgement is clear and the proxy is not about to store it. -/
def Inv (s : State) : Prop :=
  match s.gate.host, s.gate.paused with
  | .ready, true => s.gate.ackPaused = true ∧ s.proxy = .spin
  | .ready, false => s.gate.ackPaused = false ∧ s.proxy ≠ .ackStore
  | .waiting, true => s.gate.ackPaused = true → s.proxy = .spin
  | .waiting, false => False
  | .resuming, true => s.gate.ackPaused = false ∧ s.proxy = .spin
  | .resuming, false => s.gate.ackPaused = false ∧ s.proxy ≠ .ackStore

theorem inv_init : Inv init := ⟨rfl, by decide⟩

theorem inv_hostStep {s : State} (h : Inv s) {a : HostAction} {g : Gate}
    (hstep : s.gate.hostStep a = some g) : Inv { s with gate := g } := by
  rcases s with ⟨⟨paused, ack, host⟩, proxy⟩
  -- Each call keeps the line of `Inv` for the place it leads to.
  cases a with
  | pause =>
      cases host <;> simp only [Gate.hostStep, reduceCtorEq, if_true, if_false] at hstep
      rw [← Option.some.inj hstep]
      cases paused with
      | true => exact fun _ => h.2
      -- A proxy that runs has not acknowledged, so `pause` waits.
      | false => exact fun hack => absurd (h.1.symm.trans hack) (by decide)
  | acked =>
      cases host <;> simp only [Gate.hostStep, reduceCtorEq, if_false, false_and, true_and] at hstep
      split at hstep
      · rename_i hack
        rw [← Option.some.inj hstep]
        cases paused with
        | true => exact ⟨hack, h hack⟩
        -- While `pause` waits, `paused_` is set.
        | false => exact absurd h id
      · exact absurd hstep (by simp only [reduceCtorEq, not_false_eq_true])
  | resume =>
      cases host <;> simp only [Gate.hostStep, reduceCtorEq, if_true, if_false] at hstep
      rw [← Option.some.inj hstep]
      cases paused with
      | true => exact ⟨rfl, h.2⟩
      | false => exact ⟨rfl, h.2⟩
  | unpause =>
      cases host <;> simp only [Gate.hostStep, reduceCtorEq, if_true, if_false] at hstep
      rw [← Option.some.inj hstep]
      cases paused with
      -- The proxy is left in the inner loop, from where it clears the acknowledgement.
      | true => exact ⟨h.1, by rw [h.2]; decide⟩
      | false => exact h

theorem inv_proxyStep {s : State} (h : Inv s) : Inv (proxyStep s) := by
  rcases s with ⟨⟨paused, ack, host⟩, proxy⟩
  -- Where the host is and where the proxy is: each pair is one line of `Inv`.
  cases paused with
  | true =>
      cases host <;> cases proxy <;>
        simp_all only [Inv, proxyStep, if_true, reduceCtorEq, and_false, imp_false,
          not_false_eq_true, and_true, implies_true]
  | false =>
      cases host <;> cases proxy <;>
        simp_all only [Inv, proxyStep, if_false, reduceCtorEq, ne_eq, not_true_eq_false, and_false,
          not_false_eq_true, and_true, Bool.false_eq_true]

theorem step_inv {s t : State} (h : Inv s) {a : Action} (hstep : step s a = some t) : Inv t := by
  cases a with
  | host a =>
      rcases Option.map_eq_some_iff.mp hstep with ⟨g, hg, rfl⟩
      exact inv_hostStep h hg
  | proxy =>
      rw [← Option.some.inj hstep]
      exact inv_proxyStep h

theorem inv_of_reaches {ok : State → Action → Prop} {s : State} (h : Reaches step ok init s) :
    Inv s :=
  invariant_of_reaches Inv (fun _ _ _ hi _ hstep => step_inv hi hstep) h inv_init

/-- While the host has the proxy stopped, the proxy is in the inner loop. -/
theorem Inv.spin_of_stopped {s : State} (h : Inv s) (hs : s.gate.Stopped) : s.proxy = .spin := by
  unfold Inv at h
  rw [hs.1, hs.2] at h
  exact h.2

/-- When `pause` returns, the host has the proxy stopped. -/
theorem stopped_of_acked {s : State} (h : Inv s) {g : Gate}
    (hg : s.gate.hostStep .acked = some g) : g.Stopped := by
  simp only [Gate.hostStep, Option.ite_none_right_eq_some, Option.some.injEq] at hg
  rcases hg with ⟨⟨hwait, hack⟩, rfl⟩
  refine ⟨rfl, ?_⟩
  cases hp : s.gate.paused with
  | true => rfl
  | false => simp only [Inv, hwait, hp] at h

/-- The proxy comes into the inner loop from the acknowledgement. -/
theorem proxy_of_spin {s : State} (h : (proxyStep s).proxy = .spin) :
    s.proxy = .ackStore ∨ s.proxy = .spin := by
  rcases s with ⟨gate, proxy⟩
  cases proxy with
  | ackStore => exact Or.inl rfl
  | spin => exact Or.inr rfl
  | check =>
      simp only [proxyStep] at h
      split at h <;> exact absurd h (by simp only [reduceCtorEq, not_false_eq_true])
  | body | ackClear => exact absurd h (by simp only [proxyStep, reduceCtorEq, not_false_eq_true])

/-- A step leads into a deadlock exactly when it pauses a proxy that is still
    in the inner loop of the pause before. -/
theorem deadlocked_iff {s t : State} (h : Inv s) {a : Action} (hstep : step s a = some t)
    (hs : ¬ Deadlocked s) :
    Deadlocked t ↔ a = .host .pause ∧ s.gate.paused = false ∧ s.proxy = .spin := by
  rcases s with ⟨⟨paused, ack, host⟩, proxy⟩
  cases a with
  | host a =>
      rcases Option.map_eq_some_iff.mp hstep with ⟨g, hg, rfl⟩
      cases a <;> cases host <;>
        simp only [Gate.hostStep, reduceCtorEq, if_true, if_false, false_and, true_and,
          Option.ite_none_right_eq_some, Option.some.injEq] at hg
      · -- `pause` from between two calls.
        rw [← hg]
        cases paused <;> simp_all [Deadlocked, Inv]
      · rw [← hg.2]
        simp [Deadlocked]
      · rw [← hg]
        simp [Deadlocked]
      · rw [← hg]
        simp [Deadlocked]
  | proxy =>
      rw [← Option.some.inj hstep]
      simp only [reduceCtorEq, false_and, iff_false]
      rintro ⟨h1, h2, h3⟩
      -- Only the inner loop itself leads there, and it leaves the flags alone.
      cases proxy with
      | body => exact absurd h3 (by simp only [proxyStep, reduceCtorEq, not_false_eq_true])
      | check =>
          simp only [proxyStep] at h3
          split at h3 <;> exact absurd h3 (by simp only [reduceCtorEq, not_false_eq_true])
      | ackStore => exact absurd h2 (by simp only [proxyStep, reduceCtorEq, not_false_eq_true])
      | spin =>
          simp only [proxyStep] at h1 h2 h3
          split at h3
          · rename_i hp
            rw [if_pos hp] at h1 h2
            exact hs ⟨h1, h2, rfl⟩
          · exact absurd h3 (by simp only [reduceCtorEq, not_false_eq_true])
      | ackClear => exact absurd h3 (by simp only [proxyStep, reduceCtorEq, not_false_eq_true])

/-- Neither side can leave a deadlock: every step that is possible changes
    nothing. -/
theorem deadlocked_stays {s t : State} (h : Inv s) (hs : Deadlocked s) {a : Action}
    (hstep : step s a = some t) : t = s := by
  rcases s with ⟨⟨paused, ack, host⟩, proxy⟩
  rcases hs with ⟨h1, h2, h3⟩
  simp only at h1 h2 h3
  subst h1 h2 h3
  cases paused with
  | false => exact absurd h id
  | true =>
      cases a with
      -- The host can only wait: the acknowledgement it waits for is clear.
      | host a => cases a <;> simp [step, Gate.hostStep] at hstep
      | proxy => exact (Option.some.inj hstep).symm

/-- In every run that pauses only proxies out of the inner loop, the two sides
    never wait for each other. -/
theorem not_deadlocked_of_reaches {s : State} (h : Reaches step LeftInnerLoop init s) :
    ¬ Deadlocked s := by
  have hinv : Inv s ∧ ¬ Deadlocked s := by
    refine invariant_of_reaches (fun s => Inv s ∧ ¬ Deadlocked s) ?_ h ⟨inv_init, by decide⟩
    rintro s a t ⟨hi, hd⟩ hok hstep
    refine ⟨step_inv hi hstep, fun hdt => ?_⟩
    rcases (deadlocked_iff hi hstep hd).mp hdt with ⟨rfl, hp, hspin⟩
    exact hok hp hspin
  exact hinv.2

section Follows

variable {σ ι : Type*} {machine : σ → ι → Option σ} {view : σ → State}
  {stands : ι → Option Action}

/-- A machine follows the handshake when each of its actions either is the
    action of the handshake it stands for, or is no host's action and leaves
    the view of the handshake alone. -/
def Follows (machine : σ → ι → Option σ) (view : σ → State) (stands : ι → Option Action) : Prop :=
  ∀ x i y, machine x i = some y →
    (view y = view x ∧ ∀ a, stands i ≠ some (.host a)) ∨
      ∃ a, stands i = some a ∧ step (view x) a = some (view y)

theorem not_host_of_none {o : Option Action} (h : o = none) (a : HostAction) :
    o ≠ some (.host a) := by
  rw [h]
  exact (Option.some_ne_none _).symm

theorem not_host_of_proxy {o : Option Action} (h : o = some .proxy) (a : HostAction) :
    o ≠ some (.host a) := by
  rw [h]
  simp only [ne_eq, Option.some.injEq, reduceCtorEq, not_false_eq_true]

/-- The proxy is out of the inner loop when the machine's action pauses it. -/
def PausesLeft (view : σ → State) (stands : ι → Option Action) (x : σ) (i : ι) : Prop :=
  ∀ a ∈ stands i, LeftInnerLoop (view x) a

instance (x : σ) (i : ι) : Decidable (PausesLeft view stands x i) := by
  unfold PausesLeft
  infer_instance

/-- One action of the machine keeps what the flags say. -/
theorem Follows.step_inv (hf : Follows machine view stands) {x y : σ} {i : ι} (h : Inv (view x))
    (hstep : machine x i = some y) : Inv (view y) := by
  rcases hf x i y hstep with ⟨heq, -⟩ | ⟨a, -, hs⟩
  · rw [heq]
    exact h
  · exact Handshake.step_inv h hs

/-- What the flags say, in every state of the machine. -/
theorem Follows.inv_of_reaches (hf : Follows machine view stands) {ok : σ → ι → Prop} {x y : σ}
    (hx : view x = init) (h : Reaches machine ok x y) : Inv (view y) :=
  invariant_of_reaches (fun x => Inv (view x)) (fun _ _ _ hi _ hs => hf.step_inv hi hs) h
    (hx ▸ inv_init)

/-- A run of the machine is a run of the handshake. -/
theorem Follows.reaches (hf : Follows machine view stands) {x y : σ}
    (h : Reaches machine (PausesLeft view stands) x y) :
    Reaches step LeftInnerLoop (view x) (view y) := by
  refine reaches_map view (fun u i v hi hstep => ?_) h
  rcases hf u i v hstep with ⟨heq, -⟩ | ⟨a, ha, hs⟩
  · rw [heq]
    exact reaches_refl _ _ _
  · exact reaches_step (reaches_refl _ _ _) a (hi a ha) hs

/-- An action of the machine leads into a deadlock exactly when it pauses a
    proxy that is still in the inner loop. -/
theorem Follows.deadlocked_iff (hf : Follows machine view stands) {x y : σ} {i : ι}
    (h : Inv (view x)) (hstep : machine x i = some y) (hd : ¬ Deadlocked (view x)) :
    Deadlocked (view y) ↔ ¬ PausesLeft view stands x i := by
  rcases hf x i y hstep with ⟨heq, hnone⟩ | ⟨a, ha, hs⟩
  · rw [heq]
    -- The view is unchanged, and the action is no call of the host.
    refine iff_of_false hd (not_not.mpr fun a ha => ?_)
    cases a with
    | host b => exact absurd ha (hnone b)
    | proxy => trivial
  · rw [Handshake.deadlocked_iff h hs hd]
    constructor
    · rintro ⟨rfl, hp, hspin⟩ hleft
      exact hleft _ ha hp hspin
    · intro hleft
      by_contra hc
      refine hleft fun b hb => ?_
      -- The action stands for one action of the handshake, so there is one to look at.
      have hba : b = a := Option.some.inj (hb.symm.trans ha)
      rw [hba]
      cases a with
      | host c =>
          cases c with
          | pause => exact fun hp hspin => hc ⟨rfl, hp, hspin⟩
          | _ => trivial
      | proxy => trivial

end Follows

end Handshake

end Internode

end MKernel
