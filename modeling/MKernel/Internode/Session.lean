import Mathlib.Logic.Function.Basic
import MKernel.Internode.Fifo
import MKernel.Internode.Handshake

/-!
# Preparing an Epoch

`prepare_epoch` of a session, run by one host thread beside all the proxies.

The host reads the head of a FIFO for each proxy thread, then goes round the
proxies until each has read its FIFO up to there and has nothing in flight, or
gives up after 50000 rounds. Then it pauses the proxies one after the other,
drains their completion queues and resets their counters. Each load the host
makes is a step of its own, and between any two of them anybody may act.

Both backends have this function, and they differ in little. One drains and
resets proxy by proxy, the other drains all proxies and then resets all; one
can be told by an environment variable to leave parts out. `Plan` holds these
differences, and `Api` is what the host sees of a proxy and can do to it.

What the host knows when it is done follows from what a proxy promises
(`Api.Lawful`) and from nothing else about proxies: the proxies are stopped with
empty counters, and each FIFO the host has looked at was read up to where it
stood when the call began (`prepared_of_reaches`). What that says about
commands is up to the proxies. Here every run of the session is a run of each of
its proxies (`reaches_proxy`).

Of the session's state, `pushed` is a record the code does not keep: what each
FIFO held when the call began.

The other calls of the host come between two calls of `prepare_epoch`, in any
order. A call that consists of several steps may there be interleaved with
others, which only adds runs.

## Main definitions

* `Api`, `Api.Lawful`: A proxy as its host sees it.
* `Api.over`: The same proxy with something recorded beside it.
* `Plan`: The proxies of a session and its ways to prepare an epoch.
* `HostPc`: Where the host is in `prepare_epoch`.
* `effect`, `step`: One action of anybody.
* `Permits`: A condition on what is done to each proxy.
* `SeesAll`: The host leaves out no FIFO and no step.
* `Site`: What the host knows at each place.

## Theorems

* `reaches_proxy`: A run of the session is a run of each proxy.
* `hostEffect_site`, `step_site`: What one action leaves of what the host knows.
* `prepared_of_reaches`: What the host knows at the end.
-/

namespace MKernel

namespace Internode

namespace Session

open MKernel.Core

variable {σ ι : Type*}

/-- A proxy as the host of its session sees it. -/
structure Api (σ ι : Type*) where
  step : σ → ι → Option σ
  init : σ
  fifo : Nat → σ → Fifo
  inflight : σ → Int
  gate : σ → Handshake.Gate
  /-- A load or store of `pause` or `resume`. -/
  host : Handshake.HostAction → ι
  /-- One turn of the loop in `drain_cq`. -/
  drainCq : Nat → ι
  resetInflight : ι
  byHost : ι → Bool
  byThread : ι → Bool

/-- A proxy with something recorded beside it. -/
def Api.over {τ : Type*} (api : Api σ ι) (proxy : τ → σ) (step : τ → ι → Option τ) (init : τ) :
    Api τ ι where
  step := step
  init := init
  fifo := fun k x => api.fifo k (proxy x)
  inflight := fun x => api.inflight (proxy x)
  gate := fun x => api.gate (proxy x)
  host := api.host
  drainCq := api.drainCq
  resetInflight := api.resetInflight
  byHost := api.byHost
  byThread := api.byThread

/-- What a host relies on. Nobody but the host resets a FIFO, moves the gate of
    a stopped proxy or touches its counter. -/
structure Api.Lawful (api : Api σ ι) : Prop where
  later : ∀ {x i y}, api.byHost i = false → api.step x i = some y →
    ∀ k, Fifo.Later (api.fifo k x) (api.fifo k y)
  stopped : ∀ {x i y}, Reaches api.step always api.init x → (api.gate x).Stopped →
    api.byHost i = false → api.step x i = some y →
    (api.gate y).Stopped ∧ api.inflight y = api.inflight x
  acked : ∀ {x y}, Reaches api.step always api.init x → api.step x (api.host .acked) = some y →
    (api.gate y).Stopped
  fifo_host : ∀ {x a y}, api.step x (api.host a) = some y → ∀ k, api.fifo k y = api.fifo k x
  drain : ∀ {x ne y}, api.step x (api.drainCq ne) = some y →
    api.gate y = api.gate x ∧ ∀ k, api.fifo k y = api.fifo k x
  reset : ∀ {x y}, api.step x api.resetInflight = some y →
    api.gate y = api.gate x ∧ api.inflight y ≤ 0 ∧ ∀ k, api.fifo k y = api.fifo k x

/-- The proxies of a session, and how it prepares an epoch: whether the drained
    proxies are all reset at the end, and whether `MKERNEL_PREP_EPOCH_FAST` is
    read. -/
structure Plan (σ ι : Type*) where
  api : Nat → Api σ ι
  numProxyThreads : Nat
  numFifos : Nat
  /-- The proxy that reads a FIFO. -/
  owner : Nat → Nat
  resetsTogether : Bool
  readsFast : Bool

/-- Where the host is in `prepare_epoch`. -/
inductive HostPc where
  /-- Between two calls. -/
  | ready
  /-- Inside `drain_proxy`, before reading the head of a FIFO. -/
  | readHead (t : Nat)
  /-- In a round of `drain_proxy`, before comparing `cpu_head` of a FIFO. -/
  | checkHead (round t : Nat)
  /-- In a round, before loading the counter of a proxy. -/
  | checkInflight (round t : Nat)
  /-- Before calling `pause` on a proxy. -/
  | pause (t : Nat)
  /-- Inside `pause`. -/
  | waitAck (t : Nat)
  /-- In `drain_cq` of a proxy. -/
  | drainCq (t : Nat)
  /-- Before resetting the counter of a proxy. -/
  | resetInflight (t : Nat)
  /-- `prepare_epoch` has returned. -/
  | prepared
  deriving DecidableEq, Repr

/-- What the host thread holds: its place, the fast level, the heads it has
    read, what the FIFOs held when the call began, and whether `drain_proxy` has
    found everything drained. -/
structure Host where
  pc : HostPc
  fast : Nat
  heads : Nat → Nat
  pushed : Nat → List TransferCmd
  drained : Bool

/-- A session: its proxies and its host thread. -/
structure State (σ : Type*) where
  proxies : Nat → σ
  host : Host

inductive Action (ι : Type*) where
  /-- An action of one proxy, its device, its peers, or another call of the host. -/
  | at (t : Nat) (i : ι)
  /-- The host calls `prepare_epoch`, with `MKERNEL_PREP_EPOCH_FAST` set so. -/
  | prepareEpoch (fast : Nat)
  /-- The host goes on, with the answer of `ibv_poll_cq`. -/
  | host (ne : Nat)
  /-- The host goes on after the call. -/
  | leave

namespace Plan

variable (plan : Plan σ ι)

/-- A session that was just created. -/
def init : State σ where
  proxies := fun t => (plan.api t).init
  host := ⟨.ready, 0, fun _ => 0, fun _ => [], false⟩

/-- A FIFO of the session. -/
def fifo (s : State σ) (k : Nat) : Fifo :=
  (plan.api (plan.owner k)).fifo k (s.proxies (plan.owner k))

/-- The counter of a proxy. -/
def inflight (s : State σ) (t : Nat) : Int := (plan.api t).inflight (s.proxies t)

/-- Whether the host has a proxy stopped. -/
def Stopped (s : State σ) (t : Nat) : Prop := ((plan.api t).gate (s.proxies t)).Stopped

end Plan

/-- Where `prepare_epoch` goes on after `drain_proxy`. -/
def afterDrain (fast : Nat) : HostPc := if fast < 2 then .pause 0 else .prepared

/-- A round of `drain_proxy` that found something left to do. -/
def Host.retry (h : Host) (round : Nat) : Host :=
  { h with pc := if round + 1 < 50000 then .checkHead (round + 1) 0 else afterDrain h.fast }

/-- What the host does next: to one proxy, if to any, and to what it holds. -/
def hostEffect (plan : Plan σ ι) (s : State σ) (ne : Nat) : Option (Option (Nat × ι) × Host) :=
  let h := s.host
  match h.pc with
  | .ready => none
  | .readHead t =>
      if t < plan.numProxyThreads then
        some (none, { h with
          heads := Function.update h.heads t (plan.fifo s t).head
          pc := .readHead (t + 1) })
      else some (none, { h with pc := .checkHead 0 0 })
  | .checkHead round t =>
      if t < plan.numProxyThreads then
        -- One FIFO behind its head, or one counter not zero, ends the round.
        if (plan.fifo s t).hostHead < h.heads t then some (none, h.retry round)
        else some (none, { h with pc := .checkInflight round t })
      -- A round that got through all proxies ends `drain_proxy`.
      else some (none, { h with drained := true, pc := afterDrain h.fast })
  | .checkInflight round t =>
      if plan.inflight s t ≠ 0 then some (none, h.retry round)
      else some (none, { h with pc := .checkHead round (t + 1) })
  | .pause t =>
      if t < plan.numProxyThreads then
        some (some (t, (plan.api t).host .pause), { h with pc := .waitAck t })
      else some (none, { h with pc := .drainCq 0 })
  -- Impossible until the proxy has acknowledged: the host waits.
  | .waitAck t => some (some (t, (plan.api t).host .acked), { h with pc := .pause (t + 1) })
  | .drainCq t =>
      if t < plan.numProxyThreads then
        if 0 < plan.inflight s t then some (some (t, (plan.api t).drainCq ne), h)
        else some (none, { h with
          pc := if plan.resetsTogether then .drainCq (t + 1) else .resetInflight t })
      else some (none, { h with pc := if plan.resetsTogether then .resetInflight 0 else .prepared })
  | .resetInflight t =>
      if t < plan.numProxyThreads then
        some (some (t, (plan.api t).resetInflight), { h with
          pc := if plan.resetsTogether then .resetInflight (t + 1) else .drainCq (t + 1) })
      else some (none, { h with pc := .prepared })
  | .prepared => none

/-- What an action does: to one proxy, if to any, and to what the host holds.
    The threads are those of the session, and the host's other calls come
    between two calls of `prepare_epoch`. -/
def effect (plan : Plan σ ι) (s : State σ) : Action ι → Option (Option (Nat × ι) × Host)
  | .at t i =>
      if ((plan.api t).byHost i = true → s.host.pc = .ready) ∧
          ((plan.api t).byThread i = true → t < plan.numProxyThreads) then
        some (some (t, i), s.host)
      else none
  | .prepareEpoch fast =>
      if s.host.pc = .ready then
        -- Level 2 leaves out the pauses, level 3 the drain as well.
        let fast := if plan.readsFast then fast else 0
        some (none,
          { pc := if fast < 3 then .readHead 0 else afterDrain fast
            fast := fast
            heads := fun _ => 0
            pushed := fun k => (plan.fifo s k).claimed
            drained := false })
      else none
  | .host ne => hostEffect plan s ne
  | .leave => if s.host.pc = .prepared then some (none, { s.host with pc := .ready }) else none

/-- Do an effect. -/
def apply (plan : Plan σ ι) (s : State σ) : Option (Nat × ι) × Host → Option (State σ)
  | (none, h) => some { s with host := h }
  | (some (t, i), h) =>
      ((plan.api t).step (s.proxies t) i).map fun x =>
        { proxies := Function.update s.proxies t x, host := h }

/-- One action of anybody. -/
def step (plan : Plan σ ι) (s : State σ) (a : Action ι) : Option (State σ) :=
  (effect plan s a).bind (apply plan s)

/-- A condition on what is done to each proxy. -/
def Permits (plan : Plan σ ι) (okP : Nat → σ → ι → Prop) (s : State σ) (a : Action ι) : Prop :=
  ∀ t i h, effect plan s a = some (some (t, i), h) → okP t (s.proxies t) i

instance (plan : Plan σ ι) (okP : Nat → σ → ι → Prop) [∀ t x i, Decidable (okP t x i)] :
    ∀ (s : State σ) (a : Action ι), Decidable (Permits plan okP s a) := fun s a =>
  -- At most one proxy is touched, so there is at most one condition to decide.
  match he : effect plan s a with
  | none => isTrue fun t i h heq => absurd (he.symm.trans heq)
      (by simp only [reduceCtorEq, not_false_eq_true])
  | some (none, _) => isTrue fun t i h heq => absurd (he.symm.trans heq)
      (by simp only [Option.some.injEq, Prod.mk.injEq, reduceCtorEq, false_and, not_false_eq_true])
  | some (some (t, i), h) => decidable_of_iff (okP t (s.proxies t) i)
      ⟨fun hok u j g heq => by
          have hsame := he.symm.trans heq
          simp only [Option.some.injEq, Prod.mk.injEq] at hsame
          rw [← hsame.1.1, ← hsame.1.2]
          exact hok,
        fun hok => hok t i h he⟩

/-- The host is not told to leave out a step, and when it finds everything
    drained, the FIFOs it has not looked at have been read too, as far as they
    were filled when the call began. -/
def SeesAll (plan : Plan σ ι) (s : State σ) : Action ι → Prop
  | .prepareEpoch fast => plan.readsFast = true → fast < 2
  | .host _ =>
      match s.host.pc with
      | .checkHead _ t => plan.numProxyThreads ≤ t → ∀ k < plan.numFifos,
          plan.numProxyThreads ≤ k → (s.host.pushed k).length ≤ (plan.fifo s k).cpuHead
      | _ => True
  | _ => True

section Run

variable {plan : Plan σ ι} {s s' : State σ}

/-- What one action does to the proxies. -/
theorem proxies_of_step {a : Action ι} (hstep : step plan s a = some s') :
    ∃ o h, effect plan s a = some (o, h) ∧ s'.host = h ∧
      ((o = none ∧ s'.proxies = s.proxies) ∨ ∃ t i x, o = some (t, i) ∧
        (plan.api t).step (s.proxies t) i = some x ∧
        s'.proxies = Function.update s.proxies t x) := by
  -- An effect touches one proxy or none.
  rcases Option.bind_eq_some_iff.mp hstep with ⟨⟨o, h⟩, he, happ⟩
  cases o with
  | none =>
      rw [← Option.some.inj happ]
      exact ⟨none, h, he, rfl, Or.inl ⟨rfl, rfl⟩⟩
  | some ti =>
      rcases ti with ⟨t, i⟩
      rcases Option.map_eq_some_iff.mp happ with ⟨x, hx, rfl⟩
      exact ⟨_, h, he, rfl, Or.inr ⟨t, i, x, rfl, hx, rfl⟩⟩

/-- One action is at most one action of each proxy. -/
theorem reaches_of_step {okP : Nat → σ → ι → Prop} {a : Action ι} (hok : Permits plan okP s a)
    (hstep : step plan s a = some s') (t : Nat) :
    Reaches (plan.api t).step (okP t) (s.proxies t) (s'.proxies t) := by
  rcases proxies_of_step hstep with ⟨o, host, he, -, ⟨-, hsame⟩ | ⟨r, i, x, rfl, hx, hupd⟩⟩
  · rw [hsame]
    exact reaches_refl _ _ _
  · rw [hupd]
    by_cases hr : r = t
    · rw [← hr, Function.update_self]
      exact reaches_step (reaches_refl _ _ _) i (hok r i host he) hx
    · rw [Function.update_of_ne (Ne.symm hr)]
      exact reaches_refl _ _ _

/-- A run of the session is a run of each of its proxies. -/
theorem reaches_proxy {ok : State σ → Action ι → Prop} {okP : Nat → σ → ι → Prop}
    (hok : ∀ s a, ok s a → Permits plan okP s a) (h : Reaches (step plan) ok plan.init s)
    (t : Nat) :
    Reaches (plan.api t).step (okP t) (plan.api t).init (s.proxies t) :=
  reaches_map (fun s : State σ => s.proxies t)
    (fun u a _ hu hstep => reaches_of_step (hok u a hu) hstep t) h

/-- Every FIFO still holds what it held when the call began, and the host was not
    told to leave out a step. -/
structure Kept (plan : Plan σ ι) (s : State σ) : Prop where
  pushed : ∀ k, s.host.pushed k <+: (plan.fifo s k).claimed
  fast : s.host.fast < 2

/-- The host has read the head of a FIFO since the call began. -/
def HeadRead (plan : Plan σ ι) (s : State σ) (k : Nat) : Prop :=
  (s.host.pushed k).length ≤ s.host.heads k + (plan.fifo s k).base

/-- A FIFO was read up to where it stood when the call began. -/
def ReadUp (plan : Plan σ ι) (s : State σ) (k : Nat) : Prop :=
  (s.host.pushed k).length ≤ (plan.fifo s k).cpuHead

/-- If `drain_proxy` has found everything drained, every FIFO was read up to where
    it stood when the call began. -/
def AllRead (plan : Plan σ ι) (s : State σ) : Prop :=
  s.host.drained = true → ∀ k < plan.numFifos, ReadUp plan s k

/-- What the host knows at each place of `prepare_epoch`. -/
def Site (plan : Plan σ ι) (s : State σ) : Prop :=
  match s.host.pc with
  | .ready => True
  | .readHead t => Kept plan s ∧ s.host.drained = false ∧ ∀ k < t, HeadRead plan s k
  | .checkHead _ t => Kept plan s ∧ s.host.drained = false ∧
      (∀ k < plan.numProxyThreads, HeadRead plan s k) ∧ ∀ k < t, ReadUp plan s k
  | .checkInflight _ t => Kept plan s ∧ s.host.drained = false ∧
      (∀ k < plan.numProxyThreads, HeadRead plan s k) ∧ ∀ k < t + 1, ReadUp plan s k
  | .pause t => Kept plan s ∧ AllRead plan s ∧ ∀ u < t, plan.Stopped s u
  | .waitAck t => Kept plan s ∧ AllRead plan s ∧ ∀ u < t, plan.Stopped s u
  | .drainCq t => Kept plan s ∧ AllRead plan s ∧ ∀ u < plan.numProxyThreads,
      plan.Stopped s u ∧ (u < t → plan.inflight s u ≤ 0)
  | .resetInflight t => Kept plan s ∧ AllRead plan s ∧ ∀ u < plan.numProxyThreads,
      plan.Stopped s u ∧ (plan.resetsTogether = true ∨ u < t → plan.inflight s u ≤ 0)
  | .prepared => Kept plan s ∧ AllRead plan s ∧ ∀ u < plan.numProxyThreads,
      plan.Stopped s u ∧ plan.inflight s u ≤ 0

/-- FIFOs that were not reset, and stopped proxies that stayed as they were. -/
structure Onward (plan : Plan σ ι) (s s' : State σ) : Prop where
  later : ∀ k, Fifo.Later (plan.fifo s k) (plan.fifo s' k)
  stopped : ∀ u, plan.Stopped s u → plan.Stopped s' u ∧ plan.inflight s' u = plan.inflight s u

/-- What only the host holds may change. -/
theorem later_self (s : State σ) (k : Nat) : Fifo.Later (plan.fifo s k) (plan.fifo s k) :=
  Fifo.later_refl _

section Later

variable (hl : ∀ k, Fifo.Later (plan.fifo s k) (plan.fifo s' k))
include hl

theorem Kept.later (h : Kept plan s) (hp : s'.host.pushed = s.host.pushed)
    (hf : s'.host.fast = s.host.fast) : Kept plan s' where
  pushed := fun k => by
    rw [hp]
    exact (h.pushed k).trans (hl k).claimed
  fast := by
    rw [hf]
    exact h.fast

theorem HeadRead.later {k : Nat} (h : HeadRead plan s k) (hp : s'.host.pushed = s.host.pushed)
    (hh : s'.host.heads k = s.host.heads k) : HeadRead plan s' k := by
  rw [HeadRead, hp, hh, (hl k).base]
  exact h

theorem ReadUp.later {k : Nat} (h : ReadUp plan s k) (hp : s'.host.pushed = s.host.pushed) :
    ReadUp plan s' k := by
  have hle := (hl k).cpuHead
  rw [ReadUp] at h ⊢
  rw [hp]
  omega

theorem AllRead.later (h : AllRead plan s) (hp : s'.host.pushed = s.host.pushed)
    (hd : s'.host.drained = s.host.drained) : AllRead plan s' :=
  fun ht k hk => ReadUp.later hl (h (hd ▸ ht) k hk) hp

end Later

/-- Actions of others leave what the host knows. -/
theorem Site.onward (h : Site plan s) (ho : Onward plan s s') (hh : s'.host = s.host) :
    Site plan s' := by
  have hp : s'.host.pushed = s.host.pushed := by rw [hh]
  have hf : s'.host.fast = s.host.fast := by rw [hh]
  have hd : s'.host.drained = s.host.drained := by rw [hh]
  have hheads : ∀ k, s'.host.heads k = s.host.heads k := fun k => by rw [hh]
  -- A proxy that has stopped stays so, and completes nothing more.
  have hstop : ∀ u, plan.Stopped s u → plan.Stopped s' u := fun u hu => (ho.stopped u hu).1
  have hzero : ∀ u, plan.Stopped s u → plan.inflight s u ≤ 0 → plan.inflight s' u ≤ 0 :=
    fun u hu hle => by rw [(ho.stopped u hu).2]; exact hle
  unfold Site at h ⊢
  -- What the host knows depends on where it is in `quiesce`, and only grows with a step of
  -- others.
  rw [hh]
  cases hpc : s.host.pc with
  | ready => trivial
  | readHead t =>
      rw [hpc] at h
      rcases h with ⟨hk, hnd, hr⟩
      refine ⟨hk.later ho.later hp hf, hh ▸ hnd, fun k hk => (hr k hk).later ho.later hp (hheads k)⟩
  | checkHead round t | checkInflight round t =>
      rw [hpc] at h
      rcases h with ⟨hk, hnd, hr, hu⟩
      exact ⟨hk.later ho.later hp hf, hh ▸ hnd, fun k hk => (hr k hk).later ho.later hp (hheads k),
        fun k hk => (hu k hk).later ho.later hp⟩
  | pause t | waitAck t =>
      rw [hpc] at h
      rcases h with ⟨hk, ha, hs⟩
      exact ⟨hk.later ho.later hp hf, ha.later ho.later hp hd, fun u hu => hstop u (hs u hu)⟩
  | drainCq t | resetInflight t =>
      rw [hpc] at h
      rcases h with ⟨hk, ha, hs⟩
      exact ⟨hk.later ho.later hp hf, ha.later ho.later hp hd, fun u hu => ⟨hstop u (hs u hu).1,
        fun ht => hzero u (hs u hu).1 ((hs u hu).2 ht)⟩⟩
  | prepared =>
      rw [hpc] at h
      rcases h with ⟨hk, ha, hs⟩
      exact ⟨hk.later ho.later hp hf, ha.later ho.later hp hd,
        fun u hu => ⟨hstop u (hs u hu).1, hzero u (hs u hu).1 (hs u hu).2⟩⟩

/-- An action of one proxy that the host has no part in. -/
theorem onward_of_proxy (hl : ∀ t, (plan.api t).Lawful) {t : Nat} {i : ι} {x : σ}
    (hr : Reaches (plan.api t).step always (plan.api t).init (s.proxies t))
    (hi : (plan.api t).byHost i = false) (hx : (plan.api t).step (s.proxies t) i = some x)
    (hp : s'.proxies = Function.update s.proxies t x) : Onward plan s s' := by
  refine ⟨fun k => ?_, fun u hu => ?_⟩
  · rw [Plan.fifo, Plan.fifo, hp]
    by_cases ht : plan.owner k = t
    · rw [ht, Function.update_self]
      exact (hl t).later hi hx k
    · rw [Function.update_of_ne ht]
      exact Fifo.later_refl _
  · rw [Plan.Stopped, Plan.inflight, Plan.inflight, hp]
    by_cases ht : u = t
    · rw [Plan.Stopped, ht] at hu
      rw [ht, Function.update_self]
      exact (hl t).stopped hr hu hi hx
    · rw [Function.update_of_ne ht]
      exact ⟨hu, rfl⟩

/-- The host acts on one proxy, and leaves its FIFOs alone. -/
structure Touches (plan : Plan σ ι) (s s' : State σ) (t : Nat) : Prop where
  later : ∀ k, Fifo.Later (plan.fifo s k) (plan.fifo s' k)
  others : ∀ u, u ≠ t → (plan.Stopped s u → plan.Stopped s' u) ∧
    plan.inflight s' u = plan.inflight s u

theorem touches_of_update {t : Nat} {x : σ} (hp : s'.proxies = Function.update s.proxies t x)
    (hx : ∀ k, (plan.api t).fifo k x = (plan.api t).fifo k (s.proxies t)) :
    Touches plan s s' t := by
  refine ⟨fun k => ?_, fun u hu => ?_⟩
  · rw [Plan.fifo, Plan.fifo, hp]
    by_cases ht : plan.owner k = t
    · rw [ht, Function.update_self, hx k]
      exact Fifo.later_refl _
    · rw [Function.update_of_ne ht]
      exact Fifo.later_refl _
  · rw [Plan.Stopped, Plan.Stopped, Plan.inflight, Plan.inflight, hp, Function.update_of_ne hu]
    exact ⟨id, rfl⟩

/-- A proxy the host has stopped, and acts on without moving the gate. -/
theorem stopped_of_update {t : Nat} {x : σ} (hp : s'.proxies = Function.update s.proxies t x)
    (hgate : (plan.api t).gate x = (plan.api t).gate (s.proxies t)) (hs : plan.Stopped s t) :
    plan.Stopped s' t := by
  rw [Plan.Stopped] at hs ⊢
  rw [hp, Function.update_self, hgate]
  exact hs

/-- What the host knows when it comes to the pauses. -/
theorem afterDrain_site (hk : Kept plan s) (ha : AllRead plan s)
    (hpc : s.host.pc = afterDrain s.host.fast) : Site plan s := by
  rw [afterDrain, if_pos hk.fast] at hpc
  unfold Site
  rw [hpc]
  exact ⟨hk, ha, fun u hu => absurd hu (Nat.not_lt_zero u)⟩

/-- Another round knows what the last one knew when it began. -/
theorem retry_site (round : Nat) (hk : Kept plan s) (hnd : s.host.drained = false)
    (hread : ∀ k < plan.numProxyThreads, HeadRead plan s k) :
    Site plan { s with host := s.host.retry round } := by
  unfold Host.retry
  split
  · unfold Site
    exact ⟨hk.later (later_self s) rfl rfl, hnd,
      fun k hlt => (hread k hlt).later (later_self s) rfl rfl,
      fun k hlt => absurd hlt (Nat.not_lt_zero k)⟩
  · refine afterDrain_site (hk.later (later_self s) rfl rfl) (fun hd => ?_) rfl
    exact absurd (hnd.symm.trans hd) Bool.false_ne_true

section HostSteps

variable (hs : Site plan s) {ne : Nat} (hstep : step plan s (.host ne) = some s')
include hs hstep

/-- The host reads the head of a FIFO, or has read them all. -/
theorem readHead_site {t : Nat} (hpc : s.host.pc = .readHead t) : Site plan s' := by
  simp only [step, effect, hostEffect, hpc] at hstep
  unfold Site at hs
  rw [hpc] at hs
  rcases hs with ⟨hk, hnd, hread⟩
  split at hstep <;> rw [← Option.some.inj hstep] <;> unfold Site
  · refine ⟨hk.later (later_self s) rfl rfl, hnd, fun k hlt => ?_⟩
    by_cases ht : k = t
    · -- The head counts what was claimed since the last reset.
      have hbase := Nat.le_trans (plan.fifo s t).base_le (plan.fifo s t).cpuHead_le_length
      have hlen := (hk.pushed t).length_le
      rw [ht, HeadRead]
      dsimp only
      rw [Function.update_self, Fifo.head]
      change _ ≤ _ + (plan.fifo s t).base
      omega
    · rw [HeadRead]
      dsimp only
      rw [Function.update_of_ne ht]
      exact hread k (by omega)
  · refine ⟨hk.later (later_self s) rfl rfl, hnd, fun k hlt => ?_,
      fun k hlt => absurd hlt (Nat.not_lt_zero k)⟩
    exact HeadRead.later (later_self s) (hread k (by omega)) rfl rfl

/-- The host compares `cpu_head` of a FIFO, or ends its round. -/
theorem checkHead_site (hok : SeesAll plan s (.host ne)) {round t : Nat}
    (hpc : s.host.pc = .checkHead round t) : Site plan s' := by
  simp only [step, effect, hostEffect, hpc] at hstep
  unfold Site at hs
  simp only [SeesAll, hpc] at hok
  rw [hpc] at hs
  rcases hs with ⟨hk, hnd, hread, hup⟩
  split at hstep
  · split at hstep <;> rw [← Option.some.inj hstep]
    · exact retry_site round hk hnd hread
    · rename_i ht hge
      unfold Site
      refine ⟨hk.later (later_self s) rfl rfl, hnd,
        fun k hlt => (hread k hlt).later (later_self s) rfl rfl,
        fun k hlt => ?_⟩
      by_cases hkt : k = t
      · -- The FIFO is read up to its head as it was read.
        have hbase := (plan.fifo s t).base_le
        have hhead := hread t ht
        rw [Fifo.hostHead] at hge
        rw [HeadRead] at hhead
        rw [hkt]
        change (s.host.pushed t).length ≤ (plan.fifo s t).cpuHead
        omega
      · exact ReadUp.later (later_self s) (hup k (by omega)) rfl
  · rename_i ht
    rw [← Option.some.inj hstep]
    refine afterDrain_site (hk.later (later_self s) rfl rfl) (fun _ k hlt => ?_) rfl
    by_cases hkt : k < t
    · exact ReadUp.later (later_self s) (hup k hkt) rfl
    · exact hok (Nat.not_lt.mp ht) k hlt (by omega)

/-- The host loads the counter of a proxy. -/
theorem checkInflight_site {round t : Nat} (hpc : s.host.pc = .checkInflight round t) :
    Site plan s' := by
  simp only [step, effect, hostEffect, hpc] at hstep
  unfold Site at hs
  rw [hpc] at hs
  rcases hs with ⟨hk, hnd, hread, hup⟩
  split at hstep <;> rw [← Option.some.inj hstep]
  · exact retry_site round hk hnd hread
  · unfold Site
    exact ⟨hk.later (later_self s) rfl rfl, hnd,
      fun k hlt => (hread k hlt).later (later_self s) rfl rfl,
      fun k hlt => (hup k hlt).later (later_self s) rfl⟩

/-- The host pauses a proxy, or has paused them all. -/
theorem pause_site (hl : ∀ t, (plan.api t).Lawful) {t : Nat} (hpc : s.host.pc = .pause t) :
    Site plan s' := by
  simp only [step, effect, hostEffect, hpc] at hstep
  unfold Site at hs
  rw [hpc] at hs
  rcases hs with ⟨hk, ha, hst⟩
  split at hstep
  · rcases Option.map_eq_some_iff.mp hstep with ⟨x, hx, rfl⟩
    -- Storing `paused_` does not touch the FIFOs of the proxy.
    have ht : Touches plan s
        ⟨Function.update s.proxies t x, { s.host with pc := .waitAck t }⟩ t :=
      touches_of_update rfl ((hl t).fifo_host hx)
    unfold Site
    exact ⟨hk.later ht.later rfl rfl, ha.later ht.later rfl rfl,
      fun u hu => (ht.others u (Nat.ne_of_lt hu)).1 (hst u hu)⟩
  · rename_i hge
    rw [← Option.some.inj hstep]
    unfold Site
    exact ⟨hk.later (later_self s) rfl rfl, ha.later (later_self s) rfl rfl,
      fun u hu => ⟨hst u (by omega), fun hu0 => absurd hu0 (Nat.not_lt_zero u)⟩⟩

/-- `pause` returns. -/
theorem waitAck_site (hl : ∀ t, (plan.api t).Lawful)
    (hr : ∀ t, Reaches (plan.api t).step always (plan.api t).init (s.proxies t))
    {t : Nat} (hpc : s.host.pc = .waitAck t) : Site plan s' := by
  simp only [step, effect, hostEffect, hpc] at hstep
  unfold Site at hs
  rw [hpc] at hs
  rcases hs with ⟨hk, ha, hst⟩
  rcases Option.map_eq_some_iff.mp hstep with ⟨x, hx, rfl⟩
  have ht : Touches plan s
      ⟨Function.update s.proxies t x, { s.host with pc := .pause (t + 1) }⟩ t :=
    touches_of_update rfl ((hl t).fifo_host hx)
  unfold Site
  refine ⟨hk.later ht.later rfl rfl, ha.later ht.later rfl rfl, fun u hu => ?_⟩
  by_cases hut : u = t
  · rw [hut, Plan.Stopped]
    dsimp only
    rw [Function.update_self]
    exact (hl t).acked (hr t) hx
  · -- The proxies paused before stay stopped while this one is.
    exact (ht.others u hut).1 (hst u (by omega))

/-- The host drains a completion queue, or finds the counter empty. -/
theorem drainCq_site (hl : ∀ t, (plan.api t).Lawful) {t : Nat} (hpc : s.host.pc = .drainCq t) :
    Site plan s' := by
  simp only [step, effect, hostEffect, hpc] at hstep
  unfold Site at hs
  rw [hpc] at hs
  rcases hs with ⟨hk, ha, hst⟩
  split at hstep
  · split at hstep
    · rcases Option.map_eq_some_iff.mp hstep with ⟨x, hx, rfl⟩
      rcases (hl t).drain hx with ⟨hgate, hfifo⟩
      -- Polling its completion queue keeps a proxy stopped and its FIFOs as they are.
      have ht : Touches plan s ⟨Function.update s.proxies t x, s.host⟩ t :=
        touches_of_update rfl hfifo
      unfold Site
      dsimp only
      rw [hpc]
      refine ⟨hk.later ht.later rfl rfl, ha.later ht.later rfl rfl, fun u hu => ?_⟩
      by_cases hut : u = t
      · subst hut
        exact ⟨stopped_of_update rfl hgate (hst u hu).1, fun hlt => absurd hlt (by omega)⟩
      · rcases ht.others u hut with ⟨h1, h2⟩
        exact ⟨h1 (hst u hu).1, fun hlt => by rw [h2]; exact (hst u hu).2 hlt⟩
    · rename_i ht hle
      rw [← Option.some.inj hstep]
      -- The loop in `drain_cq` has ended, and nobody moves the counter any more.
      have hall : ∀ u < plan.numProxyThreads, u < t + 1 → plan.inflight s u ≤ 0 := by
        intro u hu hlt
        by_cases hut : u = t
        · rw [hut]
          exact Int.not_lt.mp hle
        · exact (hst u hu).2 (by omega)
      unfold Site
      cases htog : plan.resetsTogether with
      | true =>
          exact ⟨hk.later (later_self s) rfl rfl, ha.later (later_self s) rfl rfl,
            fun u hu => ⟨(hst u hu).1, fun hlt => hall u hu hlt⟩⟩
      | false =>
          refine ⟨hk.later (later_self s) rfl rfl, ha.later (later_self s) rfl rfl,
            fun u hu => ⟨(hst u hu).1, fun hlt => ?_⟩⟩
          rcases hlt with hc | hlt
          · exact absurd hc Bool.false_ne_true
          · exact hall u hu (by omega)
  · rename_i hge
    rw [← Option.some.inj hstep]
    unfold Site
    cases htog : plan.resetsTogether with
    | true =>
        exact ⟨hk.later (later_self s) rfl rfl, ha.later (later_self s) rfl rfl,
          fun u hu => ⟨(hst u hu).1, fun _ => (hst u hu).2 (by omega)⟩⟩
    | false =>
        exact ⟨hk.later (later_self s) rfl rfl, ha.later (later_self s) rfl rfl,
          fun u hu => ⟨(hst u hu).1, (hst u hu).2 (by omega)⟩⟩

/-- The host resets the counter of a proxy, or has reset them all. -/
theorem resetInflight_site (hl : ∀ t, (plan.api t).Lawful) {t : Nat}
    (hpc : s.host.pc = .resetInflight t) : Site plan s' := by
  simp only [step, effect, hostEffect, hpc] at hstep
  unfold Site at hs
  rw [hpc] at hs
  rcases hs with ⟨hk, ha, hst⟩
  split at hstep
  · rcases Option.map_eq_some_iff.mp hstep with ⟨x, hx, heq⟩
    rcases (hl t).reset hx with ⟨hgate, hle, hfifo⟩
    have hp : s'.proxies = Function.update s.proxies t x := by rw [← heq]
    have hhost : s'.host = { s.host with
        pc := if plan.resetsTogether then .resetInflight (t + 1) else .drainCq (t + 1) } := by
      rw [← heq]
    have ht := touches_of_update hp hfifo
    -- Resetting a counter moves no gate.
    have hstop : ∀ u < plan.numProxyThreads, plan.Stopped s' u := by
      intro u hu
      by_cases hut : u = t
      · subst hut
        exact stopped_of_update hp hgate (hst u hu).1
      · exact (ht.others u hut).1 (hst u hu).1
    -- The counter of this proxy is reset, those of the others stay.
    have hzero : ∀ u < plan.numProxyThreads, (plan.resetsTogether = true ∨ u < t + 1) →
        plan.inflight s' u ≤ 0 := by
      intro u hu hor
      by_cases hut : u = t
      · subst hut
        rw [Plan.inflight, hp, Function.update_self]
        exact hle
      · rw [(ht.others u hut).2]
        exact (hst u hu).2 (hor.imp_right (fun hlt => by omega))
    have hk' : Kept plan s' := hk.later ht.later (by rw [hhost]) (by rw [hhost])
    have ha' : AllRead plan s' := ha.later ht.later (by rw [hhost]) (by rw [hhost])
    unfold Site
    rw [hhost]
    cases htog : plan.resetsTogether with
    | true => exact ⟨hk', ha', fun u hu => ⟨hstop u hu, fun _ => hzero u hu (Or.inl htog)⟩⟩
    | false => exact ⟨hk', ha', fun u hu => ⟨hstop u hu, fun hlt => hzero u hu (Or.inr hlt)⟩⟩
  · rename_i hge
    rw [← Option.some.inj hstep]
    unfold Site
    exact ⟨hk.later (later_self s) rfl rfl, ha.later (later_self s) rfl rfl,
      fun u hu => ⟨(hst u hu).1, (hst u hu).2 (Or.inr (by omega))⟩⟩

end HostSteps

/-- One action of the host inside `prepare_epoch`. -/
theorem hostEffect_site (hl : ∀ t, (plan.api t).Lawful)
    (hr : ∀ t, Reaches (plan.api t).step always (plan.api t).init (s.proxies t))
    (hs : Site plan s) {ne : Nat} (hok : SeesAll plan s (.host ne))
    (hstep : step plan s (.host ne) = some s') : Site plan s' := by
  cases hpc : s.host.pc with
  | ready | prepared =>
      simp only [step, effect, hostEffect, hpc, Option.bind_none, reduceCtorEq] at hstep
  | readHead t => exact readHead_site hs hstep hpc
  | checkHead round t => exact checkHead_site hs hstep hok hpc
  | checkInflight round t => exact checkInflight_site hs hstep hpc
  | pause t => exact pause_site hs hstep hl hpc
  | waitAck t => exact waitAck_site hs hstep hl hr hpc
  | drainCq t => exact drainCq_site hs hstep hl hpc
  | resetInflight t => exact resetInflight_site hs hstep hl hpc

/-- One action of anybody. -/
theorem step_site (hl : ∀ t, (plan.api t).Lawful)
    (hr : ∀ t, Reaches (plan.api t).step always (plan.api t).init (s.proxies t))
    (hs : Site plan s) {a : Action ι} (hok : SeesAll plan s a)
    (hstep : step plan s a = some s') : Site plan s' := by
  cases a with
  | host ne => exact hostEffect_site hl hr hs hok hstep
  | leave =>
      by_cases hpc : s.host.pc = .prepared
      · simp only [step, effect, if_pos hpc, Option.bind_some, apply, Option.some.injEq] at hstep
        rw [← hstep]
        trivial
      · simp only [step, effect, if_neg hpc, Option.bind_none, reduceCtorEq] at hstep
  | «at» t i =>
      by_cases hg : ((plan.api t).byHost i = true → s.host.pc = .ready) ∧
          ((plan.api t).byThread i = true → t < plan.numProxyThreads)
      · simp only [step, effect, if_pos hg, Option.bind_some, apply] at hstep
        rcases Option.map_eq_some_iff.mp hstep with ⟨x, hx, rfl⟩
        by_cases hi : (plan.api t).byHost i = true
        · -- Between two calls the host knows nothing.
          unfold Site
          dsimp only
          rw [hg.1 hi]
          trivial
        · exact hs.onward (onward_of_proxy hl (hr t) (Bool.eq_false_iff.mpr hi) hx rfl) rfl
      · simp only [step, effect, if_neg hg, Option.bind_none, reduceCtorEq] at hstep
  | prepareEpoch fast =>
      by_cases hpc : s.host.pc = .ready
      · simp only [step, effect, if_pos hpc, Option.bind_some, apply, Option.some.injEq] at hstep
        have hfast : (if plan.readsFast = true then fast else 0) < 2 := by
          by_cases hreads : plan.readsFast = true
          · rw [if_pos hreads]
            exact hok hreads
          · rw [if_neg hreads]
            omega
        -- Below level 2 the call begins with the heads, and nothing is known yet.
        rw [if_pos (Nat.lt_succ_of_lt hfast)] at hstep
        rw [← hstep]
        exact ⟨⟨fun k => List.prefix_refl _, hfast⟩, rfl, fun k hk => absurd hk (Nat.not_lt_zero k)⟩
      · simp only [step, effect, if_neg hpc, Option.bind_none, reduceCtorEq] at hstep

/-- What the host knows at each place, in every run that leaves out nothing. -/
theorem site_of_reaches (hl : ∀ t, (plan.api t).Lawful)
    (h : Reaches (step plan) (SeesAll plan) plan.init s) : Site plan s := by
  have hboth : (∀ t, Reaches (plan.api t).step always (plan.api t).init (s.proxies t)) ∧
      Site plan s := by
    refine invariant_of_reaches (fun s => (∀ t, Reaches (plan.api t).step always
      (plan.api t).init (s.proxies t)) ∧ Site plan s) ?_ h ⟨fun t => reaches_refl _ _ _, trivial⟩
    -- What holds of stopped proxies needs their own runs, so both go together.
    rintro s a s' ⟨hr, hs⟩ hok hstep
    exact ⟨fun t => reaches_trans (hr t)
        (@reaches_of_step _ _ plan _ _ (fun _ => always) _ (fun _ _ _ _ => trivial) hstep t),
      step_site hl hr hs hok hstep⟩
  exact hboth.2

/-- What the host knows when `prepare_epoch` returns, having found everything
    drained: every FIFO was read up to where it stood when the call began, and
    every proxy is stopped with nothing in flight. -/
theorem prepared_of_reaches (hl : ∀ t, (plan.api t).Lawful)
    (h : Reaches (step plan) (SeesAll plan) plan.init s) (hpc : s.host.pc = .prepared)
    (hd : s.host.drained = true) :
    (∀ k < plan.numFifos, s.host.pushed k <+: (plan.fifo s k).polled) ∧
      ∀ t < plan.numProxyThreads, plan.Stopped s t ∧ plan.inflight s t ≤ 0 := by
  have hs := site_of_reaches hl h
  unfold Site at hs
  rw [hpc] at hs
  rcases hs with ⟨hk, ha, hst⟩
  refine ⟨fun k hkn => ?_, hst⟩
  exact List.prefix_take_iff.mpr ⟨hk.pushed k, ha hd k hkn⟩

end Run

end Session

end Internode

end MKernel
