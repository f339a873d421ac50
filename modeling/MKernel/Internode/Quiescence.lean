import MKernel.Internode.Cx7.Quiesce
import MKernel.Internode.Efa.Epochs

/-!
# Quiescence Before an Epoch

What is left to do in the proxies of a session when `prepare_epoch` returns.

`drain_proxy` looks at two numbers of each proxy. `cpu_head` says what the proxy
has polled, and the counter says what it has posted; a command it has polled and
not posted is in neither. So the host may find everything drained over a batch
that is being collected, and stop the proxy behind it. The proxy still posts the
batch, and the host waits for that; but a command the proxy stashed behind the
batch stays where it is, and the flag of a notify is cleared by the host. Also,
the host looks at as many FIFOs as there are threads, and a session with a FIFO
for each QP has more (`prepared_unquiet`).

Where a proxy acknowledges the pause with empty hands, and the FIFOs beyond are
read when the host is done with the others, everything pushed before the call is
posted and completed (`prepared_quiet`).

## Main definitions

* `Session.Permitted`: The condition on a run of a session.
* `Session.Quiesced`: What was pushed before the call is polled, and the proxies
  are quiet.

## Theorems

* `Session.quiesced_of_reaches`: What a host learns of proxies that are quiet
  when stopped with an empty counter.
* `prepared_quiet`: Both backends, under the condition.
* `prepared_unquiet`: Both backends, elsewhere.
-/

namespace MKernel

namespace Internode

open MKernel.Core

namespace Session

variable {σ ι : Type*}

/-- The host leaves out nothing, and what is done to each proxy is permitted. -/
def Permitted (plan : Plan σ ι) (okP : Nat → σ → ι → Prop) (s : State σ) (a : Action ι) : Prop :=
  SeesAll plan s a ∧ Permits plan okP s a

instance (plan : Plan σ ι) (s : State σ) (a : Action ι) : Decidable (SeesAll plan s a) := by
  unfold SeesAll
  split
  · infer_instance
  · split <;> infer_instance
  · infer_instance

instance (plan : Plan σ ι) (okP : Nat → σ → ι → Prop) [∀ t x i, Decidable (okP t x i)]
    (s : State σ) (a : Action ι) : Decidable (Permitted plan okP s a) :=
  inferInstanceAs (Decidable (_ ∧ _))

/-- What each FIFO held when the call began is polled, and nothing is left to do
    in any proxy. -/
structure Quiesced (plan : Plan σ ι) (polled : Nat → σ → List TransferCmd)
    (quiet : Nat → σ → Prop) (s : State σ) : Prop where
  polled : ∀ k < plan.numFifos, s.host.pushed k <+: polled k (s.proxies (plan.owner k))
  quiet : ∀ t < plan.numProxyThreads, quiet t (s.proxies t)

/-- A host that finds everything drained has quiet proxies, if its proxies are
    quiet whenever they are stopped with an empty counter. -/
theorem quiesced_of_reaches {plan : Plan σ ι} {okP : Nat → σ → ι → Prop}
    {polled : Nat → σ → List TransferCmd} {quiet : Nat → σ → Prop} {s : State σ}
    (hl : ∀ t, (plan.api t).Lawful)
    (hpolled : ∀ t k x, Reaches (plan.api t).step (okP t) (plan.api t).init x →
      polled k x = ((plan.api t).fifo k x).polled)
    (hquiet : ∀ t x, Reaches (plan.api t).step (okP t) (plan.api t).init x →
      ((plan.api t).gate x).Stopped → (plan.api t).inflight x ≤ 0 → quiet t x)
    (h : Reaches (step plan) (Permitted plan okP) plan.init s) (hpc : s.host.pc = .prepared)
    (hd : s.host.drained = true) : Quiesced plan polled quiet s := by
  -- Each proxy has had a permitted run of its own.
  have hrun := reaches_proxy (fun _ _ hok => hok.2) h
  have hsees : Reaches (step plan) (SeesAll plan) plan.init s :=
    reaches_mono (fun _ _ hok => hok.1) h
  rcases prepared_of_reaches hl hsees hpc hd with ⟨hread, hstopped⟩
  refine ⟨fun k hk => ?_, fun t ht => ?_⟩
  · -- What a proxy has polled is what its FIFO says was read.
    rw [hpolled _ k _ (hrun (plan.owner k))]
    exact hread k hk
  · rcases hstopped t ht with ⟨hstop, hle⟩
    exact hquiet t _ (hrun t) hstop hle

end Session

/-- What an EFA proxy has polled from a FIFO. -/
def Efa.polledCmds (k : Nat) (w : Efa.World) : List TransferCmd :=
  (Efa.polledFrom k w.hist).map Polled.cmd

/-- What a CX7 proxy has polled from its FIFO. -/
def Cx7.polledCmds (_ : Nat) (w : Cx7.World) : List TransferCmd :=
  (Cx7.polledOf w.hist).map Polled.cmd

/-- In every run of a session of either backend under the condition, when
    `prepare_epoch` returns and its drain has found everything drained, all that
    was pushed before the call is posted and completed, and the proxies hold
    nothing. -/
theorem prepared_quiet {efa : Nat → Efa.Setup} {cx7 : Nat → Cx7.Setup}
    {numProxyThreads numFifos : Nat} {owner : Nat → Nat} :
    (∀ s, Reaches (Session.step (Efa.plan efa numProxyThreads numFifos owner))
        (Session.Permitted (Efa.plan efa numProxyThreads numFifos owner)
          fun t => Efa.Acknowledges (efa t))
        (Efa.plan efa numProxyThreads numFifos owner).init s →
      s.host.pc = .prepared → s.host.drained = true →
      Session.Quiesced (Efa.plan efa numProxyThreads numFifos owner) Efa.polledCmds
        (fun t => Efa.Quiet (efa t)) s) ∧
    ∀ s, Reaches (Session.step (Cx7.plan cx7 numProxyThreads))
        (Session.Permitted (Cx7.plan cx7 numProxyThreads) fun t => Cx7.Acknowledges (cx7 t))
        (Cx7.plan cx7 numProxyThreads).init s →
      s.host.pc = .prepared → s.host.drained = true →
      Session.Quiesced (Cx7.plan cx7 numProxyThreads) Cx7.polledCmds
        (fun t => Cx7.Quiet (cx7 t)) s := by
  constructor
  · intro s h hpc hd
    -- An EFA proxy may read several FIFOs, and its history tells them apart.
    refine Session.quiesced_of_reaches (fun t => Efa.api_lawful (efa t)) (fun t k w hr => ?_)
      (fun t w hr hs hle => Efa.quiet_of_stopped hr hs hle) h hpc hd
    exact (Efa.order_of_reaches hr).cmds k
  · intro s h hpc hd
    refine Session.quiesced_of_reaches (fun t => Cx7.api_lawful (cx7 t)) (fun t k w hr => ?_)
      (fun t w hr hs hle => Cx7.quiet_of_stopped hr hs hle) h hpc hd
    exact (Cx7.order_of_reaches hr).cmds

section Sample

/-- One EFA proxy with one FIFO. -/
def efaOne : Session.Plan Efa.World Efa.Action :=
  Efa.plan (fun _ => Efa.writeImmSetup) 1 1 fun _ => 0

/-- One EFA proxy with two FIFOs. -/
def efaPerQp : Session.Plan Efa.World Efa.Action :=
  Efa.plan (fun _ => Efa.Setup.ofMode { Efa.sampleConfig with fifos := some id, numFifos := 2 }
    .writeImm) 1 2 fun _ => 0

/-- One CX7 proxy. -/
def cx7One : Session.Plan Cx7.World Cx7.Action := Cx7.plan (fun _ => Cx7.sampleSetup) 1

/-- Actions of the CX7 proxy. -/
def cx7At (as : List Cx7.Action) : List (Session.Action Cx7.Action) := as.map (Session.Action.at 0)

/-- Turns of its host inside `prepare_epoch`. -/
def cx7Hosts (n : Nat) : List (Session.Action Cx7.Action) := List.replicate n (.host 32)

/-- A WRITE and a notify, served and reaped before the host prepares. -/
def efaServed : List (Session.Action Efa.Action) :=
  Efa.firstKernel ++ [Session.Action.prepareEpoch 0] ++ Efa.hosts 6 ++ Efa.atProxy (Efa.goes 4) ++
    Efa.hosts 5

/-- A WRITE, served and reaped before the host prepares. -/
def cx7Served : List (Session.Action Cx7.Action) :=
  cx7At (Cx7.pushes [Cx7.writeCmd 0 0] ++ Cx7.goes 9 ++ [Cx7.Action.place 0, .complete 0] ++
    Cx7.goes 4) ++
    [Session.Action.prepareEpoch 0] ++ cx7Hosts 6 ++ cx7At (Cx7.goes 4) ++ cx7Hosts 6

theorem prepared_quiet_served :
    (∃ s, Session.Quiesced efaOne Efa.polledCmds (fun _ => Efa.Quiet Efa.writeImmSetup) s ∧
      (s.host.pushed 0).length = 2) ∧
    ∃ s, Session.Quiesced cx7One Cx7.polledCmds (fun _ => Cx7.Quiet Cx7.sampleSetup) s ∧
      (s.host.pushed 0).length = 1 :=
  ⟨⟨(run (Session.step efaOne)
      (Session.Permitted efaOne fun _ => Efa.Acknowledges Efa.writeImmSetup)
        efaServed efaOne.init).get (by decide +kernel),
      (@prepared_quiet (fun _ => Efa.writeImmSetup) (fun _ => Cx7.sampleSetup) 1 1 fun _ => 0).1 _
        (reaches_of_run efaServed _ _ (Option.some_get _).symm) (by decide +kernel)
        (by decide +kernel), by decide +kernel⟩,
    ⟨(run (Session.step cx7One) (Session.Permitted cx7One fun _ => Cx7.Acknowledges Cx7.sampleSetup)
        cx7Served cx7One.init).get (by decide +kernel),
      (@prepared_quiet (fun _ => Efa.writeImmSetup) (fun _ => Cx7.sampleSetup) 1 1 fun _ => 0).2 _
        (reaches_of_run cx7Served _ _ (Option.some_get _).symm) (by decide +kernel)
        (by decide +kernel), by decide +kernel⟩⟩

/-- A WRITE in the second FIFO of a proxy that is stopped before it gets there. -/
def efaUnread : List (Session.Action Efa.Action) :=
  Efa.atProxy (Efa.pushes 1 [Efa.writeCmd 0 0] ++ Efa.goes 1) ++ [Session.Action.prepareEpoch 0] ++
    Efa.hosts 6 ++ Efa.atProxy (Efa.goes 2) ++ Efa.hosts 5

/-- Two WRITEs of different QPs, polled together; the second is stashed. -/
def cx7Stashed : List (Session.Action Cx7.Action) :=
  cx7At (Cx7.pushes [Cx7.writeCmd 0 0, Cx7.writeCmd 1 1] ++ Cx7.goes 7) ++
    [Session.Action.prepareEpoch 0] ++ cx7Hosts 6 ++ cx7At (Cx7.goes 9) ++ cx7Hosts 2 ++
    cx7At [Cx7.Action.place 0, .complete 0] ++ cx7Hosts 5

/-- The host finds everything drained and prepares the epoch, and a notify never
    gets its stage barrier; a FIFO is not read; a WRITE stays in the stash. -/
theorem prepared_unquiet :
    (∃ s, Reaches (Session.step efaOne) always efaOne.init s ∧
      s.host.pc = .prepared ∧ s.host.drained = true ∧
      ¬ Session.Quiesced efaOne Efa.polledCmds (fun _ => Efa.Quiet Efa.writeImmSetup) s) ∧
    (∃ s, Reaches (Session.step efaPerQp) always efaPerQp.init s ∧
      s.host.pc = .prepared ∧ s.host.drained = true ∧
      ¬ ∀ k < efaPerQp.numFifos, s.host.pushed k <+: Efa.polledCmds k (s.proxies 0)) ∧
    ∃ s, Reaches (Session.step cx7One) always cx7One.init s ∧
      s.host.pc = .prepared ∧ s.host.drained = true ∧
      ¬ Session.Quiesced cx7One Cx7.polledCmds (fun _ => Cx7.Quiet Cx7.sampleSetup) s :=
  ⟨⟨(run (Session.step efaOne) always Efa.paused efaOne.init).get (by decide +kernel),
      reaches_of_run _ _ _ (Option.some_get _).symm, by decide +kernel, by decide +kernel,
      fun h => absurd ((h.quiet 0 Nat.one_pos).notified 0 (by decide +kernel)) (by decide +kernel)⟩,
    ⟨(run (Session.step efaPerQp) always efaUnread efaPerQp.init).get (by decide +kernel),
      reaches_of_run _ _ _ (Option.some_get _).symm, by decide +kernel, by decide +kernel,
      fun h => absurd (h 1 (by decide +kernel)) (by decide +kernel)⟩,
    ⟨(run (Session.step cx7One) always cx7Stashed cx7One.init).get (by decide +kernel),
      reaches_of_run _ _ _ (Option.some_get _).symm, by decide +kernel, by decide +kernel,
      fun h => absurd (h.quiet 0 Nat.one_pos).held (by decide +kernel)⟩⟩

end Sample

end Internode

end MKernel
