import MKernel.Internode.Efa.Quiesce

/-!
# Epochs of the EFA Proxy

Whether the stage barriers and the arrival slots of a kernel are tagged with the
kernel's epoch.

The token of a stage barrier is the epoch the proxy is configured with when it
posts, and the slot of a WRITE comes from counters that start again when the
epoch is set. `Epochs` records beside the proxy what happened since: the
commands the kernel has pushed, where the FIFOs and the history stood, and the
commands that slots were assigned to.

What was polled before the epoch was set and not posted is then posted with the
next epoch. So all depends on the proxy being at rest: its FIFOs read up and
nothing polled in its hands (`AtRest`). If the epoch is only set then, what the
proxy does belongs to the kernel of the epoch (`epochs_tagged`). The host's
test for it, `cpu_head` and the counter, does not see a command between its poll
and its post, and a host that does not pause the proxy sets the next epoch over
it (`epochs_mixed`).

## Main definitions

* `Epochs`, `Epochs.step`: The proxy, and what happened in this epoch.
* `Epochs.Own`: A command the kernel of this epoch has pushed.
* `AtRest`: The FIFOs are read up, and the proxy has nothing in its hands.
* `EpochQuiet`: The condition on a run.
* `Tagged`: What the proxy does is tagged with the kernel's epoch.
* `Complete`: All the kernel has pushed is done.
* `efaPlan`: A session of EFA proxies.

## Theorems

* `events_split`: The WRITEs of this epoch are those posted and those held.
* `mark_step`: What every step keeps.
* `tagged_of_mark`, `complete_of_rest`: What follows for this epoch.
* `epochs_tagged`: In every run of a session under the condition.
* `epochs_mixed`: Elsewhere, a notify is served with the next epoch's token.
-/

namespace MKernel

namespace Internode

namespace Efa

open MKernel.Core

variable {setup : Setup} {t t' : Epochs}

/-- The proxy, with the commands the kernel of this epoch has pushed, where the
    FIFOs and the history stood when the epoch was set, and the commands that
    slots were assigned to since. -/
structure Epochs where
  proxy : World
  kernel : Nat → List TransferCmd
  start : Nat → Nat
  since : Nat
  assigned : List Polled

namespace Epochs

def init (setup : Setup) : Epochs where
  proxy := Efa.init setup
  kernel := fun _ => []
  start := fun _ => 0
  since := 0
  assigned := []

/-- The commands whose requests an action builds. -/
def assigns (w : World) : Action → List Polled
  | .proxy _ _ =>
    match w.pc with
    | .post c => c.batch
    | _ => []
  | _ => []

/-- What is recorded of an action that leads to `w`. -/
def record (t : Epochs) (w : World) : Action → Epochs
  | .setEpoch _ =>
    { proxy := w
      kernel := fun _ => []
      start := fun k => (w.fifos k).claimed.length
      since := w.hist.length
      assigned := [] }
  | .claim k cmd =>
    { t with proxy := w, kernel := Function.update t.kernel k (t.kernel k ++ [cmd]) }
  | a => { t with proxy := w, assigned := t.assigned ++ assigns t.proxy a }

/-- One action, recorded. -/
def step (setup : Setup) (t : Epochs) (a : Action) : Option Epochs :=
  (Efa.step setup t.proxy a).map fun w => t.record w a

/-- What happened since the epoch was set. -/
def events (t : Epochs) : List Event := t.proxy.hist.drop t.since

/-- A command the kernel of this epoch has pushed. -/
def Own (t : Epochs) (p : Polled) : Prop :=
  t.start p.fifo ≤ p.seq ∧ (t.kernel p.fifo)[p.seq - t.start p.fifo]? = some p.cmd

end Epochs

/-- All that was pushed is polled, and nothing polled waits to be posted. -/
def AtRest (setup : Setup) (w : World) : Prop :=
  (∀ k ∈ readFifos setup, (w.fifos k).cpuHead = (w.fifos k).claimed.length) ∧
    held w = [] ∧ ∀ q < setup.cfg.numPeers, owed q w = 0

instance (setup : Setup) (w : World) : Decidable (AtRest setup w) :=
  inferInstanceAs (Decidable (_ ∧ _ ∧ _))

/-- The host sets an epoch when the proxy is at rest and resets a FIFO that is
    read up; and no notify is lost or merged with another. -/
def EpochQuiet (setup : Setup) (t : Epochs) (a : Action) : Prop :=
  NotifyCounted setup t.proxy a ∧
    match a with
    | .setEpoch _ => AtRest setup t.proxy
    | .fifoReset k => (t.proxy.fifos k).cpuHead = (t.proxy.fifos k).claimed.length
    | _ => True

instance (setup : Setup) (t : Epochs) (a : Action) : Decidable (EpochQuiet setup t a) := by
  unfold EpochQuiet
  refine @instDecidableAnd _ _ inferInstance ?_
  apply @Action.casesOn _ a <;> intros <;> infer_instance

/-- What the proxy does since the epoch was set, it does for the kernel of this
    epoch: it polls what the kernel has pushed, assigns slots to it, and posts
    the stage barriers of its notifies, each once and with this epoch. -/
structure Tagged (setup : Setup) (t : Epochs) : Prop where
  polled : ∀ p ∈ polledOf t.events, t.Own p
  slots : ∀ p ∈ t.assigned, t.Own p
  token : ∀ q token, .stageBarrier q token ∈ t.events → token = t.proxy.epoch
  once : ∀ q, Addressed setup q → notifies t.events = barriersTo q t.events + owed q t.proxy

/-- All that the kernel of this epoch has pushed is polled, the WRITEs are
    posted, and the notifies have their stage barriers. -/
structure Complete (setup : Setup) (t : Epochs) : Prop where
  polled : ∀ k ∈ readFifos setup, (polledFrom k t.events).map Polled.cmd = t.kernel k
  writes : writesPolled t.events = postedOf t.events
  once : ∀ q, Addressed setup q → notifies t.events = barriersTo q t.events

/-! ## What every step keeps -/

/-- Where things stood when the epoch was set, and what happened since. -/
structure Mark (setup : Setup) (t : Epochs) : Prop where
  since_le : t.since ≤ t.proxy.hist.length
  polled : ∀ k ∈ readFifos setup, (polledFrom k (t.proxy.hist.take t.since)).length = t.start k
  writes : writesPolled (t.proxy.hist.take t.since) = postedOf (t.proxy.hist.take t.since)
  notifies : ∀ q, Addressed setup q →
    notifies (t.proxy.hist.take t.since) = barriersTo q (t.proxy.hist.take t.since)
  pushed : ∀ k ∈ readFifos setup, t.start k ≤ (t.proxy.fifos k).claimed.length ∧
    (t.proxy.fifos k).claimed.drop (t.start k) = t.kernel k
  token : ∀ q token, .stageBarrier q token ∈ t.events → token = t.proxy.epoch
  slots : ∀ p ∈ t.assigned, p ∈ writesPolled t.events

theorem hist_eq (t : Epochs) : t.proxy.hist = t.proxy.hist.take t.since ++ t.events :=
  (List.take_append_drop _ _).symm

/-- The WRITEs polled in this epoch are those posted in it and those held. -/
theorem events_split (hm : Mark setup t) (ho : OrderInv setup t.proxy) :
    writesPolled t.events = postedOf t.events ++ held t.proxy := by
  -- The same of the whole run, less the same of what came before the epoch.
  have hsplit := ho.split
  rw [hist_eq t, writesPolled_append, postedOf_append, hm.writes, List.append_assoc] at hsplit
  exact List.append_cancel_left hsplit

theorem mark_init : Mark setup (Epochs.init setup) where
  since_le := Nat.zero_le _
  polled := fun _ _ => rfl
  writes := rfl
  notifies := fun _ _ => rfl
  pushed := fun _ _ => ⟨Nat.zero_le _, rfl⟩
  token := fun _ _ h => absurd h List.not_mem_nil
  slots := fun _ h => absurd h List.not_mem_nil

/-- Setting the epoch of a proxy at rest. -/
theorem mark_setEpoch (ho : OrderInv setup t.proxy) (hc : CountInv setup t.proxy)
    (hrest : AtRest setup t.proxy) (epoch : BitVec 32) {w : World} (hhist : w.hist = t.proxy.hist)
    (hfifos : w.fifos = t.proxy.fifos) : Mark setup (t.record w (.setEpoch epoch)) := by
  have hbefore : w.hist.take w.hist.length = t.proxy.hist := by rw [List.take_length, hhist]
  have hevents : (t.record w (.setEpoch epoch)).events = [] := List.drop_length
  refine ⟨le_refl _, fun k hk => ?_, ?_, fun q hq => ?_, fun k hk => ?_, fun q token h => ?_,
    fun p hp => absurd hp List.not_mem_nil⟩
  · -- A FIFO that is read up was polled as far as it is filled.
    have hlen := congrArg List.length (ho.seqs k)
    rw [List.length_map, List.length_range] at hlen
    change (polledFrom k (w.hist.take w.hist.length)).length = (w.fifos k).claimed.length
    rw [hbefore, hlen, hfifos]
    exact hrest.1 k hk
  · change writesPolled (w.hist.take w.hist.length) = postedOf (w.hist.take w.hist.length)
    rw [hbefore, ho.split, hrest.2.1, List.append_nil]
  · change notifies (w.hist.take w.hist.length) = barriersTo q (w.hist.take w.hist.length)
    rw [hbefore, hc q hq, hrest.2.2 q hq.1, Nat.add_zero]
  · exact ⟨le_refl _, List.drop_length⟩
  · rw [hevents] at h
    exact absurd h List.not_mem_nil

/-- A push of the kernel. -/
theorem mark_claim (hm : Mark setup t) (k : Nat) (cmd : TransferCmd) :
    Mark setup (t.record { t.proxy with
      fifos := Function.update t.proxy.fifos k ((t.proxy.fifos k).claim cmd) } (.claim k cmd)) := by
  refine ⟨hm.since_le, hm.polled, hm.writes, hm.notifies, fun j hj => ?_, hm.token, hm.slots⟩
  rcases hm.pushed j hj with ⟨hle, hpushed⟩
  simp only [Epochs.record]
  by_cases hjk : j = k
  · subst hjk
    -- Behind what was there when the epoch was set.
    rw [Function.update_self, Function.update_self, Fifo.claimed_claim, ← hpushed,
      List.drop_append_of_le_length hle, List.length_append]
    exact ⟨Nat.le_add_right_of_le hle, rfl⟩
  · rw [Function.update_of_ne hjk, Function.update_of_ne hjk]
    exact ⟨hle, hpushed⟩

/-- A reset of a FIFO that is read up. -/
theorem mark_fifoReset (hm : Mark setup t) {k : Nat}
    (hup : (t.proxy.fifos k).cpuHead = (t.proxy.fifos k).claimed.length) :
    Mark setup (t.record { t.proxy with
      fifos := Function.update t.proxy.fifos k (t.proxy.fifos k).reset } (.fifoReset k)) := by
  -- A FIFO that is read up loses nothing.
  have hsame : ∀ j, (Function.update t.proxy.fifos k (t.proxy.fifos k).reset j).claimed =
      (t.proxy.fifos j).claimed :=
    claimed_update (List.take_of_length_le (Nat.le_of_eq hup.symm))
  refine ⟨hm.since_le, hm.polled, hm.writes, hm.notifies, fun j hj => ?_, hm.token, fun p hp => ?_⟩
  · change _ ≤ (Function.update t.proxy.fifos k (t.proxy.fifos k).reset j).claimed.length ∧
      (Function.update t.proxy.fifos k (t.proxy.fifos k).reset j).claimed.drop _ = _
    rw [hsame j]
    exact hm.pushed j hj
  · rcases List.mem_append.mp hp with hold | hnew
    · exact hm.slots p hold
    · exact absurd hnew List.not_mem_nil

/-- Slots are assigned to what is held. -/
theorem held_of_assigns {w : World} {a : Action} {p : Polled} (h : p ∈ Epochs.assigns w a) :
    p ∈ held w := by
  cases a with
  | proxy ok ne =>
      simp only [Epochs.assigns] at h
      cases hpc : w.pc with
      | post c =>
          rw [hpc] at h
          rw [held, hpc]
          exact List.mem_append_left _ h
      | _ =>
          rw [hpc] at h
          exact absurd h List.not_mem_nil
  | _ => exact absurd h List.not_mem_nil

/-- A plain action. -/
theorem mark_plain (hm : Mark setup t) (ho : OrderInv setup t.proxy) {a : Action} {w : World}
    (ha : a.Plain) (hf : Frame setup t.proxy w) : Mark setup (t.record w a) := by
  have hrec : t.record w a =
      { t with proxy := w, assigned := t.assigned ++ Epochs.assigns t.proxy a } := by
    cases a with
    | claim k cmd => exact absurd ha not_false
    | setEpoch epoch => exact absurd ha not_false
    | _ => rfl
  rcases hf.events with ⟨l, hhist, hl⟩
  -- What came before the epoch stays as it was.
  have hbefore : w.hist.take t.since = t.proxy.hist.take t.since := by
    rw [hhist, List.take_append_of_le_length hm.since_le]
  have hevents : w.hist.drop t.since = t.events ++ l := by
    rw [hhist, List.drop_append_of_le_length hm.since_le]
    rfl
  rw [hrec]
  refine ⟨?_, fun k hk => ?_, ?_,
    fun q hq => ?_, fun k hk => ?_, fun q token h => ?_, fun p hp => ?_⟩
  · dsimp only
    rw [hhist, List.length_append]
    exact Nat.le_add_right_of_le hm.since_le
  · dsimp only
    rw [hbefore]
    exact hm.polled k hk
  · dsimp only
    rw [hbefore]
    exact hm.writes
  · dsimp only
    rw [hbefore]
    exact hm.notifies q hq
  · dsimp only
    rw [hf.claimed k]
    exact hm.pushed k hk
  · simp only [Epochs.events] at h ⊢
    rw [hevents] at h
    rw [hf.epoch]
    rcases List.mem_append.mp h with hold | hnew
    · exact hm.token q token hold
    · exact hl _ hnew
  · simp only [Epochs.events]
    rw [hevents, writesPolled_append]
    refine List.mem_append_left _ ?_
    rcases List.mem_append.mp hp with hold | hnew
    · exact hm.slots p hold
    · rw [events_split hm ho]
      exact List.mem_append_right _ (held_of_assigns hnew)

/-- Every step keeps the mark, and a step that sets the epoch makes a new one. -/
theorem mark_step (hm : Mark setup t) (ho : OrderInv setup t.proxy) (hc : CountInv setup t.proxy)
    {a : Action} (hok : EpochQuiet setup t a) (hstep : Epochs.step setup t a = some t') :
    Mark setup t' := by
  rcases Option.map_eq_some_iff.mp hstep with ⟨w, hw, rfl⟩
  cases a with
  | setEpoch epoch =>
      refine mark_setEpoch ho hc hok.2 epoch ?_ ?_
      · rw [← Option.some.inj hw]
      · rw [← Option.some.inj hw]
  | claim k cmd =>
      rw [← Option.some.inj hw]
      exact mark_claim hm k cmd
  | fifoReset k =>
      rw [← Option.some.inj hw]
      exact mark_fifoReset hm hok.2
  | _ => exact mark_plain hm ho (by exact trivial) (step_frame (by exact trivial) hw)

/-! ## What the proxy does in an epoch -/

/-- What was polled from a FIFO in this epoch comes behind what was polled
    before it was set. -/
theorem polledFrom_hist (t : Epochs) (k : Nat) :
    polledFrom k t.proxy.hist =
      polledFrom k (t.proxy.hist.take t.since) ++ polledFrom k t.events := by
  rw [← polledFrom_append, ← hist_eq]

/-- A command polled in this epoch was pushed by its kernel. -/
theorem own_of_polled (hm : Mark setup t) (ho : OrderInv setup t.proxy)
    (hf : FifoIdx setup t.proxy) {p : Polled} (hp : p ∈ polledOf t.events) : t.Own p := by
  -- The proxy polls no FIFO but its own.
  have hk : p.fifo ∈ readFifos setup := by
    refine hf.polled p ?_
    rw [hist_eq t, polledOf_append]
    exact List.mem_append_right _ hp
  have hfrom : p ∈ polledFrom p.fifo t.events :=
    List.mem_filter.mpr ⟨hp, decide_eq_true rfl⟩
  rcases List.mem_iff_getElem?.mp hfrom with ⟨i, hi⟩
  have hat : (polledFrom p.fifo t.proxy.hist)[t.start p.fifo + i]? = some p := by
    rw [polledFrom_hist, List.getElem?_append_right (by rw [hm.polled _ hk]; omega),
      hm.polled _ hk, Nat.add_sub_cancel_left]
    exact hi
  -- Its place among all commands polled from the FIFO is its position there.
  have hseq := congrArg (·[t.start p.fifo + i]?) (ho.seqs p.fifo)
  have hcmd := congrArg (·[t.start p.fifo + i]?) (ho.cmds p.fifo)
  simp only [List.getElem?_map, hat, Option.map_some] at hseq hcmd
  have hrange := (List.getElem?_eq_some_iff.mp hseq.symm).2
  rw [List.getElem_range] at hrange
  have hlt := (List.getElem?_eq_some_iff.mp hseq.symm).1
  rw [List.length_range] at hlt
  rw [Fifo.polled, List.getElem?_take, if_pos hlt] at hcmd
  refine ⟨by omega, ?_⟩
  rw [← (hm.pushed _ hk).2, List.getElem?_drop, ← hrange, Nat.add_sub_cancel_left]
  exact hcmd.symm

theorem tagged_of_mark (hm : Mark setup t) (ho : OrderInv setup t.proxy)
    (hc : CountInv setup t.proxy) (hf : FifoIdx setup t.proxy) : Tagged setup t where
  polled := fun _ hp => own_of_polled hm ho hf hp
  slots := fun p hp =>
    own_of_polled hm ho hf (List.mem_of_mem_filter (hm.slots p hp))
  token := hm.token
  once := by
    intro q hq
    have hcount := hc q hq
    rw [hist_eq t, notifies_append, barriersTo_append, hm.notifies q hq] at hcount
    omega

/-- With the proxy at rest, all the kernel has pushed is done. -/
theorem complete_of_rest (hm : Mark setup t) (ho : OrderInv setup t.proxy)
    (hc : CountInv setup t.proxy) (hf : FifoIdx setup t.proxy) (hrest : AtRest setup t.proxy) :
    Complete setup t where
  polled := by
    intro k hk
    have hcmds := ho.cmds k
    rw [Fifo.polled, List.take_of_length_le (Nat.le_of_eq (hrest.1 k hk).symm),
      polledFrom_hist, List.map_append] at hcmds
    -- All read, less what was read before the epoch, is what was pushed since.
    have hlen : (List.map Polled.cmd (polledFrom k (t.proxy.hist.take t.since))).length =
        t.start k := by rw [List.length_map, hm.polled k hk]
    rw [← (hm.pushed k hk).2, ← hcmds, ← hlen, List.drop_left]
  writes := by
    rw [events_split hm ho, hrest.2.1, List.append_nil]
  once := by
    intro q hq
    rw [(tagged_of_mark hm ho hc hf).once q hq, hrest.2.2 q hq.1, Nat.add_zero]

/-- What is recorded changes nothing of the proxy. -/
theorem proxy_of_step {a : Action} (hstep : Epochs.step setup t a = some t') :
    step setup t.proxy a = some t'.proxy := by
  rcases Option.map_eq_some_iff.mp hstep with ⟨w, hw, rfl⟩
  rw [hw]
  cases a <;> rfl

/-- A run under the condition. -/
theorem mark_of_reaches
    (h : Reaches (Epochs.step setup) (EpochQuiet setup) (Epochs.init setup) t) :
    Mark setup t ∧ Reaches (step setup) (NotifyCounted setup) (init setup) t.proxy := by
  refine invariant_of_reaches (fun t => Mark setup t ∧
    Reaches (step setup) (NotifyCounted setup) (init setup) t.proxy) ?_ h
    ⟨mark_init, reaches_refl _ _ _⟩
  rintro t a t' ⟨hm, hr⟩ hok hstep
  exact ⟨mark_step hm (order_of_reaches hr) (notifies_eq hr) hok hstep,
    reaches_step hr a hok.1 (proxy_of_step hstep)⟩

/-- A session of EFA proxies. -/
def efaPlan (setups : Nat → Setup) (numProxyThreads numFifos : Nat) (owner : Nat → Nat) :
    Session.Plan Epochs Action where
  api := fun t =>
    (api (setups t)).over Epochs.proxy (Epochs.step (setups t)) (Epochs.init (setups t))
  numProxyThreads := numProxyThreads
  numFifos := numFifos
  owner := owner
  resetsTogether := false
  readsFast := true

/-- In every run of a session that sets an epoch only with the proxy at rest,
    every stage barrier and every slot is that of the kernel it is for, and when
    the next epoch is set, all the kernel has pushed is done. -/
theorem epochs_tagged {setups : Nat → Setup} {numProxyThreads numFifos : Nat} {owner : Nat → Nat}
    {s : Session.State Epochs}
    (h : Reaches (Session.step (efaPlan setups numProxyThreads numFifos owner))
      (Session.Permits (efaPlan setups numProxyThreads numFifos owner)
        fun t => EpochQuiet (setups t))
      (efaPlan setups numProxyThreads numFifos owner).init s) (t : Nat) :
    Tagged (setups t) (s.proxies t) ∧
      (AtRest (setups t) (s.proxies t).proxy → Complete (setups t) (s.proxies t)) := by
  have hrun := Session.reaches_proxy (fun _ _ hok => hok) h t
  rcases mark_of_reaches hrun with ⟨hm, hr⟩
  have ho := order_of_reaches hr
  have hc := notifies_eq hr
  have hf := polled_readFifos hr
  exact ⟨tagged_of_mark hm ho hc hf, complete_of_rest hm ho hc hf⟩

section Sample

/-- One proxy that serves one peer from one FIFO. -/
def onePlan : Session.Plan Epochs Action := efaPlan (fun _ => writeImmSetup) 1 1 fun _ => 0

/-- Actions of the proxy. -/
def atProxy (as : List Action) : List (Session.Action Action) := as.map (Session.Action.at 0)

/-- Turns of the host inside `prepare_epoch`. -/
def hosts (n : Nat) : List (Session.Action Action) := List.replicate n (.host 32)

/-- A kernel that pushes a WRITE and a notify; both are served and reaped. -/
def firstKernel : List (Session.Action Action) :=
  atProxy (pushes 0 [writeCmd 0 0, notifyCmd] ++ goes 22 ++ [Action.place 0, .complete 0] ++
    goes 5 ++
    [Action.place 0, .complete 0] ++ goes 7)

/-- The host prepares the next epoch, pausing the proxy, sets it and resumes. -/
def nextEpoch : List (Session.Action Action) :=
  [Session.Action.prepareEpoch 0] ++ hosts 6 ++ atProxy (goes 4) ++ hosts 5 ++
    [Session.Action.leave] ++
    atProxy ([Action.setEpoch 2, .fifoReset 0, .host .resume] ++ goes 1 ++
      [Action.host .unpause] ++ goes 2)

/-- The next kernel pushes a WRITE, which is posted. -/
def secondKernel : List (Session.Action Action) := atProxy (pushes 0 [writeCmd 0 0] ++ goes 17)

/-- Two kernels, with the proxy at rest between them. -/
def twoEpochs : Session.State Epochs :=
  (run (Session.step onePlan) (Session.Permits onePlan fun _ => EpochQuiet writeImmSetup)
    (firstKernel ++ nextEpoch ++ secondKernel) onePlan.init).get (by decide +kernel)

theorem epochs_tagged_twoEpochs : ∃ s : Session.State Epochs,
    Reaches (Session.step onePlan) (Session.Permits onePlan fun _ => EpochQuiet writeImmSetup)
      onePlan.init s ∧
    (s.proxies 0).proxy.epoch = 2 ∧ (s.proxies 0).assigned.length = 1 ∧
      Tagged writeImmSetup (s.proxies 0) :=
  have h : Reaches (Session.step onePlan)
      (Session.Permits onePlan fun _ => EpochQuiet writeImmSetup) onePlan.init twoEpochs :=
    reaches_of_run _ _ _ (Option.some_get _).symm
  ⟨twoEpochs, h, by decide +kernel, by decide +kernel,
    (@epochs_tagged (fun _ => writeImmSetup) _ _ _ _ h 0).1⟩

/-- A WRITE and a notify are polled, and the host finds the FIFO read and nothing
    in flight. -/
def drainedBetween (fast : Nat) : List (Session.Action Action) :=
  atProxy (pushes 0 [writeCmd 0 0, notifyCmd] ++ goes 6) ++
    [Session.Action.prepareEpoch fast] ++ hosts 5

/-- At level 2 the host sets the next epoch at once, and the proxy goes on. -/
def unpaused : List (Session.Action Action) :=
  drainedBetween 2 ++ [Session.Action.leave] ++
    atProxy ([Action.setEpoch 2] ++ goes 10 ++ [Action.place 0, .complete 0] ++ goes 9)

/-- At level 0 the host stops the proxy, waits for the WRITE and resets. -/
def paused : List (Session.Action Action) :=
  drainedBetween 0 ++ hosts 1 ++ atProxy (goes 17) ++ hosts 2 ++
    atProxy [Action.place 0, .complete 0] ++ hosts 4

/-- The host finds all drained while a WRITE and a notify are between their poll
    and their post. At level 2 both are then served with the next epoch: its
    slots go to a WRITE and its token to a notify that its kernel has not
    pushed. At level 0 the notify is forgotten. -/
theorem epochs_mixed :
    (∃ s : Session.State Epochs, Reaches (Session.step onePlan) always onePlan.init s ∧
      s.host.drained = true ∧ (s.proxies 0).kernel 0 = [] ∧ (s.proxies 0).assigned.length = 1 ∧
      .stageBarrier 0 2 ∈ (s.proxies 0).events ∧ ¬ Tagged writeImmSetup (s.proxies 0)) ∧
    ∃ s : Session.State Epochs, Reaches (Session.step onePlan) always onePlan.init s ∧
      s.host.pc = .prepared ∧ s.host.drained = true ∧
      notifies (s.proxies 0).events = 1 ∧ barriersTo 0 (s.proxies 0).events = 0 ∧
      owed 0 (s.proxies 0).proxy = 0 ∧ ¬ Tagged writeImmSetup (s.proxies 0) :=
  ⟨⟨(run (Session.step onePlan) always unpaused onePlan.init).get (by decide +kernel),
      reaches_of_run _ _ _ (Option.some_get _).symm, by decide +kernel, by decide +kernel,
      by decide +kernel, by decide +kernel, fun h => absurd (h.once 0 (by decide +kernel))
        (by decide +kernel)⟩,
    ⟨(run (Session.step onePlan) always paused onePlan.init).get (by decide +kernel),
      reaches_of_run _ _ _ (Option.some_get _).symm, by decide +kernel, by decide +kernel,
      by decide +kernel, by decide +kernel, by decide +kernel,
      fun h => absurd (h.once 0 (by decide +kernel)) (by decide +kernel)⟩⟩

end Sample

end Efa

end Internode

end MKernel
