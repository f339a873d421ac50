import MKernel.Internode.Efa.Drain
import MKernel.Internode.Efa.Notify

/-!
# One Stage Barrier for Each Notify

How many stage barriers the EFA proxy posts, and what overtakes them.

A notify that is met behind a batch is remembered in one flag. After the poll
loop has set it, the spin loop goes on polling the same FIFO. A second notify it
meets sets the flag again, and two notifies become one barrier. A WRITE it
meets joins the batch, or is stashed and seeds the next batch before the gate
is reached, and is posted ahead of the barrier it was polled behind
(`barrier_order_broken`).

All goes well as long as the spin loop, once the flag is set, finds nothing but
an empty FIFO (`NotifyIsLast`). Then the flag is clear whenever the poll loop
runs, no notify is lost, and a WRITE is only polled with nothing owed.

## Main definitions

* `NotifyIsLast`: The condition on a run.
* `BarrierInv`: Where the flag can be set, and what each WRITE polled knows.
* `BarrierOrder`: Each notify has its barrier, and no WRITE overtakes it.

## Theorems

* `BarrierInv.counted`: No notify is lost under the condition.
* `BarrierInv.of_silent`, `BarrierInv.of_polled`: Steps that keep the invariant.
* `barrier_of_reaches`: Runs under the condition keep it.
* `barrier_order`: There, every notify is served, and served in order.
* `barrier_order_broken`: Elsewhere it is not.
-/

namespace MKernel

namespace Internode

namespace Efa

open MKernel.Core

variable {setup : Setup} {w w' : World} {h l : List Event}

/-- The next poll returns neither a WRITE nor a notify. -/
def NothingNext (setup : Setup) (w : World) : Prop :=
  ∀ r ∈ pollFifo setup w, r.1.cmd.cmdType ≠ .write ∧ r.1.cmd.cmdType ≠ .barrierNotify

/-- The condition on a run: once the flag is set, the spin loop meets neither
    a WRITE nor a notify; the calls that post stage barriers succeed; and the
    host starts no epoch over a notify that is still flagged. -/
def NotifyIsLast (setup : Setup) (w : World) : Action → Prop
  | .proxy ok _ =>
      match w.pc with
      | .accumulate c spin misses =>
          w.hasPendingBarrier = true → Spins setup c spin misses → NothingNext setup w
      | .stageBarrier _ p => Addressed setup p → ok = true
      | _ => True
  | .hostReset => w.hasPendingBarrier = false
  | _ => True

instance (setup : Setup) (w : World) (a : Action) : Decidable (NotifyIsLast setup w a) := by
  unfold NotifyIsLast NothingNext
  generalize w.pc = pc
  apply @Action.casesOn _ a
  case proxy => exact fun _ _ => by apply @Pc.casesOn _ pc <;> intros <;> infer_instance
  all_goals intros; infer_instance

/-- Where the flag can be set. -/
def FlagSite (pc : Pc) (pendingBatch : List Polled) : Prop :=
  match pc with
  | .fill _ => False
  | .drainCq _ => False
  | .stageBarrier _ _ => False
  | .stageCount _ _ => False
  | .collect => pendingBatch ≠ []
  | _ => True

/-- A WRITE is polled when every notify before it has its stage barriers, and
    posted when it was polled. -/
def Served (setup : Setup) (before : List Event) (e : Event) : Prop :=
  (∀ p, e = .polled p → p.cmd.cmdType = .write →
    ∀ q, Addressed setup q → notifies before = barriersTo q before) ∧
  ∀ p ∈ e.batch, p ∈ writesPolled before

/-- The invariant of the stage barriers. -/
structure BarrierInv (setup : Setup) (w : World) : Prop where
  flag : w.hasPendingBarrier = true → w.pendingCmd = none ∧ FlagSite w.pc w.pendingBatch
  along : Along (Served setup) w.hist

theorem served_silent {e : Event} (he : e.Silent) : Served setup h e := by
  refine ⟨fun p hp => ?_, fun p hp => ?_⟩
  · rw [hp] at he
    exact absurd he.1 (by simp only [Event.polled?, reduceCtorEq, not_false_eq_true])
  · rw [he.2.1] at hp
    exact absurd hp List.not_mem_nil

theorem barrier_init : BarrierInv setup (init setup) where
  flag := by
    intro hf
    exact absurd hf (by simp only [init, Bool.false_eq_true, not_false_eq_true])
  along := along_nil

/-- Under the condition the flag is clear wherever a notify is polled. -/
theorem BarrierInv.counted (hi : BarrierInv setup w) {a : Action} (hok : NotifyIsLast setup w a) :
    NotifyCounted setup w a := by
  cases a with
  | proxy ok ne =>
      simp only [NotifyIsLast] at hok
      simp only [NotifyCounted, Polls]
      cases hpc : w.pc with
      -- The flag is not set while the batch is collected.
      | fill c =>
          refine ⟨fun hf => ?_, trivial⟩
          have hsite := (hi.flag hf).2
          rw [hpc] at hsite
          exact absurd hsite not_false
      -- The spin loop takes a command only on what the condition promises.
      | accumulate c spin misses =>
          simp only [hpc] at hok
          exact ⟨fun hf hspin r hr => (hok hf hspin r hr).2, trivial⟩
      | stageBarrier site p =>
          simp only [hpc] at hok
          exact ⟨fun _ hc => absurd hc not_false, hok⟩
      | _ => exact ⟨fun _ hc => absurd hc not_false, trivial⟩
  | hostReset => exact hok
  | _ => trivial

/-- Steps whose events are silent. -/
theorem BarrierInv.of_silent (hi : BarrierInv setup w) {l : List Event}
    (hhist : w'.hist = w.hist ++ l) (hes : ∀ e ∈ l, e.Silent)
    (hflag : w'.hasPendingBarrier = true → w'.pendingCmd = none ∧ FlagSite w'.pc w'.pendingBatch) :
    BarrierInv setup w' := by
  refine ⟨hflag, ?_⟩
  rw [hhist]
  exact along_append hi.along fun before e after hs =>
    served_silent (hes e (by rw [hs]; exact List.mem_append_right _ List.mem_cons_self))

/-- Steps without events. -/
theorem BarrierInv.of_same (hi : BarrierInv setup w) (hhist : w'.hist = w.hist)
    (hflag : w'.hasPendingBarrier = true → w'.pendingCmd = none ∧ FlagSite w'.pc w'.pendingBatch) :
    BarrierInv setup w' :=
  hi.of_silent (l := []) (by rw [hhist, List.append_nil]) (by simp) hflag

/-- Steps that poll one command, a WRITE only with nothing owed. -/
theorem BarrierInv.of_polled (hi : BarrierInv setup w) (hc : CountInv setup w) {p : Polled}
    (hhist : w'.hist = w.hist ++ [Event.polled p])
    (hflag : w'.hasPendingBarrier = true → w'.pendingCmd = none ∧ FlagSite w'.pc w'.pendingBatch)
    (hwrite : p.cmd.cmdType = .write → ∀ q, owed q w = 0) : BarrierInv setup w' := by
  refine ⟨hflag, ?_⟩
  rw [hhist]
  refine along_concat.mpr ⟨hi.along, fun r hr hw q hq => ?_, fun r hr => ?_⟩
  · rw [← Event.polled.inj hr] at hw
    rw [hc q hq, hwrite hw q, Nat.add_zero]
  · exact absurd hr List.not_mem_nil

/-- Steps that poll a WRITE, with the flag clear. -/
theorem BarrierInv.of_write (hi : BarrierInv setup w) (hc : CountInv setup w) {p : Polled}
    (hhist : w'.hist = w.hist ++ [Event.polled p]) (hf : w'.hasPendingBarrier = false)
    (hzero : ∀ q, owed q w = 0) : BarrierInv setup w' := by
  refine hi.of_polled hc hhist (fun ht => ?_) (fun _ => hzero)
  rw [hf] at ht
  exact absurd ht Bool.false_ne_true

theorem Closes.flagSite {c : Collect} {cmd : Option Polled} {pc : Pc} (hc : Closes c cmd pc)
    (b : List Polled) : FlagSite pc b := by
  rcases hc with rfl | ⟨rfl, -⟩ <;> trivial

/-- One turn of the loops of step 1, when a WRITE or a notify is polled only
    with the flag clear. -/
theorem turn_barrier (ho : OrderInv setup w) (hc : CountInv setup w) (hi : BarrierInv setup w)
    {c : Collect}
    (hpc : w.pc = .fill c ∨ ∃ s m, w.pc = .accumulate c s m)
    (hnext : w.hasPendingBarrier = true → NothingNext setup w) (ht : Turn setup w c w') :
    BarrierInv setup w' := by
  have howed0 : ∀ q, w.pc.owed q = 0 := by
    intro q
    rcases hpc with hpc | ⟨s, m, hpc⟩ <;> rw [hpc] <;> rfl
  -- A WRITE or a notify is only polled with nothing owed.
  have hclear : ∀ {p : Polled} {w₁ : World}, pollFifo setup w = some (p, w₁) →
      p.cmd.cmdType = .write ∨ p.cmd.cmdType = .barrierNotify → w.hasPendingBarrier = false := by
    intro p w₁ hp hty
    cases hf : w.hasPendingBarrier with
    | false => rfl
    | true =>
        have hne := hnext hf (p, w₁) hp
        rcases hty with hty | hty
        · exact absurd hty hne.1
        · exact absurd hty hne.2
  have hzero : w.hasPendingBarrier = false → ∀ q, owed q w = 0 := by
    intro hf q
    rw [owed, hf, howed0]
    rfl
  cases ht with
  | close head pc hcl => exact hi.of_same rfl fun hf => ⟨(hi.flag hf).1, hcl.flagSite _⟩
  | miss spin misses hw => exact hi.of_same rfl fun hf => ⟨(hi.flag hf).1, trivial⟩
  | ignored p w₁ pc hp hw hn hpc' =>
      rcases pollFifo_flag hp with ⟨h1, h5⟩
      rcases pollFifo_fields hp with ⟨-, h2, -, h4⟩
      refine hi.of_polled hc h1 ?_ (fun hwr => absurd hwr hw)
      dsimp only
      rw [h5, h4, h2]
      intro hf
      refine ⟨(hi.flag hf).1, ?_⟩
      have hsite := (hi.flag hf).2
      rcases hpc' with ⟨hw', rfl⟩ | ⟨-, s, m, rfl⟩
      · rw [hw'] at hsite
        exact hsite
      · trivial
  | inlineNotify p w₁ hp hn hw hnil hlt =>
      rcases pollFifo_flag hp with ⟨h1, h5⟩
      have hf := hclear hp (Or.inr hn)
      refine hi.of_polled hc h1 ?_ (fun _ => hzero hf)
      dsimp only
      rw [h5, hf]
      intro ht
      exact absurd ht Bool.false_ne_true
  | flagNotify p w₁ head pc hp hn hne hcl =>
      rcases pollFifo_flag hp with ⟨h1, -⟩
      rcases pollFifo_fields hp with ⟨-, -, -, h4⟩
      have hf := hclear hp (Or.inr hn)
      refine hi.of_polled hc h1 (fun _ => ⟨?_, hcl.flagSite _⟩) (fun _ => hzero hf)
      dsimp only
      rw [h4]
      exact ho.stash_none hpc (Or.inr (ho.batch_ne_nil hpc hne))
  | first p w₁ hp hwr hw hnil hlt =>
      rcases pollFifo_flag hp with ⟨h1, h5⟩
      have hf := hclear hp (Or.inl hwr)
      exact hi.of_write hc h1 (h5.trans hf) (hzero hf)
  | join p w₁ pc hp hwr ha hpc' =>
      rcases pollFifo_flag hp with ⟨h1, h5⟩
      have hf := hclear hp (Or.inl hwr)
      exact hi.of_write hc h1 (h5.trans hf) (hzero hf)
  | stash p w₁ head hp hwr hne =>
      rcases pollFifo_flag hp with ⟨h1, h5⟩
      have hf := hclear hp (Or.inl hwr)
      exact hi.of_write hc h1 (h5.trans hf) (hzero hf)

/-- The loop over peers runs with the flag clear, and polls nothing. -/
theorem stageBarrierStep_barrier (hi : BarrierInv setup w) {site : BarrierSite} {p : Nat}
    (hpc : w.pc = .stageBarrier site p) (ok : Bool) :
    BarrierInv setup (stageBarrierStep setup w site p ok) := by
  have hflag : w.hasPendingBarrier = true → ∀ (P : Prop), P := by
    intro hf
    have hsite := (hi.flag hf).2
    rw [hpc] at hsite
    exact absurd hsite not_false
  unfold stageBarrierStep
  split
  · dsimp only
    split
    · exact hi.of_same rfl fun hf => hflag hf _
    · split
      · refine ⟨fun hf => hflag hf _, along_concat.mpr ⟨hi.along, fun r hr => ?_, fun r hr => ?_⟩⟩
        · exact absurd hr (by simp only [reduceCtorEq, not_false_eq_true])
        · exact absurd hr List.not_mem_nil
      · exact hi.of_same rfl fun hf => hflag hf _
  · exact hi.of_same rfl fun hf => hflag hf _

theorem drainReap_barrier (hi : BarrierInv setup w) (ne : Nat) :
    BarrierInv setup (pollNic drainReap w ne) := by
  rw [pollNic_drainReap]
  exact hi.of_silent rfl (silent_reaped _) hi.flag

/-- Step 2 posts what was polled. -/
theorem postStep_barrier (ho : OrderInv setup w) (hi : BarrierInv setup w) {c : Collect}
    (hpc : w.pc = .post c) (ok : Bool) : BarrierInv setup (postStep setup w c ok) := by
  have hpolled : ∀ p ∈ c.batch, p ∈ writesPolled w.hist := by
    intro p hp
    rw [ho.split, held, hpc]
    exact List.mem_append_right _ (List.mem_append_left _ hp)
  unfold postStep
  split
  · exact hi.of_same rfl fun hf => ⟨(hi.flag hf).1, trivial⟩
  · dsimp only
    split
    · refine ⟨fun hf => ⟨(hi.flag hf).1, trivial⟩,
        along_concat.mpr ⟨hi.along, fun r hr => ?_, hpolled⟩⟩
      exact absurd hr (by simp only [reduceCtorEq, not_false_eq_true])
    · exact hi.of_same rfl fun hf => ⟨(hi.flag hf).1, trivial⟩

/-- One action of the proxy thread keeps the invariant. -/
theorem proxyStep_barrier (ho : OrderInv setup w) (hc : CountInv setup w) (hi : BarrierInv setup w)
    {ok : Bool} {ne : Nat} (hok : NotifyIsLast setup w (.proxy ok ne))
    (hstep : proxyStep setup w ok ne = some w') : BarrierInv setup w' := by
  simp only [NotifyIsLast] at hok
  unfold proxyStep at hstep
  cases hpc : w.pc with
  | loop | pauseGate | pausedSpin =>
      simp only [hpc, Option.some.injEq] at hstep
      rw [← hstep]
      refine hi.of_same rfl fun hf => ⟨(hi.flag hf).1, ?_⟩
      dsimp only
      split <;> trivial
  | ackStore | ackClear | advanceTail | account c =>
      simp only [hpc, Option.some.injEq] at hstep
      rw [← hstep]
      exact hi.of_same rfl fun hf => ⟨(hi.flag hf).1, trivial⟩
  | barrierGate =>
      simp only [hpc] at hstep
      split at hstep <;> rename_i hgate <;> rw [← Option.some.inj hstep]
      · exact hi.of_same rfl fun hf => absurd hf Bool.false_ne_true
      · refine hi.of_same rfl fun hf => ⟨(hi.flag hf).1, ?_⟩
        intro hnil
        exact hgate ⟨hf, hnil, (hi.flag hf).1⟩
  | drainCq site =>
      simp only [hpc] at hstep
      split at hstep <;> rw [← Option.some.inj hstep]
      · exact drainReap_barrier hi ne
      · refine hi.of_same rfl fun hf => ?_
        have hsite := (hi.flag hf).2
        rw [hpc] at hsite
        exact absurd hsite not_false
  | stageBarrier site p =>
      simp only [hpc, Option.some.injEq] at hstep
      rw [← hstep]
      exact stageBarrierStep_barrier hi hpc ok
  | stageCount site p =>
      simp only [hpc, Option.some.injEq] at hstep
      rw [← hstep]
      refine hi.of_same rfl fun hf => ?_
      have hsite := (hi.flag hf).2
      rw [hpc] at hsite
      exact absurd hsite not_false
  | collect =>
      simp only [hpc, Option.some.injEq] at hstep
      have hb := collectStep_begin setup w
      rw [hstep] at hb
      -- With the flag set there is a batch to replay.
      have hretry : w.hasPendingBarrier = true → w.pendingBatch ≠ [] := by
        intro hf
        have hsite := (hi.flag hf).2
        rw [hpc] at hsite
        exact hsite
      cases hb with
      | retry hne => exact hi.of_same rfl fun hf => ⟨(hi.flag hf).1, trivial⟩
      | seed idx p hnil hcmd hlt => exact hi.of_same rfl fun hf => absurd hnil (hretry hf)
      | fresh idx hnil hcmd => exact hi.of_same rfl fun hf => absurd hnil (hretry hf)
  | fill c =>
      simp only [hpc, Option.some.injEq] at hstep
      rw [← hstep]
      refine turn_barrier ho hc hi (Or.inl hpc) (fun hf => ?_) (fillStep_turn hpc)
      have hsite := (hi.flag hf).2
      rw [hpc] at hsite
      exact absurd hsite not_false
  | accumulate c spin misses =>
      rw [hpc] at hok
      simp only [hpc, Option.some.injEq] at hstep
      rw [← hstep]
      by_cases hspin : Spins setup c spin misses
      · exact turn_barrier ho hc hi (Or.inr ⟨spin, misses, hpc⟩) (fun hf => hok hf hspin)
          (accumulateStep_turn hpc)
      · -- The spinning is over, and nothing is polled.
        rw [accumulateStep, if_neg hspin]
        rcases endAccumulate_eq setup w c with ⟨head, heq⟩
        rw [heq]
        exact hi.of_same rfl fun hf => ⟨(hi.flag hf).1, trivial⟩
  | post c =>
      simp only [hpc, Option.some.injEq] at hstep
      rw [← hstep]
      exact postStep_barrier ho hi hpc ok
  | pollCq posted =>
      simp only [hpc, Option.some.injEq] at hstep
      rcases pollNic_reap setup w ne with ⟨es, arrival, hw, -, hes, -⟩
      rw [← hstep, hw]
      refine hi.of_silent rfl ?_ (fun hf => ⟨(hi.flag hf).1, ?_⟩)
      · intro e he
        rcases hes e he with ⟨wr, rfl⟩ | ⟨r, rfl, -⟩ <;> exact ⟨rfl, rfl, fun _ => rfl⟩
      · dsimp only
        split <;> trivial
  | exitDrain =>
      simp only [hpc] at hstep
      split at hstep <;> rw [← Option.some.inj hstep]
      · exact drainReap_barrier hi ne
      · exact hi.of_same rfl fun hf => ⟨(hi.flag hf).1, trivial⟩
  | exited => simp only [hpc, reduceCtorEq] at hstep

/-- One action of anybody keeps the invariant. -/
theorem step_barrier (ho : OrderInv setup w) (hc : CountInv setup w) (hi : BarrierInv setup w)
    {a : Action} (hok : NotifyIsLast setup w a) (hstep : step setup w a = some w') :
    BarrierInv setup w' := by
  cases a with
  | claim k cmd | stop | setEpoch epoch | fifoReset k =>
      rw [← Option.some.inj hstep]
      exact ⟨hi.flag, hi.along⟩
  | publish k | place i | complete i | host b =>
      rcases Option.map_eq_some_iff.mp hstep with ⟨x, -, rfl⟩
      exact ⟨hi.flag, hi.along⟩
  | recv r =>
      simp only [step, Option.ite_none_right_eq_some, Option.some.injEq] at hstep
      rw [← hstep.2]
      exact ⟨hi.flag, hi.along⟩
  | hostDrain ne =>
      simp only [step, Option.ite_none_right_eq_some, Option.some.injEq] at hstep
      rw [← hstep.2]
      exact drainReap_barrier hi ne
  | hostReset =>
      simp only [step, Option.ite_none_right_eq_some, Option.some.injEq] at hstep
      rw [← hstep.2]
      -- The reset zeroes the count, and no barrier is on its way to be posted.
      exact hi.of_same rfl fun hf => absurd hf Bool.false_ne_true
  | hostBarrier p slot token ok =>
      simp only [step, Option.ite_none_right_eq_some, Option.some.injEq] at hstep
      rw [← hstep.2]
      cases ok with
      | true =>
          -- The host's barrier is none of a command.
          refine hi.of_silent rfl (fun e he => ?_) hi.flag
          rw [List.mem_singleton.mp he]
          exact ⟨rfl, rfl, fun _ => rfl⟩
      | false => exact ⟨hi.flag, hi.along⟩
  | proxy ok ne => exact proxyStep_barrier ho hc hi hok hstep

/-- Runs under the condition keep the invariant, and lose no notify. -/
theorem barrier_of_reaches (hr : Reaches (step setup) (NotifyIsLast setup) (init setup) w) :
    CountInv setup w ∧ BarrierInv setup w := by
  have hall : OrderInv setup w ∧ CountInv setup w ∧ BarrierInv setup w := by
    refine invariant_of_reaches
      (fun w => OrderInv setup w ∧ CountInv setup w ∧ BarrierInv setup w) ?_ hr
      ⟨order_init, count_init, barrier_init⟩
    rintro s a t ⟨ho, hc, hi⟩ hok hstep
    exact ⟨step_order ho hstep, hc.of_pays (step_pays (hi.counted hok) hstep),
      step_barrier ho hc hi hok hstep⟩
  exact hall.2

/-- What is asked of stage barriers. At rest, as many were posted to each peer
    as notifies were polled. And a WRITE is posted after it is polled, with
    the stage barriers of all notifies polled before it already posted. -/
structure BarrierOrder (setup : Setup) (w : World) : Prop where
  served : w.pc = .loop → w.pendingBatch = [] → w.pendingCmd = none →
    w.hasPendingBarrier = false → ∀ q, Addressed setup q → barriersTo q w.hist = notifies w.hist
  polled : ∀ before qp slot batch wrs after,
    w.hist = before ++ Event.posted qp slot batch wrs :: after → ∀ p ∈ batch, .polled p ∈ before
  ordered : ∀ before qp slot batch wrs after,
    w.hist = before ++ Event.posted qp slot batch wrs :: after → ∀ p ∈ batch,
    ∀ a n b c, before = a ++ Event.polled n :: (b ++ Event.polled p :: c) →
    n.cmd.cmdType = .barrierNotify → n.fifo = p.fifo →
    ∀ q, Addressed setup q → notifies (a ++ [Event.polled n]) ≤ barriersTo q before

theorem mem_of_writesPolled {p : Polled} (hp : p ∈ writesPolled h) :
    Event.polled p ∈ h ∧ p.cmd.cmdType = .write := by
  rcases List.mem_filter.mp hp with ⟨hm, hw⟩
  rcases List.mem_filterMap.mp hm with ⟨e, he, hep⟩
  cases e with
  | polled r =>
      rw [← Option.some.inj hep]
      refine ⟨he, ?_⟩
      rw [Option.some.inj hep]
      exact of_decide_eq_true hw
  | _ => exact absurd hep (by simp only [Event.polled?, reduceCtorEq, not_false_eq_true])

/-- In every run in which the spin loop meets nothing behind a notify, each
    notify has its stage barrier, and no WRITE overtakes it. -/
theorem barrier_order (hr : Reaches (step setup) (NotifyIsLast setup) (init setup) w) :
    BarrierOrder setup w := by
  rcases barrier_of_reaches hr with ⟨hc, hi⟩
  refine ⟨fun hpc _ _ hf q hq => ?_, fun before qp slot batch wrs after hs p hp => ?_,
    fun before qp slot batch wrs after hs p hp a n b c hb hn _ q hq => ?_⟩
  · rw [hc q hq, owed, hpc, hf]
    rfl
  · exact (mem_of_writesPolled ((hi.along before _ after hs).2 p hp)).1
  · have hw : p.cmd.cmdType = .write :=
      (mem_of_writesPolled ((hi.along before _ after hs).2 p hp)).2
    -- When the WRITE was polled, all notifies had their stage barriers.
    have hsplit : w.hist = (a ++ Event.polled n :: b) ++ Event.polled p ::
        (c ++ Event.posted qp slot batch wrs :: after) := by
      rw [hs, hb]
      simp only [List.append_assoc, List.cons_append]
    have hserved := (hi.along _ _ _ hsplit).1 p rfl hw q hq
    calc notifies (a ++ [Event.polled n])
        ≤ notifies (a ++ [Event.polled n]) + notifies b := Nat.le_add_right _ _
      _ = notifies (a ++ Event.polled n :: b) := by
        rw [← notifies_append, List.append_assoc, List.singleton_append]
      _ = barriersTo q (a ++ Event.polled n :: b) := hserved
      _ ≤ barriersTo q (a ++ Event.polled n :: b) + barriersTo q (.polled p :: c) :=
          Nat.le_add_right _ _
      _ = barriersTo q before := by
        rw [← barriersTo_append, hb, List.append_assoc, List.cons_append]

section Sample

/-- Two WRITEs with a notify between them, the second pushed late. -/
def lateWrite : World :=
  (run (step writeImmSetup) (NotifyIsLast writeImmSetup)
    (pushes 0 [writeCmd 0 0, notifyCmd] ++ goes 22 ++ [Action.place 0, .complete 0] ++ goes 4 ++
      pushes 0 [writeCmd 0 1] ++ goes 20)
    (init writeImmSetup)).get (by decide +kernel)

theorem barrier_order_late : barriersTo 0 lateWrite.hist = notifies lateWrite.hist :=
  (barrier_order (w := lateWrite) (reaches_of_run _ _ _ (Option.some_get _).symm)).served
    (by decide +kernel) (by decide +kernel) (by decide +kernel) (by decide +kernel) 0
    (by decide +kernel)

/-- The second notify is in the FIFO when the spin loop runs: at rest again, the
    proxy has posted one stage barrier for two notifies. -/
def collapsed : World :=
  (run (step writeImmSetup) always
    (pushes 0 [writeCmd 0 0, notifyCmd, notifyCmd] ++ goes 12 ++ [Action.place 0, .complete 0] ++
      goes 7)
    (init writeImmSetup)).get (by decide +kernel)

/-- The second WRITE is in the FIFO when the spin loop runs: it is posted, and
    no stage barrier is. -/
def overtaken : World :=
  (run (step writeImmSetup) always
    (pushes 0 [writeCmd 0 0, notifyCmd, writeCmd 0 1] ++ goes 17) (init writeImmSetup)).get
    (by decide +kernel)

theorem barrier_order_broken :
    (∃ w, Reaches (step writeImmSetup) always (init writeImmSetup) w ∧ w.pc = .loop ∧
      w.pendingBatch = [] ∧ w.pendingCmd = none ∧ w.hasPendingBarrier = false ∧
      barriersTo 0 w.hist < notifies w.hist) ∧
    ∃ w, Reaches (step writeImmSetup) always (init writeImmSetup) w ∧
      ¬ BarrierOrder writeImmSetup w := by
  refine ⟨⟨collapsed, reaches_of_run _ _ _ (Option.some_get _).symm, ?_⟩,
    overtaken, reaches_of_run _ _ _ (Option.some_get _).symm, fun h => ?_⟩
  · decide +kernel
  · let w0 : Polled := ⟨0, 0, writeCmd 0 0⟩
    let n1 : Polled := ⟨0, 1, notifyCmd⟩
    let w2 : Polled := ⟨0, 2, writeCmd 0 1⟩
    have hhist : overtaken.hist = [Event.polled w0, .polled n1, .polled w2] ++
        .posted 0 0 [w0, w2]
          (postWriteImmBatch writeImmSetup samplePeer (samplePeer.dstQpns 0) [w0, w2]) :: [] := by
      decide +kernel
    have hle := h.ordered _ _ _ _ _ _ hhist w2 (by decide) [.polled w0] n1 [] [] rfl rfl rfl 0
      (by decide)
    exact absurd hle (by decide +kernel)

end Sample

end Efa

end Internode

end MKernel
