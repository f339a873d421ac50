import MKernel.Core.History
import MKernel.Internode.Cx7.Order

/-!
# Notifies in the CX7 Proxy

When the stage barrier of a notify may be posted, and when it is posted too
early.

A notify means that the WRITEs pushed before it are on their way, so its stage
barrier belongs behind them. The collection loop posts it on the spot. If the
batch is empty at that moment, nothing polled before is still held: the stash is
empty whenever the loop polls. If the batch is not empty, the stage barrier goes
out before the commands of the batch, and on a QP that need not be theirs. A
WRITE that was given up is not posted at all.

So in a run in which every notify is polled with an empty batch, after no WRITE
was given up, every stage barrier follows all the WRITEs polled before it
(`notify_after_writes`). One WRITE and one notify behind it in the FIFO are
enough for the other case (`notify_before_write`).

## Main definitions

* `MeetsNotify`: The collection loop is about to poll a notify.
* `NotifyClears`: The condition on a run.
* `BehindWrites`: A stage barrier is posted after the WRITEs polled before it.
* `BarrierInv`: The invariant.

## Theorems

* `step_barrier`: When a stage barrier is posted.
* `barrier_of_reaches`: Runs under the condition keep the invariant.
* `notify_after_writes`: There, no stage barrier overtakes a WRITE.
* `notify_before_write`: Elsewhere one does.
-/

namespace MKernel

namespace Internode

namespace Cx7

open MKernel.Core

variable {setup : Setup} {w w' : World}

/-- The batch being collected while a notify is served. -/
def Pc.serving : Pc → Option Collect
  | .stageBarrier c _ => some c
  | .stageCount c _ => some c
  | _ => none

/-- The collection loop is about to poll a notify. -/
def MeetsNotify (setup : Setup) (w : World) (c : Collect) : Prop :=
  Fills setup c ∧ ∃ r ∈ pollFifo setup w, r.1.cmd.cmdType = .barrierNotify

instance (w : World) (c : Collect) : Decidable (MeetsNotify setup w c) := by
  unfold MeetsNotify
  infer_instance

/-- The condition on a run: a notify is polled with an empty batch, after no
    WRITE was given up. -/
def NotifyClears (setup : Setup) (w : World) : Action → Prop
  | .proxy _ _ =>
      match w.pc with
      | .fill c => MeetsNotify setup w c → c.batch = [] ∧ droppedOf w.hist = []
      | _ => True
  | _ => True

instance (w : World) (a : Action) : Decidable (NotifyClears setup w a) := by
  unfold NotifyClears
  generalize w.pc = pc
  apply @Action.casesOn _ a
  case proxy => exact fun _ _ => by apply @Pc.casesOn _ pc <;> intros <;> infer_instance
  all_goals intros; infer_instance

/-- A stage barrier is posted when all WRITEs polled before it are. -/
def BehindWrites (before : List Event) (e : Event) : Prop :=
  ∀ i token, e = .stageBarrier i token → ∀ p ∈ writesPolled before, p ∈ postedOf before

/-- What one action has to do with notifies: what it adds to the history, and
    how it comes to serve one. -/
structure Serves (setup : Setup) (a : Action) (w w' : World) (l : List Event) : Prop where
  hist : w'.hist = w.hist ++ l
  barrier : ∀ i token, Event.stageBarrier i token ∈ l →
    l = [.stageBarrier i token] ∧ w.pc.serving ≠ none
  enter : ∀ c, w'.pc.serving = some c → droppedOf l = [] ∧
    (w.pc.serving = some c ∨ (∃ ok ne, a = .proxy ok ne) ∧ w.pc = .fill c ∧ MeetsNotify setup w c)

/-- An action away from notifies. -/
theorem Serves.away {a : Action} {l : List Event} (hhist : w'.hist = w.hist ++ l)
    (hl : ∀ i token, Event.stageBarrier i token ∉ l) (hpc : w'.pc.serving = none) :
    Serves setup a w w' l where
  hist := hhist
  barrier := fun i token hm => absurd hm (hl i token)
  enter := fun c hc => by
    rw [hpc] at hc
    exact absurd hc (by simp only [reduceCtorEq, not_false_eq_true])

/-- An action while a notify is or is not served, which changes nothing about
    it. -/
theorem Serves.keep {a : Action} {l : List Event} (hhist : w'.hist = w.hist ++ l)
    (hl : ∀ i token, Event.stageBarrier i token ∉ l) (hd : droppedOf l = [])
    (hpc : w'.pc.serving = w.pc.serving) : Serves setup a w w' l where
  hist := hhist
  barrier := fun i token hm => absurd hm (hl i token)
  enter := fun _ hc => ⟨hd, Or.inl (hpc ▸ hc)⟩

theorem serving_endFill (setup : Setup) (w : World) (c : Collect) :
    (endFill setup w c).hist = w.hist ∧ (endFill setup w c).pc.serving = none := by
  unfold endFill
  split <;> exact ⟨rfl, rfl⟩

/-- One turn of the collection loop serves a notify only if it polls one. -/
theorem fillStep_serves {c : Collect} {ok : Bool} {ne : Nat} (hpc : w.pc = .fill c) :
    ∃ l, Serves setup (.proxy ok ne) w (fillStep setup w c) l := by
  have hend : ∀ v : World, v.hist = w.hist →
      ∃ l, Serves setup (.proxy ok ne) w (endFill setup v c) l := by
    intro v hv
    -- The loop ends in the filter or the post.
    rcases serving_endFill setup v c with ⟨hh, hs⟩
    exact ⟨[], .away (by rw [hh, hv, List.append_nil]) (by simp) hs⟩
  unfold fillStep
  split
  · rename_i hfills
    cases hp : pollFifo setup w with
    | none => exact hend w rfl
    | some r =>
        rcases r with ⟨p, w₁⟩
        rcases pollFifo_eq_some hp with ⟨f, -, -, hw₁⟩
        have hhist : w₁.hist = w.hist ++ [Event.polled p] := by rw [hw₁]
        simp only
        cases hty : p.cmd.cmdType with
        -- The one place where a notify begins to be served.
        | barrierNotify =>
            refine ⟨[.polled p], hhist, fun i token hm => ?_, fun d hd => ⟨rfl, Or.inr ?_⟩⟩
            · exact absurd (List.mem_singleton.mp hm)
                (by simp only [reduceCtorEq, not_false_eq_true])
            · rw [← Option.some.inj hd]
              exact ⟨⟨ok, ne, rfl⟩, hpc, hfills, ⟨p, w₁⟩, hp, hty⟩
        | write =>
            simp only
            unfold collectWrite
            split
            · dsimp only
              split
              · exact ⟨[.polled p, .dropped [p]], .away (by simp [hhist]) (by simp) rfl⟩
              · split
                · exact ⟨[.polled p], .away hhist (by simp) rfl⟩
                · split
                  · exact ⟨[.polled p], .away hhist (by simp) rfl⟩
                  · rcases serving_endFill setup { w₁ with pendingCmd := some p } c with ⟨hh, hs⟩
                    exact ⟨[.polled p], .away (by rw [hh, hhist]) (by simp) hs⟩
            · exact ⟨[.polled p], .away hhist (by simp) rfl⟩
        | empty => exact ⟨[.polled p], .away hhist (by simp) rfl⟩
        | fence => exact ⟨[.polled p], .away hhist (by simp) rfl⟩
  · exact hend w rfl

section Turns

variable {a : Action}

/-- An action that writes nothing down, and leaves no notify being served. -/
theorem Serves.move (hhist : w'.hist = w.hist) (hpc : w'.pc.serving = none) :
    ∃ l, Serves setup a w w' l :=
  ⟨[], .away (by rw [hhist, List.append_nil]) (by simp) hpc⟩

theorem forwardStep_serves (i : Nat) (ok : Bool) :
    ∃ l, Serves setup a w (forwardStep setup w i ok) l := by
  unfold forwardStep
  split
  · dsimp only
    split
    · exact Serves.move rfl rfl
    · split
      · split
        · exact ⟨_, .away rfl (by simp) rfl⟩
        · exact Serves.move rfl rfl
      · exact Serves.move rfl rfl
  · exact Serves.move rfl rfl

/-- A stage barrier is posted for the notify that is served, as long as there are peers. -/
theorem stageBarrierStep_serves {c : Collect} {p : Nat} (hpc : w.pc = .stageBarrier c p)
    (ok : Bool) : ∃ l, Serves setup a w (stageBarrierStep setup w c p ok) l := by
  have hserving : w.pc.serving = some c := by rw [hpc]; rfl
  unfold stageBarrierStep
  split
  · split
    · refine ⟨[.stageBarrier p w.epoch], rfl, fun i token hm => ?_, fun d hd =>
        ⟨rfl, Or.inl ?_⟩⟩
      · rw [hserving, List.mem_singleton.mp hm]
        exact ⟨rfl, by simp only [ne_eq, reduceCtorEq, not_false_eq_true]⟩
      · exact hserving.trans hd
    · -- A call that fails is passed over, and the notify is still served.
      exact ⟨[], .keep (List.append_nil _).symm (by simp) rfl hserving.symm⟩
  · exact Serves.move rfl rfl

theorem filterStep_serves (rest kept : List Polled) (qp stridedPosted : Int) (ok : Bool) :
    ∃ l, Serves setup a w (filterStep setup w rest kept qp stridedPosted ok) l := by
  unfold filterStep
  split
  · exact Serves.move rfl rfl
  · split
    · split
      · split <;> exact ⟨_, .away rfl (by simp) rfl⟩
      · exact ⟨_, .away rfl (by simp) rfl⟩
    · exact Serves.move rfl rfl

theorem postStep_serves (batch : List Polled) (qp stridedPosted : Int) (ok : Bool) :
    ∃ l, Serves setup a w (postStep setup w batch qp stridedPosted ok) l := by
  unfold postStep
  split
  · exact Serves.move rfl rfl
  · dsimp only
    split <;> exact ⟨_, .away rfl (by simp) rfl⟩

end Turns

/-- One action of the proxy. -/
theorem proxyStep_serves {ok : Bool} {ne : Nat} (hstep : proxyStep setup w ok ne = some w') :
    ∃ l, Serves setup (.proxy ok ne) w w' l := by
  unfold proxyStep at hstep
  cases hpc : w.pc with
  | loop | pauseGate | pausedSpin =>
      simp only [hpc, Option.some.injEq] at hstep
      rw [← hstep]
      refine Serves.move rfl ?_
      dsimp only
      split <;> rfl
  | ackStore | ackClear | forwardCount i | account count stridedPosted | advanceTail =>
      simp only [hpc, Option.some.injEq] at hstep
      rw [← hstep]
      exact Serves.move rfl rfl
  | stridedCount stridedPosted posted =>
      simp only [hpc, Option.some.injEq] at hstep
      rw [← hstep]
      exact Serves.move rfl rfl
  | forwardGate =>
      simp only [hpc] at hstep
      split at hstep <;>
        · rw [← Option.some.inj hstep]
          exact Serves.move rfl rfl
  | forward i =>
      simp only [hpc, Option.some.injEq] at hstep
      rw [← hstep]
      exact forwardStep_serves i ok
  | collect =>
      simp only [hpc, Option.some.injEq] at hstep
      rw [← hstep]
      unfold collectStep
      split
      · split <;> exact Serves.move rfl rfl
      · exact Serves.move rfl rfl
  | fill c =>
      simp only [hpc, Option.some.injEq] at hstep
      rw [← hstep]
      exact fillStep_serves hpc
  | stageBarrier c p =>
      simp only [hpc, Option.some.injEq] at hstep
      rw [← hstep]
      exact stageBarrierStep_serves hpc ok
  | stageCount c p =>
      simp only [hpc, Option.some.injEq] at hstep
      rw [← hstep]
      -- The notify is not done with until its barriers are posted to all peers.
      exact ⟨[], .keep (List.append_nil _).symm (by simp) rfl (by rw [hpc]; rfl)⟩
  | filter rest kept qp stridedPosted =>
      simp only [hpc, Option.some.injEq] at hstep
      rw [← hstep]
      exact filterStep_serves rest kept qp stridedPosted ok
  | post batch qp stridedPosted =>
      simp only [hpc, Option.some.injEq] at hstep
      rw [← hstep]
      exact postStep_serves batch qp stridedPosted ok
  | pollCq posted =>
      simp only [hpc, Option.some.injEq] at hstep
      rw [← hstep, pollNic_eq]
      refine ⟨_, .away rfl (by simp) ?_⟩
      dsimp only
      split <;> rfl
  | exitDrain =>
      simp only [hpc] at hstep
      split at hstep
      · rw [← Option.some.inj hstep, pollNic_eq]
        exact ⟨_, .away rfl (by simp) (by rw [hpc]; rfl)⟩
      · rw [← Option.some.inj hstep]
        exact Serves.move rfl rfl
  | exited => simp only [hpc, reduceCtorEq] at hstep

/-- When a stage barrier is posted, and how an action comes to serve a notify. -/
theorem step_barrier {a : Action} (hstep : step setup w a = some w') :
    ∃ l, Serves setup a w w' l := by
  -- Most actions write nothing to the history.
  have hkept : ∀ w' : World, w'.hist = w.hist → w'.pc = w.pc →
      ∃ l, Serves setup a w w' l := fun w' hh hp =>
    ⟨[], .keep (by rw [hh, List.append_nil]) (by simp) rfl (by rw [hp])⟩
  cases a with
  | claim cmd | stop | fifoReset =>
      rw [← Option.some.inj hstep]
      exact hkept _ rfl rfl
  | forwardNotify slot n | resetForwardNotifyTable =>
      rw [← Option.some.inj hstep]
      exact hkept _ rfl rfl
  | publish | host b =>
      rcases Option.map_eq_some_iff.mp hstep with ⟨x, -, rfl⟩
      exact hkept _ rfl rfl
  | place i | complete i =>
      simp only [step, Option.ite_none_right_eq_some] at hstep
      rcases Option.map_eq_some_iff.mp hstep.2 with ⟨x, -, rfl⟩
      exact hkept _ rfl rfl
  | hostDrain ne =>
      simp only [step, Option.ite_none_right_eq_some, Option.some.injEq] at hstep
      rw [← hstep.2, pollNic_eq]
      exact ⟨_, .keep rfl (by simp) (droppedOf_quiet (quiet_reaped _)) rfl⟩
  | hostReset =>
      simp only [step, Option.ite_none_right_eq_some, Option.some.injEq] at hstep
      rw [← hstep.2]
      exact hkept _ rfl rfl
  | setEpoch epoch =>
      rw [← Option.some.inj hstep]
      exact ⟨[.epoch epoch], .keep rfl (by simp) rfl rfl⟩
  | hostBarrier p slot token =>
      simp only [step, Option.ite_none_right_eq_some, Option.some.injEq] at hstep
      rw [← hstep.2]
      exact ⟨[.hostBarrier p slot token], .keep rfl (by simp) rfl rfl⟩
  | proxy ok ne => exact proxyStep_serves hstep

/-- The invariant of the stage barriers. -/
structure BarrierInv (setup : Setup) (w : World) : Prop where
  order : OrderInv setup w
  serving : ∀ c, w.pc.serving = some c → c.batch = [] ∧ droppedOf w.hist = []
  along : Along BehindWrites w.hist

/-- While a notify is served under the condition, nothing is held. -/
theorem BarrierInv.held_eq (h : BarrierInv setup w) {c : Collect} (hc : w.pc.serving = some c) :
    held w = [] := by
  have hb := (h.serving c hc).1
  have hs := h.order.flow.site
  cases hpc : w.pc with
  | stageBarrier d i | stageCount d i =>
      rw [hpc] at hc hs
      have hd : d = c := Option.some.inj hc
      -- The stash is empty while a notify is served, and so is the batch.
      rw [held, hpc, hs.2, Option.toList_none, List.append_nil]
      simp only [Pc.unposted]
      rw [hd, hb]
  | _ =>
      rw [hpc] at hc
      exact absurd hc (by simp only [Pc.serving, reduceCtorEq, not_false_eq_true])

/-- While a notify is served under the condition, every WRITE polled is
    posted. -/
theorem BarrierInv.behind (h : BarrierInv setup w) {c : Collect} (hc : w.pc.serving = some c) :
    ∀ p ∈ writesPolled w.hist, p ∈ postedOf w.hist := by
  intro p hp
  -- What was polled was posted, given up or is held; here only the first.
  have hperm := h.order.perm
  rw [(h.serving c hc).2, h.held_eq hc, List.append_nil, List.append_nil] at hperm
  exact hperm.subset hp

theorem step_barrierInv (h : BarrierInv setup w) {a : Action} (hok : NotifyClears setup w a)
    (hstep : step setup w a = some w') : BarrierInv setup w' := by
  rcases step_barrier hstep with ⟨l, hl⟩
  refine ⟨step_order h.order hstep, fun c hc => ?_, ?_⟩
  · rcases hl.enter c hc with ⟨hd, hfrom⟩
    rw [hl.hist, droppedOf_append, hd, List.append_nil]
    -- It was served before, or its poll met the condition.
    rcases hfrom with hin | ⟨⟨ok, ne, rfl⟩, hfill, hmeets⟩
    · exact h.serving c hin
    · simp only [NotifyClears, hfill] at hok
      exact hok hmeets
  · rw [hl.hist]
    refine along_append h.along fun before e after hs i token he => ?_
    have hm : Event.stageBarrier i token ∈ l := by
      rw [hs, he]
      exact List.mem_append_right _ (.head _)
    rcases hl.barrier i token hm with ⟨hone, hserving⟩
    -- It is the only event of its step, so what came before is the history so far.
    have hnil : before = [] := by
      have hlen := congrArg List.length (hs.symm.trans hone)
      simp only [List.length_append, List.length_cons, List.length_nil] at hlen
      exact List.eq_nil_of_length_eq_zero (by omega)
    rw [hnil, List.append_nil]
    rcases Option.ne_none_iff_exists'.mp hserving with ⟨c, hc⟩
    exact h.behind hc

theorem barrierInv_init : BarrierInv setup (init setup) where
  order := order_init
  serving := fun c hc =>
    absurd hc (by simp only [init, Pc.serving, reduceCtorEq, not_false_eq_true])
  along := along_nil

/-- Runs under the condition keep the invariant. -/
theorem barrier_of_reaches (h : Reaches (step setup) (NotifyClears setup) (init setup) w) :
    BarrierInv setup w :=
  invariant_of_reaches (BarrierInv setup) (fun _ _ _ hi hok hstep => step_barrierInv hi hok hstep) h
    barrierInv_init

/-- In every run in which each notify is polled with an empty batch, after no
    WRITE was given up: when a stage barrier of a notify is posted, every WRITE
    polled before is posted, and nothing is held while the notify is served. -/
theorem notify_after_writes (h : Reaches (step setup) (NotifyClears setup) (init setup) w) :
    (∀ before i token after, w.hist = before ++ .stageBarrier i token :: after →
      ∀ p ∈ writesPolled before, p ∈ postedOf before) ∧
    ∀ c, w.pc.serving = some c → held w = [] := by
  have hi := barrier_of_reaches h
  exact ⟨fun before i token after hs => hi.along before _ after hs i token rfl,
    fun _ hc => hi.held_eq hc⟩

section Sample

/-- A WRITE, and a notify pushed when the WRITE is posted. -/
def notifiedLate : World :=
  (run (step sampleSetup) (NotifyClears sampleSetup)
    (pushes [writeCmd 0 0] ++ goes 13 ++ pushes [notifyCmd] ++ goes 6)
    (init sampleSetup)).get (by decide +kernel)

theorem notify_after_writes_late :
    ∃ p ∈ writesPolled (notifiedLate.hist.take 3), p ∈ postedOf (notifiedLate.hist.take 3) :=
  have ⟨p, hp⟩ := List.exists_mem_of_ne_nil (writesPolled (notifiedLate.hist.take 3))
    (by decide +kernel)
  ⟨p, hp, (notify_after_writes (w := notifiedLate)
    (reaches_of_run _ _ _ (Option.some_get _).symm)).1
      (notifiedLate.hist.take 3) 0 1 [] (by decide +kernel) p hp⟩

/-- A WRITE with a notify behind it. -/
def notifiedEarly : World :=
  (run (step sampleSetup) always (pushes [writeCmd 0 0, notifyCmd] ++ goes 7)
    (init sampleSetup)).get (by decide +kernel)

/-- The stage barrier goes out while the WRITE is still in the batch. -/
theorem notify_before_write :
    ¬ ∀ (setup : Setup) (w : World), Reaches (step setup) always (init setup) w →
      ∀ before i token after, w.hist = before ++ .stageBarrier i token :: after →
        ∀ p ∈ writesPolled before, p ∈ postedOf before := by
  intro h
  have hrun := h sampleSetup notifiedEarly (reaches_of_run _ _ _ (Option.some_get _).symm)
    (notifiedEarly.hist.take 2) 0 1 [] (by decide +kernel)
  exact absurd hrun (by decide +kernel)

end Sample

end Cx7

end Internode

end MKernel
