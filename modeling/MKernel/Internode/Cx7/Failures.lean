import MKernel.Internode.Cx7.Order
import MKernel.Internode.Cx7.Quiesce

/-!
# Failing Posts on CX7

What becomes of the WRITEs a CX7 proxy has polled when the NIC does not take
them.

A WRITE the NIC has not taken can be recovered as long as the proxy still holds
it, no slot of its logical queue is spent on it, and its place in the FIFO is
not given back. The code sees to none of the three: a batch or a strided
command that `ibv_post_send` refuses is forgotten after its sequence numbers
were taken, and step 4 gives back every place that was read, that of a refused
WRITE and that of a WRITE in the stash alike.

So the commands stay recoverable as long as no step takes one of these
branches, and the first step that does take one breaks it. `GivesUp` and
`Passes` say which steps these are, in terms of the state before the step.

## Main definitions

* `Recoverable`: No WRITE that the NIC has not taken is lost.
* `GivesUp`: The proxy's next action gives a WRITE up.
* `Passes`: The proxy's next action gives back the place of a stashed WRITE.
* `Keeping`: The steps that do neither.

## Theorems

* `proxyStep_dropped`: The proxy gives a WRITE up just when `GivesUp` says so.
* `step_tail`: Only step 4 and a reset give places of the FIFO back.
* `step_keep`: What a step that does neither keeps.
* `writes_recoverable_iff`: Runs of such steps keep all WRITEs recoverable, and
  any other step loses one.
-/

namespace MKernel

namespace Internode

namespace Cx7

open MKernel.Core

variable {setup : Setup} {w w' : World}

/-- A WRITE that was polled and not taken by the NIC. -/
def Untaken (w : World) (p : Polled) : Prop := p ∈ writesPolled w.hist ∧ p ∉ postedOf w.hist

instance (p : Polled) : Decidable (Untaken w p) := inferInstanceAs (Decidable (_ ∧ _))

/-- No WRITE that the NIC has not taken is lost: it is still queued, the slots
    taken since the last `set_epoch` are those of posted commands, and the tail
    has not passed it since the FIFO was last reset. -/
structure Recoverable (w : World) : Prop where
  queued : ∀ p, Untaken w p → p ∈ held w
  seq : Announces (fun _ => 0) w.senderSeq (postedWrs (sinceEpoch w.hist))
  tail : ∀ p, Untaken w p → w.fifo.base ≤ p.seq → w.fifo.base + w.fifo.tail ≤ p.seq

/-- The collection loop reads a WRITE whose QP is not the proxy's. -/
def Refuses (setup : Setup) (w : World) (c : Collect) : Prop :=
  Fills setup c ∧ ∃ r ∈ w.fifo.poll, r.1.cmdType = .write ∧ setup.routed = true ∧
    ¬ setup.InRange (setup.localQp r.1)

instance (c : Collect) : Decidable (Refuses setup w c) := by
  unfold Refuses
  cases w.fifo.poll with
  | none => exact isFalse fun ⟨_, r, hr, _⟩ => absurd hr (by simp)
  | some r =>
      exact decidable_of_iff (Fills setup c ∧ r.1.cmdType = .write ∧ setup.routed = true ∧
        ¬ setup.InRange (setup.localQp r.1)) (by simp)

/-- The next action of the proxy gives a WRITE up: it is another proxy's, the
    strided builder refuses it, or `ibv_post_send` fails. -/
def GivesUp (setup : Setup) (w : World) (ok : Bool) : Prop :=
  match w.pc with
  | .fill c => Refuses setup w c
  | .filter (p :: _) _ _ _ => p.cmd.srcView = 2 ∧ (ok = false ∨ ¬ StridedFits setup p.cmd)
  | .post batch _ _ => batch ≠ [] ∧ ok = false
  | _ => False

instance (ok : Bool) : Decidable (GivesUp setup w ok) := by
  unfold GivesUp
  generalize w.pc = pc
  apply @Pc.casesOn _ pc
  case filter =>
    exact fun rest _ _ _ => by apply @List.casesOn _ _ rest <;> intros <;> infer_instance
  all_goals intros; infer_instance

/-- The next action of the proxy frees the place of a WRITE in the stash. -/
def Passes (w : World) : Prop :=
  w.pc = .advanceTail ∧ ∃ p ∈ w.pendingCmd, w.fifo.base ≤ p.seq

instance : Decidable (Passes w) := by
  unfold Passes
  cases w.pendingCmd with
  | none => exact isFalse fun ⟨_, p, hp, _⟩ => absurd hp (by simp)
  | some p => exact decidable_of_iff (w.pc = .advanceTail ∧ w.fifo.base ≤ p.seq) (by simp)

/-- The step neither gives a WRITE up nor frees the place of one in the stash. -/
def Keeping (setup : Setup) (w : World) : Action → Prop
  | .proxy ok _ => ¬ GivesUp setup w ok ∧ ¬ Passes w
  | _ => True

instance (a : Action) : Decidable (Keeping setup w a) := by
  unfold Keeping
  apply @Action.casesOn _ a <;> intros <;> infer_instance

theorem dropped_quiet {l : List Event} (hhist : w'.hist = w.hist ++ l) (hl : ∀ e ∈ l, e.Quiet) :
    droppedOf w'.hist = droppedOf w.hist := by
  rw [hhist, droppedOf_append, droppedOf_quiet hl, List.append_nil]

theorem forwardStep_dropped (setup : Setup) (w : World) (i : Nat) (ok : Bool) :
    droppedOf (forwardStep setup w i ok).hist = droppedOf w.hist := by
  unfold forwardStep
  split
  · dsimp only
    split
    · rfl
    · split
      · split
        · exact dropped_quiet rfl (by simp [Event.Quiet])
        · rfl
      · rfl
  · rfl

theorem collectStep_hist (setup : Setup) (w : World) : (collectStep setup w).hist = w.hist := by
  unfold collectStep
  split
  · split <;> rfl
  · rfl

theorem stageBarrierStep_dropped (setup : Setup) (w : World) (c : Collect) (p : Nat) (ok : Bool) :
    droppedOf (stageBarrierStep setup w c p ok).hist = droppedOf w.hist := by
  unfold stageBarrierStep
  split
  · split
    · exact dropped_quiet rfl (by simp [Event.Quiet])
    · rfl
  · rfl

theorem pollNic_dropped (w : World) (ne : Nat) :
    droppedOf (pollNic w ne).hist = droppedOf w.hist := by
  rw [pollNic_eq]
  exact dropped_quiet rfl (quiet_reaped _)

/-- The places of the loop where WRITEs can be given up. -/
def Pc.Risks : Pc → Prop
  | .fill _ => True
  | .filter _ _ _ _ => True
  | .post _ _ _ => True
  | _ => False

/-- Everywhere else the proxy gives nothing up. -/
theorem dropped_of_not_risks {ok : Bool} {ne : Nat} (hpc : ¬ w.pc.Risks)
    (hstep : proxyStep setup w ok ne = some w') : droppedOf w'.hist = droppedOf w.hist := by
  unfold proxyStep at hstep
  -- By the position in the loop: the three that risk something are excluded.
  cases hw : w.pc with
  | fill c | filter rest kept qp n | post batch qp n =>
      rw [hw] at hpc
      exact absurd trivial hpc
  | loop | pauseGate | ackStore | pausedSpin | ackClear | forwardCount i | stageCount c p
  | account count n | stridedCount n posted | advanceTail =>
      simp only [hw, Option.some.injEq] at hstep
      rw [← hstep]
  | forwardGate =>
      simp only [hw] at hstep
      split at hstep <;> rw [← Option.some.inj hstep]
  | forward i =>
      simp only [hw, Option.some.injEq] at hstep
      rw [← hstep]
      exact forwardStep_dropped setup w i ok
  | collect =>
      simp only [hw, Option.some.injEq] at hstep
      rw [← hstep, collectStep_hist]
  | stageBarrier c p =>
      simp only [hw, Option.some.injEq] at hstep
      rw [← hstep]
      exact stageBarrierStep_dropped setup w c p ok
  | pollCq posted =>
      simp only [hw, Option.some.injEq] at hstep
      rw [← hstep]
      exact pollNic_dropped w ne
  | exitDrain =>
      simp only [hw] at hstep
      split at hstep
      · rw [← Option.some.inj hstep]
        exact pollNic_dropped w ne
      · rw [← Option.some.inj hstep]
  | exited => simp only [hw, reduceCtorEq] at hstep

theorem endFill_dropped (setup : Setup) (w : World) (c : Collect) :
    droppedOf (endFill setup w c).hist = droppedOf w.hist := by
  unfold endFill
  split <;> rfl

/-- The collection loop gives up the WRITEs it refuses, and no others. -/
theorem fillStep_dropped {c : Collect} (hn : droppedOf w.hist = []) :
    droppedOf (fillStep setup w c).hist = [] ↔ ¬ Refuses setup w c := by
  unfold fillStep
  by_cases hfills : Fills setup c
  · rw [if_pos hfills]
    cases hp : pollFifo setup w with
    | none =>
        -- Nothing is read.
        have hpoll : w.fifo.poll = none := Option.map_eq_none_iff.mp hp
        refine iff_of_true ?_ fun hr => ?_
        · rw [endFill_dropped, hn]
        · rcases hr.2 with ⟨r, hr, -⟩
          rw [hpoll] at hr
          exact absurd hr (by simp)
    | some r =>
        rcases r with ⟨p, w₁⟩
        rcases pollFifo_eq_some hp with ⟨f, hpoll, -, rfl⟩
        have hread : droppedOf (w.hist ++ [Event.polled p]) = [] := by
          rw [droppedOf_append, hn]
          rfl
        have hrefuses : Refuses setup w c ↔ p.cmd.cmdType = .write ∧ setup.routed = true ∧
            ¬ setup.InRange (setup.localQp p.cmd) := by
          rw [Refuses, hpoll]
          simp [hfills]
        rw [hrefuses]
        dsimp only
        cases hty : p.cmd.cmdType with
        | write =>
            simp only [true_and]
            unfold collectWrite
            by_cases hr : setup.routed = true
            · rw [if_pos hr]
              dsimp only
              by_cases hin : setup.InRange (setup.localQp p.cmd)
              · rw [if_neg (not_not.mpr hin)]
                -- One of its own goes to the batch or to the stash.
                refine iff_of_true ?_ fun hout => hout.2 hin
                split
                · exact hread
                · split
                  · exact hread
                  · rw [endFill_dropped]
                    exact hread
              · rw [if_pos hin]
                refine iff_of_false ?_ (not_not.mpr ⟨hr, hin⟩)
                dsimp only
                rw [droppedOf_append, hread]
                exact List.cons_ne_nil _ _
            · rw [if_neg hr]
              exact iff_of_true hread fun hout => hr hout.1
        -- Other commands are no WRITEs, whatever becomes of them.
        | barrierNotify | empty | fence =>
            exact iff_of_true hread fun hout => absurd hout.1 (by decide)
  · rw [if_neg hfills]
    refine iff_of_true ?_ fun hr => hfills hr.1
    rw [endFill_dropped, hn]

/-- The filter gives up the strided commands its builder or the NIC refuses. -/
theorem filterStep_dropped {rest kept : List Polled} {qp n : Int} {ok : Bool}
    (hn : droppedOf w.hist = []) (hpc : w.pc = .filter rest kept qp n) :
    droppedOf (filterStep setup w rest kept qp n ok).hist = [] ↔ ¬ GivesUp setup w ok := by
  rw [GivesUp, hpc]
  unfold filterStep
  cases rest with
  | nil => exact iff_of_true hn not_false
  | cons p rest =>
      dsimp only
      have hlost : droppedOf (w.hist ++ [Event.dropped [p]]) ≠ [] := by
        rw [droppedOf_append, hn]
        exact List.cons_ne_nil _ _
      by_cases hview : p.cmd.srcView = 2
      · rw [if_pos hview]
        cases hc : stridedChain setup w.epoch w.senderSeq qp p with
        | none =>
          exact iff_of_false hlost (not_not.mpr ⟨hview, Or.inr (stridedChain_eq_none.mp hc)⟩)
        | some r =>
            rcases r with ⟨chain, k, senderSeq⟩
            -- The command is within the limits, so only the call itself can fail.
            have hfit : StridedFits setup p.cmd := by
              by_contra hfit
              exact absurd (hc.symm.trans (stridedChain_eq_none.mpr hfit)) (by simp)
            cases ok with
            | true =>
                refine iff_of_true ?_ fun hg => hg.2.elim (by simp) fun h => h hfit
                dsimp only
                rw [if_pos rfl, droppedOf_append, hn]
                rfl
            | false => exact iff_of_false hlost (not_not.mpr ⟨hview, Or.inl rfl⟩)
      · rw [if_neg hview]
        exact iff_of_true hn fun hg => hview hg.1

/-- Step 2 gives up the batch the NIC refuses. -/
theorem postStep_dropped {batch : List Polled} {qp n : Int} {ok : Bool}
    (hn : droppedOf w.hist = []) (hpc : w.pc = .post batch qp n) :
    droppedOf (postStep setup w batch qp n ok).hist = [] ↔ ¬ GivesUp setup w ok := by
  rw [GivesUp, hpc]
  unfold postStep
  by_cases hb : batch = []
  · -- An empty batch is not posted.
    rw [if_pos hb]
    exact iff_of_true hn fun hg => hg.1 hb
  · rw [if_neg hb]
    cases ok with
    | true =>
        refine iff_of_true ?_ fun hg => absurd hg.2 (by decide)
        dsimp only
        rw [if_pos rfl, droppedOf_append, hn]
        rfl
    -- A refused batch is given up, and it is not empty.
    | false =>
        refine iff_of_false ?_ (not_not.mpr ⟨hb, rfl⟩)
        dsimp only
        rw [if_neg (by decide), droppedOf_append, hn]
        simpa [droppedOf, Event.dropped?] using hb

/-- The proxy gives a WRITE up just when `GivesUp` says so. -/
theorem proxyStep_dropped {ok : Bool} {ne : Nat} (hn : droppedOf w.hist = [])
    (hstep : proxyStep setup w ok ne = some w') :
    droppedOf w'.hist = [] ↔ ¬ GivesUp setup w ok := by
  cases hpc : w.pc with
  | fill c =>
      simp only [proxyStep, hpc, Option.some.injEq] at hstep
      rw [← hstep, GivesUp, hpc]
      exact fillStep_dropped hn
  | filter rest kept qp n =>
      simp only [proxyStep, hpc, Option.some.injEq] at hstep
      rw [← hstep]
      exact filterStep_dropped hn hpc
  | post batch qp n =>
      simp only [proxyStep, hpc, Option.some.injEq] at hstep
      rw [← hstep]
      exact postStep_dropped hn hpc
  -- Nowhere else is a WRITE at risk.
  | _ =>
      have hsame := dropped_of_not_risks (by rw [hpc]; exact not_false) hstep
      rw [hsame, GivesUp, hpc]
      exact iff_of_true hn not_false

/-- A queue later on, with the same places given back. -/
structure SameTail (f g : Fifo) : Prop where
  base : g.base = f.base
  tail : g.tail = f.tail
  cpuHead : f.cpuHead ≤ g.cpuHead

theorem sameTail_refl (f : Fifo) : SameTail f f := ⟨rfl, rfl, Nat.le_refl _⟩

/-- Nobody else gives a WRITE up, and only a reset of the FIFO gives places back. -/
theorem otherStep_keep {a : Action} (ha : ∀ ok ne, a ≠ .proxy ok ne)
    (hstep : step setup w a = some w') :
    droppedOf w'.hist = droppedOf w.hist ∧
      (SameTail w.fifo w'.fifo ∨ w'.fifo = w.fifo.reset) := by
  cases a with
  | proxy ok ne => exact absurd rfl (ha ok ne)
  | fifoReset =>
      -- The reset is the one exception.
      rw [← Option.some.inj hstep]
      exact ⟨rfl, Or.inr rfl⟩
  | claim cmd =>
      rw [← Option.some.inj hstep]
      exact ⟨rfl, Or.inl ⟨rfl, rfl, Nat.le_refl _⟩⟩
  | publish =>
      rcases Option.map_eq_some_iff.mp hstep with ⟨f, hf, rfl⟩
      rcases Fifo.publish_eq_some hf with ⟨-, hhead, hbase, htail, -⟩
      exact ⟨rfl, Or.inl ⟨hbase, htail, Nat.le_of_eq hhead.symm⟩⟩
  | place i | complete i =>
      simp only [step, Option.ite_none_right_eq_some] at hstep
      rcases Option.map_eq_some_iff.mp hstep.2 with ⟨x, -, rfl⟩
      exact ⟨rfl, Or.inl (sameTail_refl _)⟩
  | host b =>
      rcases Option.map_eq_some_iff.mp hstep with ⟨g, -, rfl⟩
      exact ⟨rfl, Or.inl (sameTail_refl _)⟩
  | forwardNotify slot n | stop | resetForwardNotifyTable =>
      rw [← Option.some.inj hstep]
      exact ⟨rfl, Or.inl (sameTail_refl _)⟩
  | setEpoch epoch =>
      rw [← Option.some.inj hstep]
      refine ⟨?_, Or.inl (sameTail_refl _)⟩
      -- What is written to the history here is no WRITE that is given up.
      rw [droppedOf_append]
      exact List.append_nil _
  | hostDrain ne =>
      simp only [step, Option.ite_none_right_eq_some, Option.some.injEq] at hstep
      rw [← hstep.2]
      refine ⟨pollNic_dropped w ne, Or.inl ?_⟩
      rw [pollNic_eq]
      exact sameTail_refl _
  | hostReset =>
      simp only [step, Option.ite_none_right_eq_some, Option.some.injEq] at hstep
      rw [← hstep.2]
      exact ⟨rfl, Or.inl (sameTail_refl _)⟩
  | hostBarrier p slot token =>
      simp only [step, Option.ite_none_right_eq_some, Option.some.injEq] at hstep
      rw [← hstep.2]
      refine ⟨?_, Or.inl (sameTail_refl _)⟩
      rw [droppedOf_append]
      exact List.append_nil _

/-- Only step 4 and a reset give places of the FIFO back. -/
theorem step_tail {a : Action} (hstep : step setup w a = some w') :
    SameTail w.fifo w'.fifo ∨ w'.fifo = w.fifo.reset ∨
      (∃ ok ne, a = .proxy ok ne) ∧ w.pc = .advanceTail ∧
        w'.fifo = w.fifo.advanceTail w.fifo.hostHead := by
  cases a with
  | proxy ok ne =>
      rcases proxyStep_fifo hstep with h | ⟨cmd, hpoll⟩ | ⟨hpc, hfree⟩
      · rw [h]
        exact Or.inl (sameTail_refl _)
      · rcases Fifo.poll_eq_some hpoll with ⟨-, -, hhead, hbase, htail⟩
        exact Or.inl ⟨hbase, htail, by omega⟩
      · exact Or.inr (Or.inr ⟨⟨ok, ne, rfl⟩, hpc, hfree⟩)
  | _ => exact (otherStep_keep (fun _ _ => by simp) hstep).2.imp_right Or.inl

/-- A WRITE that is held after a step and was not held before it was just read. -/
theorem mem_held_step (h : FlowInv setup w) {a : Action} (hstep : step setup w a = some w')
    {p : Polled} (hp : p ∈ held w') :
    p ∈ held w ∨ p.seq = w.fifo.cpuHead ∧ w'.fifo.cpuHead = w.fifo.cpuHead + 1 := by
  cases (step_flow h hstep).1 with
  | quiet l hhist hl hheld hseq hfifo =>
      rw [hheld] at hp
      exact Or.inl hp
  | poll q f hpoll hpos hhist hheld hseq hfifo =>
      rw [hheld] at hp
      rcases List.mem_append.mp hp with hp | hp
      · exact Or.inl hp
      · -- The command just read stands at the old head.
        have hhead := (Fifo.poll_eq_some hpoll).2.2.1
        unfold writeOf at hp
        split at hp
        · rw [List.mem_singleton.mp hp, hfifo]
          exact Or.inr ⟨hpos, hhead⟩
        · exact absurd hp List.not_mem_nil
  | refuse q f hpoll hpos hwrite hqp hhist hheld hseq hfifo =>
      rw [hheld] at hp
      exact Or.inl hp
  | post batch chain hhist hkind hqp hcarries hann hfifo =>
      exact Or.inl (hkind.perm.symm.subset (List.mem_append_right _ hp))
  | drop batch hne hwhy hhist hkind hfifo =>
      exact Or.inl (hkind.perm.symm.subset (List.mem_append_right _ hp))
  | epoch epoch hhist hheld hseq hfifo =>
      rw [hheld] at hp
      exact Or.inl hp

/-- Nothing was given up, and the tail is behind all that is held. -/
structure KeepInv (setup : Setup) (w : World) : Prop where
  order : OrderInv setup w
  dropped : droppedOf w.hist = []
  tail_le : w.fifo.base + w.fifo.tail ≤ w.fifo.cpuHead
  tail : ∀ p ∈ held w, w.fifo.base ≤ p.seq → w.fifo.base + w.fifo.tail ≤ p.seq

theorem keep_init : KeepInv setup (init setup) where
  order := order_init
  dropped := rfl
  tail_le := Nat.le_refl _
  tail := fun _ hp => absurd hp List.not_mem_nil

theorem OrderInv.untaken_iff (h : OrderInv setup w) {p : Polled} :
    Untaken w p ↔ p ∈ droppedOf w.hist ∨ p ∈ held w := by
  have hnodup : (postedOf w.hist ++ (droppedOf w.hist ++ held w)).Nodup :=
    h.perm.nodup_iff.mp h.nodup
  rw [Untaken, h.perm.mem_iff, ← List.mem_append]
  constructor
  · intro hp
    exact (List.mem_append.mp hp.1).resolve_left hp.2
  · intro hp
    exact ⟨List.mem_append_right _ hp, fun hq => (List.disjoint_of_nodup_append hnodup) hq hp⟩

/-- A WRITE that was given up is not held, so it is lost. -/
theorem OrderInv.dropped_of_queued (h : OrderInv setup w)
    (hq : ∀ p, Untaken w p → p ∈ held w) : droppedOf w.hist = [] := by
  -- Otherwise it would be given up and held at once.
  refine List.eq_nil_iff_forall_not_mem.mpr fun p hp => ?_
  have hnodup := (List.nodup_append.mp (h.perm.nodup_iff.mp h.nodup)).2.1
  exact (List.disjoint_of_nodup_append hnodup) hp (hq p (h.untaken_iff.mpr (Or.inl hp)))

theorem KeepInv.recoverable (h : KeepInv setup w) : Recoverable w := by
  have hheld : ∀ p, Untaken w p → p ∈ held w := by
    intro p hp
    rcases h.order.untaken_iff.mp hp with hp | hp
    · rw [h.dropped] at hp
      exact absurd hp List.not_mem_nil
    · exact hp
  exact ⟨hheld, h.order.slots h.dropped, fun p hp => h.tail p (hheld p hp)⟩

/-- What a step keeps that gives nothing up and frees no place of the stash. -/
theorem step_keep (h : KeepInv setup w) {a : Action} (hok : Keeping setup w a)
    (hstep : step setup w a = some w') : KeepInv setup w' := by
  have hdropped : droppedOf w'.hist = [] := by
    cases a with
    | proxy ok ne => exact (proxyStep_dropped h.dropped hstep).mpr hok.1
    | _ => rw [(otherStep_keep (fun _ _ => by simp) hstep).1, h.dropped]
  refine ⟨step_order h.order hstep, hdropped, ?_, fun p hp hbase => ?_⟩
  · have hle := h.tail_le
    have hhead := w.fifo.base_le
    rcases step_tail hstep with ⟨hb, ht, hc⟩ | hreset | ⟨-, -, hfree⟩
    · rw [hb, ht]
      omega
    · rw [hreset]
      exact Nat.le_refl _
    · rw [hfree, Fifo.advanceTail, Fifo.hostHead]
      dsimp only
      omega
  · rcases step_tail hstep with ⟨hb, ht, hc⟩ | hreset | ⟨⟨ok, ne, rfl⟩, hpc, hfree⟩
    · rw [hb] at hbase
      rw [hb, ht]
      rcases mem_held_step h.order.flow hstep hp with hold | ⟨hseq, -⟩
      · exact h.tail p hold hbase
      · rw [hseq]
        exact h.tail_le
    · rw [hreset] at hbase ⊢
      exact hbase
    · -- Step 4 frees everything read, so a stashed WRITE must be from before the last reset.
      rw [hfree] at hbase
      have hpending : p ∈ w.pendingCmd := by
        rcases mem_held_step h.order.flow hstep hp with hold | ⟨-, hhead⟩
        · rw [held, hpc] at hold
          exact Option.mem_toList.mp hold
        · -- Nothing is read in step 4.
          rw [hfree, Fifo.cpuHead_advanceTail] at hhead
          omega
      exact absurd ⟨hpc, p, hpending, hbase⟩ hok.2

theorem keep_of_reaches (h : Reaches (step setup) (Keeping setup) (init setup) w) :
    KeepInv setup w :=
  invariant_of_reaches (KeepInv setup) (fun _ _ _ hi hok hstep => step_keep hi hok hstep) h
    keep_init

/-- Every command read stands before the head. -/
theorem OrderInv.seq_lt (h : OrderInv setup w) {p : Polled} (hp : p ∈ polledOf w.hist) :
    p.seq < w.fifo.cpuHead := by
  have hm : p.seq ∈ (polledOf w.hist).map Polled.seq := List.mem_map_of_mem hp
  rw [h.seqs] at hm
  exact List.mem_range.mp hm

/-- A step that gives a WRITE up, or frees the place of one in the stash, loses it. -/
theorem keeping_of_recoverable (h : KeepInv setup w) {a : Action}
    (hstep : step setup w a = some w') (hr : Recoverable w') : Keeping setup w a := by
  cases a with
  | proxy ok ne =>
      have horder := step_order h.order hstep
      refine ⟨(proxyStep_dropped h.dropped hstep).mp (horder.dropped_of_queued hr.queued), ?_⟩
      rintro ⟨hpc, p, hp, hbase⟩
      -- The stash survives step 4, and its place is before the new tail.
      have hw' : w' = { w with fifo := w.fifo.advanceTail w.fifo.hostHead, pc := .loop } := by
        change proxyStep setup w ok ne = some w' at hstep
        simp only [proxyStep, hpc, Option.some.injEq] at hstep
        exact hstep.symm
      have hheld : p ∈ held w' := by
        rw [hw']
        exact Option.mem_toList.mpr hp
      have htail := hr.tail p (horder.untaken_iff.mpr (Or.inr hheld)) (by rw [hw']; exact hbase)
      have hlt := h.order.seq_lt
        (List.mem_of_mem_filter
          (h.order.mem_of_held (List.mem_append_right _ (Option.mem_toList.mpr hp))))
      have hhead := w.fifo.base_le
      rw [hw'] at htail
      simp only [Fifo.advanceTail, Fifo.hostHead] at htail
      omega
  | _ => trivial

/-- As long as no step gives a WRITE up or frees the place of one in the stash,
    every WRITE the NIC has not taken can be recovered; and the first step that
    does so loses one. -/
theorem writes_recoverable_iff (h : Reaches (step setup) (Keeping setup) (init setup) w) :
    Recoverable w ∧ ∀ a w', step setup w a = some w' → (Recoverable w' ↔ Keeping setup w a) := by
  have hkeep := keep_of_reaches h
  exact ⟨hkeep.recoverable, fun a w' hstep =>
    ⟨keeping_of_recoverable hkeep hstep, fun hok => (step_keep hkeep hok hstep).recoverable⟩⟩

section Sample

/-- One WRITE in the batch, about to be posted. -/
def batched : World :=
  (run (step sampleSetup) (Keeping sampleSetup) (pushes [writeCmd 0 0] ++ goes 8)
    (init sampleSetup)).get (by decide +kernel)

/-- The WRITE is posted, or the call fails. -/
def answered (ok : Bool) : World :=
  (step sampleSetup batched (.proxy ok 32)).get (by cases ok <;> decide +kernel)

/-- The WRITE is recoverable in the batch and once it is posted, and lost if the
    call fails. -/
theorem writes_recoverable_batched :
    Recoverable batched ∧ Recoverable (answered true) ∧ ¬ Recoverable (answered false) := by
  have hiff := writes_recoverable_iff (reaches_of_run _ _ _ (Option.some_get _).symm : Reaches
    (step sampleSetup) (Keeping sampleSetup) (init sampleSetup) batched)
  refine ⟨hiff.1, (hiff.2 (.proxy true 32) _ (Option.some_get _).symm).mpr (by decide +kernel),
    fun hr => ?_⟩
  have hkeeping := (hiff.2 (.proxy false 32) _ (Option.some_get _).symm).mp hr
  exact absurd hkeeping (by decide +kernel)

/-- The same WRITE, after `ibv_post_send` failed and the tail was advanced. -/
def failed : World :=
  (run (step sampleSetup) always
    (pushes [writeCmd 0 0] ++ goes 8 ++ [Action.proxy false 32] ++ goes 3)
    (init sampleSetup)).get (by decide +kernel)

/-- A WRITE whose post fails is not queued any more, its slot is taken and the
    tail has passed it. -/
theorem write_lost :
    ∃ w, Reaches (step sampleSetup) always (init sampleSetup) w ∧
      (¬ ∀ p, Untaken w p → p ∈ held w) ∧
      (¬ Announces (fun _ => 0) w.senderSeq (postedWrs (sinceEpoch w.hist))) ∧
      ¬ ∀ p, Untaken w p → w.fifo.base ≤ p.seq → w.fifo.base + w.fifo.tail ≤ p.seq := by
  have hun : Untaken failed ⟨0, 0, writeCmd 0 0⟩ := by decide +kernel
  refine ⟨failed, reaches_of_run _ _ _ (Option.some_get _).symm, fun h => ?_, fun h => ?_,
    fun h => ?_⟩
  · exact absurd (h _ hun) (by decide +kernel)
  · exact absurd (h 0).2 (by decide +kernel)
  · exact absurd (h _ hun (by decide +kernel)) (by decide +kernel)

end Sample

end Cx7

end Internode

end MKernel
