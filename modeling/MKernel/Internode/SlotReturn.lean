import MKernel.Core.Noted
import MKernel.Internode.Cx7.Proxy
import MKernel.Internode.Efa.Order

/-!
# Slots Given Back

When the tail of a FIFO says that everything read from it is free.

Both proxies give slots back in step 4, and only after an ordinary batch. The CX7 proxy sets the
tail to `cpu_head` if anything is left of the batch behind the filter, and the EFA proxy to the
head that was marked when the batch was closed, if the batch was posted. So what is read in an
iteration without such a batch, notifies, commands that are dropped, or strided commands alone, is
free and not given back (`slots_withheld`), until some later iteration has an ordinary batch. A
producer that finds the ring full of such commands waits for good.

Where every iteration that reads something ends in an ordinary batch, the tail is at `cpu_head`
whenever the proxy is at the top of its loop and nothing is to be retried (`slots_returned`). With
several FIFOs the tail that is set belongs to the FIFO the batch was collected from, also when the
batch had to be retried, and the others are as their own last batch left them.

What an iteration has read is told by `cpu_head` at its beginning, which is noted.

## Main definitions

* `Cx7.noteCollect`, `Efa.noteCollect`: `cpu_head` where step 1 begins is noted.
* `Cx7.Returns`, `Efa.Returns`: An iteration that reads something ends in an ordinary batch.
* `Cx7.Returned`, `Efa.Returned`: What the tails say in the meantime.

## Theorems

* `Cx7.step_returned`, `Efa.step_returned`: One action keeps the tails right.
* `slots_returned`: At the top of the loop every slot read is given back, under the condition.
* `slots_withheld`: Elsewhere they are not.
-/

namespace MKernel

namespace Internode

open MKernel.Core

namespace Fifo

/-- The counters the host sees are the same. -/
structure SameCounters (f g : Fifo) : Prop where
  cpuHead : g.cpuHead = f.cpuHead
  hostHead : g.hostHead = f.hostHead
  tail : g.tail = f.tail

theorem sameCounters_refl (f : Fifo) : SameCounters f f := ⟨rfl, rfl, rfl⟩

theorem sameCounters_claim (f : Fifo) (cmd : TransferCmd) : SameCounters f (f.claim cmd) :=
  ⟨rfl, rfl, rfl⟩

theorem sameCounters_publish {f g : Fifo} (h : f.publish = some g) : SameCounters f g := by
  rcases publish_eq_some h with ⟨-, hh, hb, ht, -⟩
  exact ⟨hh, by rw [hostHead, hostHead, hh, hb], ht⟩

end Fifo

namespace Cx7

variable {setup : Setup} {t t' : World × Nat}

/-- `cpu_head` is noted where step 1 begins. -/
def noteCollect (w : World) (a : Action) (w' : World) (began : Nat) : Nat :=
  match a, w.pc with
  | .proxy _ _, .collect => w'.fifo.cpuHead
  | _, _ => began

/-- An iteration without an ordinary batch has read nothing. -/
def Returns (t : World × Nat) : Action → Prop
  | .proxy _ _ => t.1.pc = .pollCq false → t.1.fifo.cpuHead = t.2
  | _ => True

instance (t : World × Nat) (a : Action) : Decidable (Returns t a) := by
  unfold Returns
  apply @Action.casesOn _ a <;> intros <;> infer_instance

/-- Between the beginning of step 1 and step 4. -/
def Pc.collecting : Pc → Prop
  | .fill _ => True
  | .stageBarrier _ _ => True
  | .stageCount _ _ => True
  | .filter _ _ _ _ => True
  | .post _ _ _ => True
  | .account _ _ => True
  | .stridedCount _ _ => True
  | .pollCq _ => True
  | _ => False

/-- Unless something was read in this iteration, or the slots are about to be given back, the tail
    is at `cpu_head`. -/
structure Returned (t : World × Nat) : Prop where
  began_le : t.1.pc.collecting → t.2 ≤ t.1.fifo.cpuHead
  tail : t.1.pc ≠ .advanceTail → (t.1.pc.collecting → t.1.fifo.cpuHead = t.2) →
    t.1.fifo.tail = t.1.fifo.hostHead

theorem returned_init (n : Nat) : Returned (init setup, n) where
  began_le h := absurd h not_false
  tail _ _ := rfl

/-- A move within the same part of the loop that leaves the FIFO alone. -/
theorem Returned.of_same (h : Returned t) (hfifo : Fifo.SameCounters t.1.fifo t'.1.fifo)
    (hpc : t'.1.pc.collecting → t.1.pc.collecting) (hpc' : t.1.pc.collecting → t'.1.pc.collecting)
    (hadv : t.1.pc ≠ .advanceTail) (hnote : t'.2 = t.2) : Returned t' where
  began_le hc := by
    rw [hnote, hfifo.cpuHead]
    exact h.began_le (hpc hc)
  tail _ hc := by
    rw [hfifo.tail, hfifo.hostHead]
    refine h.tail hadv fun hcol => ?_
    rw [← hfifo.cpuHead, ← hnote]
    exact hc (hpc' hcol)

/-- A step within step 1 to 3. -/
theorem Returned.within (h : Returned t) (hpc : t.1.pc.collecting) (hnote : t'.2 = t.2)
    (hpc' : t'.1.pc.collecting) (hfifo : t'.1.fifo = t.1.fifo) : Returned t' := by
  refine h.of_same (by rw [hfifo]; exact Fifo.sameCounters_refl _) (fun _ => hpc) (fun _ => hpc')
    (fun hadv => ?_) hnote
  rw [hadv] at hpc
  exact hpc

/-- A step outside of them. -/
theorem Returned.outside (h : Returned t) (hpc : ¬ t.1.pc.collecting)
    (hadv : t.1.pc ≠ .advanceTail) (hnote : t'.2 = t.2) (hpc' : ¬ t'.1.pc.collecting)
    (hfifo : t'.1.fifo = t.1.fifo) : Returned t' :=
  h.of_same (by rw [hfifo]; exact Fifo.sameCounters_refl _) (fun hx => absurd hx hpc')
    (fun hx => absurd hx hpc) hadv hnote

/-- What is read is given back by a later step. -/
theorem Returned.of_read (hpc : t'.1.pc.collecting) (hlt : t'.2 < t'.1.fifo.cpuHead) :
    Returned t' where
  began_le _ := Nat.le_of_lt hlt
  tail _ hc := absurd (hc hpc) (Nat.ne_of_gt hlt)

theorem collecting_endFill (w : World) (c : Collect) : (endFill setup w c).pc.collecting := by
  unfold endFill
  split <;> trivial

theorem fifo_endFill (w : World) (c : Collect) : (endFill setup w c).fifo = w.fifo := by
  unfold endFill
  split <;> rfl

/-- A turn of the collection loop stays in step 1, and reads one command or none. -/
theorem fillStep_reads (setup : Setup) (w : World) (c : Collect) :
    (fillStep setup w c).pc.collecting ∧
    ((fillStep setup w c).fifo = w.fifo ∨
      (fillStep setup w c).fifo.cpuHead = w.fifo.cpuHead + 1) := by
  unfold fillStep
  split
  · cases hp : pollFifo setup w with
    -- Nothing polled: the loop closes the batch, or waits.
    | none => exact ⟨collecting_endFill w c, Or.inl (fifo_endFill w c)⟩
    | some r =>
        rcases r with ⟨p, w₁⟩
        rcases pollFifo_eq_some hp with ⟨f, hpoll, -, rfl⟩
        have hread : f.cpuHead = w.fifo.cpuHead + 1 := (Fifo.poll_eq_some hpoll).2.2.1
        dsimp only
        split
        · -- A BARRIER is read before the batch is posted.
          exact ⟨trivial, Or.inr hread⟩
        · unfold collectWrite
          split
          · dsimp only
            split
            · exact ⟨trivial, Or.inr hread⟩
            · split
              · exact ⟨trivial, Or.inr hread⟩
              · split
                · exact ⟨trivial, Or.inr hread⟩
                · exact ⟨collecting_endFill _ c, Or.inr (by rw [fifo_endFill]; exact hread)⟩
          · -- Without routing every WRITE joins the batch.
            exact ⟨trivial, Or.inr hread⟩
        · exact ⟨trivial, Or.inr hread⟩
  · exact ⟨collecting_endFill w c, Or.inl (fifo_endFill w c)⟩

theorem forwardStep_returns (w : World) (i : Nat) (ok : Bool) :
    (forwardStep setup w i ok).fifo = w.fifo ∧ ¬ (forwardStep setup w i ok).pc.collecting := by
  unfold forwardStep
  split
  · dsimp only
    split
    · exact ⟨rfl, not_false⟩
    · split
      · split
        · exact ⟨rfl, not_false⟩
        · exact ⟨rfl, not_false⟩
      · exact ⟨rfl, not_false⟩
  · exact ⟨rfl, not_false⟩

theorem stageBarrierStep_returns (w : World) (c : Collect) (p : Nat) (ok : Bool) :
    (stageBarrierStep setup w c p ok).fifo = w.fifo ∧
      (stageBarrierStep setup w c p ok).pc.collecting := by
  unfold stageBarrierStep
  split
  · split
    · exact ⟨rfl, trivial⟩
    · exact ⟨rfl, trivial⟩
  · exact ⟨rfl, trivial⟩

theorem filterStep_returns (w : World) (rest kept : List Polled) (qp n : Int) (ok : Bool) :
    (filterStep setup w rest kept qp n ok).fifo = w.fifo ∧
      (filterStep setup w rest kept qp n ok).pc.collecting := by
  unfold filterStep
  split
  · exact ⟨rfl, trivial⟩
  · split
    · split
      · split
        · exact ⟨rfl, trivial⟩
        · exact ⟨rfl, trivial⟩
      · exact ⟨rfl, trivial⟩
    · exact ⟨rfl, trivial⟩

theorem postStep_returns (w : World) (batch : List Polled) (qp n : Int) (ok : Bool) :
    (postStep setup w batch qp n ok).fifo = w.fifo ∧
      (postStep setup w batch qp n ok).pc.collecting := by
  unfold postStep
  split
  · exact ⟨rfl, trivial⟩
  · dsimp only
    split
    · exact ⟨rfl, trivial⟩
    · exact ⟨rfl, trivial⟩

theorem collectStep_returns (setup : Setup) (w : World) : (collectStep setup w).fifo = w.fifo ∧
    (collectStep setup w).pc.collecting := by
  unfold collectStep
  split
  · split
    · exact ⟨rfl, trivial⟩
    · exact ⟨rfl, trivial⟩
  · exact ⟨rfl, trivial⟩

section Turns

variable {w w' : World} {began ne : Nat}

theorem fillStep_returned {c : Collect} (h : Returned (w, began)) (hpc : w.pc = .fill c) :
    Returned (fillStep setup w c, began) := by
  have hin : w.pc.collecting := by
    rw [hpc]
    trivial
  rcases fillStep_reads setup w c with ⟨hstay, hf | hf⟩
  · exact h.within hin rfl hstay hf
  · -- What it has read is after the mark of this iteration.
    refine .of_read hstay ?_
    dsimp only
    rw [hf]
    exact Nat.lt_succ_of_le (h.began_le hin)

/-- Behind the poll step 4 gives the slots back, unless there was no batch. -/
theorem pollCq_returned {posted : Bool} (h : Returned (w, began)) (hpc : w.pc = .pollCq posted)
    (hok : w.pc = .pollCq false → w.fifo.cpuHead = began) :
    Returned ({ pollNic w ne with pc := if posted then .advanceTail else .loop }, began) := by
  rw [pollNic_eq]
  cases posted with
  | true => exact ⟨fun hx => absurd hx not_false, fun hx => absurd rfl hx⟩
  | false =>
      -- The iteration is over without a batch, and has read nothing.
      refine ⟨fun hx => absurd hx not_false, fun _ _ => h.tail ?_ fun _ => hok hpc⟩
      dsimp only
      rw [hpc]
      simp only [ne_eq, reduceCtorEq, not_false_eq_true]

theorem exitDrain_returned (h : Returned (w, began)) (hpc : w.pc = .exitDrain)
    (hstep : (if 0 < w.inflight then some (pollNic w ne) else some { w with pc := .exited }) =
      some w') : Returned (w', began) := by
  have hout : ¬ w.pc.collecting := by
    rw [hpc]
    exact not_false
  have hadv : w.pc ≠ .advanceTail := by
    rw [hpc]
    simp only [ne_eq, reduceCtorEq, not_false_eq_true]
  split at hstep
  · rw [pollNic_eq] at hstep
    rw [← Option.some.inj hstep]
    exact h.outside hout hadv rfl hout rfl
  · rw [← Option.some.inj hstep]
    exact h.outside hout hadv rfl not_false rfl

end Turns

/-- One action of the proxy thread keeps the tail right. -/
theorem proxyStep_returned {ok : Bool} {ne : Nat} (h : Returned t)
    (hok : Returns t (.proxy ok ne)) (hstep : proxyStep setup t.1 ok ne = some t'.1)
    (hnote : t'.2 = noteCollect t.1 (.proxy ok ne) t'.1 t.2) : Returned t' := by
  rcases t with ⟨w, began⟩
  rcases t' with ⟨w', began'⟩
  simp only at hstep hnote
  have hin : w.pc.collecting → began' = began → w'.pc.collecting → w'.fifo = w.fifo →
      Returned (w', began') := fun hc hb hc' hf => h.within hc hb hc' hf
  have hout : ¬ w.pc.collecting → w.pc ≠ .advanceTail → began' = began → ¬ w'.pc.collecting →
      w'.fifo = w.fifo → Returned (w', began') := fun hc ha hb hc' hf => h.outside hc ha hb hc' hf
  unfold proxyStep at hstep
  cases hpc : w.pc with
  -- Step 0 and what stands before it: neither the tail nor the mark is touched.
  | loop | pauseGate | pausedSpin =>
      simp only [hpc, Option.some.injEq, noteCollect] at hstep hnote
      rw [← hstep] at hout ⊢
      refine hout (by rw [hpc]; exact not_false) (by rw [hpc]; simp) hnote ?_ rfl
      dsimp only
      split <;> exact not_false
  | ackStore | ackClear | forwardCount i =>
      simp only [hpc, Option.some.injEq, noteCollect] at hstep hnote
      rw [← hstep] at hout ⊢
      exact hout (by rw [hpc]; exact not_false) (by rw [hpc]; simp) hnote not_false rfl
  | forwardGate =>
      simp only [hpc, noteCollect] at hstep hnote
      split at hstep <;> rw [← Option.some.inj hstep] at hout ⊢ <;>
        exact hout (by rw [hpc]; exact not_false) (by rw [hpc]; simp) hnote not_false rfl
  -- The forwards are before the batch too.
  | forward i =>
      simp only [hpc, Option.some.injEq, noteCollect] at hstep hnote
      rw [← hstep] at hout ⊢
      exact hout (by rw [hpc]; exact not_false) (by rw [hpc]; simp) hnote
        (forwardStep_returns w i ok).2 (forwardStep_returns w i ok).1
  -- Here the mark is set: what is read is all given back.
  | collect =>
      simp only [hpc, Option.some.injEq, noteCollect] at hstep hnote
      have hc := collectStep_returns setup w
      rw [hstep] at hc
      refine ⟨fun _ => Nat.le_of_eq hnote, fun _ _ => ?_⟩
      have htail :=
        h.tail (by rw [hpc]; simp) (fun hx => by rw [hpc] at hx; exact absurd hx not_false)
      dsimp only at htail ⊢
      rw [hc.1]
      exact htail
  | fill c =>
      simp only [hpc, Option.some.injEq, noteCollect] at hstep hnote
      rw [hnote, ← hstep]
      exact fillStep_returned h hpc
  -- Step 1 to 3 read the FIFO or leave it alone, and the tail waits for step 4.
  | stageBarrier c p =>
      simp only [hpc, Option.some.injEq, noteCollect] at hstep hnote
      rw [← hstep] at hin ⊢
      exact hin (by rw [hpc]; trivial) hnote (stageBarrierStep_returns w c p ok).2
        (stageBarrierStep_returns w c p ok).1
  | stageCount c p =>
      simp only [hpc, Option.some.injEq, noteCollect] at hstep hnote
      rw [← hstep] at hin ⊢
      exact hin (by rw [hpc]; trivial) hnote trivial rfl
  | filter rest kept qp n =>
      simp only [hpc, Option.some.injEq, noteCollect] at hstep hnote
      rw [← hstep] at hin ⊢
      exact hin (by rw [hpc]; trivial) hnote (filterStep_returns w rest kept qp n ok).2
        (filterStep_returns w rest kept qp n ok).1
  | post batch qp n =>
      simp only [hpc, Option.some.injEq, noteCollect] at hstep hnote
      rw [← hstep] at hin ⊢
      exact hin (by rw [hpc]; trivial) hnote (postStep_returns w batch qp n ok).2
        (postStep_returns w batch qp n ok).1
  | account count n | stridedCount n posted =>
      simp only [hpc, Option.some.injEq, noteCollect] at hstep hnote
      rw [← hstep] at hin ⊢
      exact hin (by rw [hpc]; trivial) hnote trivial rfl
  | pollCq posted =>
      simp only [hpc, Option.some.injEq, noteCollect] at hstep hnote
      rw [hnote, ← hstep]
      exact pollCq_returned h hpc hok
  -- Step 4: the tail is what was read.
  | advanceTail =>
      simp only [hpc, Option.some.injEq] at hstep
      rw [← hstep]
      exact ⟨fun hx => absurd hx not_false, fun _ _ => rfl⟩
  | exitDrain =>
      simp only [hpc, noteCollect] at hstep hnote
      rw [hnote]
      exact exitDrain_returned h hpc hstep
  | exited => simp only [hpc, reduceCtorEq] at hstep

/-- A step of somebody else leaves the thread where it is. -/
theorem Returned.of_other (h : Returned t) (hfifo : Fifo.SameCounters t.1.fifo t'.1.fifo)
    (hpc : t'.1.pc = t.1.pc) (hnote : t'.2 = t.2) : Returned t' where
  began_le hc := by
    rw [hnote, hfifo.cpuHead]
    exact h.began_le (hpc ▸ hc)
  tail hadv hc := by
    rw [hfifo.tail, hfifo.hostHead]
    refine h.tail (hpc ▸ hadv) fun hcol => ?_
    rw [← hfifo.cpuHead, ← hnote]
    exact hc (hpc ▸ hcol)

/-- One action of anybody keeps the tail right. -/
theorem step_returned (h : Returned t) {a : Action} (hok : Returns t a)
    (hstep : notedStep (step setup) noteCollect t a = some t') : Returned t' := by
  rcases t' with ⟨w', began⟩
  rcases notedStep_eq_some hstep with ⟨hs, hnote⟩
  dsimp only at hs hnote
  have hsame := Fifo.sameCounters_refl t.1.fifo
  cases a with
  | proxy ok ne => exact proxyStep_returned h hok hs hnote
  | claim cmd =>
      rw [← Option.some.inj hs]
      exact h.of_other (Fifo.sameCounters_claim _ cmd) rfl hnote
  | publish =>
      rcases Option.map_eq_some_iff.mp hs with ⟨f, hf, rfl⟩
      exact h.of_other (Fifo.sameCounters_publish hf) rfl hnote
  | fifoReset =>
      rw [← Option.some.inj hs]
      -- All counters are zero, and what was read before stays read.
      refine ⟨fun hc => ?_, fun _ _ => ?_⟩
      · rw [hnote]
        exact h.began_le hc
      · exact (Nat.sub_self t.1.fifo.cpuHead).symm
  | stop | forwardNotify slot n | resetForwardNotifyTable | setEpoch epoch =>
      rw [← Option.some.inj hs]
      exact h.of_other hsame rfl hnote
  | host b =>
      rcases Option.map_eq_some_iff.mp hs with ⟨x, -, rfl⟩
      exact h.of_other hsame rfl hnote
  | place i | complete i =>
      simp only [step, Option.ite_none_right_eq_some] at hs
      rcases Option.map_eq_some_iff.mp hs.2 with ⟨x, -, rfl⟩
      exact h.of_other hsame rfl hnote
  | hostDrain ne =>
      simp only [step, Option.ite_none_right_eq_some, Option.some.injEq] at hs
      rw [← hs.2, pollNic_eq]
      exact h.of_other hsame rfl hnote
  | hostReset | hostBarrier p slot token =>
      simp only [step, Option.ite_none_right_eq_some, Option.some.injEq] at hs
      rw [← hs.2]
      exact h.of_other hsame rfl hnote

end Cx7

namespace Efa

variable {setup : Setup} {t t' : World × Nat}

/-- `cpu_head` is noted where step 1 begins, for the FIFO of the iteration. -/
def noteCollect (setup : Setup) (w : World) (a : Action) (w' : World) (began : Nat) : Nat :=
  match a, w.pc with
  | .proxy _ _, .collect => (w'.fifos (currentFifo setup w')).cpuHead
  | _, _ => began

/-- A batch waits to be posted, or for the tail to be set behind it. -/
def Awaits (w : World) : Prop :=
  match w.pc with
  | .post c => c.batch ≠ []
  | .account _ => True
  | .pollCq true => True
  | .advanceTail => True
  | _ => w.pendingBatch ≠ []

instance (w : World) : Decidable (Awaits w) := by
  unfold Awaits
  generalize w.pc = pc
  apply @Pc.casesOn _ pc
  case pollCq => exact fun found => by apply @Bool.casesOn _ found <;> infer_instance
  all_goals intros; infer_instance

/-- An iteration without a batch has read nothing, and a FIFO is not reset while a batch that was
    collected from it waits. -/
def Returns (setup : Setup) (t : World × Nat) : Action → Prop
  | .proxy _ _ => t.1.pc = .pollCq false → t.1.pendingBatch = [] →
      (t.1.fifos (currentFifo setup t.1)).cpuHead = t.2
  | .fifoReset k => k = currentFifo setup t.1 → ¬ Awaits t.1
  | _ => True

instance (setup : Setup) (t : World × Nat) (a : Action) : Decidable (Returns setup t a) := by
  unfold Returns
  apply @Action.casesOn _ a <;> intros <;> infer_instance

/-- Between the beginning of step 1 and step 4. -/
def Pc.collecting : Pc → Prop
  | .fill _ => True
  | .accumulate _ _ _ => True
  | .drainCq (.inline _) => True
  | .stageBarrier (.inline _) _ => True
  | .stageCount (.inline _) _ => True
  | .post _ => True
  | .account _ => True
  | .pollCq _ => True
  | _ => False

/-- The FIFOs that are not read are at their tails. The one that is has its head marked if a batch
    waits, and otherwise is at its tail unless something was read in this iteration. -/
structure Returned (setup : Setup) (t : World × Nat) : Prop where
  others : ∀ k, k ≠ currentFifo setup t.1 → (t.1.fifos k).tail = (t.1.fifos k).hostHead
  began_le : t.1.pc.collecting → t.2 ≤ (t.1.fifos (currentFifo setup t.1)).cpuHead
  marked : Awaits t.1 → t.1.pendingCpuHead = (t.1.fifos (currentFifo setup t.1)).hostHead
  tail : ¬ Awaits t.1 →
    (t.1.pc.collecting → (t.1.fifos (currentFifo setup t.1)).cpuHead = t.2) →
    (t.1.fifos (currentFifo setup t.1)).tail = (t.1.fifos (currentFifo setup t.1)).hostHead

theorem returned_init (n : Nat) : Returned setup (init setup, n) where
  others _ _ := rfl
  began_le h := absurd h not_false
  marked h := absurd rfl h
  tail _ _ := rfl

/-- A move within the same part of the loop that leaves the FIFOs alone. -/
theorem Returned.of_same (h : Returned setup t)
    (hidx : t'.1.currentFifoIdx = t.1.currentFifoIdx)
    (hfifos : ∀ k, Fifo.SameCounters (t.1.fifos k) (t'.1.fifos k))
    (hmark : t'.1.pendingCpuHead = t.1.pendingCpuHead) (haw : Awaits t'.1 ↔ Awaits t.1)
    (hpc : t'.1.pc.collecting ↔ t.1.pc.collecting) (hnote : t'.2 = t.2) : Returned setup t' := by
  have hcf : currentFifo setup t'.1 = currentFifo setup t.1 := by
    rw [currentFifo, currentFifo, hidx]
  refine ⟨fun k hk => ?_, fun hc => ?_, fun ha => ?_, fun ha hc => ?_⟩
  · rw [(hfifos k).tail, (hfifos k).hostHead]
    exact h.others k (hcf ▸ hk)
  · rw [hnote, hcf, (hfifos _).cpuHead]
    exact h.began_le (hpc.mp hc)
  · rw [hmark, hcf, (hfifos _).hostHead]
    exact h.marked (haw.mp ha)
  · rw [hcf, (hfifos _).tail, (hfifos _).hostHead]
    refine h.tail (fun hx => ha (haw.mpr hx)) fun hcol => ?_
    rw [← (hfifos _).cpuHead, ← hcf, ← hnote]
    exact hc (hpc.mpr hcol)

/-- A batch comes nearer to being posted. -/
theorem Returned.of_awaiting (h : Returned setup t)
    (hidx : t'.1.currentFifoIdx = t.1.currentFifoIdx) (hfifos : t'.1.fifos = t.1.fifos)
    (hmark : t'.1.pendingCpuHead = t.1.pendingCpuHead) (haw : Awaits t.1) (haw' : Awaits t'.1)
    (hle : t'.1.pc.collecting → t'.2 ≤ (t'.1.fifos (currentFifo setup t'.1)).cpuHead) :
    Returned setup t' := by
  have hcf : currentFifo setup t'.1 = currentFifo setup t.1 := by
    rw [currentFifo, currentFifo, hidx]
  refine ⟨fun k hk => ?_, hle, fun _ => ?_, fun ha => absurd haw' ha⟩
  · rw [hfifos]
    exact h.others k (hcf ▸ hk)
  · rw [hmark, hcf, hfifos]
    exact h.marked haw

/-- The batch is closed: its head is marked, if there is a batch. -/
theorem markCpuHead_eq (setup : Setup) (w : World) (c : Collect) : ∃ head, markCpuHead setup w c =
    { w with pendingCpuHead := head } ∧
      (c.batch ≠ [] → head = (w.fifos (currentFifo setup w)).hostHead) := by
  by_cases hb : c.batch = []
  · exact ⟨w.pendingCpuHead, by rw [markCpuHead, if_pos hb], fun h => absurd hb h⟩
  · exact ⟨_, by rw [markCpuHead, if_neg hb], fun _ => rfl⟩

/-- Where a turn of the loops of step 1 leads, when it closes the batch. -/
theorem endFill_marks (setup : Setup) (w : World) (c : Collect) : ∃ head pc, endFill setup w c =
    { w with pendingCpuHead := head, pc := pc } ∧ pc.collecting ∧
      (pc = .post c ∧ (c.batch ≠ [] → head = (w.fifos (currentFifo setup w)).hostHead) ∨
        pc = .accumulate c 0 0) := by
  rcases markCpuHead_eq setup w c with ⟨head, heq, hmark⟩
  unfold endFill
  simp only [heq]
  split
  · exact ⟨head, _, rfl, trivial, Or.inr rfl⟩
  · exact ⟨head, _, rfl, trivial, Or.inl ⟨rfl, hmark⟩⟩

/-- What one turn of the loops of step 1 does to the FIFO of the iteration: nothing, or it reads a
    command. If the batch is closed its head is marked. -/
structure Reads (setup : Setup) (w w' : World) : Prop where
  idx : w'.currentFifoIdx = w.currentFifoIdx
  pending : w'.pendingBatch = w.pendingBatch
  collecting : w'.pc.collecting
  fifos : w'.fifos = w.fifos ∨ ∃ f, f.cpuHead = (w.fifos (currentFifo setup w)).cpuHead + 1 ∧
    w'.fifos = Function.update w.fifos (currentFifo setup w) f
  site : (∃ c, w'.pc = .post c ∧
      (c.batch ≠ [] → w'.pendingCpuHead = (w'.fifos (currentFifo setup w')).hostHead)) ∨
    (Awaits w' ↔ w'.pendingBatch ≠ [])

/-- The batch is closed, with or without another command read before. -/
theorem reads_of_endFill {w v : World} (c : Collect) (hidx : v.currentFifoIdx = w.currentFifoIdx)
    (hpend : v.pendingBatch = w.pendingBatch)
    (hfifos : v.fifos = w.fifos ∨ ∃ f, f.cpuHead = (w.fifos (currentFifo setup w)).cpuHead + 1 ∧
      v.fifos = Function.update w.fifos (currentFifo setup w) f) :
    Reads setup w (endFill setup v c) := by
  rcases endFill_marks setup v c with ⟨head, pc, heq, hcol, hsite⟩
  rw [heq]
  refine ⟨hidx, hpend, hcol, hfifos, ?_⟩
  rcases hsite with ⟨rfl, hmark⟩ | rfl
  · exact Or.inl ⟨c, rfl, hmark⟩
  · exact Or.inr Iff.rfl

theorem reads_of_endAccumulate {w v : World} (c : Collect)
    (hidx : v.currentFifoIdx = w.currentFifoIdx) (hpend : v.pendingBatch = w.pendingBatch)
    (hfifos : v.fifos = w.fifos ∨ ∃ f, f.cpuHead = (w.fifos (currentFifo setup w)).cpuHead + 1 ∧
      v.fifos = Function.update w.fifos (currentFifo setup w) f) :
    Reads setup w (endAccumulate setup v c) := by
  rcases markCpuHead_eq setup v c with ⟨head, heq, hmark⟩
  unfold endAccumulate
  rw [heq]
  exact ⟨hidx, hpend, trivial, hfifos, Or.inl ⟨c, rfl, hmark⟩⟩

/-- What a poll does to the FIFO of the iteration. -/
theorem pollFifo_reads {w w₁ : World} {p : Polled} (hp : pollFifo setup w = some (p, w₁)) :
    w₁.currentFifoIdx = w.currentFifoIdx ∧ w₁.pendingBatch = w.pendingBatch ∧
      ∃ f, f.cpuHead = (w.fifos (currentFifo setup w)).cpuHead + 1 ∧
        w₁.fifos = Function.update w.fifos (currentFifo setup w) f := by
  rcases pollFifo_eq_some hp with ⟨f, hpoll, -, -, rfl⟩
  exact ⟨rfl, rfl, f, (Fifo.poll_eq_some hpoll).2.2.1, rfl⟩

theorem fillStep_reads (w : World) (c : Collect) : Reads setup w (fillStep setup w c) := by
  unfold fillStep
  split
  · cases hp : pollFifo setup w with
    -- No FIFO has a command.
    | none => exact reads_of_endFill c rfl rfl (Or.inl rfl)
    | some r =>
        rcases r with ⟨p, w₁⟩
        rcases pollFifo_reads hp with ⟨hidx, hpend, hfifos⟩
        dsimp only
        split
        · -- A BARRIER is read too, before it is sent or closes the batch.
          split
          · exact ⟨hidx, hpend, trivial, Or.inr hfifos, Or.inr Iff.rfl⟩
          · exact reads_of_endFill c hidx hpend (Or.inr hfifos)
        · split
          · exact ⟨hidx, hpend, trivial, Or.inr hfifos, Or.inr Iff.rfl⟩
          · split
            · exact ⟨hidx, hpend, trivial, Or.inr hfifos, Or.inr Iff.rfl⟩
            · exact reads_of_endFill c hidx hpend (Or.inr hfifos)
        · exact ⟨hidx, hpend, trivial, Or.inr hfifos, Or.inr Iff.rfl⟩
  · exact reads_of_endFill c rfl rfl (Or.inl rfl)

theorem accumulateStep_reads (w : World) (c : Collect) (spin misses : Nat) :
    Reads setup w (accumulateStep setup w c spin misses) := by
  unfold accumulateStep
  split
  · cases hp : pollFifo setup w with
    | none => exact ⟨rfl, rfl, trivial, Or.inl rfl, Or.inr Iff.rfl⟩
    | some r =>
        rcases r with ⟨p, w₁⟩
        rcases pollFifo_reads hp with ⟨hidx, hpend, hfifos⟩
        dsimp only
        split
        · exact reads_of_endAccumulate c hidx hpend (Or.inr hfifos)
        · split
          · exact ⟨hidx, hpend, trivial, Or.inr hfifos, Or.inr Iff.rfl⟩
          · exact reads_of_endAccumulate c hidx hpend (Or.inr hfifos)
        · exact ⟨hidx, hpend, trivial, Or.inr hfifos, Or.inr Iff.rfl⟩
  · exact reads_of_endAccumulate c rfl rfl (Or.inl rfl)

/-- A turn of the loops of step 1 reads, or marks what is read. -/
theorem Returned.of_reads (h : Returned setup t) (hr : Reads setup t.1 t'.1)
    (hcol : t.1.pc.collecting) (haw : ¬ Awaits t.1) (hpend : t.1.pendingBatch = [])
    (hnote : t'.2 = t.2) : Returned setup t' := by
  have hcf : currentFifo setup t'.1 = currentFifo setup t.1 := by
    rw [currentFifo, currentFifo, hr.idx]
  have hle := h.began_le hcol
  refine ⟨fun k hk => ?_, fun _ => ?_, fun ha => ?_, fun _ hc => ?_⟩
  · rw [hcf] at hk
    rcases hr.fifos with hf | ⟨f, -, hf⟩
    · rw [hf]
      exact h.others k hk
    · rw [hf, Function.update_of_ne hk]
      exact h.others k hk
  · rw [hnote, hcf]
    rcases hr.fifos with hf | ⟨f, hread, hf⟩
    · rw [hf]
      exact hle
    · rw [hf, Function.update_self, hread]
      omega
  · rcases hr.site with ⟨c, hpc, hmark⟩ | hiff
    · simp only [Awaits, hpc] at ha
      exact hmark ha
    · exact absurd (hr.pending.trans hpend) (hiff.mp ha)
  · have heq := hc hr.collecting
    rw [hnote, hcf] at heq
    rw [hcf]
    rcases hr.fifos with hf | ⟨f, hread, hf⟩
    · rw [hf] at heq ⊢
      exact h.tail haw fun _ => heq
    · -- Something was read, so the note says otherwise.
      rw [hf, Function.update_self, hread] at heq
      omega

/-- Step 1 begins: on the same FIFO with a batch to retry, and else on the next one, where all
    slots are given back. -/
theorem collectStep_returned (h : Returned setup t) (hpc : t.1.pc = .collect)
    (hw : t'.1 = collectStep setup t.1)
    (hnote : t'.2 = (t'.1.fifos (currentFifo setup t'.1)).cpuHead) : Returned setup t' := by
  have haw : Awaits t.1 ↔ t.1.pendingBatch ≠ [] := by rw [Awaits, hpc]
  have hcol : ¬ t.1.pc.collecting := by
    rw [hpc]
    exact not_false
  have hbegin := collectStep_begin setup t.1
  rw [← hw] at hbegin
  have hall : t.1.pendingBatch = [] → ∀ k, (t.1.fifos k).tail = (t.1.fifos k).hostHead := by
    intro hb k
    by_cases hk : k = currentFifo setup t.1
    · rw [hk]
      exact h.tail (fun hx => haw.mp hx hb) fun hx => absurd hx hcol
    · exact h.others k hk
  -- A batch that starts afresh does so with all slots given back.
  have hfresh : t.1.pendingBatch = [] → t'.1.fifos = t.1.fifos → ¬ Awaits t'.1 →
      Returned setup t' := by
    intro hb hf ha
    refine ⟨fun k _ => ?_, fun _ => Nat.le_of_eq hnote, fun hx => absurd hx ha, fun _ _ => ?_⟩
    · rw [hf]
      exact hall hb k
    · rw [hf]
      exact hall hb _
  generalize hv : t'.1 = v at hbegin
  cases hbegin with
  | retry hb =>
      refine h.of_awaiting ?_ ?_ ?_ (haw.mpr hb) ?_ (fun _ => Nat.le_of_eq hnote) <;> rw [hv]
      exact hb
  | seed idx p hb hcmd hlt => exact hfresh hb (by rw [hv]) (by rw [hv]; exact fun hx => hx hb)
  | fresh idx hb hcmd => exact hfresh hb (by rw [hv]) (by rw [hv]; exact fun hx => hx hb)

theorem postStep_returned (h : Returned setup t) (ho : OrderInv setup t.1) {c : Collect}
    (hpc : t.1.pc = .post c) {ok : Bool} (hw : t'.1 = postStep setup t.1 c ok)
    (hnote : t'.2 = t.2) : Returned setup t' := by
  have hsite := ho.site
  rw [hpc] at hsite
  have haw : Awaits t.1 ↔ c.batch ≠ [] := by rw [Awaits, hpc]
  have hcol : t.1.pc.collecting := by
    rw [hpc]
    trivial
  have hle := h.began_le hcol
  unfold postStep at hw
  by_cases hb : c.batch = []
  · rw [if_pos hb] at hw
    have hpend : t.1.pendingBatch = [] := by
      rcases hsite.2 with hx | hx
      · exact hx
      · rw [hx, hb]
    refine h.of_same ?_ (fun k => ?_) ?_ ?_ ?_ hnote <;> rw [hw]
    · exact Fifo.sameCounters_refl _
    · exact ⟨fun hx => absurd hpend hx, fun hx => absurd hb (haw.mp hx)⟩
    · exact ⟨fun _ => hcol, fun _ => trivial⟩
  · rw [if_neg hb] at hw
    cases ok with
    | true =>
        rw [if_pos rfl] at hw
        refine h.of_awaiting ?_ ?_ ?_ (haw.mpr hb) ?_ (fun _ => ?_) <;> rw [hw]
        · trivial
        · rw [hnote]
          exact hle
    | false =>
        -- The batch is kept for a retry, and its head stays marked.
        rw [if_neg Bool.false_ne_true] at hw
        refine h.of_awaiting ?_ ?_ ?_ (haw.mpr hb) ?_ (fun _ => ?_) <;> rw [hw]
        · exact hb
        · rw [hnote]
          exact hle

theorem stageBarrierStep_returned {w : World} {began : Nat} (h : Returned setup (w, began))
    {site : BarrierSite} {p : Nat} (hpc : w.pc = .stageBarrier site p) (ok : Bool) :
    Returned setup (stageBarrierStep setup w site p ok, began) := by
  have haw : Awaits w ↔ w.pendingBatch ≠ [] := by rw [Awaits, hpc]
  have hsame : ∀ k, Fifo.SameCounters (w.fifos k) (w.fifos k) := fun _ =>
    Fifo.sameCounters_refl _
  have hnext : ∀ q, (Pc.stageBarrier site q).collecting ↔ w.pc.collecting := fun q => by
    rw [hpc]
    cases site <;> exact Iff.rfl
  have hcount : (Pc.stageCount site p).collecting ↔ w.pc.collecting := by
    rw [hpc]
    cases site <;> exact Iff.rfl
  unfold stageBarrierStep
  by_cases hp : p < setup.cfg.numPeers
  · rw [if_pos hp]
    by_cases haddr : (setup.cfg.perPeer p).remoteBarrierAddr = 0
    · simp only [if_pos haddr]
      exact h.of_same rfl hsame rfl haw.symm (hnext _) rfl
    · simp only [if_neg haddr]
      cases ok with
      | true => exact h.of_same rfl hsame rfl haw.symm hcount rfl
      | false => exact h.of_same rfl hsame rfl haw.symm (hnext _) rfl
  · rw [if_neg hp]
    -- The last peer is served: the batch goes on, or the loop does.
    refine h.of_same rfl hsame rfl ?_ ?_ rfl
    · rw [haw]
      cases site <;> exact Iff.rfl
    · rw [hpc]
      cases site <;> exact Iff.rfl

/-- Step 4 gives back what was read when the batch was closed, which is all that was read. -/
theorem advanceTail_returned {w : World} {began : Nat} (h : Returned setup (w, began))
    (hpc : w.pc = .advanceTail) : Returned setup ({ w with
      fifos := Function.update w.fifos (currentFifo setup w)
        ((w.fifos (currentFifo setup w)).advanceTail w.pendingCpuHead)
      pc := .loop }, began) := by
  have hmark : w.pendingCpuHead = (w.fifos (currentFifo setup w)).hostHead :=
    h.marked (by rw [Awaits, hpc]; trivial)
  have hself : Function.update w.fifos (currentFifo setup w)
      ((w.fifos (currentFifo setup w)).advanceTail w.pendingCpuHead) (currentFifo setup w) =
      (w.fifos (currentFifo setup w)).advanceTail w.pendingCpuHead := Function.update_self ..
  refine ⟨fun k hk => ?_, fun hx => absurd hx not_false, fun _ => ?_, fun _ _ => ?_⟩
  · -- The FIFOs of the other turns.
    have hother : Function.update w.fifos (currentFifo setup w)
        ((w.fifos (currentFifo setup w)).advanceTail w.pendingCpuHead) k = w.fifos k :=
      Function.update_of_ne hk ..
    dsimp only
    rw [hother]
    exact h.others k hk
  · change w.pendingCpuHead = (Function.update w.fifos (currentFifo setup w)
      ((w.fifos (currentFifo setup w)).advanceTail w.pendingCpuHead) (currentFifo setup w)).hostHead
    rw [hself, hmark]
    rfl
  · change (Function.update w.fifos (currentFifo setup w)
      ((w.fifos (currentFifo setup w)).advanceTail w.pendingCpuHead) (currentFifo setup w)).tail =
      (Function.update w.fifos (currentFifo setup w)
      ((w.fifos (currentFifo setup w)).advanceTail w.pendingCpuHead) (currentFifo setup w)).hostHead
    rw [hself]
    exact hmark

/-- A drain polls as long as something is in flight, and then goes on. -/
theorem drain_returned {w w' : World} {began ne : Nat} {pc : Pc} (h : Returned setup (w, began))
    (hgoto : Returned setup ({ w with pc := pc }, began))
    (hstep : (if 0 < w.inflight then some (pollNic drainReap w ne) else some { w with pc := pc }) =
      some w') : Returned setup (w', began) := by
  split at hstep
  · rw [← Option.some.inj hstep, pollNic_drainReap]
    exact h.of_same rfl (fun _ => Fifo.sameCounters_refl _) rfl Iff.rfl Iff.rfl rfl
  · rw [← Option.some.inj hstep]
    exact hgoto

/-- Behind the poll step 4 gives the slots back, unless there was no batch. -/
theorem pollCq_returned {w : World} {began ne : Nat} {posted : Bool}
    (h : Returned setup (w, began)) (hpc : w.pc = .pollCq posted)
    (hok : Returns setup (w, began) (.proxy true ne)) :
    Returned setup ({ pollNic (reap setup) w ne with
      pc := if posted then .advanceTail else .loop }, began) := by
  rcases pollNic_reap setup w ne with ⟨es, arrival, hw, -, -, -⟩
  rw [hw]
  cases posted with
  | true =>
      exact h.of_awaiting rfl rfl rfl (by rw [Awaits, hpc]; trivial) trivial
        fun hx => absurd hx not_false
  | false =>
      have haw : Awaits w ↔ w.pendingBatch ≠ [] := by rw [Awaits, hpc]
      by_cases hb : w.pendingBatch = []
      · -- The iteration is over without a batch, and has read nothing.
        exact ⟨h.others, fun hx => absurd hx not_false, fun hx => absurd hb hx,
          fun _ _ => h.tail (fun hx => haw.mp hx hb) fun _ => hok hpc hb⟩
      · exact h.of_awaiting rfl rfl rfl (haw.mpr hb) hb fun hx => absurd hx not_false

/-- One action of the proxy thread keeps the tails right. -/
theorem proxyStep_returned {w w' : World} {began began' : Nat} {ok : Bool} {ne : Nat}
    (h : Returned setup (w, began)) (ho : OrderInv setup w)
    (hok : Returns setup (w, began) (.proxy ok ne)) (hstep : proxyStep setup w ok ne = some w')
    (hnote : began' = noteCollect setup w (.proxy ok ne) w' began) :
    Returned setup (w', began') := by
  have hsite := ho.site
  have hsame : ∀ k, Fifo.SameCounters (w.fifos k) (w.fifos k) := fun _ =>
    Fifo.sameCounters_refl _
  -- Only step 1 notes anything.
  have hbegan : w.pc ≠ .collect → began' = began := by
    intro hne
    rw [hnote]
    unfold noteCollect
    cases hpc : w.pc with
    | collect => exact absurd hpc hne
    | _ => rfl
  unfold proxyStep at hstep
  cases hpc : w.pc with
  | loop | pauseGate | pausedSpin =>
      have haw : Awaits w ↔ w.pendingBatch ≠ [] := by rw [Awaits, hpc]
      simp only [hpc, Option.some.injEq] at hstep
      rw [hbegan (by rw [hpc]; simp), ← hstep]
      split <;> exact h.of_same rfl hsame rfl haw.symm
        (iff_of_false not_false (by rw [hpc]; exact not_false)) rfl
  | ackStore | ackClear =>
      have haw : Awaits w ↔ w.pendingBatch ≠ [] := by rw [Awaits, hpc]
      simp only [hpc, Option.some.injEq] at hstep
      rw [hbegan (by rw [hpc]; simp), ← hstep]
      exact h.of_same rfl hsame rfl haw.symm (by rw [hpc]; exact Iff.rfl) rfl
  | barrierGate =>
      have haw : Awaits w ↔ w.pendingBatch ≠ [] := by rw [Awaits, hpc]
      simp only [hpc] at hstep
      rw [hbegan (by rw [hpc]; simp)]
      split at hstep <;> rw [← Option.some.inj hstep] <;>
        exact h.of_same rfl hsame rfl haw.symm (by rw [hpc]; exact Iff.rfl) rfl
  | drainCq site =>
      have haw : Awaits w ↔ w.pendingBatch ≠ [] := by rw [Awaits, hpc]
      simp only [hpc] at hstep
      rw [hbegan (by rw [hpc]; simp)]
      refine drain_returned h ?_ hstep
      refine h.of_same rfl hsame rfl ?_ ?_ rfl
      · rw [haw]
        cases site <;> exact Iff.rfl
      · rw [hpc]
        cases site <;> exact Iff.rfl
  | exitDrain =>
      have haw : Awaits w ↔ w.pendingBatch ≠ [] := by rw [Awaits, hpc]
      simp only [hpc] at hstep
      rw [hbegan (by rw [hpc]; simp)]
      refine drain_returned h ?_ hstep
      exact h.of_same rfl hsame rfl haw.symm (by rw [hpc]; exact Iff.rfl) rfl
  | stageBarrier site p =>
      simp only [hpc, Option.some.injEq] at hstep
      rw [hbegan (by rw [hpc]; simp), ← hstep]
      exact stageBarrierStep_returned h hpc ok
  | stageCount site p =>
      have haw : Awaits w ↔ w.pendingBatch ≠ [] := by rw [Awaits, hpc]
      simp only [hpc, Option.some.injEq] at hstep
      rw [hbegan (by rw [hpc]; simp), ← hstep]
      refine h.of_same rfl hsame rfl haw.symm ?_ rfl
      rw [hpc]
      cases site <;> exact Iff.rfl
  | collect =>
      simp only [hpc, Option.some.injEq, noteCollect] at hstep hnote
      exact collectStep_returned h hpc hstep.symm hnote
  | fill c =>
      simp only [hpc, Option.some.injEq] at hstep
      rw [hpc] at hsite
      rw [hbegan (by rw [hpc]; simp), ← hstep]
      refine h.of_reads (fillStep_reads w c) (by rw [hpc]; trivial) ?_ hsite.1 rfl
      simp only [Awaits, hpc, hsite.1, ne_eq, not_true_eq_false, not_false_eq_true]
  | accumulate c spin misses =>
      simp only [hpc, Option.some.injEq] at hstep
      rw [hpc] at hsite
      rw [hbegan (by rw [hpc]; simp), ← hstep]
      refine h.of_reads (accumulateStep_reads w c spin misses) (by rw [hpc]; trivial) ?_ hsite.1 rfl
      simp only [Awaits, hpc, hsite.1, ne_eq, not_true_eq_false, not_false_eq_true]
  | post c =>
      simp only [hpc, Option.some.injEq] at hstep
      exact postStep_returned h ho hpc hstep.symm (hbegan (by rw [hpc]; simp))
  | account c =>
      simp only [hpc, Option.some.injEq] at hstep
      rw [hbegan (by rw [hpc]; simp), ← hstep]
      exact h.of_awaiting rfl rfl rfl (by rw [Awaits, hpc]; trivial) trivial
        fun _ => h.began_le (by rw [hpc]; trivial)
  | pollCq posted =>
      simp only [hpc, Option.some.injEq] at hstep
      rw [hbegan (by rw [hpc]; simp), ← hstep]
      exact pollCq_returned h hpc hok
  | advanceTail =>
      simp only [hpc, Option.some.injEq] at hstep
      rw [hbegan (by rw [hpc]; simp), ← hstep]
      exact advanceTail_returned h hpc
  | exited => simp only [hpc, reduceCtorEq] at hstep

/-- One FIFO is replaced by one with the same counters. -/
theorem sameCounters_update {fifos : Nat → Fifo} {k : Nat} {f : Fifo}
    (hf : Fifo.SameCounters (fifos k) f) (j : Nat) :
    Fifo.SameCounters (fifos j) (Function.update fifos k f j) := by
  by_cases hj : j = k
  · rw [hj, Function.update_self]
    exact hf
  · rw [Function.update_of_ne hj]
    exact Fifo.sameCounters_refl _

theorem fifoReset_returned {w : World} {began : Nat} (h : Returned setup (w, began)) {k : Nat}
    (hok : k = currentFifo setup w → ¬ Awaits w) :
    Returned setup ({ w with fifos := Function.update w.fifos k (w.fifos k).reset }, began) := by
  have hother : ∀ j, j ≠ k →
      Function.update w.fifos k (w.fifos k).reset j = w.fifos j := fun j hj =>
    Function.update_of_ne hj ..
  have hself : Function.update w.fifos k (w.fifos k).reset k = (w.fifos k).reset :=
    Function.update_self ..
  -- The FIFO that is reset has all counters at zero.
  have hzero : (w.fifos k).reset.tail = (w.fifos k).reset.hostHead :=
    (Nat.sub_self (w.fifos k).cpuHead).symm
  refine ⟨fun j hj => ?_, fun hc => ?_, fun ha => ?_, fun ha hc => ?_⟩
  · change (Function.update w.fifos k (w.fifos k).reset j).tail =
      (Function.update w.fifos k (w.fifos k).reset j).hostHead
    by_cases hjk : j = k
    · rw [hjk, hself]
      exact hzero
    · rw [hother j hjk]
      exact h.others j hj
  · change began ≤ (Function.update w.fifos k (w.fifos k).reset (currentFifo setup w)).cpuHead
    have hle := h.began_le hc
    by_cases hk : currentFifo setup w = k
    · rw [hk, hself]
      rw [hk] at hle
      exact hle
    · rw [hother _ hk]
      exact hle
  · change w.pendingCpuHead =
      (Function.update w.fifos k (w.fifos k).reset (currentFifo setup w)).hostHead
    rw [hother _ fun hk => hok hk.symm ha]
    exact h.marked ha
  · change (Function.update w.fifos k (w.fifos k).reset (currentFifo setup w)).tail =
      (Function.update w.fifos k (w.fifos k).reset (currentFifo setup w)).hostHead
    by_cases hk : currentFifo setup w = k
    · rw [hk, hself]
      exact hzero
    · rw [hother _ hk]
      refine h.tail ha fun hcol => ?_
      have heq : (Function.update w.fifos k (w.fifos k).reset (currentFifo setup w)).cpuHead =
          began := hc hcol
      rw [hother _ hk] at heq
      exact heq

/-- One action of anybody keeps the tails right. -/
theorem step_returned (h : Returned setup t) (ho : OrderInv setup t.1) {a : Action}
    (hok : Returns setup t a)
    (hstep : notedStep (step setup) (noteCollect setup) t a = some t') : Returned setup t' := by
  rcases t with ⟨w, began⟩
  rcases t' with ⟨w', began'⟩
  rcases notedStep_eq_some hstep with ⟨hs, hnote⟩
  dsimp only at hs hnote
  have hsame : ∀ k, Fifo.SameCounters (w.fifos k) (w.fifos k) := fun _ =>
    Fifo.sameCounters_refl _
  cases a with
  | proxy ok ne => exact proxyStep_returned h ho hok hs hnote
  | fifoReset k =>
      rw [hnote, ← Option.some.inj hs]
      exact fifoReset_returned h hok
  -- The kernel's end, which the counters of the host do not see.
  | claim k cmd =>
      rw [← Option.some.inj hs]
      exact h.of_same rfl (sameCounters_update (Fifo.sameCounters_claim _ cmd)) rfl Iff.rfl Iff.rfl
        hnote
  | publish k =>
      rcases Option.map_eq_some_iff.mp hs with ⟨f, hf, rfl⟩
      exact h.of_same rfl (sameCounters_update (Fifo.sameCounters_publish hf)) rfl Iff.rfl Iff.rfl
        hnote
  -- Nobody but the proxy moves the tail or the mark.
  | stop | setEpoch epoch =>
      rw [← Option.some.inj hs]
      exact h.of_same rfl hsame rfl Iff.rfl Iff.rfl hnote
  | place i | complete i | host b =>
      rcases Option.map_eq_some_iff.mp hs with ⟨x, -, rfl⟩
      exact h.of_same rfl hsame rfl Iff.rfl Iff.rfl hnote
  | hostDrain ne =>
      simp only [step, Option.ite_none_right_eq_some, Option.some.injEq] at hs
      rw [← hs.2, pollNic_drainReap]
      exact h.of_same rfl hsame rfl Iff.rfl Iff.rfl hnote
  | recv r | hostReset =>
      simp only [step, Option.ite_none_right_eq_some, Option.some.injEq] at hs
      rw [← hs.2]
      exact h.of_same rfl hsame rfl Iff.rfl Iff.rfl hnote
  | hostBarrier p slot token ok =>
      simp only [step, Option.ite_none_right_eq_some, Option.some.injEq] at hs
      rw [← hs.2]
      cases ok <;> exact h.of_same rfl hsame rfl Iff.rfl Iff.rfl hnote

end Efa

/-- At the top of the loop, with nothing to be retried, the tail of every FIFO is at `cpu_head`,
    in every run in which an iteration that reads something ends in an ordinary batch. -/
theorem slots_returned (cx7 : Cx7.Setup) (setup : Efa.Setup) :
    (∀ t : Cx7.World × Nat,
      Reaches (notedStep (Cx7.step cx7) Cx7.noteCollect) Cx7.Returns (Cx7.init cx7, 0) t →
      t.1.pc = .loop → t.1.fifo.tail = t.1.fifo.hostHead) ∧
    ∀ t : Efa.World × Nat,
      Reaches (notedStep (Efa.step setup) (Efa.noteCollect setup)) (Efa.Returns setup)
        (Efa.init setup, 0) t →
      t.1.pc = .loop → t.1.pendingBatch = [] →
      ∀ k, (t.1.fifos k).tail = (t.1.fifos k).hostHead := by
  refine ⟨fun t ht hpc => ?_, fun t ht hpc hpend k => ?_⟩
  · have hr : Cx7.Returned t := invariant_of_reaches Cx7.Returned
      (fun _ _ _ h hok hstep => Cx7.step_returned h hok hstep) ht (Cx7.returned_init 0)
    exact hr.tail (by rw [hpc]; simp) fun hx => by
      rw [hpc] at hx
      exact absurd hx not_false
  · -- The order of the commands holds in every state of the run.
    have hordered : Reaches (notedStep (Efa.step setup) (Efa.noteCollect setup))
        (fun u a => Efa.Returns setup u a ∧ Efa.OrderInv setup u.1) (Efa.init setup, 0) t := by
      refine reaches_strengthen (fun u a v hu hok _ => ⟨hok, ?_⟩) ht
      have hplain : Reaches (Efa.step setup) always (Efa.init setup) u.1 :=
        reaches_of_noted (fun _ _ _ => trivial) hu
      exact Efa.order_of_reaches hplain
    have hr : Efa.Returned setup t := invariant_of_reaches (Efa.Returned setup)
      (fun _ _ _ h hok hstep => Efa.step_returned h hok.2 hok.1 hstep) hordered
      (Efa.returned_init 0)
    by_cases hk : k = Efa.currentFifo setup t.1
    · rw [hk]
      refine hr.tail ?_ fun hx => ?_
      · rw [Efa.Awaits, hpc]
        exact fun hx => hx hpend
      · rw [hpc] at hx
        exact absurd hx not_false
    · exact hr.others k hk

section Sample

/-- A notify, a strided WRITE and an ordinary one, read in one iteration. -/
def cx7Mixed : Cx7.World × Nat :=
  (run (notedStep (Cx7.step Cx7.sampleSetup) Cx7.noteCollect) Cx7.Returns
    (Cx7.pushes [Cx7.notifyCmd, Cx7.stridedCmd 0 0, Cx7.writeCmd 0 1] ++ Cx7.goes 19)
    (Cx7.init Cx7.sampleSetup, 0)).get (by decide +kernel)

/-- An EFA proxy with two FIFOs. -/
def twoFifos : Efa.Setup :=
  Efa.Setup.ofMode { Efa.sampleConfig with fifos := some id, numFifos := 2 } .writeImm

/-- The second FIFO is read past a command that is dropped, the post fails and is retried, and the
    stashed WRITE is posted in an iteration on the first FIFO. -/
def efaRetried : Efa.World × Nat :=
  (run (notedStep (Efa.step twoFifos) (Efa.noteCollect twoFifos)) (Efa.Returns twoFifos)
    (Efa.pushes 1 [{ Efa.notifyCmd with cmdType := .fence }, Efa.writeCmd 0 0, Efa.writeCmd 1 1] ++
      Efa.goes 7 ++ [Efa.Action.proxy false 32] ++ Efa.goes 34)
    (Efa.init twoFifos, 0)).get (by decide +kernel)

theorem slots_returned_mixed :
    (cx7Mixed.1.fifo.tail = cx7Mixed.1.fifo.hostHead ∧ cx7Mixed.1.fifo.tail = 3) ∧
    (efaRetried.1.fifos 1).tail = (efaRetried.1.fifos 1).hostHead ∧
      (efaRetried.1.fifos 1).tail = 3 :=
  ⟨⟨(slots_returned _ twoFifos).1 cx7Mixed (reaches_of_run _ _ _ (Option.some_get _).symm)
      (by decide +kernel), by decide +kernel⟩,
    (slots_returned Cx7.sampleSetup _).2 efaRetried (reaches_of_run _ _ _ (Option.some_get _).symm)
      (by decide +kernel) (by decide +kernel) 1, by decide +kernel⟩

/-- A strided WRITE alone, and two more iterations. -/
def cx7Strided : Cx7.World :=
  (run (Cx7.step Cx7.sampleSetup) always (Cx7.pushes [Cx7.stridedCmd 0 0] ++ Cx7.goes 27)
    (Cx7.init Cx7.sampleSetup)).get (by decide +kernel)

/-- A notify alone, and two more iterations. -/
def efaNotified : Efa.World :=
  (run (Efa.step Efa.writeImmSetup) always (Efa.pushes 0 [Efa.notifyCmd] ++ Efa.goes 26)
    (Efa.init Efa.writeImmSetup)).get (by decide +kernel)

/-- Everything claimed was read and nothing is held, and the slot is not given back. -/
theorem slots_withheld :
    (∃ w, Reaches (Cx7.step Cx7.sampleSetup) always (Cx7.init Cx7.sampleSetup) w ∧
      w.pc = .loop ∧ w.fifo.head = w.fifo.hostHead ∧ w.pendingCmd = none ∧
      w.fifo.tail ≠ w.fifo.hostHead) ∧
    ∃ w, Reaches (Efa.step Efa.writeImmSetup) always (Efa.init Efa.writeImmSetup) w ∧
      w.pc = .loop ∧ (w.fifos 0).head = (w.fifos 0).hostHead ∧ w.pendingCmd = none ∧
      w.pendingBatch = [] ∧ w.hasPendingBarrier = false ∧
      (w.fifos 0).tail ≠ (w.fifos 0).hostHead :=
  ⟨⟨cx7Strided, reaches_of_run _ _ _ (Option.some_get _).symm, by decide +kernel⟩,
    ⟨efaNotified, reaches_of_run _ _ _ (Option.some_get _).symm, by decide +kernel⟩⟩

end Sample

end Internode

end MKernel
