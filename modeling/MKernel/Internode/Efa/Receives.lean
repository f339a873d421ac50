import MKernel.Internode.Efa.Proxy

/-!
# Receive Completions of the EFA Proxy

What becomes of the completions that tell of a peer's write with immediate data.

Sends and receives share one completion queue, and the proxy polls it from four
places. Step 3 of the loop sets the arrival flag of the tile that came with a
receive. The other three wait for sends: `drain_cq` before a stage barrier, the
same when the host calls it while the proxy is paused, and the drain after the
loop. They take a receive off the queue like anything else and pass it over, and
nothing brings it back. So a receive is delivered unless it is at the front of
the queue when one of them polls (`recvs_delivered_iff`, `recv_passed_over`).

To say so the proxy is watched: each receive completion it takes is written down,
with the epoch of the moment and the arrival flag of its tile after the step. The
flags are shared, and somebody else may write them between any two steps: the
host for a new epoch, the kernel, another proxy.

## Main definitions

* `pollOf`: The poll of the completion queue in a step.
* `taken`: The completions a step takes off the queue.
* `Watch`: A proxy, and the receive completions it took.
* `Delivered`: Their flags were set.
* `Spares`: The condition on a step that no drain takes a receive in vain.

## Theorems

* `step_cqStep`: A step polls as `pollOf` says, or leaves the queue to grow.
* `step_cq`: Nothing leaves the queue but what is taken.
* `foldl_reap_word`: The flags after step 3.
* `delivered_step_iff`, `recvs_delivered_iff`: One step, and every run.
* `recv_passed_over`: A run in which a drain takes a receive.
-/

namespace MKernel

namespace Internode

namespace Efa

open MKernel.Core

/-- A poll of the completion queue: whether receives are passed over, and how
    many completions there are at most. -/
structure CqPoll where
  drains : Bool
  ne : Nat

/-- The poll of the completion queue in a step, if there is one. -/
def pollOf (w : World) : Action → Option CqPoll
  | .proxy _ ne =>
      match w.pc with
      -- Both wait for the in-flight counter and poll no more at zero.
      | .drainCq _ | .exitDrain => if 0 < w.inflight then some ⟨true, ne⟩ else none
      | .pollCq _ => some ⟨false, ne⟩
      | _ => none
  | .hostDrain ne => some ⟨true, ne⟩
  | _ => none

/-- The completions a step takes off the queue. -/
def taken (w : World) (a : Action) : List (WorkRequest ⊕ Recv) :=
  match pollOf w a with
  | some p => (w.nic.poll (min p.ne 32)).1
  | none => []

/-- The receive completions among completions. -/
def recvs (cs : List (WorkRequest ⊕ Recv)) : List Recv := cs.filterMap Sum.getRight?

/-- A receive completion that was taken: in which epoch, and what the arrival
    flag of its tile was then. -/
structure Delivery where
  recv : Recv
  epoch : BitVec 32
  word : BitVec 32
  deriving DecidableEq

/-- A proxy, and the receive completions it took, oldest first. -/
structure Watch where
  world : World
  seen : List Delivery

namespace Watch

inductive Action where
  | proxy (a : Efa.Action)
  /-- Somebody else writes an arrival flag. -/
  | word (tile : Nat) (value : BitVec 32)

def init (setup : Setup) : Watch := ⟨Efa.init setup, []⟩

def step (setup : Setup) (t : Watch) : Action → Option Watch
  | .proxy a =>
      (Efa.step setup t.world a).map fun w =>
        ⟨w, t.seen ++ (recvs (taken t.world a)).map fun r =>
          ⟨r, t.world.epoch, w.localArrival r.tile⟩⟩
  | .word tile value =>
      some { t with
        world := { t.world with
          localArrival := Function.update t.world.localArrival tile value } }

/-- No drain takes a receive completion, unless the flag of its tile has been set
    before. -/
def Spares (setup : Setup) (t : Watch) : Action → Prop
  | .proxy a =>
      (pollOf t.world a).map CqPoll.drains = some true →
        ∀ r ∈ recvs (taken t.world a), r.tile < setup.cfg.localArrivalCount →
          t.world.localArrival r.tile = t.world.epoch
  | .word _ _ => True

instance (setup : Setup) (t : Watch) (a : Action) : Decidable (Spares setup t a) := by
  unfold Spares
  cases a <;> infer_instance

/-- The flag of each receive completion with a valid tile was set when it was
    taken. -/
def Delivered (setup : Setup) (t : Watch) : Prop :=
  ∀ d ∈ t.seen, d.recv.tile < setup.cfg.localArrivalCount → d.word = d.epoch

instance (setup : Setup) (t : Watch) : Decidable (Delivered setup t) :=
  inferInstanceAs (Decidable (∀ d ∈ _, _))

end Watch

variable {setup : Setup} {w w' : World}

/-! ## One poll -/

/-- One receive completion in step 3 sets the flag of its tile. -/
theorem reap_recv_word (setup : Setup) (w : World) (r : Recv) (tile : Nat) :
    (reap setup w (.inr r)).localArrival tile =
      if tile < setup.cfg.localArrivalCount ∧ r.tile = tile then w.epoch
      else w.localArrival tile := by
  unfold reap
  dsimp only
  change (if r.tile < setup.cfg.localArrivalCount then _ else w : World).localArrival tile = _
  by_cases heq : r.tile = tile
  · subst heq
    by_cases hlt : r.tile < setup.cfg.localArrivalCount
    · rw [if_pos hlt, if_pos ⟨hlt, rfl⟩]
      exact Function.update_self _ _ _
    · rw [if_neg hlt, if_neg fun h => hlt h.1]
  · have hother : ¬ (tile < setup.cfg.localArrivalCount ∧ r.tile = tile) := fun h => heq h.2
    rw [if_neg hother]
    split
    · exact Function.update_of_ne (fun h => heq h.symm) _ _
    · rfl

theorem reap_epoch (setup : Setup) (w : World) (c : WorkRequest ⊕ Recv) :
    (reap setup w c).epoch = w.epoch := by
  unfold reap
  cases c with
  | inl wr => rfl
  | inr r =>
      dsimp only
      split <;> rfl

/-- The flags after step 3: those of the receives hold the epoch. -/
theorem foldl_reap_word (setup : Setup) (cs : List (WorkRequest ⊕ Recv)) (w : World)
    (tile : Nat) :
    (cs.foldl (reap setup) w).localArrival tile =
      if tile < setup.cfg.localArrivalCount ∧ ∃ r ∈ recvs cs, r.tile = tile then w.epoch
      else w.localArrival tile := by
  induction cs generalizing w with
  | nil => rw [if_neg fun h => absurd h.2 (by simp [recvs])]; rfl
  | cons c cs ih =>
      rw [List.foldl_cons, ih, reap_epoch]
      cases c with
      | inl wr => rfl
      | inr r =>
          have hrecvs : recvs (.inr r :: cs) = r :: recvs cs := rfl
          -- The later receives decide; without one of the tile it is this one.
          rw [reap_recv_word, hrecvs]
          simp only [List.exists_mem_cons_iff, and_or_left]
          by_cases hlater : tile < setup.cfg.localArrivalCount ∧ ∃ u ∈ recvs cs, u.tile = tile
          · rw [if_pos hlater, if_pos (Or.inr hlater)]
          · simp only [hlater, if_false, or_false]

/-- What a step has to do with the completion queue. -/
inductive CqStep (setup : Setup) (w : World) (a : Action) (w' : World) : Prop where
  /-- No poll: the NIC may report more. -/
  | idle (hpoll : pollOf w a = none) (added : List (WorkRequest ⊕ Recv))
      (hcq : w'.nic.cq = w.nic.cq ++ added)
  /-- A poll that waits for sends. -/
  | drain (ne : Nat) (hpoll : pollOf w a = some ⟨true, ne⟩) (hw : w' = pollNic drainReap w ne)
  /-- The poll of step 3. -/
  | reap (ne : Nat) (pc : Pc) (hpoll : pollOf w a = some ⟨false, ne⟩)
      (hw : w' = { pollNic (reap setup) w ne with pc := pc })

theorem CqStep.of_same {a : Action} (hpoll : pollOf w a = none) (hcq : w'.nic.cq = w.nic.cq) :
    CqStep setup w a w' := by
  refine .idle hpoll [] ?_
  rw [hcq, List.append_nil]

/-- The loops of step 1 poll FIFOs only. -/
theorem turn_cq {c : Collect} (ht : Turn setup w c w') : w'.nic.cq = w.nic.cq := by
  cases ht with
  | close head pc hpc | miss spin misses hw => rfl
  | ignored p w₁ pc hp | inlineNotify p w₁ hp | flagNotify p w₁ head pc hp | first p w₁ hp
  | join p w₁ pc hp | stash p w₁ head hp =>
      -- A poll of a FIFO replaces the FIFO and nothing of the NIC.
      rcases pollFifo_eq_some hp with ⟨f, -, -, -, rfl⟩
      rfl

theorem stageBarrierStep_cq (setup : Setup) (w : World) (site : BarrierSite) (p : Nat)
    (ok : Bool) : (stageBarrierStep setup w site p ok).nic.cq = w.nic.cq := by
  unfold stageBarrierStep
  dsimp only
  split
  · split
    · rfl
    · split <;> rfl
  · rfl

theorem postStep_cq (setup : Setup) (w : World) (c : Collect) (ok : Bool) :
    (postStep setup w c ok).nic.cq = w.nic.cq := by
  unfold postStep
  dsimp only
  split
  · rfl
  · split <;> rfl

theorem proxyStep_cqStep {ok : Bool} {ne : Nat} (hstep : proxyStep setup w ok ne = some w') :
    CqStep setup w (.proxy ok ne) w' := by
  unfold proxyStep at hstep
  -- By the position in the loop: only three positions poll the completion queue.
  cases hpc : w.pc with
  | loop | pauseGate | pausedSpin | ackStore | ackClear | account c | advanceTail
  | stageCount site p =>
      simp only [hpc, Option.some.injEq] at hstep
      rw [← hstep]
      exact .of_same (by simp only [pollOf, hpc]) rfl
  | barrierGate =>
      simp only [hpc] at hstep
      split at hstep <;> rw [← Option.some.inj hstep] <;>
        exact .of_same (by simp only [pollOf, hpc]) rfl
  | drainCq site | exitDrain =>
      simp only [hpc] at hstep
      split at hstep <;> rename_i hflight <;> rw [← Option.some.inj hstep]
      · -- Something is in flight, so the loop polls once more.
        exact .drain ne (by simp only [pollOf, hpc, if_pos hflight]) rfl
      · exact .of_same (by simp only [pollOf, hpc, if_neg hflight]) rfl
  | stageBarrier site p =>
      simp only [hpc, Option.some.injEq] at hstep
      rw [← hstep]
      exact .of_same (by simp only [pollOf, hpc]) (stageBarrierStep_cq _ _ _ _ _)
  | collect =>
      simp only [hpc, Option.some.injEq] at hstep
      have hbegin := collectStep_begin setup w
      rw [hstep] at hbegin
      cases hbegin <;> exact .of_same (by simp only [pollOf, hpc]) rfl
  | fill c =>
      simp only [hpc, Option.some.injEq] at hstep
      rw [← hstep]
      exact .of_same (by simp only [pollOf, hpc]) (turn_cq (fillStep_turn hpc))
  | accumulate c spin misses =>
      simp only [hpc, Option.some.injEq] at hstep
      rw [← hstep]
      exact .of_same (by simp only [pollOf, hpc]) (turn_cq (accumulateStep_turn hpc))
  | post c =>
      simp only [hpc, Option.some.injEq] at hstep
      rw [← hstep]
      exact .of_same (by simp only [pollOf, hpc]) (postStep_cq _ _ _ _)
  | pollCq posted =>
      simp only [hpc, Option.some.injEq] at hstep
      exact .reap ne _ (by simp only [pollOf, hpc]) hstep.symm
  | exited => simp only [hpc, reduceCtorEq] at hstep

/-- A step polls as `pollOf` says, or leaves the queue to grow. -/
theorem step_cqStep {a : Action} (hstep : step setup w a = some w') : CqStep setup w a w' := by
  cases a with
  | claim k cmd | stop | setEpoch epoch | fifoReset k =>
      rw [← Option.some.inj hstep]
      exact .of_same rfl rfl
  | publish k | host b =>
      rcases Option.map_eq_some_iff.mp hstep with ⟨x, -, rfl⟩
      exact .of_same rfl rfl
  | place i =>
      rcases Option.map_eq_some_iff.mp hstep with ⟨⟨wr, q⟩, hq, rfl⟩
      rcases Option.map_eq_some_iff.mp hq with ⟨v, -, heq⟩
      refine .of_same rfl ?_
      rw [← (Prod.mk.inj heq).2]
  | complete i =>
      rcases Option.map_eq_some_iff.mp hstep with ⟨q, hq, rfl⟩
      rcases Option.map_eq_some_iff.mp hq with ⟨wr, -, rfl⟩
      -- The NIC reports a send.
      exact .idle rfl [.inl wr] rfl
  | recv r =>
      simp only [step, Option.ite_none_right_eq_some, Option.some.injEq] at hstep
      rw [← hstep.2]
      -- The NIC reports a peer's write.
      exact .idle rfl [.inr r] rfl
  | hostReset =>
      simp only [step, Option.ite_none_right_eq_some, Option.some.injEq] at hstep
      rw [← hstep.2]
      exact .of_same rfl rfl
  | hostBarrier p slot token ok =>
      simp only [step, Option.ite_none_right_eq_some, Option.some.injEq] at hstep
      rw [← hstep.2]
      cases ok <;> exact .of_same rfl rfl
  | hostDrain ne =>
      simp only [step, Option.ite_none_right_eq_some, Option.some.injEq] at hstep
      exact .drain ne rfl hstep.2.symm
  | proxy ok ne => exact proxyStep_cqStep hstep

/-- Nothing leaves the queue but what is taken. -/
theorem step_cq {a : Action} (hstep : step setup w a = some w') :
    ∃ added, w.nic.cq ++ added = taken w a ++ w'.nic.cq := by
  cases step_cqStep hstep with
  | idle hpoll added hcq =>
      refine ⟨added, ?_⟩
      rw [hcq, taken, hpoll, List.nil_append]
  | drain ne hpoll hw =>
      refine ⟨[], ?_⟩
      rw [hw, pollNic_drainReap, taken, hpoll, List.append_nil]
      exact (List.take_append_drop _ _).symm
  | reap ne pc hpoll hw =>
      refine ⟨[], ?_⟩
      rcases pollNic_reap setup w ne with ⟨es, arrival, hreap, -⟩
      rw [hw, hreap, taken, hpoll, List.append_nil]
      exact (List.take_append_drop _ _).symm

/-! ## The watched proxy -/

section Watched

variable {t t' : Watch}

/-- After a poll, the flag of a receive that was taken holds the epoch: always if
    it was taken in step 3, and as it was before if it was passed over. -/
theorem word_eq_epoch_iff {a : Action} (hstep : step setup w a = some w') {r : Recv}
    (hr : r ∈ recvs (taken w a)) (hlt : r.tile < setup.cfg.localArrivalCount) :
    w'.localArrival r.tile = w.epoch ↔
      ((pollOf w a).map CqPoll.drains = some true → w.localArrival r.tile = w.epoch) := by
  cases step_cqStep hstep with
  | idle hpoll added hcq =>
      rw [taken, hpoll] at hr
      exact absurd hr List.not_mem_nil
  | drain ne hpoll hw =>
      -- Nothing is done with it.
      rw [hw, pollNic_drainReap, hpoll]
      simp only [Option.map_some, forall_const]
  | reap ne pc hpoll hw =>
      rw [taken, hpoll] at hr
      have hword := foldl_reap_word setup (w.nic.poll (min ne 32)).1
        { w with nic := (w.nic.poll (min ne 32)).2 } r.tile
      -- It is among the receives of the poll, so its flag was set.
      rw [if_pos ⟨hlt, r, hr, rfl⟩] at hword
      rw [hw, hpoll]
      simp only [Option.map_some, Option.some.injEq, Bool.false_eq_true, false_imp_iff, iff_true]
      exact hword

/-- One step delivers what it takes exactly if no drain takes a receive in vain. -/
theorem delivered_step_iff {a : Watch.Action} (h : Watch.Delivered setup t)
    (hstep : Watch.step setup t a = some t') :
    Watch.Delivered setup t' ↔ Watch.Spares setup t a := by
  cases a with
  | word tile value =>
      -- Nobody else's write changes what was noted down.
      rw [← Option.some.inj hstep]
      exact iff_of_true h trivial
  | proxy a =>
      rcases Option.map_eq_some_iff.mp hstep with ⟨w, hw, rfl⟩
      simp only [Watch.Delivered, Watch.Spares, List.mem_append, List.mem_map]
      constructor
      · -- What a step takes is noted down by that step.
        intro hall hdrain r hr hlt
        exact (word_eq_epoch_iff hw hr hlt).mp (hall _ (Or.inr ⟨r, hr, rfl⟩) hlt) hdrain
      · rintro hspares d (hd | ⟨r, hr, rfl⟩) hlt
        · exact h d hd hlt
        · exact (word_eq_epoch_iff hw hr hlt).mpr fun hdrain => hspares hdrain r hr hlt

theorem delivered_of_reaches
    (h : Reaches (Watch.step setup) (Watch.Spares setup) (Watch.init setup) t) :
    Watch.Delivered setup t := by
  refine invariant_of_reaches (Watch.Delivered setup)
    (fun t a t' ht hok hstep => (delivered_step_iff ht hstep).mpr hok) h ?_
  intro d hd
  exact absurd hd List.not_mem_nil

end Watched

/-- As long as no drain takes a receive in vain, every receive completion with a
    valid tile that the proxy takes sets the flag of its tile; and the first drain
    that does leaves a flag unset. -/
theorem recvs_delivered_iff {t : Watch}
    (h : Reaches (Watch.step setup) (Watch.Spares setup) (Watch.init setup) t) :
    Watch.Delivered setup t ∧ ∀ a t', Watch.step setup t a = some t' →
      (Watch.Delivered setup t' ↔ Watch.Spares setup t a) := by
  have hdelivered := delivered_of_reaches h
  exact ⟨hdelivered, fun a t' hstep => delivered_step_iff hdelivered hstep⟩

section Sample

/-- A peer's write with the immediate data of tile 5. -/
def tileFive : Recv := ⟨1, htonl 5, ⟨0, 0, writeCmd 0 5⟩⟩

/-- It is reported to an idle proxy, which takes it in step 3. -/
def atStepThree : Watch :=
  (run (Watch.step writeImmSetup) (Watch.Spares writeImmSetup)
    ((Action.recv tileFive :: goes 7).map .proxy) (Watch.init writeImmSetup)).get
    (by decide +kernel)

theorem recvs_delivered_atStepThree :
    atStepThree.seen = [⟨tileFive, 1, 1⟩] ∧ Watch.Delivered writeImmSetup atStepThree :=
  ⟨by decide +kernel, (recvs_delivered_iff (reaches_of_run _ _ _ (Option.some_get _).symm)).1⟩

/-- It is reported while the proxy waits for a WRITE to complete, to send the
    stage barrier behind it. The drain takes it, and flag 5 stays zero. -/
theorem recv_passed_over : ∃ t : Watch,
    Reaches (Watch.step writeImmSetup) always (Watch.init writeImmSetup) t ∧
    t.seen = [⟨tileFive, 1, 0⟩] ∧ recvs t.world.nic.cq = [] ∧
    ¬ Watch.Delivered writeImmSetup t :=
  ⟨(run (Watch.step writeImmSetup) always
      ((pushes 0 [writeCmd 0 5, notifyCmd] ++ goes 22 ++ Action.recv tileFive :: goes 1).map .proxy)
      (Watch.init writeImmSetup)).get (by decide +kernel),
    reaches_of_run _ _ _ (Option.some_get _).symm, by decide +kernel, by decide +kernel,
    by decide +kernel⟩

end Sample

end Efa

end Internode

end MKernel
