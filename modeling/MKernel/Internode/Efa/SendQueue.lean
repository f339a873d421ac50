import MKernel.Core.Numbered
import MKernel.Internode.Efa.Nic
import MKernel.Internode.Efa.Posts

/-!
# The Send Queues of the EFA Proxy

How many requests can be outstanding on one SRD queue pair.

The constructor cuts the budget of one QP down to a part of its send queue and multiplies by the
number of QPs, and the loop then compares one counter with the product. The counter counts
commands, over all QPs. So nothing keeps the commands from going to the same QP, and one send
queue is given what was meant for all of them (`srd_queue_overrun`). In `write_imm` mode the
budget is not cut at all. And a command whose counting request completes before the others has
left the counter while it still takes places in the send queue.

Where these things do not happen the budget does what it is for. A command has one counting
request and at most `wrsPerCommand` requests, so the requests on a QP are at most so many times the
commands on it (`requestsOn_le`). With one QP the commands are what the counter says, and the
loop keeps that within the budget, with what the current batch may still become (`step_load`).
With more it is the lanes that have to keep to the budget of one (`Spreads`). Stage barriers are
posted without a look at the budget, and have to find room (`srd_queue_bound`).

## Main definitions

* `requestsOn`, `commandsOn`: The requests outstanding on a QP, and those that count.
* `Setup.wrsPerCommand`: How many requests a command takes at most.
* `load`: What is in flight, with what the current batch may still become.
* `Spreads`: No QP is given more commands than the budget of one QP.
* `Affordable`: The condition on an action.
* `QueueInv`: Every command has its requests outstanding at most once.

## Theorems

* `step_load`: What an action adds to the load.
* `step_queue`: One action keeps the requests of each command apart.
* `requestsOn_le`: The requests on a QP, by the commands on it.
* `srd_queue_bound`: No send queue is given too much, under the condition.
* `srd_queue_overrun`: One is, elsewhere.
-/

namespace MKernel

namespace Internode

namespace Efa

open MKernel.Core

variable {setup : Setup} {w w' : World}

/-- The local QP a request is posted to: that of its command, and the first one for a barrier. -/
def localQp (setup : Setup) (wr : WorkRequest) : Nat :=
  match wr.role.cmd? with
  | some p => setup.mapToLocalQp p.cmd
  | none => 0

/-- The number of requests outstanding on a QP. -/
def requestsOn (setup : Setup) (w : World) (qp : Nat) : Nat :=
  keyCount (localQp setup) w.nic.outstanding qp

/-- The requests that count. -/
def countingOf (wrs : List WorkRequest) : List WorkRequest := wrs.filter fun wr => wr.wrId = 1

/-- The number of commands and barriers in flight on a QP, as the counter would have it. -/
def commandsOn (setup : Setup) (w : World) (qp : Nat) : Nat :=
  keyCount (localQp setup) (countingOf w.nic.outstanding) qp

/-- How many requests a command takes at most. -/
def Setup.wrsPerCommand (setup : Setup) : Nat :=
  match setup.notifyMode with
  | .writeImm => 1
  | .remoteFlag => if setup.cfg.useArrivalQueue && setup.cfg.enableRemoteTail then 3 else 2

/-- The depth of the send queues. -/
def ProxyConfig.goodSqDepth (cfg : ProxyConfig) : Int :=
  if 0 < cfg.sqDepth then cfg.sqDepth else SRD_SQ_DEPTH

/-- The budget of one QP, in commands. -/
def Setup.perQpCap (setup : Setup) : Int := setup.cfg.perQpCap setup.notifyMode

/-- What a batch may have when it is complete. -/
def Collect.room (setup : Setup) (c : Collect) : Int :=
  max c.batch.length (min (batchCap setup) (setup.effectiveMaxInflight - c.preInflight))

/-- What is promised to the batch behind a stage barrier, with `n` commands to retry. -/
def BarrierSite.reserved (setup : Setup) (n : Nat) : BarrierSite → Int
  | .gate => n
  | .inline preInflight => (⟨[], 0, preInflight⟩ : Collect).room setup

/-- What is promised to the current batch, with `n` commands to retry. -/
def Pc.reserved (setup : Setup) (n : Nat) : Pc → Int
  | .drainCq site => site.reserved setup n
  | .stageBarrier site _ => site.reserved setup n
  | .stageCount site _ => site.reserved setup n
  | .fill c => c.room setup
  | .accumulate c _ _ => c.room setup
  | .post c => c.batch.length
  | .account _ => 0
  | _ => n

/-- What is in flight, counted or not, and what is promised to the current batch. -/
def load (setup : Setup) (w : World) : Int :=
  w.inflight + w.pc.uncounted + w.pc.reserved setup w.pendingBatch.length

/-- With several QPs, a batch leaves its QP within the budget of one. -/
def Spreads (setup : Setup) (w : World) : Action → Prop
  | .proxy true _ =>
      match w.pc with
      | .post c => 1 < setup.numQps →
          (commandsOn setup w c.batchQp + c.batch.length : Int) ≤ setup.perQpCap
      | _ => True
  | _ => True

instance (setup : Setup) (w : World) (a : Action) : Decidable (Spreads setup w a) := by
  unfold Spreads
  generalize w.pc = pc
  apply @Action.casesOn _ a
  case proxy =>
    exact fun ok _ => by
      apply @Bool.casesOn _ ok <;> apply @Pc.casesOn _ pc <;> intros <;> infer_instance
  all_goals intros; infer_instance

/-- The condition on an action: counting requests complete last, the lanes keep to the budget,
    and a stage barrier finds room. -/
structure Affordable (setup : Setup) (w : World) (a : Action) : Prop where
  last : CountsLast setup w a
  spreads : Spreads setup w a
  barrier : PostsBarrier setup w a →
    setup.wrsPerCommand * (load setup w + 1) ≤ setup.cfg.goodSqDepth

instance (setup : Setup) (w : World) (a : Action) : Decidable (Affordable setup w a) :=
  decidable_of_iff (CountsLast setup w a ∧ Spreads setup w a ∧ (PostsBarrier setup w a →
      setup.wrsPerCommand * (load setup w + 1) ≤ setup.cfg.goodSqDepth))
    ⟨fun h => ⟨h.1, h.2.1, h.2.2⟩, fun h => ⟨h.1, h.2, h.3⟩⟩

/-! ## The load -/

section Load

/-- What an action adds to the load: at most a barrier, and the budget bounds the rest. -/
def Grows (setup : Setup) (w : World) (a : Action) (w' : World) : Prop :=
  load setup w' ≤ max (load setup w) setup.effectiveMaxInflight ∨
    PostsBarrier setup w a ∧ load setup w' ≤ load setup w + 1

theorem grows_of_le {a : Action} (h : load setup w' ≤ load setup w) : Grows setup w a w' :=
  Or.inl (Int.le_trans h (Int.le_max_left _ _))

/-- A move that counts nothing and promises nothing more. -/
theorem grows_of_reserved {a : Action} (hinf : w'.inflight = w.inflight)
    (hun : w'.pc.uncounted = w.pc.uncounted)
    (hres : w'.pc.reserved setup w'.pendingBatch.length ≤
      w.pc.reserved setup w.pendingBatch.length) : Grows setup w a w' := by
  refine grows_of_le ?_
  simp only [load, hinf, hun]
  omega

theorem collectStep_grows {a : Action} (hpc : w.pc = .collect) :
    Grows setup w a (collectStep setup w) := by
  have hload : load setup w = w.inflight + 0 + w.pendingBatch.length := by
    rw [load, hpc]
    rfl
  have hcap : (0 : Int) ≤ batchCap setup := Int.natCast_nonneg _
  have hbegin := collectStep_begin setup w
  generalize collectStep setup w = v at hbegin
  cases hbegin with
  -- A batch that failed is posted again.
  | retry hb =>
      refine grows_of_le ?_
      rw [hload]
      exact Int.le_refl _
  -- The seed is the stashed command, for which there is room.
  | seed idx p hb hcmd hlt =>
      refine Or.inl ?_
      rw [hload]
      simp only [load, Pc.uncounted, Pc.reserved, Collect.room, List.length_singleton]
      omega
  | fresh idx hb hcmd =>
      refine Or.inl ?_
      rw [hload]
      simp only [load, Pc.uncounted, Pc.reserved, Collect.room, List.length_nil]
      omega

/-- Wherever a batch is closed, what it has was promised to it. -/
theorem Closes.reserved {c : Collect} {cmd : Option Polled} {pc : Pc} (h : Closes c cmd pc)
    (n : Nat) : pc.reserved setup n ≤ c.room setup := by
  rcases h with rfl | ⟨rfl, -⟩
  · exact Int.le_max_left _ _
  · exact Int.le_refl _

/-- One more command of the batch was promised to it. -/
theorem room_of_limit {c d : Collect} (hlen : d.batch.length = c.batch.length + 1)
    (hpre : d.preInflight = c.preInflight) (h : c.batch.length < batchCap setup ∧
      c.preInflight + c.batch.length < setup.effectiveMaxInflight) :
    d.room setup ≤ c.room setup := by
  rcases h with ⟨h1, h2⟩
  simp only [Collect.room, hlen, hpre]
  omega

/-- A turn of the loops of step 1 takes what was promised to the batch. -/
theorem turn_grows {a : Action} {c : Collect}
    (hpc : w.pc.uncounted = 0 ∧ ∀ n, w.pc.reserved setup n = c.room setup)
    (hlim : c.batch.length < batchCap setup ∧
      c.preInflight + c.batch.length < setup.effectiveMaxInflight)
    (ht : Turn setup w c w') : Grows setup w a w' := by
  -- Nothing is posted in these turns, so it is enough that less or as much is reserved.
  have hkeep : ∀ v : World, v.inflight = w.inflight → v.pc.uncounted = 0 →
      v.pc.reserved setup v.pendingBatch.length ≤ c.room setup → Grows setup w a v := by
    intro v hinf hun hres
    refine grows_of_reserved hinf (by rw [hun, hpc.1]) ?_
    rw [hpc.2]
    exact hres
  cases ht with
  | close head pc hcl => exact hkeep _ rfl hcl.uncounted (hcl.reserved _)
  | miss spin misses hw => exact hkeep _ rfl rfl (Int.le_refl _)
  -- What is polled is not posted, and the batch keeps its place.
  | ignored p w₁ pc hp hw hn hpc' =>
      rcases pollFifo_account hp with ⟨-, -, h3⟩
      rcases hpc' with ⟨-, rfl⟩ | ⟨-, s, m, rfl⟩ <;> exact hkeep _ h3 rfl (Int.le_refl _)
  -- A notification on its own reserves the one request of the barrier.
  | inlineNotify p w₁ hp hn hw hb hlt =>
      rcases pollFifo_account hp with ⟨-, -, h3⟩
      refine hkeep _ h3 rfl ?_
      simp only [Pc.reserved, BarrierSite.reserved, Collect.room, hb, Int.le_refl]
  | flagNotify p w₁ head pc hp hn hb hcl =>
      rcases pollFifo_account hp with ⟨-, -, h3⟩
      exact hkeep _ h3 hcl.uncounted (hcl.reserved _)
  | first p w₁ hp hwr hw hb hlt =>
      rcases pollFifo_account hp with ⟨-, -, h3⟩
      exact hkeep _ h3 rfl (room_of_limit (by rw [hb]; rfl) rfl hlim)
  | join p w₁ pc hp hwr ha hpc' =>
      rcases pollFifo_account hp with ⟨-, -, h3⟩
      -- The batch grows by one command, and what may still join it is one less.
      have hpush : (c.push p).room setup ≤ c.room setup :=
        room_of_limit (by rw [Collect.push, List.length_append]; rfl) rfl hlim
      rcases hpc' with ⟨-, rfl⟩ | ⟨-, s, m, rfl⟩ <;> exact hkeep _ h3 rfl hpush
  -- A stash is for the next batch.
  | stash p w₁ head hp hwr hb =>
      rcases pollFifo_account hp with ⟨-, -, h3⟩
      exact hkeep _ h3 rfl (Int.le_max_left _ _)

/-- Past its limit the poll loop polls nothing. -/
theorem fillStep_grows {a : Action} {c : Collect} (hpc : w.pc = .fill c) :
    Grows setup w a (fillStep setup w c) := by
  by_cases hlim : c.batch.length < batchCap setup ∧
      c.preInflight + c.batch.length < setup.effectiveMaxInflight
  · exact turn_grows (by rw [hpc]; exact ⟨rfl, fun _ => rfl⟩) hlim
      (fillStep_turn hpc)
  · rw [fillStep, if_neg hlim]
    rcases endFill_eq setup w c with ⟨head, pc, heq, hcl⟩
    rw [heq]
    refine grows_of_reserved rfl ?_ ?_
    · rw [hpc]
      exact hcl.uncounted
    · rw [hpc]
      exact hcl.reserved _

theorem accumulateStep_grows {a : Action} {c : Collect} {spin misses : Nat}
    (hpc : w.pc = .accumulate c spin misses) :
    Grows setup w a (accumulateStep setup w c spin misses) := by
  by_cases hlim : Spins setup c spin misses
  · exact turn_grows (by rw [hpc]; exact ⟨rfl, fun _ => rfl⟩) hlim.2.2
      (accumulateStep_turn hpc)
  · rw [accumulateStep, if_neg hlim]
    rcases endAccumulate_eq setup w c with ⟨head, heq⟩
    rw [heq]
    refine grows_of_reserved rfl ?_ ?_
    · rw [hpc]
      rfl
    · rw [hpc]
      exact Int.le_max_left _ _

/-- A poll of the completion queue lowers the counter. -/
theorem inflight_poll (ne : Nat) :
    w.inflight - ((polledRequests w ne).map WorkRequest.weight).sum ≤ w.inflight := by
  have hsum : 0 ≤ ((polledRequests w ne).map WorkRequest.weight).sum := by
    refine List.sum_nonneg fun x hx => ?_
    rcases List.mem_map.mp hx with ⟨wr, -, rfl⟩
    exact weight_nonneg wr
  omega

theorem drainReap_grows (a : Action) (ne : Nat) :
    Grows setup w a (pollNic drainReap w ne) := by
  rw [pollNic_drainReap]
  refine grows_of_le ?_
  have := inflight_poll (w := w) ne
  simp only [load]
  omega

theorem postStep_grows {a : Action} (ho : OrderInv setup w) {c : Collect} (hpc : w.pc = .post c)
    (ok : Bool) : Grows setup w a (postStep setup w c ok) := by
  have hsite := ho.site
  rw [hpc] at hsite
  unfold postStep
  split
  · rename_i hb
    -- Nothing was collected, and then there is nothing to retry.
    have hpend : w.pendingBatch.length = 0 := by
      rcases hsite.2 with h | h <;> simp [h, hb]
    refine grows_of_reserved rfl (by rw [hpc]; rfl) ?_
    simp only [hpc, Pc.reserved, hpend]
    omega
  · dsimp only
    split
    · refine grows_of_le ?_
      simp only [load, hpc, Pc.uncounted, Pc.reserved]
      omega
    · refine grows_of_reserved rfl (by rw [hpc]; rfl) ?_
      rw [hpc]
      exact Int.le_refl _

theorem stageBarrierStep_grows {site : BarrierSite} {p : Nat} (hpc : w.pc = .stageBarrier site p)
    (ok : Bool) (ne : Nat) : Grows setup w (.proxy ok ne) (stageBarrierStep setup w site p ok) := by
  unfold stageBarrierStep
  by_cases hp : p < setup.cfg.numPeers
  · rw [if_pos hp]
    by_cases haddr : (setup.cfg.perPeer p).remoteBarrierAddr = 0
    · simp only [if_pos haddr]
      exact grows_of_reserved rfl (by rw [hpc]; rfl) (by rw [hpc]; exact Int.le_refl _)
    · simp only [if_neg haddr]
      -- Only a barrier that is posted adds a request.
      cases ok with
      | true =>
          refine Or.inr ⟨?_, ?_⟩
          · simp only [PostsBarrier, hpc]
            exact ⟨hp, haddr⟩
          · simp only [if_true, load, hpc, Pc.uncounted, Pc.reserved]
            omega
      | false => exact grows_of_reserved rfl (by rw [hpc]; rfl) (by rw [hpc]; exact Int.le_refl _)
  · rw [if_neg hp]
    refine grows_of_reserved rfl (by rw [hpc]; cases site <;> rfl) ?_
    rw [hpc]
    cases site <;> exact Int.le_refl _

/-- What an action of the proxy adds to the load. -/
theorem proxyStep_grows (ho : OrderInv setup w) {ok : Bool} {ne : Nat}
    (hstep : proxyStep setup w ok ne = some w') : Grows setup w (.proxy ok ne) w' := by
  unfold proxyStep at hstep
  cases hpc : w.pc with
  | loop | pauseGate | pausedSpin =>
      simp only [hpc, Option.some.injEq] at hstep
      rw [← hstep]
      refine grows_of_reserved rfl ?_ ?_ <;> rw [hpc] <;> dsimp only <;> split <;> rfl
  | ackStore | ackClear | advanceTail =>
      simp only [hpc, Option.some.injEq] at hstep
      rw [← hstep]
      exact grows_of_reserved rfl (by rw [hpc]; rfl) (by rw [hpc]; exact Int.le_refl _)
  | barrierGate =>
      simp only [hpc] at hstep
      split at hstep <;> rw [← Option.some.inj hstep] <;>
        exact grows_of_reserved rfl (by rw [hpc]; rfl) (by rw [hpc]; exact Int.le_refl _)
  | drainCq site =>
      simp only [hpc] at hstep
      split at hstep <;> rw [← Option.some.inj hstep]
      · exact drainReap_grows _ ne
      · exact grows_of_reserved rfl (by rw [hpc]; rfl) (by rw [hpc]; exact Int.le_refl _)
  | stageBarrier site p =>
      simp only [hpc, Option.some.injEq] at hstep
      rw [← hstep]
      exact stageBarrierStep_grows hpc ok ne
  | stageCount site p =>
      simp only [hpc, Option.some.injEq] at hstep
      rw [← hstep]
      refine grows_of_le ?_
      -- What waited to be counted is counted.
      simp only [load, hpc, Pc.uncounted, Pc.reserved]
      omega
  | collect =>
      simp only [hpc, Option.some.injEq] at hstep
      rw [← hstep]
      exact collectStep_grows hpc
  | fill c =>
      simp only [hpc, Option.some.injEq] at hstep
      rw [← hstep]
      exact fillStep_grows hpc
  | accumulate c spin misses =>
      simp only [hpc, Option.some.injEq] at hstep
      rw [← hstep]
      exact accumulateStep_grows hpc
  | post c =>
      simp only [hpc, Option.some.injEq] at hstep
      rw [← hstep]
      exact postStep_grows ho hpc ok
  | account c =>
      simp only [hpc, Option.some.injEq] at hstep
      rw [← hstep]
      refine grows_of_le ?_
      simp only [load, hpc, Pc.uncounted, Pc.reserved, List.length_nil]
      omega
  | pollCq posted =>
      simp only [hpc, Option.some.injEq] at hstep
      rcases pollNic_reap setup w ne with ⟨es, arrival, hw, -, -, -⟩
      rw [← hstep, hw]
      refine grows_of_le ?_
      have := inflight_poll (w := w) ne
      simp only [load, hpc]
      split <;> simp only [Pc.uncounted, Pc.reserved] <;> omega
  | exitDrain =>
      simp only [hpc] at hstep
      split at hstep <;> rw [← Option.some.inj hstep]
      · exact drainReap_grows _ ne
      · exact grows_of_reserved rfl (by rw [hpc]; rfl) (by rw [hpc]; exact Int.le_refl _)
  | exited => simp only [hpc, reduceCtorEq] at hstep

/-- What an action of anybody adds to the load. -/
theorem step_load (ho : OrderInv setup w) (ha : AccountInv w) (hg : Handshake.Inv (toHandshake w))
    {a : Action} (hstep : step setup w a = some w') : Grows setup w a w' := by
  cases a with
  | claim k cmd | stop | setEpoch epoch | fifoReset k =>
      rw [← Option.some.inj hstep]
      exact grows_of_le (Int.le_refl _)
  | publish k | place i | complete i | host b =>
      rcases Option.map_eq_some_iff.mp hstep with ⟨x, -, rfl⟩
      exact grows_of_le (Int.le_refl _)
  | recv r =>
      simp only [step, Option.ite_none_right_eq_some, Option.some.injEq] at hstep
      rw [← hstep.2]
      exact grows_of_le (Int.le_refl _)
  | hostDrain ne =>
      simp only [step, Option.ite_none_right_eq_some, Option.some.injEq] at hstep
      rw [← hstep.2]
      exact drainReap_grows _ ne
  | hostReset =>
      simp only [step, Option.ite_none_right_eq_some, Option.some.injEq] at hstep
      rcases hstep with ⟨⟨hs, -⟩, rfl⟩
      -- A stopped proxy has counted everything, so the counter is not negative.
      have heq := ha.inflight_eq (by rw [spin_of_stopped hg hs]; rfl)
      have hnonneg : 0 ≤ w.nic.weight WorkRequest.weight :=
        WorkQueue.weight_nonneg fun v _ => weight_nonneg v
      refine grows_of_le ?_
      simp only [load]
      omega
  | hostBarrier p slot token ok =>
      simp only [step, Option.ite_none_right_eq_some, Option.some.injEq] at hstep
      rw [← hstep.2]
      cases ok with
      | true =>
          refine Or.inr ⟨trivial, ?_⟩
          simp only [load, hostBarrierStep, if_true]
          omega
      | false => exact grows_of_le (Int.le_refl _)
  | proxy ok ne => exact proxyStep_grows ho hstep

theorem reserved_nonneg (setup : Setup) (n : Nat) (pc : Pc) : 0 ≤ pc.reserved setup n := by
  have hroom : ∀ c : Collect, 0 ≤ c.room setup := by
    intro c
    simp only [Collect.room]
    omega
  have hsite : ∀ site : BarrierSite, 0 ≤ site.reserved setup n := by
    intro site
    cases site with
    | gate => exact Int.natCast_nonneg _
    | inline preInflight => exact hroom _
  cases pc with
  | drainCq site | stageBarrier site p | stageCount site p => exact hsite site
  | fill c | accumulate c spin misses => exact hroom c
  | account c => exact Int.le_refl 0
  | _ => exact Int.natCast_nonneg _

end Load

/-! ## The requests of a command -/

section Batch

variable {peer : PerPeerProxyData} {dstQpn : BitVec 32} {epoch : BitVec 32} {fs : FlagState}
  {batch : List Polled} {wrs : List WorkRequest}

theorem wrsPerCommand_pos (setup : Setup) : 1 ≤ setup.wrsPerCommand := by
  unfold Setup.wrsPerCommand
  split
  · exact Nat.le_refl 1
  · split <;> decide

theorem length_remoteFlagRequests (hmode : setup.notifyMode = .remoteFlag) (p : Polled) :
    (remoteFlagRequests setup peer dstQpn fs p).1.length ≤ setup.wrsPerCommand := by
  have htwo : 2 ≤ setup.wrsPerCommand := by
    simp only [Setup.wrsPerCommand, hmode]
    split <;> decide
  unfold remoteFlagRequests queueRequests
  split
  · rename_i hq
    dsimp only
    split
    · rename_i ht
      -- A tail is one more, and is allowed for.
      simp only [Setup.hasTail, Bool.and_eq_true] at ht
      simp only [Setup.wrsPerCommand, hmode, hq, ht.1, Bool.and_self, if_true, List.length_cons,
        List.length_nil, Nat.le_refl]
    · exact htwo
  · exact htwo

/-- The requests of a command are as many as it may have, and the others belong to others. -/
theorem keyCount_commands {ws : List WorkRequest} {q : Polled} (h : Accounts ws q)
    (hlen : ws.length ≤ setup.wrsPerCommand) (p : Polled) :
    keyCount (fun wr => wr.role.cmd?) ws (some p) ≤
      setup.wrsPerCommand * (if q = p then 1 else 0) := by
  by_cases hq : q = p
  · rw [if_pos hq, Nat.mul_one]
    exact Nat.le_trans (keyCount_le_length _) hlen
  · rw [if_neg hq, Nat.mul_zero, keyCount_eq_zero fun wr hwr heq => ?_]
    rw [h.cmd wr hwr] at heq
    exact hq (Option.some.inj heq)

theorem keyCount_postBatch (p : Polled) :
    keyCount (fun wr => wr.role.cmd?) (postBatch setup peer dstQpn epoch fs batch).1 (some p) ≤
      setup.wrsPerCommand * batch.count p := by
  -- In this mode each command is accounted for by its data request and its flag.
  have hloop : setup.notifyMode = .remoteFlag → ∀ (b : List Polled) (fs : FlagState),
      keyCount (fun wr => wr.role.cmd?) (remoteFlagLoop setup peer dstQpn fs b).1 (some p) ≤
        setup.wrsPerCommand * b.count p := by
    intro hmode b
    induction b with
    | nil => exact fun _ => Nat.le_refl 0
    | cons q t ih =>
        intro fs
        have hq : keyCount (fun wr => wr.role.cmd?) (remoteFlagRequests setup peer dstQpn fs q).1
            (some p) ≤ setup.wrsPerCommand * (if q = p then 1 else 0) :=
          keyCount_commands accounts_remoteFlag (length_remoteFlagRequests hmode q) p
        have ht := ih (remoteFlagRequests setup peer dstQpn fs q).2
        simp only [remoteFlagLoop, keyCount_append, List.count_cons, Nat.mul_add, beq_iff_eq]
        omega
  cases hmode : setup.notifyMode with
  | remoteFlag =>
      simp only [postBatch, hmode, postRemoteFlagBatch]
      exact hloop hmode batch _
  | writeImm =>
      simp only [postBatch, hmode]
      induction batch with
      | nil => exact Nat.le_refl 0
      -- Each command has one request here.
      | cons q t ih =>
          have hq : keyCount (fun wr => wr.role.cmd?) [writeImmRequest setup peer dstQpn q]
              (some p) ≤ setup.wrsPerCommand * (if q = p then 1 else 0) :=
            keyCount_commands accounts_writeImm (wrsPerCommand_pos setup) p
          have hcons : postWriteImmBatch setup peer dstQpn (q :: t) =
              [writeImmRequest setup peer dstQpn q] ++ postWriteImmBatch setup peer dstQpn t := rfl
          rw [hcons, keyCount_append, List.count_cons, Nat.mul_add]
          simp only [beq_iff_eq]
          omega

/-- Where the `wr_id`s are 0 and 1, the weight is the number of requests that count. -/
theorem weight_eq_counting (h : ∀ wr ∈ wrs, wr.wrId = 0 ∨ wr.wrId = 1) :
    weightOf wrs = (countingOf wrs).length := by
  induction wrs with
  | nil => rfl
  | cons wr t ih =>
      have ht := ih fun v hv => h v (List.mem_cons_of_mem _ hv)
      have hcons : weightOf (wr :: t) = wr.weight + weightOf t := List.sum_cons
      rw [hcons, ht]
      rcases h wr List.mem_cons_self with hid | hid
      · rw [countingOf, countingOf, List.filter_cons_of_neg (by simp [hid]), WorkRequest.weight,
          hid]
        exact Int.zero_add _
      · rw [countingOf, countingOf, List.filter_cons_of_pos (by simp [hid]),
          WorkRequest.weight, hid,
          List.length_cons]
        omega

end Batch

/-! ## The requests outstanding -/

/-- Every command has its requests outstanding at most once, and a barrier counts itself. -/
structure QueueInv (setup : Setup) (w : World) : Prop where
  ids : ∀ wr ∈ w.nic.outstanding, wr.wrId = 0 ∨ wr.wrId = 1
  barriers : ∀ wr ∈ w.nic.outstanding, wr.role.cmd? = none → wr.wrId = 1
  posted : ∀ wr ∈ w.nic.outstanding, ∀ p, wr.role.cmd? = some p → p ∈ postedOf w.hist
  once : ∀ p, keyCount (fun wr => wr.role.cmd?) w.nic.outstanding (some p) ≤ setup.wrsPerCommand

theorem queue_init : QueueInv setup (init setup) where
  ids _ hwr := absurd hwr List.not_mem_nil
  barriers _ hwr := absurd hwr List.not_mem_nil
  posted _ hwr := absurd hwr List.not_mem_nil
  once _ := Nat.zero_le _

/-- Whatever leaves the queues, the rest is as it was. -/
theorem QueueInv.of_fewer (h : QueueInv setup w) (gone : List WorkRequest)
    (hnic : (gone ++ w'.nic.outstanding).Perm w.nic.outstanding)
    (hposted : postedOf w'.hist = postedOf w.hist) : QueueInv setup w' := by
  have hmem : ∀ wr ∈ w'.nic.outstanding, wr ∈ w.nic.outstanding := fun wr hwr =>
    hnic.mem_iff.mp (List.mem_append_right _ hwr)
  refine ⟨fun wr hwr => h.ids wr (hmem wr hwr), fun wr hwr => h.barriers wr (hmem wr hwr),
    fun wr hwr p hp => ?_, fun p => ?_⟩
  · rw [hposted]
    exact h.posted wr (hmem wr hwr) p hp
  · have hcount : keyCount (fun wr => wr.role.cmd?) (gone ++ w'.nic.outstanding) (some p) =
        keyCount (fun wr => wr.role.cmd?) w.nic.outstanding (some p) :=
      keyCount_perm hnic (some p)
    rw [keyCount_append] at hcount
    exact Nat.le_trans (by omega) (h.once p)

/-- The requests of a batch whose commands were not posted before. -/
theorem QueueInv.of_batch (h : QueueInv setup w) {ws : List WorkRequest} {batch : List Polled}
    (hacc : BatchAccounts ws batch)
    (honce : ∀ p, keyCount (fun wr => wr.role.cmd?) ws (some p) ≤
      setup.wrsPerCommand * batch.count p)
    (hnodup : (postedOf w.hist ++ batch).Nodup) (hnic : w'.nic = w.nic.post ws)
    (hposted : postedOf w'.hist = postedOf w.hist ++ batch) : QueueInv setup w' := by
  have hperm : w'.nic.outstanding.Perm (w.nic.outstanding ++ ws) := by
    rw [hnic]
    exact WorkQueue.outstanding_post w.nic ws
  have hmem : ∀ wr ∈ w'.nic.outstanding, wr ∈ w.nic.outstanding ∨ wr ∈ ws := fun wr hwr =>
    List.mem_append.mp (hperm.mem_iff.mp hwr)
  refine ⟨fun wr hwr => ?_, fun wr hwr hnone => ?_, fun wr hwr p hp => ?_, fun p => ?_⟩
  · rcases hmem wr hwr with hwr | hwr
    · exact h.ids wr hwr
    · exact hacc.ids wr hwr
  · rcases hmem wr hwr with hwr | hwr
    · exact h.barriers wr hwr hnone
    · rcases hacc.cmd wr hwr with ⟨q, -, hq⟩
      rw [hnone] at hq
      exact absurd hq (Option.some_ne_none q).symm
  · rw [hposted]
    rcases hmem wr hwr with hwr | hwr
    · exact List.mem_append_left _ (h.posted wr hwr p hp)
    · rcases hacc.cmd wr hwr with ⟨q, hq, hqp⟩
      rw [hp, Option.some.injEq] at hqp
      rw [hqp]
      exact List.mem_append_right _ hq
  · rw [keyCount_perm hperm, keyCount_append]
    have hws := honce p
    by_cases hp : p ∈ batch
    · -- A command of the batch has nothing outstanding yet.
      have hnone : keyCount (fun wr : WorkRequest => wr.role.cmd?) w.nic.outstanding (some p) = 0 :=
        keyCount_eq_zero fun wr hwr heq =>
          (List.nodup_append.mp hnodup).2.2 p (h.posted wr hwr p heq) p hp rfl
      have hone := List.nodup_iff_count_le_one.mp (List.nodup_append.mp hnodup).2.1 p
      rw [hnone, Nat.zero_add]
      exact Nat.le_trans hws (by simpa using Nat.mul_le_mul_left setup.wrsPerCommand hone)
    · rw [List.count_eq_zero.mpr hp, Nat.mul_zero] at hws
      have hold := h.once p
      omega

theorem QueueInv.of_barrier (h : QueueInv setup w) {peer : PerPeerProxyData} {slot s : Nat}
    (hnic : w'.nic = w.nic.post [barrierRequest setup peer slot s])
    (hposted : postedOf w'.hist = postedOf w.hist) : QueueInv setup w' := by
  have hperm : w'.nic.outstanding.Perm
      (w.nic.outstanding ++ [barrierRequest setup peer slot s]) := by
    rw [hnic]
    exact WorkQueue.outstanding_post w.nic _
  have hmem : ∀ wr ∈ w'.nic.outstanding,
      wr ∈ w.nic.outstanding ∨ wr = barrierRequest setup peer slot s := fun wr hwr => by
    rcases List.mem_append.mp (hperm.mem_iff.mp hwr) with hold | hnew
    · exact Or.inl hold
    · exact Or.inr (List.mem_singleton.mp hnew)
  -- The barrier is the only request that is new, and it is for no command.
  refine ⟨fun wr hwr => ?_, fun wr hwr hnone => ?_, fun wr hwr p hp => ?_, fun p => ?_⟩
  · rcases hmem wr hwr with hwr | rfl
    · exact h.ids wr hwr
    · exact Or.inr rfl
  · rcases hmem wr hwr with hwr | rfl
    · exact h.barriers wr hwr hnone
    · rfl
  · rw [hposted]
    rcases hmem wr hwr with hwr | rfl
    · exact h.posted wr hwr p hp
    · exact absurd hp (Option.some_ne_none p).symm
  · rw [keyCount_perm hperm, keyCount_append]
    -- So no command is counted for it.
    have hzero : keyCount (fun wr : WorkRequest => wr.role.cmd?)
        [barrierRequest setup peer slot s] (some p) = 0 :=
      keyCount_eq_zero fun wr hwr heq => by
        rw [List.mem_singleton.mp hwr] at heq
        exact Option.some_ne_none p heq.symm
    rw [hzero]
    exact h.once p

/-- What was posted was polled in some place of some FIFO, and no place is polled twice. -/
theorem OrderInv.nodup (ho : OrderInv setup w) : (postedOf w.hist).Nodup := by
  have hfrom : ∀ k, (polledFrom k w.hist).Nodup := by
    intro k
    refine List.Nodup.of_map Polled.seq ?_
    rw [ho.seqs k]
    exact List.nodup_range
  have hpolled : (polledOf w.hist).Nodup := by
    refine List.nodup_iff_count_le_one.mpr fun p => ?_
    have hcount := List.nodup_iff_count_le_one.mp (hfrom p.fifo) p
    rw [polledFrom, List.count_filter (by simp only [decide_true])] at hcount
    exact hcount
  have hwrites : (writesPolled w.hist).Nodup := hpolled.filter _
  rw [ho.split] at hwrites
  exact (List.nodup_append.mp hwrites).1

/-- One action keeps the requests of each command apart. -/
theorem step_queue (h : QueueInv setup w) (ho : OrderInv setup w') {a : Action}
    (hstep : step setup w a = some w') : QueueInv setup w' := by
  cases step_posts hstep with
  | quiet hdraws hbuilds gone hnic hopen hflags hs => exact h.of_fewer gone hnic hs.posted
  | setEpoch epoch ha hnic hflags hposted =>
      exact h.of_fewer [] (by rw [hnic]; rfl) hposted
  | refused hdraws token htoken hnic hflags hs => exact h.of_fewer [] (by rw [hnic]; rfl) hs.posted
  | barrier ha hdraws peer slot token htoken hnic hflags hs => exact h.of_barrier hnic hs.posted
  -- The commands of the batch follow those posted before.
  | batch ok ne c ha hpc hb hw =>
      unfold postStep at hw
      rw [if_neg hb] at hw
      cases ok with
      | false =>
          rw [if_neg Bool.false_ne_true] at hw
          exact h.of_fewer [] (by rw [hw]; rfl) (by rw [hw])
      | true =>
          rw [if_pos rfl] at hw
          have hposted : postedOf w'.hist = postedOf w.hist ++ c.batch := by
            rw [hw, postedOf_append]
            simp only [postedOf, List.flatMap_cons, List.flatMap_nil, Event.batch, List.append_nil]
          refine h.of_batch batchAccounts_postBatch keyCount_postBatch ?_ (by rw [hw]) hposted
          rw [← hposted]
          exact ho.nodup

/-- A request that counts nothing has its counting request outstanding too. -/
theorem Covered.covers {q : WorkQueue WorkRequest Recv} (h : Covered q) {v : WorkRequest}
    (hv : v ∈ q.outstanding) (h0 : v.wrId = 0) : ∃ wr ∈ q.outstanding, Covers wr v := by
  rw [WorkQueue.outstanding, ← List.append_assoc] at hv
  -- The counting request is one that is not yet in the queue, or stands behind in it.
  rcases List.mem_append.mp hv with hv | hv
  · rcases h.pending v hv h0 with ⟨wr, hwr, hcov⟩
    refine ⟨wr, ?_, hcov⟩
    rw [WorkQueue.outstanding, ← List.append_assoc]
    exact List.mem_append_left _ hwr
  · rcases List.mem_filterMap.mp hv with ⟨e, he, hev⟩
    rcases List.append_of_mem he with ⟨before, after, hs⟩
    cases e with
    | inr r => exact absurd hev (by simp only [Sum.getLeft?_inr, reduceCtorEq, not_false_eq_true])
    | inl u =>
        simp only [Sum.getLeft?_inl, Option.some.injEq] at hev
        rw [hev] at hs
        rcases h.queued before v after hs h0 with ⟨wr, hwr, hcov⟩
        refine ⟨wr, ?_, hcov⟩
        rw [WorkQueue.outstanding, ← List.append_assoc]
        rcases List.mem_append.mp hwr with hwr | hwr
        · exact List.mem_append_left _ hwr
        · refine List.mem_append_right _ ?_
          rw [hs, WorkQueue.requests_append]
          exact List.mem_append_right _ (List.mem_cons_of_mem v hwr)

/-- The counting requests of a QP are those of the requests on it. -/
theorem commandsOn_eq (w : World) (qp : Nat) : commandsOn setup w qp =
    ((ofKey (localQp setup) qp w.nic.outstanding).filter fun wr => wr.wrId = 1).length := by
  rw [commandsOn, keyCount, ofKey, ofKey, countingOf, List.filter_filter, List.filter_filter]
  congr 1
  exact List.filter_congr fun wr _ => Bool.and_comm _ _

/-- The requests on a QP are at most so many times the commands on it. -/
theorem requestsOn_le (hq : QueueInv setup w) (hc : Covered w.nic) (qp : Nat) :
    requestsOn setup w qp ≤ setup.wrsPerCommand * commandsOn setup w qp := by
  rw [commandsOn_eq]
  refine length_le_of_keyCount (fun wr => wr.role.cmd?) fun cmd => ?_
  cases cmd with
  | none =>
      have hkeep : keyCount (fun wr : WorkRequest => wr.role.cmd?)
          ((ofKey (localQp setup) qp w.nic.outstanding).filter fun wr => wr.wrId = 1) none =
          keyCount (fun wr : WorkRequest => wr.role.cmd?)
            (ofKey (localQp setup) qp w.nic.outstanding) none := by
        rw [keyCount, keyCount, ofKey, ofKey, List.filter_filter]
        congr 1
        refine List.filter_congr fun wr hwr => ?_
        have hin := (List.mem_filter.mp hwr).1
        by_cases hnone : wr.role.cmd? = none
        · simp [hnone, hq.barriers wr hin hnone]
        · simp [hnone]
      rw [hkeep]
      exact Nat.le_mul_of_pos_left _ (wrsPerCommand_pos setup)
  | some p =>
      by_cases hany : ∃ v ∈ ofKey (localQp setup) qp w.nic.outstanding, v.role.cmd? = some p
      · rcases hany with ⟨v, hv, hvp⟩
        rcases List.mem_filter.mp hv with ⟨hin, hqp⟩
        -- The counting request of the command is outstanding, and on the same QP.
        have hcount : ∃ u ∈ w.nic.outstanding, u.wrId = 1 ∧ u.role.cmd? = some p := by
          rcases hq.ids v hin with h0 | h1
          · rcases hc.covers hin h0 with ⟨u, hu, hid, hcmd⟩
            exact ⟨u, hu, hid, by rw [hcmd, hvp]⟩
          · exact ⟨v, hin, h1, hvp⟩
        rcases hcount with ⟨u, hu, hid, hup⟩
        have huq : localQp setup u = qp := by
          rw [← of_decide_eq_true hqp, localQp, localQp, hup, hvp]
        have hmem : u ∈ ofKey (fun wr : WorkRequest => wr.role.cmd?) (some p)
            ((ofKey (localQp setup) qp w.nic.outstanding).filter fun wr => wr.wrId = 1) :=
          List.mem_filter.mpr ⟨List.mem_filter.mpr ⟨List.mem_filter.mpr
            ⟨hu, decide_eq_true huq⟩, decide_eq_true hid⟩, decide_eq_true hup⟩
        have hone : 1 ≤ keyCount (fun wr : WorkRequest => wr.role.cmd?)
            ((ofKey (localQp setup) qp w.nic.outstanding).filter fun wr => wr.wrId = 1) (some p) :=
          List.length_pos_of_mem hmem
        have hle : keyCount (fun wr : WorkRequest => wr.role.cmd?)
            (ofKey (localQp setup) qp w.nic.outstanding) (some p) ≤ setup.wrsPerCommand :=
          Nat.le_trans (keyCount_sublist List.filter_sublist (some p)) (hq.once p)
        exact Nat.le_trans hle (Nat.le_mul_of_pos_right _ hone)
      · rw [keyCount_eq_zero fun v hv hvp => hany ⟨v, hv, hvp⟩]
        exact Nat.zero_le _

/-! ## The bound -/

/-- The commands on a QP are among those in flight. -/
theorem commandsOn_le_load (ha : AccountInv w) (hq : QueueInv setup w) (qp : Nat) :
    (commandsOn setup w qp : Int) ≤ load setup w := by
  have hle : commandsOn setup w qp ≤ (countingOf w.nic.outstanding).length :=
    keyCount_le_length qp
  have hw := weight_eq_counting hq.ids
  have hcount : weightOf w.nic.outstanding = w.inflight + w.pc.uncounted := ha.count
  have hres := reserved_nonneg setup w.pendingBatch.length w.pc
  unfold load
  omega

/-- The budgets of the send queues: of the only one the load keeps to it, and of every one
    the commands do. -/
structure Bounded (setup : Setup) (w : World) : Prop where
  single : setup.numQps = 1 → setup.wrsPerCommand * load setup w ≤ setup.cfg.goodSqDepth
  each : ∀ qp, (setup.wrsPerCommand * commandsOn setup w qp : Int) ≤ setup.cfg.goodSqDepth

theorem goodSqDepth_pos (cfg : ProxyConfig) : 0 < cfg.goodSqDepth := by
  unfold ProxyConfig.goodSqDepth
  split
  · assumption
  · decide

theorem bounded_init : Bounded setup (init setup) := by
  have hpos := goodSqDepth_pos setup.cfg
  have hload : load setup (init setup) = 0 := rfl
  refine ⟨fun _ => ?_, fun qp => ?_⟩
  · rw [hload, Int.mul_zero]
    omega
  · have hzero : commandsOn setup (init setup) qp = 0 := rfl
    rw [hzero, Int.natCast_zero, Int.mul_zero]
    omega

/-- What a QP may have after some new requests. -/
theorem commandsOn_append (setup : Setup) (w w' : World) {new : List WorkRequest}
    (hperm : w'.nic.outstanding.Perm (w.nic.outstanding ++ new)) (qp : Nat) :
    commandsOn setup w' qp =
      commandsOn setup w qp + keyCount (localQp setup) (countingOf new) qp := by
  rw [commandsOn, countingOf, keyCount_perm (hperm.filter _), List.filter_append, keyCount_append]
  rfl

/-- The requests of a batch are on its QP, and as many of them count as it has commands. -/
theorem keyCount_batch {ws : List WorkRequest} {batch : List Polled} {batchQp : Nat}
    (hacc : BatchAccounts ws batch) (hroute : SameRoute setup batchQp batch) (qp : Nat) :
    keyCount (localQp setup) (countingOf ws) qp = if qp = batchQp then batch.length else 0 := by
  have hqp : ∀ wr ∈ ws, localQp setup wr = batchQp := by
    intro wr hwr
    rcases hacc.cmd wr hwr with ⟨p, hp, hcmd⟩
    rw [localQp, hcmd]
    exact hroute.1 p hp
  by_cases h : qp = batchQp
  · have hall : ofKey (localQp setup) qp (countingOf ws) = countingOf ws := by
      refine List.filter_eq_self.mpr fun wr hwr => decide_eq_true ?_
      rw [hqp wr (List.mem_filter.mp hwr).1, h]
    have hlen := weight_eq_counting hacc.ids
    rw [weightOf, hacc.weight] at hlen
    rw [if_pos h, keyCount, hall]
    omega
  · rw [if_neg h]
    refine keyCount_eq_zero fun wr hwr heq => h ?_
    rw [← heq, hqp wr (List.mem_filter.mp hwr).1]

/-- One action keeps to the budgets. -/
theorem step_bounded (hcfg : setup.wrsPerCommand * setup.perQpCap ≤ setup.cfg.goodSqDepth)
    (heff : setup.effectiveMaxInflight = setup.perQpCap * setup.numQps)
    (ho : OrderInv setup w) (ha : AccountInv w) (hg : Handshake.Inv (toHandshake w))
    (hq : QueueInv setup w) (ha' : AccountInv w') (hq' : QueueInv setup w')
    (h : Bounded setup w) {a : Action} (hok : Affordable setup w a)
    (hstep : step setup w a = some w') : Bounded setup w' := by
  have hk : (0 : Int) ≤ setup.wrsPerCommand := Int.natCast_nonneg _
  have hsingle : setup.numQps = 1 →
      setup.wrsPerCommand * load setup w' ≤ setup.cfg.goodSqDepth := by
    intro hone
    rw [hone, Int.natCast_one, Int.mul_one] at heff
    rcases step_load ho ha hg hstep with hle | ⟨hbar, hle⟩
    · rcases Int.le_total (load setup w) setup.effectiveMaxInflight with hmax | hmax
      · rw [Int.max_eq_right hmax, heff] at hle
        exact Int.le_trans (Int.mul_le_mul_of_nonneg_left hle hk) hcfg
      · rw [Int.max_eq_left hmax] at hle
        exact Int.le_trans (Int.mul_le_mul_of_nonneg_left hle hk) (h.single hone)
    · exact Int.le_trans (Int.mul_le_mul_of_nonneg_left hle hk) (hok.barrier hbar)
  refine ⟨hsingle, fun qp => ?_⟩
  by_cases hone : setup.numQps = 1
  · exact Int.le_trans (Int.mul_le_mul_of_nonneg_left (commandsOn_le_load ha' hq' qp) hk)
      (hsingle hone)
  · have hmany : 1 < setup.numQps := by
      have := setup.numQps_pos
      omega
    have hsame : w'.nic = w.nic →
        (setup.wrsPerCommand * commandsOn setup w' qp : Int) ≤ setup.cfg.goodSqDepth := by
      intro hnic
      rw [commandsOn, hnic]
      exact h.each qp
    cases step_posts hstep with
    | quiet hdraws hbuilds gone hnic hopen hflags hs =>
        have hle : commandsOn setup w' qp ≤ commandsOn setup w qp := by
          rw [commandsOn, commandsOn]
          refine Nat.le_trans ?_ (Nat.le_of_eq (keyCount_perm (hnic.filter _) qp))
          rw [List.filter_append, keyCount_append]
          exact Nat.le_add_left _ _
        exact Int.le_trans (Int.mul_le_mul_of_nonneg_left (Int.ofNat_le.mpr hle) hk) (h.each qp)
    | setEpoch epoch he hnic hflags hposted => exact hsame hnic
    | refused hdraws token htoken hnic hflags hs => exact hsame hnic
    | barrier hbar hdraws peer slot token htoken hnic hflags hs =>
        have hnew := commandsOn_append setup w w'
          (by rw [hnic]; exact WorkQueue.outstanding_post w.nic _) qp
        have hlen : keyCount (localQp setup) (countingOf [barrierRequest setup peer slot
            (w.flags.stage setup.cfg.flagStaging.count token).1]) qp ≤ 1 := keyCount_le_length qp
        have hload := commandsOn_le_load ha hq qp
        exact Int.le_trans (Int.mul_le_mul_of_nonneg_left (by omega) hk) (hok.barrier hbar)
    | batch ok ne c hact hpc hb hw =>
        unfold postStep at hw
        rw [if_neg hb] at hw
        cases ok with
        | false =>
            rw [if_neg Bool.false_ne_true] at hw
            exact hsame (by rw [hw])
        | true =>
            rw [if_pos rfl] at hw
            have hroute : SameRoute setup c.batchQp c.batch := by
              have hsite := ho.site
              rw [hpc] at hsite
              exact hsite.1
            have hnew := commandsOn_append setup w w'
              (by rw [hw]; exact WorkQueue.outstanding_post w.nic _) qp
            rw [keyCount_batch batchAccounts_postBatch hroute] at hnew
            by_cases hqp : qp = c.batchQp
            · -- This is where the lanes have to keep to the budget.
              have hcap := hok.spreads
              rw [hact] at hcap
              simp only [Spreads, hpc] at hcap
              have hle := hcap hmany
              rw [if_pos hqp] at hnew
              rw [← hqp] at hle
              exact Int.le_trans (Int.mul_le_mul_of_nonneg_left (by omega) hk) hcfg
            · rw [hnew, if_neg hqp]
              exact h.each qp

/-- Where the budget of one QP fits its send queue, and every step keeps to the condition, no QP
    has more requests outstanding than its send queue holds. -/
theorem srd_queue_bound {cfg : ProxyConfig} {env : Option String}
    (hcfg : (Setup.ofConfig cfg env).wrsPerCommand * (Setup.ofConfig cfg env).perQpCap ≤
      cfg.goodSqDepth)
    (h : Reaches (step (Setup.ofConfig cfg env)) (Affordable (Setup.ofConfig cfg env))
      (init (Setup.ofConfig cfg env)) w) (qp : Nat) :
    (requestsOn (Setup.ofConfig cfg env) w qp : Int) ≤ cfg.goodSqDepth := by
  -- The budget of a session is that of all its QPs.
  have heff : (Setup.ofConfig cfg env).effectiveMaxInflight =
      (Setup.ofConfig cfg env).perQpCap * (Setup.ofConfig cfg env).numQps := by
    have hn : ((Setup.ofConfig cfg env).numQps : Int) = cfg.goodNumQps :=
      Int.toNat_of_nonneg (Int.le_of_lt cfg.goodNumQps_pos)
    rw [hn]
    rfl
  -- The order, the account and the gate come first, and what is outstanding rests on them.
  have hinv : (OrderInv (Setup.ofConfig cfg env) w ∧ AccountInv w ∧
      Handshake.Inv (toHandshake w)) ∧ QueueInv (Setup.ofConfig cfg env) w ∧
      Bounded (Setup.ofConfig cfg env) w := by
    refine invariant_of_reaches (fun w => (OrderInv (Setup.ofConfig cfg env) w ∧ AccountInv w ∧
      Handshake.Inv (toHandshake w)) ∧ QueueInv (Setup.ofConfig cfg env) w ∧
      Bounded (Setup.ofConfig cfg env) w) ?_ h
      ⟨⟨order_init, account_init, Handshake.inv_init⟩, queue_init, bounded_init⟩
    rintro s a t ⟨⟨ho, ha, hg⟩, hq, hb⟩ hok hstep
    have ho' := step_order ho hstep
    have ha' := step_account ha hg hstep
    have hq' := step_queue hq ho' hstep
    exact ⟨⟨ho', ha', follows_handshake.step_inv hg hstep⟩, hq',
      step_bounded hcfg heff ho ha hg hq ha' hq' hb hok hstep⟩
  -- What has not been polled yet is covered by what is counted for the QP.
  have hcov := covered_of_reaches (reaches_mono (fun _ _ hok => hok.last) h)
  have hle := requestsOn_le hinv.2.1 hcov qp
  have heach := hinv.2.2.each qp
  rw [← Int.natCast_mul] at heach
  exact Int.le_trans (Int.ofNat_le.mpr hle) heach

/-- In `remote_flag` mode the budget of one QP fits its send queue, which has three places. -/
theorem budget_of_remoteFlag {cfg : ProxyConfig} {env : Option String}
    (hmode : detectNotifyMode env = .remoteFlag) (hdepth : 3 ≤ cfg.goodSqDepth) :
    (Setup.ofConfig cfg env).wrsPerCommand * (Setup.ofConfig cfg env).perQpCap ≤
      cfg.goodSqDepth := by
  have hk : (Setup.ofConfig cfg env).wrsPerCommand ≤ 3 := by
    unfold Setup.wrsPerCommand
    split
    · decide
    · split <;> decide
  have hpos := cfg.perQpCap_pos (detectNotifyMode env)
  -- The budget is at most a quarter of the send queue, or one command.
  have hcap : cfg.perQpCap (detectNotifyMode env) ≤ max 1 (cfg.goodSqDepth / 4) := by
    simp only [ProxyConfig.perQpCap, hmode, ProxyConfig.goodSqDepth, BATCH_SIZE]
    split <;> split <;> omega
  change ((Setup.ofConfig cfg env).wrsPerCommand : Int) * cfg.perQpCap (detectNotifyMode env) ≤ _
  refine Int.le_trans (Int.mul_le_mul_of_nonneg_right (Int.ofNat_le.mpr hk) (by omega)) ?_
  omega

section Sample

/-- Two QPs in the arrival-queue layout with published tails, so three requests for a command,
    and send queues of 24. -/
def tailConfig : ProxyConfig :=
  { sampleConfig with
    useArrivalQueue := true
    remoteQueueStride := 16
    enableRemoteTail := true
    maxInflight := 512
    sqDepth := 24
    perPeer := fun _ => { samplePeer with remoteTailAddr := 0x600000 } }

def tailSetup : Setup := Setup.ofConfig tailConfig (some "remote_flag")

/-- Two WRITEs on one QP, one on the other, and a notify that waits for them. -/
def spreadOut : World :=
  (run (step tailSetup) (Affordable tailSetup)
    (pushes 0 [writeCmd 0 0, writeCmd 0 1, writeCmd 1 2, notifyCmd] ++ goes 40)
    (init tailSetup)).get (by decide +kernel)

theorem srd_queue_bound_spread :
    requestsOn tailSetup spreadOut 0 = 6 ∧ (requestsOn tailSetup spreadOut 0 : Int) ≤ 24 :=
  ⟨by decide +kernel, srd_queue_bound (budget_of_remoteFlag (by decide) (by decide))
    (reaches_of_run _ _ _ (Option.some_get _).symm) 0⟩

/-- Twelve WRITEs for the first QP, with nothing completed. -/
def skewed : World :=
  (run (step tailSetup) always (pushes 0 (List.replicate 12 (writeCmd 0 0)) ++ goes 32)
    (init tailSetup)).get (by decide +kernel)

/-- The first QP has been given 36 requests, within the budget of both. -/
theorem srd_queue_overrun : ∃ w, Reaches (step tailSetup) always (init tailSetup) w ∧
    w.inflight = 12 ∧ tailConfig.goodSqDepth < requestsOn tailSetup w 0 :=
  ⟨skewed, reaches_of_run _ _ _ (Option.some_get _).symm, by decide +kernel, by decide +kernel⟩

end Sample

end Efa

end Internode

end MKernel
