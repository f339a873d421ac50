import MKernel.Internode.Cx7.Chains

/-!
# The Send Queues of the CX7 Proxy

How many requests can be outstanding on one QP.

The constructor works out how many commands one send queue of `kQpSqDepth` requests can take,
at `kWrsPerChunk` requests for each, and multiplies by the number of QPs. The loop then looks
at one counter for all QPs, and nothing keeps the commands from going to the same one. Nor are
all requests in that counter when the loop looks: barriers and forwarded commands are posted
without a look at it, a strided command is let in as one and posted as up to eighteen, and the
loop goes by what the counter was when the iteration began. So one queue can be given more
than it holds (`send_queue_overrun`).

A request is never worth more than its part of a command: a chain has at most `kWrsPerChunk`
requests for each command that it counts (`Built.length_le`). So if the whole budget fits one
queue, and what is posted outside of it finds room in that queue, no queue is given more than
it holds (`send_queue_bound`).

## Main definitions

* `requestsOn`: The requests outstanding on a QP.
* `load`: What is in flight, with what the current batch may still become.
* `extra`: What an action posts beyond the batch.
* `Affordable`: What is posted beyond the batch finds room.

## Theorems

* `Built.length_le`: The requests of a chain, by what it counts.
* `step_load`: What an action adds to the load.
* `send_queue_bound`: No queue is given too much, under the condition.
* `send_queue_overrun`: One is, elsewhere.
-/

namespace MKernel

namespace Internode

namespace Cx7

open MKernel.Core

variable {setup : Setup} {w w' : World} {c : Chain}

/-- The number of requests outstanding on a QP. -/
def requestsOn (w : World) (qp : Int) : Nat :=
  ((w.nic.outstanding.filter fun c => c.qp = qp).map fun c => c.wrs.length).sum

/-- What a batch may have when it is complete. -/
def Collect.room (setup : Setup) (c : Collect) : Int :=
  max c.batch.length (min BATCH_SIZE (setup.effectiveMaxInflight - c.preInflight))

/-- What is promised to the current batch. -/
def Pc.reserved (setup : Setup) : Pc → Int
  | .fill c => c.room setup
  | .stageBarrier c _ => c.room setup
  | .stageCount c _ => c.room setup
  | .filter rest kept _ _ => rest.length + kept.length
  | .post batch _ _ => batch.length
  | _ => 0

/-- What is in flight, counted or not, and what is promised to the current batch. -/
def load (setup : Setup) (w : World) : Int := w.inflight + w.pc.uncounted + w.pc.reserved setup

/-- A record of the forward table that would be passed on. -/
def forwardable (setup : Setup) (w : World) : Option Chain :=
  let slot := w.forwardScanCursor
  let n := w.localForwardNotify slot
  if w.forwardSeenEpoch slot = w.epoch ∨ n.epoch ≠ w.epoch ∨ n.tileId ≠ BitVec.ofNat 32 slot then
    none
  else forwardChain setup w.epoch (setup.makeForwardCmdFromNotify n)

/-- What an action posts beyond what is promised: a command that is passed on, a stage barrier,
    or the requests of a strided command but one. -/
def extra (setup : Setup) (w : World) : Action → Int
  | .hostBarrier _ _ _ => 1
  | .proxy true _ =>
      match w.pc with
      | .forward i => if i < kScanPerLoop ∧ (forwardable setup w).isSome then 1 else 0
      | .stageBarrier _ p => if p < barrierIters setup then 1 else 0
      | .filter (p :: _) _ qp _ =>
          if p.cmd.srcView = 2 then
            match stridedChain setup w.epoch w.senderSeq qp p with
            | some (_, n, _) => n - 1
            | none => 0
          else 0
      | _ => 0
  | _ => 0

/-- What an action posts beyond what is promised has room in one send queue. -/
def Affordable (setup : Setup) (w : World) (a : Action) : Prop :=
  0 < extra setup w a → setup.cfg.wrsPerChunk * (load setup w + extra setup w a) ≤ kQpSqDepth

instance (w : World) (a : Action) : Decidable (Affordable setup w a) :=
  inferInstanceAs (Decidable (_ → _))

section Length

variable {epoch : BitVec 32} {senderSeq : Nat → BitVec 32} {qp : Int} {p : Polled}
  {batch : List Polled}

theorem two_le_wrsPerChunk (cfg : ProxyConfig) : 2 ≤ cfg.wrsPerChunk := by
  unfold ProxyConfig.wrsPerChunk
  split <;> split <;> decide

/-- A batched command has at most `kWrsPerChunk` requests. -/
theorem length_commandWrs (count i : Nat) :
    ((commandWrs setup epoch senderSeq qp count i p).1.length : Int) ≤ setup.cfg.wrsPerChunk := by
  have htwo := two_le_wrsPerChunk setup.cfg
  unfold commandWrs
  dsimp only
  split
  · split
    · rename_i ht
      -- A tail is one more, and is allowed for.
      simp only [ProxyConfig.wrsPerChunk, ht, if_true, List.length_cons, List.length_nil]
      split <;> decide
    · exact htwo
  · split
    · rename_i hf
      have henabled : setup.cfg.enableForwardNotify = true := by
        by_contra hc
        simp [Setup.forwardNotifyEnabledForCmd, hc] at hf
      simp only [ProxyConfig.wrsPerChunk, henabled, if_true, List.length_cons, List.length_nil]
      split <;> decide
    · exact htwo

theorem length_chainLoop (count i : Nat) :
    ((chainLoop setup epoch qp count senderSeq i batch).1.length : Int) ≤
      setup.cfg.wrsPerChunk * batch.length := by
  induction batch generalizing senderSeq i with
  | nil => simp [chainLoop]
  | cons p ps ih =>
      have hone : ((commandWrs setup epoch senderSeq qp count i p).1.length : Int) ≤
          setup.cfg.wrsPerChunk := length_commandWrs count i
      have hrest : ((chainLoop setup epoch qp count
          (commandWrs setup epoch senderSeq qp count i p).2 (i + 1) ps).1.length : Int) ≤
          setup.cfg.wrsPerChunk * ps.length := ih (i + 1)
      rw [chainLoop]
      dsimp only
      rw [List.length_append, List.length_cons, Nat.cast_add, Nat.cast_succ, Int.mul_add,
        Int.mul_one]
      omega

theorem length_stridedDataWrs (k rowCursor : Nat) (remoteCursor : BitVec 64) :
    (stridedDataWrs setup qp p k rowCursor remoteCursor).length = k := by
  induction k generalizing rowCursor remoteCursor with
  | zero => rfl
  | succ k ih => rw [stridedDataWrs, List.length_cons, ih]

/-- The chain of a strided command has as many requests as it says. -/
theorem length_stridedChain {senderSeq' : Nat → BitVec 32} {n : Nat}
    (h : stridedChain setup epoch senderSeq qp p = some (c, n, senderSeq')) : c.wrs.length = n := by
  unfold stridedChain at h
  split at h
  · dsimp only at h
    split at h
    · split at h <;> simp only [Option.some.injEq, Prod.mk.injEq] at h <;>
        · rw [← h.1, ← h.2.1]
          simp only [List.length_append, length_stridedDataWrs, List.length_cons, List.length_nil]
    · simp only [Option.some.injEq, Prod.mk.injEq] at h
      rw [← h.1, ← h.2.1]
      simp only [List.length_append, length_stridedDataWrs, List.length_cons, List.length_nil]
  · exact absurd h (by simp only [reduceCtorEq, not_false_eq_true])

theorem length_forwardChain {cmd : TransferCmd} (h : forwardChain setup epoch cmd = some c) :
    c.wrs.length = 2 := by
  unfold forwardChain at h
  dsimp only at h
  split at h
  · rw [← Option.some.inj h]
    rfl
  · exact absurd h (by simp only [reduceCtorEq, not_false_eq_true])

end Length

/-- A chain has at most `kWrsPerChunk` requests for each command that it counts. -/
theorem Built.length_le (h : Built setup c) :
    (c.wrs.length : Int) ≤ setup.cfg.wrsPerChunk * c.count := by
  have htwo := two_le_wrsPerChunk setup.cfg
  cases h with
  -- One case for each builder of chains.
  | @batch epoch senderSeq qp batch hne hlen =>
      rw [count_batchChain hne (Nat.lt_of_le_of_lt hlen (by decide))]
      exact length_chainLoop batch.length 0
  | strided h =>
      rcases count_stridedChain h with ⟨hcount, hn⟩
      -- A strided chain has one request a command.
      have hmul : 1 * c.count ≤ setup.cfg.wrsPerChunk * c.count :=
        Int.mul_le_mul_of_nonneg_right (Int.le_trans (by decide) htwo)
          (by rw [hcount]; exact Int.natCast_nonneg _)
      rw [Int.one_mul, hcount] at hmul
      rw [length_stridedChain h, hcount]
      exact hmul
  | forward h =>
      rw [length_forwardChain h, count_forwardChain h, Int.mul_one]
      exact htwo
  | barrier slot token p =>
      rw [count_barrierChain, Int.mul_one]
      exact Int.le_trans (by decide : (1 : Int) ≤ 2) htwo

/-- The requests on one QP, by the counts of all chains. -/
theorem requestsOn_le (hb : ∀ c ∈ w.nic.outstanding, Built setup c) (qp : Int) :
    (requestsOn w qp : Int) ≤ setup.cfg.wrsPerChunk * w.nic.weight Chain.count := by
  rw [requestsOn, WorkQueue.weight]
  revert hb
  generalize w.nic.outstanding = chains
  intro hb
  induction chains with
  | nil => simp
  | cons c cs ih =>
      have hc := (hb c List.mem_cons_self).length_le
      have hrest := ih fun v hv => hb v (List.mem_cons_of_mem _ hv)
      rw [List.map_cons, List.sum_cons, Int.mul_add]
      by_cases hq : c.qp = qp
      · rw [List.filter_cons_of_pos (by simpa using hq), List.map_cons, List.sum_cons, Nat.cast_add]
        omega
      · rw [List.filter_cons_of_neg (by simpa using hq)]
        omega

/-- The load grows by no more than is said, or it is within the budget. -/
def Grows (setup : Setup) (w : World) (e : Int) (w' : World) : Prop :=
  load setup w' ≤ max (load setup w + e) setup.effectiveMaxInflight

section Steps

theorem grows_of_le (h : load setup w' ≤ load setup w) {e : Int} (he : 0 ≤ e) :
    Grows setup w e w' := by
  unfold Grows
  omega

theorem collectStep_grows (hpc : w.pc = .collect) {e : Int} (he : 0 ≤ e) :
    Grows setup w e (collectStep setup w) := by
  have hstart : ∀ (v : World) (c : Collect), v.inflight = w.inflight → c.preInflight = w.inflight →
      (c.batch = [] ∨ c.batch.length = 1 ∧ w.inflight < setup.effectiveMaxInflight) →
      Grows setup w e { v with pc := .fill c } := by
    intro v c hinf hpre hb
    have hbatch : BATCH_SIZE = 8 := rfl
    unfold Grows load
    dsimp only
    rw [hinf, hpc]
    simp only [Pc.uncounted, Pc.reserved, Collect.room, hpre, hbatch]
    -- A seeded batch has one command, and room is made for one less.
    rcases hb with hb | ⟨hb, hlt⟩
    · rw [hb, List.length_nil]
      omega
    · rw [hb]
      omega
  unfold collectStep
  split
  · split
    · rename_i hlt
      exact hstart { w with pendingCmd := none } _ rfl rfl (Or.inr ⟨rfl, hlt⟩)
    · exact hstart w _ rfl rfl (Or.inl rfl)
  · exact hstart w _ rfl rfl (Or.inl rfl)

theorem endFill_load {v : World} {c : Collect} (hinf : v.inflight = w.inflight)
    (hpc : w.pc = .fill c) : load setup (endFill setup v c) ≤ load setup w := by
  unfold endFill
  split
  · simp only [load, hinf, hpc, Pc.uncounted, Pc.reserved, Collect.room, List.length_nil]
    omega
  · simp only [load, hinf, hpc, Pc.uncounted, Pc.reserved, Collect.room]
    omega

/-- One more command of the batch was promised to it. -/
theorem room_of_fills {c d : Collect} (h : Fills setup c)
    (hlen : d.batch.length = c.batch.length + 1) (hpre : d.preInflight = c.preInflight) :
    d.room setup ≤ c.room setup := by
  rcases h with ⟨h1, h2⟩
  simp only [Collect.room, hlen, hpre]
  omega

theorem fillStep_load {c : Collect} (hpc : w.pc = .fill c) :
    load setup (fillStep setup w c) ≤ load setup w := by
  -- In these turns nothing is posted, so it is enough that what is reserved does not grow.
  have hkeep : ∀ v : World, v.inflight = w.inflight → v.pc.uncounted = 0 →
      v.pc.reserved setup ≤ c.room setup → load setup v ≤ load setup w := by
    intro v hinf hun hres
    have hw : load setup w = w.inflight + 0 + c.room setup := by
      rw [load, hpc]
      rfl
    rw [hw, load, hinf, hun]
    omega
  unfold fillStep
  split
  · rename_i hfills
    cases hp : pollFifo setup w with
    | none => exact endFill_load rfl hpc
    | some r =>
        rcases r with ⟨p, w₁⟩
        rcases pollFifo_eq_some hp with ⟨f, -, -, rfl⟩
        -- The batch has one command more, which was reserved.
        have hpush := room_of_fills hfills (d := c.push p)
          (by rw [Collect.push, List.length_append]; rfl) rfl
        dsimp only
        split
        · exact hkeep _ rfl rfl (Int.le_refl _)
        · unfold collectWrite
          split
          · dsimp only
            split
            · exact hkeep _ rfl rfl (Int.le_refl _)
            · split
              · rename_i hnil
                exact hkeep _ rfl rfl (room_of_fills hfills (by rw [hnil]; rfl) rfl)
              · split
                · exact hkeep _ rfl rfl hpush
                · exact endFill_load rfl hpc
          · exact hkeep _ rfl rfl hpush
        · exact hkeep _ rfl rfl (Int.le_refl _)
  · exact endFill_load rfl hpc

theorem forwardStep_load {i : Nat} (hpc : w.pc = .forward i) (ok : Bool) (ne : Nat) :
    load setup (forwardStep setup w i ok) ≤ load setup w + extra setup w (.proxy ok ne) := by
  -- Without a post the forward loop adds nothing.
  have hnone : ∀ v : World, v.inflight = w.inflight → v.pc.uncounted = 0 →
      v.pc.reserved setup = 0 → ∀ e : Int, 0 ≤ e → load setup v ≤ load setup w + e := by
    intro v hinf hun hres e he
    have hw : load setup w = w.inflight + 0 + 0 := by
      rw [load, hpc]
      rfl
    rw [hw, load, hinf, hun, hres]
    omega
  have hextra : 0 ≤ extra setup w (.proxy ok ne) := by
    cases ok
    · exact Int.le_refl 0
    · simp only [extra, hpc]
      split <;> decide
  unfold forwardStep
  split
  · rename_i hi
    dsimp only
    split
    · refine hnone _ ?_ ?_ ?_ _ hextra <;> rfl
    · rename_i hrecord
      split
      · rename_i chain hc
        split
        · rename_i hok
          -- Here a chain is posted, and `extra` counts its requests.
          have hfor : forwardable setup w = some chain := by
            rw [forwardable, if_neg hrecord]
            exact hc
          simp only [extra, hok, hpc, hfor, hi, Option.isSome_some, and_self, if_true, load,
            Pc.uncounted, Pc.reserved]
          omega
        · refine hnone _ ?_ ?_ ?_ _ hextra <;> rfl
      · refine hnone _ ?_ ?_ ?_ _ hextra <;> rfl
  · refine hnone _ ?_ ?_ ?_ _ hextra <;> rfl

theorem stageBarrierStep_load {c : Collect} {p : Nat} (hpc : w.pc = .stageBarrier c p) (ok : Bool)
    (ne : Nat) :
    load setup (stageBarrierStep setup w c p ok) ≤
      load setup w + extra setup w (.proxy ok ne) := by
  unfold stageBarrierStep
  split
  · rename_i hp
    split
    · rename_i hok
      -- The signal is posted before it is counted.
      simp only [extra, hok, hpc, hp, if_true, load, Pc.uncounted, Pc.reserved]
      omega
    · rename_i hok
      rw [Bool.not_eq_true] at hok
      simp only [extra, hok, load, hpc, Pc.uncounted, Pc.reserved]
      omega
  · -- The last peer is served.
    rename_i hp
    have hextra : extra setup w (.proxy ok ne) = 0 := by
      cases ok
      · rfl
      · simp only [extra, hpc, if_neg hp]
    rw [hextra]
    simp only [load, hpc, Pc.uncounted, Pc.reserved]
    omega

theorem filterStep_load {rest kept : List Polled} {qp n : Int} (hpc : w.pc = .filter rest kept qp n)
    (ok : Bool) (ne : Nat) :
    load setup (filterStep setup w rest kept qp n ok) ≤
      load setup w + extra setup w (.proxy ok ne) := by
  have hload : load setup w = w.inflight + n + (rest.length + kept.length) := by
    rw [load, hpc]
    rfl
  cases rest with
  | nil =>
      have hextra : extra setup w (.proxy ok ne) = 0 := by
        cases ok
        · rfl
        · simp only [extra, hpc]
      rw [hextra, hload]
      simp only [filterStep, load, Pc.uncounted, Pc.reserved, List.length_nil]
      omega
  | cons p rest =>
      rw [List.length_cons] at hload
      unfold filterStep
      dsimp only
      split
      · rename_i hview
        split
        · rename_i chain m senderSeq hc
          have hm := (count_stridedChain hc).2
          cases ok
          · have hextra : extra setup w (.proxy false ne) = 0 := rfl
            rw [hextra, hload]
            simp only [Bool.false_eq_true, if_false, load, Pc.uncounted, Pc.reserved]
            omega
          · -- One of the requests was promised to the command.
            have hextra : extra setup w (.proxy true ne) = m - 1 := by
              simp only [extra, hpc, hview, if_true, hc]
            rw [hextra, hload]
            simp only [if_true, load, Pc.uncounted, Pc.reserved]
            omega
        · rename_i hc
          have hextra : extra setup w (.proxy ok ne) = 0 := by
            cases ok
            · rfl
            · simp only [extra, hpc, hview, if_true, hc]
          rw [hextra, hload]
          simp only [load, Pc.uncounted, Pc.reserved]
          omega
      · rename_i hview
        have hextra : extra setup w (.proxy ok ne) = 0 := by
          cases ok
          · rfl
          · simp only [extra, hpc, if_neg hview]
        rw [hextra, hload]
        simp only [load, Pc.uncounted, Pc.reserved, List.length_append, List.length_singleton]
        omega

theorem postStep_load {batch : List Polled} {qp n : Int} (hpc : w.pc = .post batch qp n)
    (ok : Bool) : load setup (postStep setup w batch qp n ok) ≤ load setup w := by
  have hload : load setup w = w.inflight + n + batch.length := by
    rw [load, hpc]
    rfl
  rw [hload]
  unfold postStep
  split
  · simp only [load, Pc.uncounted, Pc.reserved]
    omega
  · dsimp only
    split <;> simp only [load, Pc.uncounted, Pc.reserved] <;> omega

/-- A poll of the completion queue lowers the load. -/
theorem pollNic_load (ha : AccountInv w) (ne : Nat) {pc : Pc}
    (hpc : pc.uncounted = w.pc.uncounted ∧ pc.reserved setup = w.pc.reserved setup) :
    load setup { pollNic w ne with pc := pc } ≤ load setup w := by
  have hsum : 0 ≤ ((polledChains w ne).map Chain.count).sum := by
    refine List.sum_nonneg fun x hx => ?_
    rcases List.mem_map.mp hx with ⟨c, hc, rfl⟩
    refine Int.le_of_lt (ha.counts c ?_)
    exact (WorkQueue.outstanding_poll w.nic (min ne 32)).mem_iff.mpr (List.mem_append_left _ hc)
  rw [pollNic_eq]
  simp only [load, hpc.1, hpc.2]
  omega

/-- What an action of the proxy adds to the load. -/
theorem proxyStep_grows (ha : AccountInv w) {ok : Bool} {ne : Nat}
    (hextra : 0 ≤ extra setup w (.proxy ok ne)) (hstep : proxyStep setup w ok ne = some w') :
    Grows setup w (extra setup w (.proxy ok ne)) w' := by
  -- A step adds what `extra` says, or nothing at all.
  have hle : load setup w' ≤ load setup w + extra setup w (.proxy ok ne) →
      Grows setup w (extra setup w (.proxy ok ne)) w' := fun h => by
    unfold Grows
    omega
  have hsame : load setup w' ≤ load setup w → Grows setup w (extra setup w (.proxy ok ne)) w' :=
    fun h => grows_of_le h hextra
  unfold proxyStep at hstep
  cases hpc : w.pc with
  | loop | pauseGate | pausedSpin =>
      simp only [hpc, Option.some.injEq] at hstep
      refine hsame ?_
      rw [← hstep]
      simp only [load, hpc]
      split <;> exact Int.le_refl _
  | ackStore | ackClear | advanceTail =>
      simp only [hpc, Option.some.injEq] at hstep
      refine hsame ?_
      rw [← hstep]
      simp only [load, hpc]
      exact Int.le_refl _
  | forwardGate =>
      simp only [hpc] at hstep
      refine hsame ?_
      split at hstep <;>
        · rw [← Option.some.inj hstep]
          simp only [load, hpc]
          exact Int.le_refl _
  | forward i =>
      simp only [hpc, Option.some.injEq] at hstep
      refine hle ?_
      rw [← hstep]
      exact forwardStep_load hpc ok ne
  | forwardCount i | stageCount c p =>
      simp only [hpc, Option.some.injEq] at hstep
      refine hsame ?_
      rw [← hstep]
      simp only [load, hpc, Pc.uncounted, Pc.reserved]
      omega
  | collect =>
      simp only [hpc, Option.some.injEq] at hstep
      rw [← hstep]
      exact collectStep_grows hpc hextra
  | fill c =>
      simp only [hpc, Option.some.injEq] at hstep
      refine hsame ?_
      rw [← hstep]
      exact fillStep_load hpc
  | stageBarrier c p =>
      simp only [hpc, Option.some.injEq] at hstep
      refine hle ?_
      rw [← hstep]
      exact stageBarrierStep_load hpc ok ne
  | filter rest kept qp n =>
      simp only [hpc, Option.some.injEq] at hstep
      refine hle ?_
      rw [← hstep]
      exact filterStep_load hpc ok ne
  | post batch qp n =>
      simp only [hpc, Option.some.injEq] at hstep
      refine hsame ?_
      rw [← hstep]
      exact postStep_load hpc ok
  | account count n =>
      simp only [hpc, Option.some.injEq] at hstep
      refine hsame ?_
      rw [← hstep]
      simp only [load, hpc, Pc.uncounted, Pc.reserved]
      omega
  -- The requests were counted one by one, so the count is taken as it is.
  | stridedCount n posted =>
      have hs := ha.site
      rw [hpc] at hs
      have hn : 0 ≤ n := hs
      simp only [hpc, Option.some.injEq] at hstep
      refine hsame ?_
      rw [← hstep]
      simp only [load, hpc, Pc.uncounted, Pc.reserved]
      split <;> omega
  | pollCq posted =>
      simp only [hpc, Option.some.injEq] at hstep
      refine hsame ?_
      rw [← hstep]
      refine pollNic_load ha ne ?_
      rw [hpc]
      split <;> exact ⟨rfl, rfl⟩
  | exitDrain =>
      simp only [hpc] at hstep
      refine hsame ?_
      -- A drain only takes from what is counted.
      split at hstep <;> rw [← Option.some.inj hstep]
      · have hpoll : load setup { pollNic w ne with pc := w.pc } ≤ load setup w :=
          pollNic_load ha ne ⟨rfl, rfl⟩
        rw [pollNic_eq] at hpoll ⊢
        exact hpoll
      · simp only [load, hpc]
        exact Int.le_refl _
  | exited => simp only [hpc, reduceCtorEq] at hstep

theorem extra_nonneg (setup : Setup) (w : World) (a : Action) : 0 ≤ extra setup w a := by
  cases a with
  | proxy ok ne =>
      cases ok with
      | false => exact Int.le_refl 0
      | true =>
          -- Only these three places post something that was not reserved.
          cases hpc : w.pc with
          | forward i =>
              simp only [extra, hpc]
              split <;> decide
          | stageBarrier c p =>
              simp only [extra, hpc]
              split <;> decide
          | filter rest kept qp n =>
              cases rest with
              | nil => simp only [extra, hpc, Int.le_refl]
              | cons p rest =>
                  simp only [extra, hpc]
                  split
                  · split
                    · rename_i hc
                      have := (count_stridedChain hc).2
                      omega
                    · exact Int.le_refl 0
                  · exact Int.le_refl 0
          | _ => simp only [extra, hpc, Int.le_refl]
  | hostBarrier p slot token => exact (by decide : (0 : Int) ≤ 1)
  | _ => exact Int.le_refl 0

/-- What an action of anybody adds to the load. -/
theorem step_grows (ha : AccountInv w) (hg : Handshake.Inv (toHandshake w)) {a : Action}
    (hstep : step setup w a = some w') : Grows setup w (extra setup w a) w' := by
  have hextra := extra_nonneg setup w a
  cases a with
  | claim cmd | stop | fifoReset | forwardNotify slot n
  | resetForwardNotifyTable | setEpoch epoch =>
      rw [← Option.some.inj hstep]
      exact grows_of_le (Int.le_refl _) hextra
  | publish | host b =>
      rcases Option.map_eq_some_iff.mp hstep with ⟨x, -, rfl⟩
      exact grows_of_le (Int.le_refl _) hextra
  | place i | complete i =>
      simp only [step, Option.ite_none_right_eq_some] at hstep
      rcases Option.map_eq_some_iff.mp hstep.2 with ⟨r, -, rfl⟩
      exact grows_of_le (Int.le_refl _) hextra
  | hostDrain ne =>
      simp only [step, Option.ite_none_right_eq_some, Option.some.injEq] at hstep
      have hpoll : load setup { pollNic w ne with pc := w.pc } ≤ load setup w :=
        pollNic_load ha ne ⟨rfl, rfl⟩
      rw [pollNic_eq] at hpoll hstep
      rw [← hstep.2]
      exact grows_of_le hpoll hextra
  | hostReset =>
      simp only [step, Option.ite_none_right_eq_some, Option.some.injEq] at hstep
      rcases hstep with ⟨⟨hs, -⟩, rfl⟩
      -- A stopped proxy has counted everything, so the counter is not negative.
      have hnonneg := ha.inflight_nonneg (by rw [spin_of_stopped hg hs]; rfl)
      refine grows_of_le ?_ hextra
      simp only [load]
      omega
  | hostBarrier p slot token =>
      simp only [step, Option.ite_none_right_eq_some, Option.some.injEq] at hstep
      rw [← hstep.2]
      simp only [Grows, load, extra]
      omega
  | proxy ok ne => exact proxyStep_grows ha hextra hstep

end Steps

theorem reserved_nonneg (setup : Setup) (pc : Pc) : 0 ≤ pc.reserved setup := by
  have hroom : ∀ c : Collect, 0 ≤ c.room setup := by
    intro c
    simp only [Collect.room]
    omega
  cases pc with
  | fill c | stageBarrier c p | stageCount c p => exact hroom c
  | filter rest kept qp n =>
      simp only [Pc.reserved]
      omega
  | post batch qp n => exact Int.natCast_nonneg _
  | _ => exact Int.le_refl 0

/-- With one QP the whole budget fits its queue. -/
theorem budget_of_one (cfg : ProxyConfig) (env : Option String) (h : cfg.goodNumQps = 1) :
    cfg.wrsPerChunk * (Setup.ofConfig cfg env).effectiveMaxInflight ≤ kQpSqDepth := by
  change cfg.wrsPerChunk * (cfg.perQpCap * cfg.goodNumQps) ≤ kQpSqDepth
  rw [h, Int.mul_one]
  have hcap : cfg.perQpCap ≤ max 1 (kQpSqDepth / cfg.wrsPerChunk - kSafetyMargin) := by
    unfold ProxyConfig.perQpCap
    dsimp only
    split <;> split <;> omega
  -- Two, three or four requests for each command.
  have hw : cfg.wrsPerChunk = 2 ∨ cfg.wrsPerChunk = 3 ∨ cfg.wrsPerChunk = 4 := by
    unfold ProxyConfig.wrsPerChunk
    split <;> split <;> simp
  simp only [kQpSqDepth, kSafetyMargin] at hcap ⊢
  rcases hw with hw | hw | hw <;> rw [hw] at hcap ⊢ <;> omega

/-- Where the whole budget fits one send queue, and what is posted beyond the batches finds
    room in it, no QP has more requests outstanding than its queue holds. -/
theorem send_queue_bound {cfg : ProxyConfig} {env : Option String}
    (hcfg : cfg.wrsPerChunk * (Setup.ofConfig cfg env).effectiveMaxInflight ≤ kQpSqDepth)
    (h : Reaches (step (Setup.ofConfig cfg env)) (Affordable (Setup.ofConfig cfg env))
      (init (Setup.ofConfig cfg env)) w) (qp : Int) : requestsOn w qp ≤ kQpSqDepth := by
  have hw : 0 ≤ cfg.wrsPerChunk := Int.le_trans (by decide) (two_le_wrsPerChunk cfg)
  have hload : (AccountInv w ∧ Handshake.Inv (toHandshake w)) ∧
      cfg.wrsPerChunk * load (Setup.ofConfig cfg env) w ≤ kQpSqDepth := by
    refine invariant_of_reaches (fun w => (AccountInv w ∧ Handshake.Inv (toHandshake w)) ∧
      cfg.wrsPerChunk * load (Setup.ofConfig cfg env) w ≤ kQpSqDepth) ?_ h
      ⟨⟨account_init, Handshake.inv_init⟩, ?_⟩
    · rintro s a t ⟨⟨ha, hg⟩, hs⟩ hok hstep
      rcases step_ledger ha hg hstep with ⟨l, n, hl⟩
      refine ⟨⟨ha.of_ledger hl, follows_handshake.step_inv hg hstep⟩, ?_⟩
      have hgrow := step_grows ha hg hstep
      have hextra := extra_nonneg (Setup.ofConfig cfg env) s a
      -- What is extra has room, and without it the load was in bounds already.
      have hroom : cfg.wrsPerChunk * (load (Setup.ofConfig cfg env) s +
          extra (Setup.ofConfig cfg env) s a) ≤ kQpSqDepth := by
        rcases Int.lt_or_eq_of_le hextra with hpos | hzero
        · exact hok hpos
        · rw [← hzero, Int.add_zero]
          exact hs
      rcases le_max_iff.mp hgrow with hle | hle
      · exact Int.le_trans (Int.mul_le_mul_of_nonneg_left hle hw) hroom
      · exact Int.le_trans (Int.mul_le_mul_of_nonneg_left hle hw) hcfg
    · have hzero : load (Setup.ofConfig cfg env) (init (Setup.ofConfig cfg env)) = 0 := rfl
      rw [hzero, Int.mul_zero]
      decide
  have hon := requestsOn_le (built_of_reaches h) qp
  rw [hload.1.1.count] at hon
  refine Int.le_trans hon (Int.le_trans (Int.mul_le_mul_of_nonneg_left ?_ hw) hload.2)
  have := reserved_nonneg (Setup.ofConfig cfg env) w.pc
  unfold load
  omega

section Sample

/-- One QP, and room for a notify and a strided WRITE beside a batch. -/
def singleConfig : ProxyConfig := { sampleConfig with numQps := 1, globalNumQps := 1 }

def mixedOnOne : World :=
  (run (step (Setup.ofConfig singleConfig none)) (Affordable (Setup.ofConfig singleConfig none))
    (pushes [writeCmd 0 0, notifyCmd, stridedCmd 0 1, writeCmd 0 2] ++ goes 20)
    (init (Setup.ofConfig singleConfig none))).get (by decide +kernel)

theorem send_queue_bound_mixed :
    requestsOn mixedOnOne 0 = 8 ∧ (requestsOn mixedOnOne 0 : Int) ≤ kQpSqDepth :=
  ⟨by decide +kernel, send_queue_bound (budget_of_one singleConfig none rfl)
    (reaches_of_run _ _ _ (Option.some_get _).symm) 0⟩

/-- Four QPs in the flat layout, with 16 gather entries for a request. -/
def wideConfig : ProxyConfig :=
  { sampleConfig with numQps := 4, globalNumQps := 4, useArrivalQueue := false }

/-- A strided WRITE of 256 rows. -/
def wideCmd : TransferCmd := { writeCmd 0 0 with srcView := 2, rowSpan := 512, rowCount := 256 }

/-- One iteration over eight strided WRITEs, with nothing completed. -/
def wideIteration : List Action := pushes (List.replicate 8 wideCmd) ++ goes 25

/-- Sixteen iterations. -/
def overrunActions : List Action := (List.replicate 16 wideIteration).flatten

/-- After sixteen iterations the first QP has been given 2176 requests, and before each of
    them the counter was below its limit. -/
theorem send_queue_overrun :
    ∃ w, Reaches (step (Setup.ofConfig wideConfig none)) always
      (init (Setup.ofConfig wideConfig none)) w ∧ kQpSqDepth < requestsOn w 0 := by
  have hrun : (run (step (Setup.ofConfig wideConfig none)) always overrunActions
      (init (Setup.ofConfig wideConfig none))).map (fun w => requestsOn w 0) = some 2176 := by
    decide +kernel
  rcases Option.map_eq_some_iff.mp hrun with ⟨w, hw, hn⟩
  refine ⟨w, reaches_of_run overrunActions _ _ hw, ?_⟩
  rw [hn]
  decide

end Sample

end Cx7

end Internode

end MKernel
