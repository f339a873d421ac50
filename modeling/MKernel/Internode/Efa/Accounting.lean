import MKernel.Core.History
import MKernel.Internode.Efa.Gate
import MKernel.Internode.Efa.Order

/-!
# What the In-Flight Counter Counts

`inflight_` and the requests behind it.

The counter is raised when a batch or a barrier is posted and lowered by the
`wr_id` of every completion reaped, so between those two moments it is the sum
of the `wr_id`s of the requests outstanding (`AccountInv.count`). Since the
`wr_id`s are not negative, a counter at zero says that no request that counts
is outstanding: every posted command's counting request has been reaped
(`reaped_of_drained`).

That is what the drain before a barrier or an epoch needs: with the counter at
zero, the counting completion of everything posted is in.

## Main definitions

* `Pc.uncounted`: What is posted and not yet in the counter.
* `AccountInv`: The counter is the weight of what is outstanding.

## Theorems

* `AccountInv.of_move`: Steps that post, reap, or move requests around.
* `account_of_reaches`: Every run keeps the count.
* `reaped_of_drained`: A counter at zero means every command's request is in.
-/

namespace MKernel

namespace Internode

namespace Efa

open MKernel.Core
open MKernel.Core.WorkQueue (requests)

variable {setup : Setup} {w w' : World}

/-- What is posted and not yet in the counter. -/
def Pc.uncounted : Pc → Int
  | .account c => c.batch.length
  | .stageCount _ _ => 1
  | _ => 0

/-- The sum of the `wr_id`s of some requests. -/
def weightOf (wrs : List WorkRequest) : Int := (wrs.map WorkRequest.weight).sum

/-- A request counts a command. -/
def Counts (wr : WorkRequest) (p : Polled) : Prop := wr.wrId = 1 ∧ wr.role.cmd? = some p

/-- The invariant of the in-flight counter. -/
structure AccountInv (w : World) : Prop where
  count : w.nic.weight WorkRequest.weight = w.inflight + w.pc.uncounted
  posted : ∀ p ∈ postedOf w.hist, ∃ wr, Counts wr p ∧
    (wr ∈ w.nic.outstanding ∨ wr ∈ reapedOf w.hist)

theorem weight_nonneg (wr : WorkRequest) : 0 ≤ wr.weight := Int.natCast_nonneg _

theorem account_init : AccountInv (init setup) where
  count := rfl
  posted := by
    intro p hp
    exact absurd hp List.not_mem_nil

/-- A step that posts the requests `new` for the batches among its events,
    reaps those its events say, and moves the rest around. -/
theorem AccountInv.of_move (h : AccountInv w) {l : List Event} {n : List WorkRequest}
    (hhist : w'.hist = w.hist ++ l)
    (hperm : (reapedOf l ++ w'.nic.outstanding).Perm (w.nic.outstanding ++ n))
    (hnew : ∀ p ∈ postedOf l, ∃ wr ∈ n, Counts wr p)
    (hcount : w'.inflight + w'.pc.uncounted + weightOf (reapedOf l)
      = w.inflight + w.pc.uncounted + weightOf n) : AccountInv w' := by
  -- Both sides of the permutation weigh the same.
  have hsum := (hperm.map WorkRequest.weight).sum_eq
  rw [List.map_append, List.sum_append, List.map_append, List.sum_append] at hsum
  have hw := h.count
  simp only [WorkQueue.weight] at hw
  simp only [weightOf] at hcount
  refine ⟨?_, fun p hp => ?_⟩
  · simp only [WorkQueue.weight]
    omega
  · -- The counting request of a posted command is old or n.
    have hold : ∃ wr, Counts wr p ∧
        (wr ∈ w.nic.outstanding ++ n ∨ wr ∈ reapedOf w.hist) := by
      rw [hhist, postedOf_append] at hp
      rcases List.mem_append.mp hp with hp | hp
      · rcases h.posted p hp with ⟨wr, hc, hm | hm⟩
        · exact ⟨wr, hc, Or.inl (List.mem_append_left _ hm)⟩
        · exact ⟨wr, hc, Or.inr hm⟩
      · rcases hnew p hp with ⟨wr, hm, hc⟩
        exact ⟨wr, hc, Or.inl (List.mem_append_right _ hm)⟩
    rcases hold with ⟨wr, hc, hm | hm⟩
    · rcases List.mem_append.mp (hperm.mem_iff.mpr hm) with hm | hm
      · exact ⟨wr, hc, Or.inr (by rw [hhist, reapedOf_append]; exact List.mem_append_right _ hm)⟩
      · exact ⟨wr, hc, Or.inl hm⟩
    · exact ⟨wr, hc, Or.inr (by rw [hhist, reapedOf_append]; exact List.mem_append_left _ hm)⟩

/-- A step that leaves the NIC and the counter alone. -/
theorem AccountInv.of_same (h : AccountInv w) {l : List Event} (hhist : w'.hist = w.hist ++ l)
    (hposted : postedOf l = []) (hreaped : reapedOf l = []) (hnic : w'.nic = w.nic)
    (hcount : w'.inflight + w'.pc.uncounted = w.inflight + w.pc.uncounted) : AccountInv w' := by
  refine h.of_move (n := []) hhist ?_ ?_ ?_
  · rw [hreaped, hnic, List.nil_append, List.append_nil]
  · intro p hp
    rw [hposted] at hp
    exact absurd hp List.not_mem_nil
  · rw [hreaped, hcount]

/-- A move to another place with nothing to count at either. -/
theorem AccountInv.goto (h : AccountInv w) {pc : Pc} (hpc : pc.uncounted = w.pc.uncounted) :
    AccountInv { w with pc := pc } :=
  h.of_same (l := []) (List.append_nil _).symm rfl rfl rfl (by dsimp only; rw [hpc])

theorem account_drainReap (h : AccountInv w) (ne : Nat) : AccountInv (pollNic drainReap w ne) := by
  rw [pollNic_drainReap]
  have hreaped : reapedOf ((polledRequests w ne).map Event.reaped) = polledRequests w ne := by
    simp only [reapedOf, List.filterMap_map]
    exact List.filterMap_some
  refine h.of_move (n := []) rfl ?_ ?_ ?_
  · rw [hreaped, List.append_nil]
    exact (WorkQueue.outstanding_poll w.nic (min ne 32)).symm
  · intro p hp
    rw [postedOf_quiet (quiet_reaped _)] at hp
    exact absurd hp List.not_mem_nil
  · rw [hreaped]
    simp only [weightOf, List.map_nil, List.sum_nil]
    omega

theorem account_reap (h : AccountInv w) (ne : Nat) : AccountInv (pollNic (reap setup) w ne) := by
  rcases pollNic_reap setup w ne with ⟨es, arrival, hw, hreaped, hes, -⟩
  have hquiet : ∀ e ∈ es, e.Quiet := by
    intro e he
    rcases hes e he with ⟨wr, rfl⟩ | ⟨r, rfl, -⟩ <;> exact ⟨rfl, rfl⟩
  rw [hw]
  refine h.of_move (n := []) rfl ?_ ?_ ?_
  · rw [hreaped, List.append_nil]
    exact (WorkQueue.outstanding_poll w.nic (min ne 32)).symm
  · intro p hp
    rw [postedOf_quiet hquiet] at hp
    exact absurd hp List.not_mem_nil
  · rw [hreaped]
    simp only [weightOf, List.map_nil, List.sum_nil]
    omega

theorem pollFifo_account {p : Polled} {w₁ : World} (hp : pollFifo setup w = some (p, w₁)) :
    w₁.hist = w.hist ++ [Event.polled p] ∧ w₁.nic = w.nic ∧ w₁.inflight = w.inflight := by
  rcases pollFifo_eq_some hp with ⟨f, -, -, -, rfl⟩
  exact ⟨rfl, rfl, rfl⟩

theorem Closes.uncounted {c : Collect} {cmd : Option Polled} {pc : Pc} (h : Closes c cmd pc) :
    pc.uncounted = 0 := by
  rcases h with rfl | ⟨rfl, -⟩ <;> rfl

/-- A turn of the loops of step 1 posts and reaps nothing. -/
theorem turn_account (h : AccountInv w) {c : Collect} (hpc : w.pc.uncounted = 0)
    (ht : Turn setup w c w') : AccountInv w' := by
  cases ht with
  | close head pc hcl =>
      refine h.of_same (l := []) (List.append_nil _).symm rfl rfl rfl ?_
      -- The batch is closed, and what it has is counted when it is posted.
      dsimp only
      rw [hcl.uncounted, hpc]
  | miss spin misses hw =>
      exact h.goto (by rw [hpc]; rfl)
  | ignored p w₁ pc hp hw hn hpc' =>
      -- A poll moves a command from the FIFO, and posts nothing.
      rcases pollFifo_account hp with ⟨h1, h2, h3⟩
      refine h.of_same h1 rfl rfl h2 ?_
      dsimp only
      rw [h3, hpc]
      rcases hpc' with ⟨-, rfl⟩ | ⟨-, s, m, rfl⟩ <;> rfl
  | inlineNotify p w₁ hp hn hw hb hlt =>
      rcases pollFifo_account hp with ⟨h1, h2, h3⟩
      exact h.of_same h1 rfl rfl h2 (by dsimp only; rw [h3, hpc]; rfl)
  | flagNotify p w₁ head pc hp hn hb hcl =>
      rcases pollFifo_account hp with ⟨h1, h2, h3⟩
      exact h.of_same h1 rfl rfl h2 (by dsimp only; rw [h3, hpc, hcl.uncounted])
  | first p w₁ hp hwr hw hb hlt =>
      rcases pollFifo_account hp with ⟨h1, h2, h3⟩
      exact h.of_same h1 rfl rfl h2 (by dsimp only; rw [h3, hpc]; rfl)
  | join p w₁ pc hp hwr ha hpc' =>
      rcases pollFifo_account hp with ⟨h1, h2, h3⟩
      refine h.of_same h1 rfl rfl h2 ?_
      dsimp only
      rw [h3, hpc]
      rcases hpc' with ⟨-, rfl⟩ | ⟨-, s, m, rfl⟩ <;> rfl
  | stash p w₁ head hp hwr hb =>
      rcases pollFifo_account hp with ⟨h1, h2, h3⟩
      exact h.of_same h1 rfl rfl h2 (by dsimp only; rw [h3, hpc]; rfl)

/-- Step 2 hands the batch to the NIC together with a request that counts each
    of its commands. -/
theorem postStep_account (h : AccountInv w) {c : Collect} (hpc : w.pc = .post c) (ok : Bool) :
    AccountInv (postStep setup w c ok) := by
  have hun : w.pc.uncounted = 0 := by rw [hpc]; rfl
  unfold postStep
  split
  · exact h.goto (by rw [hun]; rfl)
  · dsimp only
    split
    · have hacc : BatchAccounts (postBatch setup (setup.cfg.perPeer (peerSlot setup c.batch))
          ((setup.cfg.perPeer (peerSlot setup c.batch)).dstQpns c.batchQp) w.epoch w.flags
          c.batch).1 c.batch := batchAccounts_postBatch
      -- From here on only the account of the batch's requests matters.
      generalize (postBatch setup (setup.cfg.perPeer (peerSlot setup c.batch))
          ((setup.cfg.perPeer (peerSlot setup c.batch)).dstQpns c.batchQp) w.epoch w.flags
          c.batch) = r at hacc
      refine h.of_move (n := r.1) rfl (WorkQueue.outstanding_post w.nic _) ?_ ?_
      · intro p hp
        simp only [postedOf, List.flatMap_cons, List.flatMap_nil, Event.batch,
          List.append_nil] at hp
        exact hacc.counted p hp
      · have hreaped : weightOf (reapedOf [Event.posted c.batchQp (peerSlot setup c.batch) c.batch
            r.1]) = 0 := rfl
        rw [hreaped, weightOf, hacc.weight, hun]
        simp only [Pc.uncounted]
        omega
    · exact h.of_same (l := []) (List.append_nil _).symm rfl rfl rfl (by dsimp only; rw [hun]; rfl)

theorem stageBarrierStep_account (h : AccountInv w) {site : BarrierSite} {p : Nat}
    (hpc : w.pc = .stageBarrier site p) (ok : Bool) :
    AccountInv (stageBarrierStep setup w site p ok) := by
  have hun : w.pc.uncounted = 0 := by rw [hpc]; rfl
  unfold stageBarrierStep
  split
  · dsimp only
    split
    · exact h.goto (by rw [hun]; rfl)
    · split
      · refine h.of_move rfl (WorkQueue.outstanding_post w.nic _) ?_ ?_
        · intro q hq
          exact absurd hq List.not_mem_nil
        · have hreaped : weightOf (reapedOf [Event.stageBarrier p w.epoch]) = 0 := rfl
          rw [hreaped, hun]
          simp only [Pc.uncounted, weightOf, barrierRequest, WorkRequest.weight, List.map_cons,
            List.map_nil, List.sum_cons, List.sum_nil]
          omega
      · exact h.of_same (l := []) (List.append_nil _).symm rfl rfl rfl
          (by dsimp only; rw [hun]; rfl)
  · refine h.goto ?_
    rw [hun]
    cases site <;> rfl

/-- One action of the proxy thread keeps the count. -/
theorem proxyStep_account (h : AccountInv w) {ok : Bool} {ne : Nat}
    (hstep : proxyStep setup w ok ne = some w') : AccountInv w' := by
  unfold proxyStep at hstep
  cases hpc : w.pc with
  | loop | pauseGate | pausedSpin =>
      simp only [hpc, Option.some.injEq] at hstep
      rw [← hstep]
      refine h.goto ?_
      rw [hpc]
      split <;> rfl
  | ackStore | ackClear | advanceTail =>
      simp only [hpc, Option.some.injEq] at hstep
      rw [← hstep]
      exact h.of_same (l := []) (List.append_nil _).symm rfl rfl rfl (by dsimp only; rw [hpc]; rfl)
  | barrierGate =>
      simp only [hpc] at hstep
      split at hstep <;> rw [← Option.some.inj hstep]
      · exact h.of_same (l := []) (List.append_nil _).symm rfl rfl rfl
          (by dsimp only; rw [hpc]; rfl)
      · exact h.goto (by rw [hpc]; rfl)
  | drainCq site =>
      simp only [hpc] at hstep
      split at hstep <;> rw [← Option.some.inj hstep]
      · exact account_drainReap h ne
      · exact h.goto (by rw [hpc]; rfl)
  | stageBarrier site p =>
      simp only [hpc, Option.some.injEq] at hstep
      rw [← hstep]
      exact stageBarrierStep_account h hpc ok
  | stageCount site p =>
      simp only [hpc, Option.some.injEq] at hstep
      rw [← hstep]
      refine h.of_same (l := []) (List.append_nil _).symm rfl rfl rfl ?_
      dsimp only
      rw [hpc]
      -- What waited to be counted is counted.
      simp only [Pc.uncounted]
      omega
  | collect =>
      simp only [hpc, Option.some.injEq] at hstep
      have hb := collectStep_begin setup w
      rw [hstep] at hb
      cases hb <;> exact h.of_same (l := []) (List.append_nil _).symm rfl rfl rfl
        (by dsimp only; rw [hpc]; rfl)
  | fill c =>
      simp only [hpc, Option.some.injEq] at hstep
      rw [← hstep]
      exact turn_account h (by rw [hpc]; rfl) (fillStep_turn hpc)
  | accumulate c spin misses =>
      simp only [hpc, Option.some.injEq] at hstep
      rw [← hstep]
      exact turn_account h (by rw [hpc]; rfl) (accumulateStep_turn hpc)
  | post c =>
      simp only [hpc, Option.some.injEq] at hstep
      rw [← hstep]
      exact postStep_account h hpc ok
  | account c =>
      simp only [hpc, Option.some.injEq] at hstep
      rw [← hstep]
      refine h.of_same (l := []) (List.append_nil _).symm rfl rfl rfl ?_
      dsimp only
      rw [hpc]
      simp only [Pc.uncounted]
      omega
  | pollCq posted =>
      simp only [hpc, Option.some.injEq] at hstep
      rw [← hstep]
      refine (account_reap h ne).goto ?_
      rcases pollNic_reap setup w ne with ⟨es, arrival, hw, -, -, -⟩
      rw [hw, hpc]
      split <;> rfl
  | exitDrain =>
      simp only [hpc] at hstep
      split at hstep <;> rw [← Option.some.inj hstep]
      · exact account_drainReap h ne
      · exact h.goto (by rw [hpc]; rfl)
  | exited => simp only [hpc, reduceCtorEq] at hstep

/-- The counter is the weight of what is outstanding wherever nothing waits to
    be counted. -/
theorem AccountInv.inflight_eq (h : AccountInv w) (hpc : w.pc.uncounted = 0) :
    w.inflight = w.nic.weight WorkRequest.weight := by
  have := h.count
  omega

/-- One action of anybody keeps the count. -/
theorem step_account (h : AccountInv w) (hg : Handshake.Inv (toHandshake w)) {a : Action}
    (hstep : step setup w a = some w') : AccountInv w' := by
  cases a with
  | claim k cmd =>
      rw [← Option.some.inj hstep]
      exact ⟨h.count, h.posted⟩
  | publish k =>
      rcases Option.map_eq_some_iff.mp hstep with ⟨f, -, rfl⟩
      exact ⟨h.count, h.posted⟩
  | place i =>
      rcases Option.map_eq_some_iff.mp hstep with ⟨r, hr, rfl⟩
      refine h.of_move (l := []) (n := []) (List.append_nil _).symm ?_ ?_ rfl
      · simpa only [reapedOf, List.filterMap_nil, List.nil_append, List.append_nil] using
          WorkQueue.outstanding_place hr
      · intro p hp
        exact absurd hp List.not_mem_nil
  | complete i =>
      rcases Option.map_eq_some_iff.mp hstep with ⟨nic, hr, rfl⟩
      refine h.of_move (l := []) (n := []) (List.append_nil _).symm ?_ ?_ rfl
      · simpa only [reapedOf, List.filterMap_nil, List.nil_append, List.append_nil] using
          WorkQueue.outstanding_complete hr
      · intro p hp
        exact absurd hp List.not_mem_nil
  | recv r =>
      simp only [step, Option.ite_none_right_eq_some, Option.some.injEq] at hstep
      rw [← hstep.2]
      -- A notice belongs to no request of the proxy.
      refine ⟨?_, fun p hp => ?_⟩
      · simpa only [WorkQueue.weight, WorkQueue.outstanding_notice] using h.count
      · simpa only [WorkQueue.outstanding_notice] using h.posted p hp
  | host a =>
      rcases Option.map_eq_some_iff.mp hstep with ⟨g, -, rfl⟩
      exact ⟨h.count, h.posted⟩
  | stop | setEpoch epoch | fifoReset k =>
      rw [← Option.some.inj hstep]
      exact ⟨h.count, h.posted⟩
  | hostDrain ne =>
      simp only [step, Option.ite_none_right_eq_some, Option.some.injEq] at hstep
      rw [← hstep.2]
      exact account_drainReap h ne
  | hostReset =>
      simp only [step, Option.ite_none_right_eq_some, Option.some.injEq] at hstep
      rcases hstep with ⟨⟨hs, hle⟩, rfl⟩
      -- A stopped proxy has nothing left to count, so the counter is exact.
      have hpc := spin_of_stopped hg hs
      have hun : w.pc.uncounted = 0 := by rw [hpc]; rfl
      have heq := h.inflight_eq hun
      have hnn : 0 ≤ w.nic.weight WorkRequest.weight :=
        WorkQueue.weight_nonneg fun v _ => weight_nonneg v
      refine h.of_same (l := []) (List.append_nil _).symm rfl rfl rfl ?_
      dsimp only
      omega
  | hostBarrier p slot token ok =>
      simp only [step, Option.ite_none_right_eq_some, Option.some.injEq] at hstep
      rw [← hstep.2]
      cases ok with
      | true =>
          refine h.of_move rfl (WorkQueue.outstanding_post w.nic _) ?_ ?_
          · intro q hq
            exact absurd hq List.not_mem_nil
          · have hreaped : weightOf (reapedOf [Event.hostBarrier p slot token]) = 0 := rfl
            rw [hreaped]
            simp only [hostBarrierStep, if_true, weightOf, barrierRequest, WorkRequest.weight,
              List.map_cons, List.map_nil, List.sum_cons, List.sum_nil]
            omega
      | false => exact h.of_same (l := []) (List.append_nil _).symm rfl rfl rfl rfl
  | proxy ok ne => exact proxyStep_account h hstep

theorem account_of_reaches {ok : World → Action → Prop}
    (h : Reaches (step setup) ok (init setup) w) : AccountInv w := by
  have hboth : AccountInv w ∧ Handshake.Inv (toHandshake w) :=
    invariant_of_reaches (fun w => AccountInv w ∧ Handshake.Inv (toHandshake w))
      (fun _ _ _ hi _ hstep =>
        ⟨step_account hi.1 hi.2 hstep, follows_handshake.step_inv hi.2 hstep⟩) h
      ⟨account_init, Handshake.inv_init⟩
  exact hboth.1

/-- Where nothing waits to be counted, a counter at zero says that the request
    counting each posted command is reaped. -/
theorem AccountInv.reaped_of_drained (h : AccountInv w) (hpc : w.pc.uncounted = 0)
    (hle : w.inflight ≤ 0) : ∀ p ∈ postedOf w.hist, ∃ wr ∈ reapedOf w.hist, Counts wr p := by
  intro p hp
  rcases h.posted p hp with ⟨wr, hc, hm | hm⟩
  · have hw : wr.weight ≤ w.nic.weight WorkRequest.weight :=
      WorkQueue.le_weight (fun v _ => weight_nonneg v) hm
    have hone : wr.weight = 1 := by rw [WorkRequest.weight, hc.1]; rfl
    have heq := h.inflight_eq hpc
    omega
  · exact ⟨wr, hm, hc⟩

end Efa

end Internode

end MKernel
