import MKernel.Internode.Efa.Accounting

/-!
# Requests That Count Nothing

Whether a counter at zero means an empty send queue.

`inflight_` counts commands. In `write_imm` mode a command is one request and
the counter says everything. In `remote_flag` mode a command is two or three
requests of which only the last counts, SRD completes requests in any order,
and a command whose last request completes first leaves the counter while its
data is still on the way. The counter then reaches zero, and `drain_cq` returns,
with requests outstanding (`drain_incomplete`).

The counter is good as long as the counting request of a command completes
after the command's other requests (`CompletesLast`). Then a request that
counts nothing always has its counting request still to come (`Covered`), and
with the counter at zero there is no such request. In `write_imm` mode the
condition holds by itself.

## Main definitions

* `NicStep`: Everything one action can do to the NIC.
* `CompletesLast`: The counting request of a command completes last.
* `CountsLast`: The condition on a run.
* `Covered`: Every request that counts nothing has its counting request behind.
* `DrainComplete`: Nothing is outstanding when `drain_cq` returns.

## Theorems

* `step_nic`: One action is one step of the NIC.
* `covered_of_reaches`: Runs whose counting requests complete last.
* `outstanding_empty_of_drained`: There, a drained counter means nothing is
  outstanding.
* `drain_complete`: So the drain is complete.
* `drain_incomplete`: Elsewhere it need not be.
-/

namespace MKernel

namespace Internode

namespace Efa

open MKernel.Core
open MKernel.Core.WorkQueue (requests)

variable {setup : Setup} {w w' : World}

/-- Everything one action can do to the NIC, with the events it records. -/
inductive NicStep (setup : Setup) (q : WorkQueue WorkRequest Recv) :
    Action → List Event → WorkQueue WorkRequest Recv → Prop where
  | same (a : Action) : NicStep setup q a [] q
  | polled (a : Action) (p : Polled) : NicStep setup q a [.polled p] q
  | place (i : Nat) (wr : WorkRequest) (q' : WorkQueue WorkRequest Recv)
      (h : q.place i = some (wr, q')) : NicStep setup q (.place i) [] q'
  | complete (i : Nat) (q' : WorkQueue WorkRequest Recv) (h : q.complete i = some q') :
      NicStep setup q (.complete i) [] q'
  | notice (r : Recv) (h : setup.notifyMode = .writeImm) :
      NicStep setup q (.recv r) [] (q.notice r)
  | poll (a : Action) (n : Nat) (es : List Event)
      (h : ∀ e ∈ es, (∃ wr, e = .reaped wr) ∨ ∃ r, e = .arrived r ∧ Sum.inr r ∈ q.cq) :
      NicStep setup q a es (q.poll n).2
  | batch (a : Action) (peer : PerPeerProxyData) (qpn epoch : BitVec 32) (fs : FlagState)
      (qp slot : Nat) (batch : List Polled) :
      NicStep setup q a [.posted qp slot batch (postBatch setup peer qpn epoch fs batch).1]
        (q.post (postBatch setup peer qpn epoch fs batch).1)
  | stageBarrier (a : Action) (peer : PerPeerProxyData) (p slot : Nat) (token : BitVec 32) :
      NicStep setup q a [.stageBarrier p token] (q.post [barrierRequest setup peer 0 slot])
  | hostBarrier (a : Action) (peer : PerPeerProxyData) (p k slot : Nat) (token : BitVec 32) :
      NicStep setup q a [.hostBarrier p k token] (q.post [barrierRequest setup peer k slot])

/-- A step of the NIC, as far as the world shows it: the history grows by its
    events, and a word of the arrival flags changes only with one of them. -/
def Drives (setup : Setup) (w : World) (a : Action) (w' : World) : Prop :=
  ∃ es, w'.hist = w.hist ++ es ∧ NicStep setup w.nic a es w'.nic ∧
    ∀ tile, w'.localArrival tile = w.localArrival tile ∨ ∃ r, .arrived r ∈ es ∧ r.tile = tile

theorem Drives.of_step {a : Action} {l : List Event} (hhist : w'.hist = w.hist ++ l)
    (hnic : NicStep setup w.nic a l w'.nic) (hword : w'.localArrival = w.localArrival) :
    Drives setup w a w' :=
  ⟨l, hhist, hnic, fun tile => Or.inl (congrFun hword tile)⟩

theorem Drives.of_same (a : Action) (hhist : w'.hist = w.hist) (hnic : w'.nic = w.nic)
    (hword : w'.localArrival = w.localArrival) : Drives setup w a w' := by
  refine .of_step (l := []) (by rw [hhist, List.append_nil]) ?_ hword
  rw [hnic]
  exact .same a

theorem Drives.of_polled {p : Polled} {w₁ : World} (a : Action)
    (hp : pollFifo setup w = some (p, w₁)) (hhist : w'.hist = w₁.hist) (hnic : w'.nic = w₁.nic)
    (hword : w'.localArrival = w₁.localArrival) : Drives setup w a w' := by
  -- Polling a FIFO is no business of the NIC.
  rcases pollFifo_eq_some hp with ⟨f, -, -, -, rfl⟩
  refine .of_step hhist ?_ hword
  rw [hnic]
  exact .polled a p

/-- The loops of step 1 poll, and leave the NIC alone. -/
theorem turn_nic {c : Collect} (a : Action) (ht : Turn setup w c w') : Drives setup w a w' := by
  cases ht with
  | close head pc hcl => exact .of_same a rfl rfl rfl
  | miss spin misses hw => exact .of_same a rfl rfl rfl
  | ignored p w₁ pc hp => exact .of_polled a hp rfl rfl rfl
  | inlineNotify p w₁ hp => exact .of_polled a hp rfl rfl rfl
  | flagNotify p w₁ head pc hp => exact .of_polled a hp rfl rfl rfl
  | first p w₁ hp => exact .of_polled a hp rfl rfl rfl
  | join p w₁ pc hp => exact .of_polled a hp rfl rfl rfl
  | stash p w₁ head hp => exact .of_polled a hp rfl rfl rfl

theorem drainReap_nic (a : Action) (ne : Nat) : Drives setup w a (pollNic drainReap w ne) := by
  rw [pollNic_drainReap]
  refine .of_step rfl (.poll a _ _ (fun e he => ?_)) rfl
  rcases List.mem_map.mp he with ⟨wr, -, rfl⟩
  exact Or.inl ⟨wr, rfl⟩

theorem proxyStep_nic {ok : Bool} {ne : Nat} (hstep : proxyStep setup w ok ne = some w') :
    Drives setup w (.proxy ok ne) w' := by
  unfold proxyStep at hstep
  cases hpc : w.pc with
  | loop | pauseGate | pausedSpin | ackStore | ackClear | account c | advanceTail =>
      simp only [hpc, Option.some.injEq] at hstep
      rw [← hstep]
      exact .of_same _ rfl rfl rfl
  | stageCount site p =>
      simp only [hpc, Option.some.injEq] at hstep
      rw [← hstep]
      exact .of_same _ rfl rfl rfl
  | barrierGate =>
      simp only [hpc] at hstep
      split at hstep <;> rw [← Option.some.inj hstep] <;> exact .of_same _ rfl rfl rfl
  | drainCq site =>
      simp only [hpc] at hstep
      split at hstep <;> rw [← Option.some.inj hstep]
      · exact drainReap_nic _ ne
      · exact .of_same _ rfl rfl rfl
  | exitDrain =>
      simp only [hpc] at hstep
      split at hstep <;> rw [← Option.some.inj hstep]
      · exact drainReap_nic _ ne
      · exact .of_same _ rfl rfl rfl
  | stageBarrier site p =>
      simp only [hpc, Option.some.injEq] at hstep
      rw [← hstep]
      unfold stageBarrierStep
      split
      · dsimp only
        split
        · exact .of_same _ rfl rfl rfl
        · split
          · -- Only a call that succeeds hands the barrier to the NIC.
            exact .of_step rfl (.stageBarrier _ _ p _ w.epoch) rfl
          · exact .of_same _ rfl rfl rfl
      · exact .of_same _ rfl rfl rfl
  | collect =>
      simp only [hpc, Option.some.injEq] at hstep
      have hb := collectStep_begin setup w
      rw [hstep] at hb
      cases hb <;> exact .of_same _ rfl rfl rfl
  | fill c =>
      simp only [hpc, Option.some.injEq] at hstep
      rw [← hstep]
      exact turn_nic _ (fillStep_turn hpc)
  | accumulate c spin misses =>
      simp only [hpc, Option.some.injEq] at hstep
      rw [← hstep]
      exact turn_nic _ (accumulateStep_turn hpc)
  | post c =>
      simp only [hpc, Option.some.injEq] at hstep
      rw [← hstep]
      unfold postStep
      split
      · exact .of_same _ rfl rfl rfl
      · dsimp only
        split
        · exact .of_step rfl (.batch _ _ _ _ _ _ _ _) rfl
        · exact .of_same _ rfl rfl rfl
  | pollCq posted =>
      simp only [hpc, Option.some.injEq] at hstep
      rcases pollNic_reap setup w ne with ⟨es, arrival, hw, -, hes, hword⟩
      rw [← hstep, hw]
      exact ⟨es, rfl, .poll _ _ es hes, hword⟩
  | exited => simp only [hpc, reduceCtorEq] at hstep

/-- One action is one step of the NIC. -/
theorem step_nic {a : Action} (hstep : step setup w a = some w') : Drives setup w a w' := by
  cases a with
  | claim k cmd | stop | setEpoch epoch | fifoReset k =>
      rw [← Option.some.inj hstep]
      exact .of_same _ rfl rfl rfl
  | publish k | host b =>
      rcases Option.map_eq_some_iff.mp hstep with ⟨x, -, rfl⟩
      exact .of_same _ rfl rfl rfl
  | place i =>
      rcases Option.map_eq_some_iff.mp hstep with ⟨⟨wr, q'⟩, hr, rfl⟩
      exact .of_step (List.append_nil _).symm (.place i wr q' hr) rfl
  | complete i =>
      rcases Option.map_eq_some_iff.mp hstep with ⟨q', hr, rfl⟩
      exact .of_step (List.append_nil _).symm (.complete i q' hr) rfl
  | recv r =>
      simp only [step, Option.ite_none_right_eq_some, Option.some.injEq] at hstep
      rw [← hstep.2]
      exact .of_step (List.append_nil _).symm (.notice r hstep.1) rfl
  | hostReset =>
      simp only [step, Option.ite_none_right_eq_some, Option.some.injEq] at hstep
      rw [← hstep.2]
      exact .of_same _ rfl rfl rfl
  | hostDrain ne =>
      simp only [step, Option.ite_none_right_eq_some, Option.some.injEq] at hstep
      rw [← hstep.2]
      exact drainReap_nic _ ne
  | hostBarrier p slot token ok =>
      simp only [step, Option.ite_none_right_eq_some, Option.some.injEq] at hstep
      rw [← hstep.2]
      cases ok with
      -- The barrier is one request.
      | true => exact .of_step rfl (.hostBarrier _ _ p slot _ token) rfl
      | false => exact .of_same _ rfl rfl rfl
  | proxy ok ne => exact proxyStep_nic hstep

/-- The counting request of a command completes after the command's other
    requests. -/
def CompletesLast (w : World) : Action → Prop
  | .complete i =>
      match w.nic.placed[i]? with
      | some wr => wr.wrId = 1 →
          ∀ v ∈ w.nic.sent ++ w.nic.placed, v.wrId = 0 → v.role.cmd? ≠ wr.role.cmd?
      | none => True
  | _ => True

instance (w : World) (a : Action) : Decidable (CompletesLast w a) := by
  unfold CompletesLast
  apply @Action.casesOn _ a
  case complete =>
    exact fun i => by
      dsimp only
      generalize w.nic.placed[i]? = wr
      apply @Option.casesOn _ _ wr <;> intros <;> infer_instance
  all_goals intros; infer_instance

/-- The request `wr` counts the command of the request `v`. -/
def Covers (wr v : WorkRequest) : Prop := wr.wrId = 1 ∧ wr.role.cmd? = v.role.cmd?

/-- A request that counts nothing has the request that counts its command
    still to come: not yet completed, or behind it in the completion queue. -/
structure Covered (q : WorkQueue WorkRequest Recv) : Prop where
  ids : ∀ wr ∈ q.outstanding, wr.wrId = 0 ∨ wr.wrId = 1
  pending : ∀ v ∈ q.sent ++ q.placed, v.wrId = 0 → ∃ wr ∈ q.sent ++ q.placed, Covers wr v
  queued : ∀ before v after, q.cq = before ++ Sum.inl v :: after → v.wrId = 0 →
    ∃ wr ∈ (q.sent ++ q.placed) ++ requests after, Covers wr v

theorem covered_empty : Covered WorkQueue.empty where
  ids := by
    intro wr hwr
    exact absurd hwr List.not_mem_nil
  pending := by
    intro v hv
    exact absurd hv List.not_mem_nil
  queued := by
    intro before v after hs
    have := congrArg List.length hs
    simp [WorkQueue.empty] at this

/-- New requests are covered among themselves. -/
theorem Covered.post {q : WorkQueue WorkRequest Recv} (h : Covered q) {ws : List WorkRequest}
    (hids : ∀ wr ∈ ws, wr.wrId = 0 ∨ wr.wrId = 1)
    (hcov : ∀ v ∈ ws, v.wrId = 0 → ∃ wr ∈ ws, Covers wr v) : Covered (q.post ws) := by
  -- Not yet completed is what was, and what is posted now.
  have hmem : ∀ wr, wr ∈ (q.post ws).sent ++ (q.post ws).placed ↔
      wr ∈ q.sent ++ q.placed ∨ wr ∈ ws := by
    intro wr
    simp only [WorkQueue.post, List.mem_append]
    tauto
  refine ⟨fun wr hwr => ?_, fun v hv h0 => ?_, fun before v after hs h0 => ?_⟩
  · rcases List.mem_append.mp ((WorkQueue.outstanding_post q ws).mem_iff.mp hwr) with hm | hm
    · exact h.ids wr hm
    · exact hids wr hm
  · rcases (hmem v).mp hv with hv | hv
    · rcases h.pending v hv h0 with ⟨wr, hm, hc⟩
      exact ⟨wr, (hmem wr).mpr (Or.inl hm), hc⟩
    · rcases hcov v hv h0 with ⟨wr, hm, hc⟩
      exact ⟨wr, (hmem wr).mpr (Or.inr hm), hc⟩
  · rcases h.queued before v after hs h0 with ⟨wr, hm, hc⟩
    refine ⟨wr, ?_, hc⟩
    rcases List.mem_append.mp hm with hm | hm
    · exact List.mem_append_left _ ((hmem wr).mpr (Or.inl hm))
    · exact List.mem_append_right _ hm

/-- Executing a request changes nothing about what is still to complete. -/
theorem Covered.place {q q' : WorkQueue WorkRequest Recv} (h : Covered q) {i : Nat}
    {wr : WorkRequest} (hp : q.place i = some (wr, q')) : Covered q' := by
  rcases Option.map_eq_some_iff.mp hp with ⟨v, hv, heq⟩
  simp only [Prod.mk.injEq] at heq
  rcases heq with ⟨rfl, rfl⟩
  -- The request only changes sides among those not yet completed.
  have hperm : (q.sent.eraseIdx i ++ (q.placed ++ [v])).Perm (q.sent ++ q.placed) := by
    rw [← List.append_assoc]
    refine List.perm_append_comm.trans ?_
    rw [List.singleton_append, ← List.cons_append]
    exact (WorkQueue.perm_cons_eraseIdx hv).append_right _
  have hmem : ∀ u, u ∈ q.sent.eraseIdx i ++ (q.placed ++ [v]) ↔ u ∈ q.sent ++ q.placed :=
    fun u => hperm.mem_iff
  refine ⟨fun u hu => ?_, fun u hu h0 => ?_, fun before u after hs h0 => ?_⟩
  · exact h.ids u ((WorkQueue.outstanding_place hp).mem_iff.mp hu)
  · rcases h.pending u ((hmem u).mp hu) h0 with ⟨x, hm, hc⟩
    exact ⟨x, (hmem x).mpr hm, hc⟩
  · rcases h.queued before u after hs h0 with ⟨x, hm, hc⟩
    refine ⟨x, ?_, hc⟩
    rcases List.mem_append.mp hm with hm | hm
    · exact List.mem_append_left _ ((hmem x).mpr hm)
    · exact List.mem_append_right _ hm

/-- A completion enters the queue behind everything it covers. -/
theorem Covered.complete {q q' : WorkQueue WorkRequest Recv} (h : Covered q) {i : Nat}
    (hp : q.complete i = some q')
    (hlast : ∀ wr, q.placed[i]? = some wr → wr.wrId = 1 →
      ∀ v ∈ q.sent ++ q.placed, v.wrId = 0 → v.role.cmd? ≠ wr.role.cmd?) : Covered q' := by
  rcases Option.map_eq_some_iff.mp hp with ⟨x, hx, rfl⟩
  have herase := WorkQueue.perm_cons_eraseIdx hx
  have hin : ∀ u, u ∈ q.sent ++ q.placed ↔ u = x ∨ u ∈ q.sent ++ q.placed.eraseIdx i := by
    intro u
    simp only [List.mem_append, ← herase.mem_iff, List.mem_cons]
    tauto
  have hxin : x ∈ q.sent ++ q.placed := (hin x).mpr (Or.inl rfl)
  refine ⟨fun u hu => ?_, fun u hu h0 => ?_, fun before u after hs h0 => ?_⟩
  · exact h.ids u ((WorkQueue.outstanding_complete hp).mem_iff.mp hu)
  · have hu' := (hin u).mpr (Or.inr hu)
    rcases h.pending u hu' h0 with ⟨wr, hm, hc⟩
    rcases (hin wr).mp hm with rfl | hm
    · -- The completed request counts, so what it counts has completed before.
      exact absurd hc.2.symm (hlast wr hx hc.1 u hu' h0)
    · exact ⟨wr, hm, hc⟩
  · -- Look at where in the longer queue the request stands.
    rcases List.eq_nil_or_concat after with hnil | ⟨after', y, hy⟩
    · -- It is the one that completed now: its counting request has not.
      rw [hnil] at hs ⊢
      have hux : x = u := by
        have hlast := (List.append_inj' hs rfl).2
        simpa using hlast
      rcases h.pending x hxin (hux ▸ h0) with ⟨wr, hm, hc⟩
      rcases (hin wr).mp hm with rfl | hm
      · have h1 := hc.1
        rw [hux] at h1
        omega
      · exact ⟨wr, List.mem_append_left _ hm, by rw [← hux]; exact hc⟩
    · rw [hy, List.concat_eq_append] at hs ⊢
      rw [← List.cons_append, ← List.append_assoc] at hs
      rcases List.append_inj' hs rfl with ⟨hcq, hlast'⟩
      -- It completed before: the new one may be the request that counts it.
      have hyx : y = Sum.inl x := by simpa using hlast'.symm
      have hreq : requests (after' ++ [y]) = requests after' ++ [x] := by
        rw [WorkQueue.requests_append, hyx]
        rfl
      rcases h.queued before u after' hcq h0 with ⟨wr, hm, hc⟩
      refine ⟨wr, ?_, hc⟩
      -- Not yet completed before means not yet completed now, or just completed.
      rw [hreq]
      rcases List.mem_append.mp hm with hm | hm
      · rcases (hin wr).mp hm with rfl | hm
        · exact List.mem_append_right _ (List.mem_append_right _ (List.mem_singleton_self _))
        · exact List.mem_append_left _ hm
      · exact List.mem_append_right _ (List.mem_append_left _ hm)

theorem Covered.notice {q : WorkQueue WorkRequest Recv} (h : Covered q) (r : Recv) :
    Covered (q.notice r) := by
  refine ⟨fun u hu => h.ids u (by simpa only [WorkQueue.outstanding_notice] using hu), h.pending,
    fun before u after hs h0 => ?_⟩
  rcases List.eq_nil_or_concat after with hnil | ⟨after', y, hy⟩
  · -- A notice is no request, so the last completion is none of ours.
    rw [hnil] at hs
    have hlast := (List.append_inj' hs rfl).2
    simp at hlast
  · rw [hy, List.concat_eq_append] at hs ⊢
    rw [← List.cons_append, ← List.append_assoc] at hs
    rcases h.queued before u after' (List.append_inj' hs rfl).1 h0 with ⟨wr, hm, hc⟩
    refine ⟨wr, ?_, hc⟩
    rw [WorkQueue.requests_append, ← List.append_assoc]
    exact List.mem_append_left _ hm

/-- Polling takes completions from the front, and what covers them is behind. -/
theorem Covered.poll {q : WorkQueue WorkRequest Recv} (h : Covered q) (n : Nat) :
    Covered (q.poll n).2 := by
  refine ⟨fun u hu => ?_, h.pending, fun before u after hs h0 => ?_⟩
  · exact h.ids u ((WorkQueue.outstanding_poll q n).mem_iff.mpr (List.mem_append_right _ hu))
  · refine h.queued (q.cq.take n ++ before) u after ?_ h0
    -- What is polled goes back to the front, where it was.
    rw [List.append_assoc, ← hs]
    exact (List.take_append_drop n q.cq).symm

/-- The requests of a batch are covered among themselves. -/
theorem BatchAccounts.covered {ws : List WorkRequest} {batch : List Polled}
    (h : BatchAccounts ws batch) : ∀ v ∈ ws, v.wrId = 0 → ∃ wr ∈ ws, Covers wr v := by
  intro v hv _
  rcases h.cmd v hv with ⟨p, hp, hcmd⟩
  -- Each request belongs to a command, and each command has a request that counts.
  rcases h.counted p hp with ⟨wr, hwr, hid, hc⟩
  exact ⟨wr, hwr, hid, hc.trans hcmd.symm⟩

theorem Covered.post_barrier {q : WorkQueue WorkRequest Recv} (h : Covered q)
    {peer : PerPeerProxyData} {slot stagingSlot : Nat} :
    Covered (q.post [barrierRequest setup peer slot stagingSlot]) := by
  refine h.post (fun wr hwr => ?_) (fun v hv h0 => ?_)
  · rw [List.mem_singleton.mp hwr]
    exact Or.inr rfl
  · rw [List.mem_singleton.mp hv] at h0
    -- A barrier is one request, and it counts.
    exact absurd h0 (by simp only [barrierRequest, Nat.one_ne_zero, not_false_eq_true])

/-- One action keeps requests covered, as long as counting requests complete
    last. -/
theorem step_covered (h : Covered w.nic) {a : Action} (hok : CompletesLast w a)
    (hstep : step setup w a = some w') : Covered w'.nic := by
  rcases step_nic hstep with ⟨es, -, hn, -⟩
  generalize w'.nic = q at hn
  cases hn with
  | same => exact h
  | polled _ p => exact h
  | place i wr _ hp => exact h.place hp
  | complete i _ hp =>
      refine h.complete hp (fun wr hwr => ?_)
      -- This is where the condition on the run is used.
      simpa only [CompletesLast, hwr] using hok
  | notice r _ => exact h.notice r
  | poll _ n _ _ => exact h.poll n
  | batch _ peer qpn epoch fs qp slot batch =>
      have hacc : BatchAccounts (postBatch setup peer qpn epoch fs batch).1 batch :=
        batchAccounts_postBatch
      exact h.post hacc.ids hacc.covered
  | stageBarrier _ peer p slot token => exact h.post_barrier
  | hostBarrier _ peer p k slot token => exact h.post_barrier

/-- The condition on a run: in `remote_flag` mode, the counting request of a
    command completes last. In `write_imm` mode a command is one request. -/
def CountsLast (setup : Setup) (w : World) (a : Action) : Prop :=
  setup.notifyMode = .remoteFlag → CompletesLast w a

instance (setup : Setup) (w : World) (a : Action) : Decidable (CountsLast setup w a) := by
  unfold CountsLast
  infer_instance

/-- In `write_imm` mode every request counts. -/
theorem step_allCount (hmode : setup.notifyMode = .writeImm) {a : Action}
    (h : ∀ wr ∈ w.nic.outstanding, wr.wrId = 1) (hstep : step setup w a = some w') :
    ∀ wr ∈ w'.nic.outstanding, wr.wrId = 1 := by
  rcases step_nic hstep with ⟨es, -, hn, -⟩
  generalize w'.nic = q at hn
  intro wr hwr
  -- What is outstanding was outstanding, or was just posted.
  have hpost : ∀ ws : List WorkRequest, (∀ v ∈ ws, v.wrId = 1) →
      wr ∈ (w.nic.post ws).outstanding → wr.wrId = 1 := by
    intro ws hws hm
    rcases List.mem_append.mp ((WorkQueue.outstanding_post w.nic ws).mem_iff.mp hm) with hm | hm
    · exact h wr hm
    · exact hws wr hm
  cases hn with
  | same => exact h wr hwr
  | polled _ p => exact h wr hwr
  | place i v _ hp => exact h wr ((WorkQueue.outstanding_place hp).mem_iff.mp hwr)
  | complete i _ hp => exact h wr ((WorkQueue.outstanding_complete hp).mem_iff.mp hwr)
  | notice r _ => exact h wr (by simpa only [WorkQueue.outstanding_notice] using hwr)
  | poll _ n _ _ =>
      exact h wr ((WorkQueue.outstanding_poll w.nic n).mem_iff.mpr (List.mem_append_right _ hwr))
  | batch _ peer qpn epoch fs qp slot batch =>
      exact hpost _ (fun v hv => (mem_postBatch_writeImm hmode hv).1) hwr
  | stageBarrier _ peer p slot token =>
      refine hpost _ (fun v hv => ?_) hwr
      rw [List.mem_singleton.mp hv]
      rfl
  | hostBarrier _ peer p k slot token =>
      refine hpost _ (fun v hv => ?_) hwr
      rw [List.mem_singleton.mp hv]
      rfl

theorem covered_of_reaches (h : Reaches (step setup) (CountsLast setup) (init setup) w) :
    Covered w.nic := by
  have hboth : Covered w.nic ∧
      (setup.notifyMode = .writeImm → ∀ wr ∈ w.nic.outstanding, wr.wrId = 1) := by
    refine invariant_of_reaches (fun w => Covered w.nic ∧
      (setup.notifyMode = .writeImm → ∀ wr ∈ w.nic.outstanding, wr.wrId = 1)) ?_ h
      ⟨covered_empty, fun _ wr hwr => absurd hwr List.not_mem_nil⟩
    rintro s a t ⟨hc, hall⟩ hok hstep
    refine ⟨step_covered hc ?_ hstep, fun hmode => step_allCount hmode (hall hmode) hstep⟩
    cases hmode : setup.notifyMode with
    | remoteFlag => exact hok hmode
    | writeImm =>
        -- No request on its way counts nothing, so the condition asks nothing.
        unfold CompletesLast
        split
        · split
          · intro _ v hv h0
            have hin : v ∈ s.nic.outstanding := by
              rw [WorkQueue.outstanding, ← List.append_assoc]
              exact List.mem_append_left _ hv
            rw [hall hmode v hin] at h0
            exact absurd h0 Nat.one_ne_zero
          · trivial
        · trivial
  exact hboth.1

/-- Where requests are covered and nothing waits to be counted, a counter at
    zero means that nothing is outstanding. -/
theorem outstanding_empty_of_drained (ha : AccountInv w) (hc : Covered w.nic)
    (hpc : w.pc.uncounted = 0) (hle : w.inflight ≤ 0) : w.nic.outstanding = [] := by
  have heq := ha.inflight_eq hpc
  -- No outstanding request counts anything, since the counter is their sum.
  have hzero : ∀ wr ∈ w.nic.outstanding, wr.wrId = 0 := by
    intro wr hwr
    have hw : wr.weight ≤ w.nic.weight WorkRequest.weight :=
      WorkQueue.le_weight (fun v _ => weight_nonneg v) hwr
    simp only [WorkRequest.weight] at hw
    omega
  -- And one that counts nothing has a counting one behind it.
  have hall : w.nic.sent ++ w.nic.placed = [] := by
    rw [List.eq_nil_iff_forall_not_mem]
    intro v hv
    have hin : ∀ wr ∈ w.nic.sent ++ w.nic.placed, wr ∈ w.nic.outstanding := by
      intro wr hwr
      rw [WorkQueue.outstanding, ← List.append_assoc]
      exact List.mem_append_left _ hwr
    rcases hc.pending v hv (hzero v (hin v hv)) with ⟨wr, hwr, hcov⟩
    have h1 := hcov.1
    rw [hzero wr (hin wr hwr)] at h1
    exact absurd h1 Nat.zero_ne_one
  -- The same for the completion queue, where the counting request stands behind.
  have hcq : requests w.nic.cq = [] := by
    rw [List.eq_nil_iff_forall_not_mem]
    intro v hv
    have hin : ∀ wr ∈ requests w.nic.cq, wr ∈ w.nic.outstanding := by
      intro wr hwr
      rw [WorkQueue.outstanding]
      exact List.mem_append_right _ (List.mem_append_right _ hwr)
    rcases List.mem_filterMap.mp hv with ⟨e, he, hev⟩
    rcases List.append_of_mem he with ⟨before, after, hs⟩
    cases e with
    | inr r => exact absurd hev (by simp only [Sum.getLeft?_inr, reduceCtorEq, not_false_eq_true])
    | inl u =>
        simp only [Sum.getLeft?_inl, Option.some.injEq] at hev
        rw [hev] at hs
        rcases hc.queued before v after hs (hzero v (hin v hv)) with ⟨wr, hwr, hcov⟩
        rw [hall, List.nil_append] at hwr
        have hmem : wr ∈ requests w.nic.cq := by
          rw [hs, WorkQueue.requests_append]
          exact List.mem_append_right _ (List.mem_cons_of_mem v hwr)
        have h1 := hcov.1
        rw [hzero wr (hin wr hmem)] at h1
        exact absurd h1 Nat.zero_ne_one
  rw [WorkQueue.outstanding, hcq, List.append_nil]
  exact hall

/-- `drain_cq` returns when it finds the counter at zero: called by the proxy
    thread, by the host on a proxy it has stopped, or in the drain at the end
    of `run`. Then nothing posted is outstanding. -/
def DrainComplete (w : World) : Prop :=
  ((∃ site, w.pc = .drainCq site) ∨ w.gate.Stopped ∨ w.pc = .exitDrain) → w.inflight ≤ 0 →
    w.nic.outstanding = []

/-- In every run whose counting requests complete last, whatever was posted is
    in when `drain_cq` returns. -/
theorem drain_complete (h : Reaches (step setup) (CountsLast setup) (init setup) w) :
    DrainComplete w := by
  intro hat hle
  refine outstanding_empty_of_drained (account_of_reaches h) (covered_of_reaches h) ?_ hle
  -- At each of the three places nothing waits to be counted.
  rcases hat with ⟨site, hpc⟩ | hs | hpc
  · rw [hpc]
    rfl
  · rw [spin_of_stopped (handshake_inv h) hs]
    rfl
  · rw [hpc]
    rfl

section Sample

/-- A WRITE and a notify, up to the drain. -/
def writeThenNotify : List Action := pushes 0 [writeCmd 0 0, notifyCmd] ++ goes 22

/-- Both requests of the WRITE complete, the data first. -/
def drainedInOrder : World :=
  (run (step remoteFlagSetup) (CountsLast remoteFlagSetup)
    (writeThenNotify ++ [Action.place 0, .place 0, .complete 0, .complete 0] ++ goes 1)
    (init remoteFlagSetup)).get (by decide)

theorem drain_complete_in_order : drainedInOrder.nic.outstanding = [] :=
  drain_complete (reaches_of_run _ _ _ (Option.some_get _).symm) (Or.inl ⟨.gate, by decide⟩)
    (by decide)

/-- The arrival flag of the WRITE completes while its data is on the way. -/
def drainedEarly : World :=
  (run (step remoteFlagSetup) always (writeThenNotify ++ [Action.place 1, .complete 0] ++ goes 1)
    (init remoteFlagSetup)).get (by decide)

theorem drain_incomplete : ∃ w, Reaches (step remoteFlagSetup) always (init remoteFlagSetup) w ∧
    ¬ DrainComplete w := by
  refine ⟨drainedEarly, reaches_of_run _ _ _ (Option.some_get _).symm, fun h => ?_⟩
  have hnil := h (Or.inl ⟨.gate, by decide⟩) (by decide)
  have hone : drainedEarly.nic.outstanding.length = 1 := by decide
  rw [hnil] at hone
  exact absurd hone Nat.zero_ne_one

end Sample

end Efa

end Internode

end MKernel
