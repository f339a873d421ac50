import MKernel.Internode.Efa.Proxy

/-!
# What an Action Posts

The ways an action can touch the send queues and the staging ring.

Requests are posted in two places only: a batch in step 2, and a stage barrier to one peer, by the
proxy or by the host. Both draw from the staging ring, and a call that fails keeps what it drew.
The other actions post nothing and leave the ring alone, apart from `set_epoch`, which sets the
cursor back. Requests leave the queues when a completion is polled, which is the only way they do.

## Main definitions

* `DrawsBarrier`, `PostsBarrier`: An action takes a slot for a stage barrier, and posts it.
* `BuildsBatch`: An action builds a batch.
* `Posts`: Everything an action can do to the send queues and the staging ring.

## Theorems

* `step_posts`: What one action of anybody does to them.
-/

namespace MKernel

namespace Internode

namespace Efa

open MKernel.Core

variable {setup : Setup} {w w' : World}

/-- An action takes a slot of the staging ring for a stage barrier. -/
def DrawsBarrier (setup : Setup) (w : World) : Action → Prop
  | .hostBarrier _ _ _ _ => True
  | .proxy _ _ =>
      match w.pc with
      | .stageBarrier _ p =>
          p < setup.cfg.numPeers ∧ (setup.cfg.perPeer p).remoteBarrierAddr ≠ 0
      | _ => False
  | _ => False

instance (setup : Setup) (w : World) (a : Action) : Decidable (DrawsBarrier setup w a) := by
  unfold DrawsBarrier
  generalize w.pc = pc
  apply @Action.casesOn _ a
  case proxy => exact fun _ _ => by apply @Pc.casesOn _ pc <;> intros <;> infer_instance
  all_goals intros; infer_instance

/-- An action builds the requests of a batch. -/
def BuildsBatch (w : World) : Action → Prop
  | .proxy _ _ =>
      match w.pc with
      | .post c => c.batch ≠ []
      | _ => False
  | _ => False

/-- An action posts a stage barrier. -/
def PostsBarrier (setup : Setup) (w : World) : Action → Prop
  | .hostBarrier _ _ _ true => True
  | .proxy true _ =>
      match w.pc with
      | .stageBarrier _ p =>
          p < setup.cfg.numPeers ∧ (setup.cfg.perPeer p).remoteBarrierAddr ≠ 0
      | _ => False
  | _ => False

instance (setup : Setup) (w : World) (a : Action) : Decidable (PostsBarrier setup w a) := by
  unfold PostsBarrier
  generalize w.pc = pc
  apply @Action.casesOn _ a
  case hostBarrier =>
    exact fun _ _ _ ok => by apply @Bool.casesOn _ ok <;> infer_instance
  case proxy =>
    exact fun ok _ => by
      apply @Bool.casesOn _ ok <;> apply @Pc.casesOn _ pc <;> intros <;> infer_instance
  all_goals intros; infer_instance

/-- What no action but a change of the epoch and the post of a batch does to the rest. -/
structure Steady (w w' : World) : Prop where
  epoch : w'.epoch = w.epoch
  posted : postedOf w'.hist = postedOf w.hist

/-- Everything an action can do to the send queues, the staging ring and the record of the
    commands posted. -/
inductive Posts (setup : Setup) (w : World) (a : Action) (w' : World) : Prop where
  /-- Nothing is posted, and completions may be polled. -/
  | quiet (hdraws : ¬ DrawsBarrier setup w a) (hbuilds : ¬ BuildsBatch w a)
      (gone : List WorkRequest) (hnic : (gone ++ w'.nic.outstanding).Perm w.nic.outstanding)
      (hopen : ∀ wr ∈ w'.nic.uncompleted, wr ∈ w.nic.uncompleted)
      (hflags : w'.flags = w.flags) (hs : Steady w w')
  /-- `set_epoch` sets the cursor and the sequence counters back. -/
  | setEpoch (epoch : BitVec 32) (ha : a = .setEpoch epoch) (hnic : w'.nic = w.nic)
      (hflags : w'.flags = { w.flags with senderSeq := fun _ => 0, stagingCursor := 0 })
      (hposted : postedOf w'.hist = postedOf w.hist)
  /-- A stage barrier is posted. The proxy's own carries the epoch. -/
  | barrier (ha : PostsBarrier setup w a) (hdraws : DrawsBarrier setup w a)
      (peer : PerPeerProxyData) (slot : Nat) (token : BitVec 32)
      (htoken : (∃ p, a = .hostBarrier p slot token true) ∨
        (∃ ne, a = .proxy true ne) ∧ token = w.epoch)
      (hnic : w'.nic = w.nic.post
        [barrierRequest setup peer slot (w.flags.stage setup.cfg.flagStaging.count token).1])
      (hflags : w'.flags = (w.flags.stage setup.cfg.flagStaging.count token).2)
      (hs : Steady w w')
  /-- The call that was to post a stage barrier fails. -/
  | refused (hdraws : DrawsBarrier setup w a) (token : BitVec 32)
      (htoken : (∃ p slot, a = .hostBarrier p slot token false) ∨
        (∃ ne, a = .proxy false ne) ∧ token = w.epoch)
      (hnic : w'.nic = w.nic)
      (hflags : w'.flags = (w.flags.stage setup.cfg.flagStaging.count token).2)
      (hs : Steady w w')
  /-- A batch is built, and posted if the call succeeds. -/
  | batch (ok : Bool) (ne : Nat) (c : Collect) (ha : a = .proxy ok ne) (hpc : w.pc = .post c)
      (hb : c.batch ≠ []) (hw : w' = postStep setup w c ok)

section Quiet

variable {a : Action} (hdraws : ¬ DrawsBarrier setup w a) (hbuilds : ¬ BuildsBatch w a)

include hdraws hbuilds

theorem Posts.of_same (hnic : w'.nic = w.nic) (hflags : w'.flags = w.flags)
    (hepoch : w'.epoch = w.epoch) (hhist : w'.hist = w.hist) : Posts setup w a w' :=
  .quiet hdraws hbuilds [] (by rw [hnic, List.nil_append]) (fun _ hwr => hnic ▸ hwr) hflags
    ⟨hepoch, by rw [hhist]⟩

/-- A step that polls one command. -/
theorem Posts.of_polled {p : Polled} {w₁ : World}
    (hp : pollFifo setup w = some (p, w₁)) (hnic : w'.nic = w₁.nic)
    (hflags : w'.flags = w₁.flags) (hepoch : w'.epoch = w₁.epoch) (hhist : w'.hist = w₁.hist) :
    Posts setup w a w' := by
  rcases pollFifo_eq_some hp with ⟨f, -, -, -, rfl⟩
  refine .quiet hdraws hbuilds [] (by rw [hnic, List.nil_append]) (fun _ hwr => hnic ▸ hwr) hflags
    ⟨hepoch, ?_⟩
  rw [hhist, postedOf_append]
  exact List.append_nil _

/-- A poll of the completion queue takes requests from the send queues. -/
theorem Posts.of_completions {es : List Event} {ne : Nat}
    (hnic : w'.nic = (w.nic.poll (min ne 32)).2) (hflags : w'.flags = w.flags)
    (hepoch : w'.epoch = w.epoch) (hhist : w'.hist = w.hist ++ es)
    (hes : ∀ e ∈ es, (∃ wr, e = .reaped wr) ∨ ∃ r, e = .arrived r) : Posts setup w a w' := by
  refine .quiet hdraws hbuilds (polledRequests w ne) ?_ (fun _ hwr => ?_) hflags ⟨hepoch, ?_⟩
  · rw [hnic]
    exact (WorkQueue.outstanding_poll w.nic (min ne 32)).symm
  · rw [hnic, WorkQueue.uncompleted_poll] at hwr
    exact hwr
  · rw [hhist, postedOf_append]
    have hnone : postedOf es = [] := by
      refine List.flatMap_eq_nil_iff.mpr fun e he => ?_
      rcases hes e he with ⟨wr, rfl⟩ | ⟨r, rfl⟩ <;> rfl
    rw [hnone, List.append_nil]

theorem drainReap_posts (ne : Nat) : Posts setup w a (pollNic drainReap w ne) := by
  rw [pollNic_drainReap]
  refine .of_completions hdraws hbuilds rfl rfl rfl rfl fun e he => ?_
  rcases List.mem_map.mp he with ⟨wr, -, rfl⟩
  exact Or.inl ⟨wr, rfl⟩

/-- The loops of step 1 post nothing. -/
theorem turn_posts {c : Collect} (ht : Turn setup w c w') : Posts setup w a w' := by
  cases ht with
  | close head pc hcl => exact .of_same hdraws hbuilds rfl rfl rfl rfl
  | miss spin misses hw => exact .of_same hdraws hbuilds rfl rfl rfl rfl
  | ignored p w₁ pc hp => exact .of_polled hdraws hbuilds hp rfl rfl rfl rfl
  | inlineNotify p w₁ hp => exact .of_polled hdraws hbuilds hp rfl rfl rfl rfl
  | flagNotify p w₁ head pc hp => exact .of_polled hdraws hbuilds hp rfl rfl rfl rfl
  | first p w₁ hp => exact .of_polled hdraws hbuilds hp rfl rfl rfl rfl
  | join p w₁ pc hp => exact .of_polled hdraws hbuilds hp rfl rfl rfl rfl
  | stash p w₁ head hp => exact .of_polled hdraws hbuilds hp rfl rfl rfl rfl

theorem collectStep_posts : Posts setup w a (collectStep setup w) := by
  have hbegin := collectStep_begin setup w
  generalize collectStep setup w = v at hbegin
  cases hbegin with
  | retry hb => exact .of_same hdraws hbuilds rfl rfl rfl rfl
  | seed idx p hb hcmd hlt => exact .of_same hdraws hbuilds rfl rfl rfl rfl
  | fresh idx hb hcmd => exact .of_same hdraws hbuilds rfl rfl rfl rfl

end Quiet

theorem stageBarrierStep_posts {site : BarrierSite} {p : Nat} (hpc : w.pc = .stageBarrier site p)
    (ok : Bool) (ne : Nat) : Posts setup w (.proxy ok ne) (stageBarrierStep setup w site p ok) := by
  have hbuilds : ¬ BuildsBatch w (.proxy ok ne) := by
    simp only [BuildsBatch, hpc, not_false_eq_true]
  have hdraws : DrawsBarrier setup w (.proxy ok ne) ↔
      p < setup.cfg.numPeers ∧ (setup.cfg.perPeer p).remoteBarrierAddr ≠ 0 := by
    simp only [DrawsBarrier, hpc]
  unfold stageBarrierStep
  by_cases hp : p < setup.cfg.numPeers
  · rw [if_pos hp]
    by_cases haddr : (setup.cfg.perPeer p).remoteBarrierAddr = 0
    · simp only [if_pos haddr]
      exact .of_same (fun h => (hdraws.mp h).2 haddr) hbuilds rfl rfl rfl rfl
    · simp only [if_neg haddr]
      cases ok with
      | true =>
          refine .barrier ?_ (hdraws.mpr ⟨hp, haddr⟩) (setup.cfg.perPeer p) 0 w.epoch
            (Or.inr ⟨⟨ne, rfl⟩, rfl⟩) rfl rfl ⟨rfl, ?_⟩
          · simp only [PostsBarrier, hpc]
            exact ⟨hp, haddr⟩
          · simp only [if_true, postedOf_append]
            exact List.append_nil _
      | false =>
          exact .refused (hdraws.mpr ⟨hp, haddr⟩) w.epoch (Or.inr ⟨⟨ne, rfl⟩, rfl⟩) rfl rfl
            ⟨rfl, rfl⟩
  · rw [if_neg hp]
    exact .of_same (fun h => hp (hdraws.mp h).1) hbuilds rfl rfl rfl rfl

theorem proxyStep_posts {ok : Bool} {ne : Nat} (hstep : proxyStep setup w ok ne = some w') :
    Posts setup w (.proxy ok ne) w' := by
  -- Away from the two places that post, nothing is posted.
  have hquiet : (∀ site p, w.pc ≠ .stageBarrier site p) → (∀ c, w.pc = .post c → c.batch = []) →
      ¬ DrawsBarrier setup w (.proxy ok ne) ∧ ¬ BuildsBatch w (.proxy ok ne) := by
    intro h1 h2
    unfold DrawsBarrier BuildsBatch
    cases hpc : w.pc with
    | stageBarrier site p => exact absurd hpc (h1 site p)
    | post c => exact ⟨not_false, fun h => h (h2 c hpc)⟩
    | _ => exact ⟨not_false, not_false⟩
  unfold proxyStep at hstep
  cases hpc : w.pc with
  | loop | pauseGate | pausedSpin | ackStore | ackClear | account c | advanceTail =>
      rcases hquiet (by simp [hpc]) (by simp [hpc]) with ⟨hd, hb⟩
      simp only [hpc, Option.some.injEq] at hstep
      rw [← hstep]
      exact .of_same hd hb rfl rfl rfl rfl
  | stageCount site p =>
      rcases hquiet (by simp [hpc]) (by simp [hpc]) with ⟨hd, hb⟩
      simp only [hpc, Option.some.injEq] at hstep
      rw [← hstep]
      exact .of_same hd hb rfl rfl rfl rfl
  | barrierGate =>
      rcases hquiet (by simp [hpc]) (by simp [hpc]) with ⟨hd, hb⟩
      simp only [hpc] at hstep
      split at hstep <;> rw [← Option.some.inj hstep] <;> exact .of_same hd hb rfl rfl rfl rfl
  | drainCq site =>
      rcases hquiet (by simp [hpc]) (by simp [hpc]) with ⟨hd, hb⟩
      simp only [hpc] at hstep
      split at hstep <;> rw [← Option.some.inj hstep]
      · exact drainReap_posts hd hb ne
      · exact .of_same hd hb rfl rfl rfl rfl
  | exitDrain =>
      rcases hquiet (by simp [hpc]) (by simp [hpc]) with ⟨hd, hb⟩
      simp only [hpc] at hstep
      split at hstep <;> rw [← Option.some.inj hstep]
      · exact drainReap_posts hd hb ne
      · exact .of_same hd hb rfl rfl rfl rfl
  | stageBarrier site p =>
      simp only [hpc, Option.some.injEq] at hstep
      rw [← hstep]
      exact stageBarrierStep_posts hpc ok ne
  | collect =>
      rcases hquiet (by simp [hpc]) (by simp [hpc]) with ⟨hd, hb⟩
      simp only [hpc, Option.some.injEq] at hstep
      rw [← hstep]
      exact collectStep_posts hd hb
  | fill c =>
      rcases hquiet (by simp [hpc]) (by simp [hpc]) with ⟨hd, hb⟩
      simp only [hpc, Option.some.injEq] at hstep
      rw [← hstep]
      exact turn_posts hd hb (fillStep_turn hpc)
  | accumulate c spin misses =>
      rcases hquiet (by simp [hpc]) (by simp [hpc]) with ⟨hd, hb⟩
      simp only [hpc, Option.some.injEq] at hstep
      rw [← hstep]
      exact turn_posts hd hb (accumulateStep_turn hpc)
  | post c =>
      simp only [hpc, Option.some.injEq] at hstep
      by_cases hempty : c.batch = []
      · rcases hquiet (by simp [hpc]) (fun d hd => by
          rw [hpc] at hd
          rw [← Pc.post.inj hd]
          exact hempty) with ⟨hd, hb⟩
        rw [postStep, if_pos hempty] at hstep
        rw [← hstep]
        exact .of_same hd hb rfl rfl rfl rfl
      · exact .batch ok ne c rfl hpc hempty hstep.symm
  | pollCq posted =>
      rcases hquiet (by simp [hpc]) (by simp [hpc]) with ⟨hd, hb⟩
      simp only [hpc, Option.some.injEq] at hstep
      rcases pollNic_reap setup w ne with ⟨es, arrival, hw, -, hes, -⟩
      rw [← hstep, hw]
      refine .of_completions hd hb rfl rfl rfl rfl fun e he => ?_
      rcases hes e he with h | ⟨r, hr, -⟩
      · exact Or.inl h
      · exact Or.inr ⟨r, hr⟩
  | exited => simp only [hpc, reduceCtorEq] at hstep

/-- What one action of anybody does to the send queues and the staging ring. -/
theorem step_posts {a : Action} (hstep : step setup w a = some w') : Posts setup w a w' := by
  cases a with
  | setEpoch epoch =>
      rw [← Option.some.inj hstep]
      exact .setEpoch epoch rfl rfl rfl rfl
  | claim k cmd | stop | fifoReset k =>
      rw [← Option.some.inj hstep]
      exact .of_same not_false not_false rfl rfl rfl rfl
  | publish k | host b =>
      rcases Option.map_eq_some_iff.mp hstep with ⟨x, -, rfl⟩
      exact .of_same not_false not_false rfl rfl rfl rfl
  | place i =>
      rcases Option.map_eq_some_iff.mp hstep with ⟨r, hr, rfl⟩
      exact .quiet not_false not_false [] (WorkQueue.outstanding_place hr)
        (fun _ => WorkQueue.uncompleted_place hr) rfl ⟨rfl, rfl⟩
  | complete i =>
      rcases Option.map_eq_some_iff.mp hstep with ⟨q, hq, rfl⟩
      -- What completes is no longer outstanding, and nothing is posted.
      exact .quiet not_false not_false [] (WorkQueue.outstanding_complete hq)
        (fun _ => WorkQueue.uncompleted_complete hq) rfl ⟨rfl, rfl⟩
  | recv r =>
      simp only [step, Option.ite_none_right_eq_some, Option.some.injEq] at hstep
      rw [← hstep.2]
      refine .quiet not_false not_false [] ?_ (fun _ hwr => hwr) rfl ⟨rfl, rfl⟩
      rw [WorkQueue.outstanding_notice, List.nil_append]
  | hostReset =>
      simp only [step, Option.ite_none_right_eq_some, Option.some.injEq] at hstep
      rw [← hstep.2]
      exact .of_same not_false not_false rfl rfl rfl rfl
  | hostDrain ne =>
      simp only [step, Option.ite_none_right_eq_some, Option.some.injEq] at hstep
      rw [← hstep.2]
      have hd : ¬ DrawsBarrier setup w (.hostDrain ne) := not_false
      exact drainReap_posts hd not_false ne
  | hostBarrier p slot token ok =>
      simp only [step, Option.ite_none_right_eq_some, Option.some.injEq] at hstep
      rw [← hstep.2]
      cases ok with
      | true =>
          -- The host's barrier draws a slot, and posts one request.
          refine .barrier trivial trivial (setup.cfg.perPeer p) slot token (Or.inl ⟨p, rfl⟩) rfl rfl
            ⟨rfl, ?_⟩
          exact (postedOf_append _ _).trans (List.append_nil _)
      | false => exact .refused trivial token (Or.inl ⟨p, slot, rfl⟩) rfl rfl ⟨rfl, rfl⟩
  | proxy ok ne => exact proxyStep_posts hstep

end Efa

end Internode

end MKernel
