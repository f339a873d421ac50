import MKernel.Internode.Cx7.Chains
import MKernel.Internode.Efa.Accounting

/-!
# What the In-Flight Counters Count

Both proxies keep a counter of what they have posted and not seen complete.

The completion of a request subtracts from the counter what stands in its `wr_id`, and nothing
where the request has no completion of its own. In every state the counter, with what the
thread is just about to add to it, is the sum of what the completions of all requests
outstanding will subtract (`inflight_conserved`). What the thread is about to add is zero
wherever it reads the counter or subtracts from it: it adds right after it posts, or for strided
commands at the end of step 2. The host may read the counter in between.

The counter is never lowered below zero, since everything that is subtracted was added before,
and it is zero when nothing is outstanding.

## Main definitions

* `Cx7.Balanced`, `Efa.Balanced`: The counter is what is outstanding.

## Theorems

* `Cx7.balanced_of_reaches`, `Efa.balanced_of_reaches`: Each proxy keeps the balance.
* `inflight_conserved`: Both do, in every run.
-/

namespace MKernel

namespace Internode

open MKernel.Core

namespace Cx7

variable {setup : Setup} {w w' : World}

/-- The requests outstanding, chain by chain. -/
def outstandingWrs (w : World) : List SendWr := w.nic.outstanding.flatMap Chain.wrs

/-- The counter, with what is just being added to it, is what the completions of the
    outstanding requests will subtract. -/
structure Balanced (w : World) : Prop where
  count : w.inflight + w.pc.uncounted = ((outstandingWrs w).map SendWr.retires).sum
  inflight_nonneg : 0 ≤ w.inflight
  uncounted_nonneg : 0 ≤ w.pc.uncounted
  drained : outstandingWrs w = [] → w.inflight = 0

/-- What the thread is about to add to the counter, one addition after the other. -/
def Pc.additions : Pc → List Int
  | .forwardCount _ => [1]
  | .stageCount _ _ => [1]
  | .filter _ _ _ stridedPosted => [stridedPosted]
  | .post _ _ stridedPosted => [stridedPosted]
  | .account count stridedPosted => [count, stridedPosted]
  | .stridedCount stridedPosted _ => [stridedPosted]
  | _ => []

theorem sum_additions (pc : Pc) : pc.additions.sum = pc.uncounted := by
  cases pc <;> simp [Pc.additions, Pc.uncounted]

/-- The counter only falls where nothing is about to be added to it, and nothing negative is. -/
structure Rises (w w' : World) : Prop where
  inflight : w'.pc.additions = [] ∨ w.inflight ≤ w'.inflight
  additions : (∀ x ∈ w.pc.additions, 0 ≤ x) → ∀ x ∈ w'.pc.additions, 0 ≤ x

section Steps

theorem rises_of_none (h : w'.pc.additions = []) : Rises w w' where
  inflight := Or.inl h
  additions _ x hx := by
    rw [h] at hx
    exact absurd hx List.not_mem_nil

theorem rises_of_pc (hpc : w'.pc = w.pc) (h : w.inflight ≤ w'.inflight) : Rises w w' where
  inflight := Or.inr h
  additions hn := by
    rw [hpc]
    exact hn

/-- Something may have been posted, and the counter is as before. -/
theorem rises_of_post (hn : ∀ x ∈ w'.pc.additions, 0 ≤ x) (h : w'.inflight = w.inflight) :
    Rises w w' where
  inflight := Or.inr (Int.le_of_eq h.symm)
  additions _ := hn

theorem endFill_rises {v : World} (c : Collect) (h : v.inflight = w.inflight) :
    Rises w (endFill setup v c) := by
  unfold endFill
  split <;> exact rises_of_post (by simp [Pc.additions]) h

theorem fillStep_rises (c : Collect) : Rises w (fillStep setup w c) := by
  unfold fillStep
  split
  · cases hp : pollFifo setup w with
    | none => exact endFill_rises c rfl
    | some r =>
        rcases r with ⟨p, w₁⟩
        rcases pollFifo_eq_some hp with ⟨f, -, -, rfl⟩
        dsimp only
        split
        · exact rises_of_none rfl
        · unfold collectWrite
          split
          · dsimp only
            split
            · exact rises_of_none rfl
            · split
              · exact rises_of_none rfl
              · split
                · exact rises_of_none rfl
                · exact endFill_rises c rfl
          · -- Without routing every WRITE joins the batch.
            exact rises_of_none rfl
        · exact rises_of_none rfl
  · exact endFill_rises c rfl

theorem collectStep_additions : (collectStep setup w).pc.additions = [] := by
  unfold collectStep
  split
  · split <;> rfl
  · rfl

theorem forwardStep_rises (i : Nat) (ok : Bool) : Rises w (forwardStep setup w i ok) := by
  unfold forwardStep
  split
  · dsimp only
    split
    · exact rises_of_none rfl
    · split
      · split
        · exact rises_of_post (by simp [Pc.additions]) rfl
        · exact rises_of_none rfl
      · exact rises_of_none rfl
  · exact rises_of_none rfl

theorem stageBarrierStep_rises (c : Collect) (p : Nat) (ok : Bool) :
    Rises w (stageBarrierStep setup w c p ok) := by
  unfold stageBarrierStep
  split
  · split
    · exact rises_of_post (by simp [Pc.additions]) rfl
    · exact rises_of_none rfl
  · exact rises_of_none rfl

theorem filterStep_rises {rest kept : List Polled} {qp n : Int} (hn : 0 ≤ n) (ok : Bool) :
    Rises w (filterStep setup w rest kept qp n ok) := by
  have hone : ∀ x ∈ [n], 0 ≤ x := by simpa using hn
  unfold filterStep
  split
  · exact rises_of_post hone rfl
  · split
    · split
      · rename_i m _ _
        have hmore : ∀ x ∈ [n + (m : Int)], 0 ≤ x := by
          simp only [List.mem_singleton, forall_eq]
          omega
        split
        · exact rises_of_post hmore rfl
        · exact rises_of_post hone rfl
      · exact rises_of_post hone rfl
    · exact rises_of_post hone rfl

theorem postStep_rises {batch : List Polled} {qp n : Int} (hn : 0 ≤ n) (ok : Bool) :
    Rises w (postStep setup w batch qp n ok) := by
  have hone : ∀ x ∈ [n], 0 ≤ x := by simpa using hn
  unfold postStep
  split
  · exact rises_of_post hone rfl
  · dsimp only
    split
    · refine rises_of_post ?_ rfl
      intro x hx
      rcases List.mem_cons.mp hx with rfl | hx
      · exact Int.natCast_nonneg _
      · exact hone x hx
    · exact rises_of_post hone rfl

theorem proxyStep_rises {ok : Bool} {ne : Nat} (hn : ∀ x ∈ w.pc.additions, 0 ≤ x)
    (hstep : proxyStep setup w ok ne = some w') : Rises w w' := by
  unfold proxyStep at hstep
  cases hpc : w.pc with
  | loop | pauseGate | pausedSpin =>
      simp only [hpc, Option.some.injEq] at hstep
      rw [← hstep]
      refine rises_of_none ?_
      dsimp only
      split <;> rfl
  | ackStore | ackClear | advanceTail | forwardCount i | stageCount c p =>
      simp only [hpc, Option.some.injEq] at hstep
      rw [← hstep]
      exact rises_of_none rfl
  | forwardGate =>
      simp only [hpc] at hstep
      split at hstep <;>
        · rw [← Option.some.inj hstep]
          exact rises_of_none rfl
  | forward i =>
      simp only [hpc, Option.some.injEq] at hstep
      rw [← hstep]
      exact forwardStep_rises i ok
  | collect =>
      simp only [hpc, Option.some.injEq] at hstep
      rw [← hstep]
      exact rises_of_none collectStep_additions
  | fill c =>
      simp only [hpc, Option.some.injEq] at hstep
      rw [← hstep]
      exact fillStep_rises c
  | stageBarrier c p =>
      simp only [hpc, Option.some.injEq] at hstep
      rw [← hstep]
      exact stageBarrierStep_rises c p ok
  | filter rest kept qp n =>
      rw [hpc] at hn
      -- What is to be counted was found not negative before.
      simp only [hpc, Option.some.injEq] at hstep
      rw [← hstep]
      exact filterStep_rises (hn _ List.mem_cons_self) ok
  | post batch qp n =>
      rw [hpc] at hn
      simp only [hpc, Option.some.injEq] at hstep
      rw [← hstep]
      exact postStep_rises (hn _ List.mem_cons_self) ok
  | account count n =>
      rw [hpc] at hn
      have hcount : 0 ≤ count := hn _ List.mem_cons_self
      simp only [hpc, Option.some.injEq] at hstep
      rw [← hstep]
      refine ⟨Or.inr (by dsimp only; omega), fun _ x hx => ?_⟩
      exact hn x (List.mem_cons_of_mem _ hx)
  | stridedCount n posted =>
      simp only [hpc, Option.some.injEq] at hstep
      rw [← hstep]
      exact rises_of_none rfl
  | pollCq posted =>
      simp only [hpc, Option.some.injEq] at hstep
      rw [← hstep]
      refine rises_of_none ?_
      dsimp only
      split <;> rfl
  | exitDrain =>
      simp only [hpc] at hstep
      split at hstep <;> rw [← Option.some.inj hstep]
      · -- A poll adds nothing.
        refine rises_of_none ?_
        rw [pollNic_eq]
        dsimp only
        rw [hpc]
        rfl
      · exact rises_of_none rfl
  | exited => simp only [hpc, reduceCtorEq] at hstep

/-- An action of anybody lowers the counter only where nothing is about to be added. -/
theorem step_rises (hg : Handshake.Inv (toHandshake w)) (hn : ∀ x ∈ w.pc.additions, 0 ≤ x)
    {a : Action} (hstep : step setup w a = some w') : Rises w w' := by
  cases a with
  | claim cmd | stop | fifoReset | forwardNotify slot n
  | resetForwardNotifyTable | setEpoch epoch =>
      rw [← Option.some.inj hstep]
      exact rises_of_pc rfl (Int.le_refl _)
  | publish | host b =>
      rcases Option.map_eq_some_iff.mp hstep with ⟨x, -, rfl⟩
      exact rises_of_pc rfl (Int.le_refl _)
  | place i | complete i =>
      simp only [step, Option.ite_none_right_eq_some] at hstep
      rcases Option.map_eq_some_iff.mp hstep.2 with ⟨r, -, rfl⟩
      exact rises_of_pc rfl (Int.le_refl _)
  | hostDrain ne =>
      simp only [step, Option.ite_none_right_eq_some, Option.some.injEq] at hstep
      rcases hstep with ⟨⟨hs, -⟩, hw⟩
      -- The host polls while the proxy spins in its pause, with nothing to add.
      refine rises_of_none ?_
      rw [← hw, pollNic_eq]
      dsimp only
      rw [spin_of_stopped hg hs]
      rfl
  | hostReset =>
      simp only [step, Option.ite_none_right_eq_some, Option.some.injEq] at hstep
      rcases hstep with ⟨⟨-, hle⟩, rfl⟩
      exact rises_of_pc rfl hle
  | hostBarrier p slot token =>
      simp only [step, Option.ite_none_right_eq_some, Option.some.injEq] at hstep
      rw [← hstep.2]
      exact rises_of_pc rfl (by dsimp only; omega)
  | proxy ok ne => exact proxyStep_rises hn hstep

end Steps

/-- A counter that is right is not negative, where nothing is about to be added to it. -/
theorem nonneg_of_rises (ha : AccountInv w') (h : Rises w w') (hw : 0 ≤ w.inflight) :
    0 ≤ w'.inflight := by
  rcases h.inflight with hnone | hle
  · refine ha.inflight_nonneg ?_
    rw [← sum_additions, hnone]
    rfl
  · exact Int.le_trans hw hle

/-- In every run the counter is not negative, and neither is anything added to it. -/
theorem nonneg_of_reaches {ok : World → Action → Prop}
    (h : Reaches (step setup) ok (init setup) w) :
    0 ≤ w.inflight ∧ ∀ x ∈ w.pc.additions, 0 ≤ x := by
  -- The accounts and the handshake hold before and after every step.
  have hall : (AccountInv w ∧ Handshake.Inv (toHandshake w)) ∧
      0 ≤ w.inflight ∧ ∀ x ∈ w.pc.additions, 0 ≤ x := by
    refine invariant_of_reaches (fun w => (AccountInv w ∧ Handshake.Inv (toHandshake w)) ∧
      0 ≤ w.inflight ∧ ∀ x ∈ w.pc.additions, 0 ≤ x) ?_ h
      ⟨⟨account_init, Handshake.inv_init⟩, Int.le_refl 0, fun _ hx => absurd hx List.not_mem_nil⟩
    rintro s a t ⟨⟨ha, hg⟩, hn, hadd⟩ - hstep
    rcases step_ledger ha hg hstep with ⟨l, n, hl⟩
    have ha' := ha.of_ledger hl
    have hr := step_rises hg hadd hstep
    exact ⟨⟨ha', follows_handshake.step_inv hg hstep⟩, nonneg_of_rises ha' hr hn, hr.additions hadd⟩
  exact hall.2

/-- What the outstanding requests retire is what their chains count. -/
theorem sum_retires_eq_weight (h : ∀ c ∈ w.nic.outstanding, Built setup c) :
    ((outstandingWrs w).map SendWr.retires).sum = w.nic.weight Chain.count := by
  rw [outstandingWrs, List.map_flatMap, WorkQueue.weight]
  revert h
  generalize w.nic.outstanding = chains
  intro h
  induction chains with
  | nil => rfl
  | cons c cs ih =>
      have hc := Closed.sum_retires (h c List.mem_cons_self).closed
      rw [List.flatMap_cons, List.sum_append, hc, ih fun v hv => h v (List.mem_cons_of_mem _ hv),
        List.map_cons, List.sum_cons]

/-- In every run the counter counts what is outstanding. -/
theorem balanced_of_reaches {ok : World → Action → Prop}
    (h : Reaches (step setup) ok (init setup) w) : Balanced w := by
  rcases nonneg_of_reaches h with ⟨hn, hadd⟩
  have hcount : w.inflight + w.pc.uncounted = ((outstandingWrs w).map SendWr.retires).sum := by
    rw [sum_retires_eq_weight (built_of_reaches h), (account_of_reaches h).count]
  have hun : 0 ≤ w.pc.uncounted := by
    rw [← sum_additions]
    exact List.sum_nonneg hadd
  refine ⟨hcount, hn, hun, fun hnone => ?_⟩
  -- Two numbers that are not negative add up to zero.
  rw [hnone] at hcount
  simp only [List.map_nil, List.sum_nil] at hcount
  omega

end Cx7

namespace Efa

variable {setup : Setup} {w w' : World}

/-- The counter, with what is just being added to it, is what the completions of the
    outstanding requests will subtract. Every request is signaled. -/
structure Balanced (w : World) : Prop where
  count : w.inflight + w.pc.uncounted = (w.nic.outstanding.map WorkRequest.weight).sum
  inflight_nonneg : 0 ≤ w.inflight
  uncounted_nonneg : 0 ≤ w.pc.uncounted
  drained : w.nic.outstanding = [] → w.inflight = 0

section Steps

theorem uncounted_nonneg (pc : Pc) : 0 ≤ pc.uncounted := by
  cases pc with
  | account c => exact Int.natCast_nonneg _
  | stageCount site p => exact (by decide : (0 : Int) ≤ 1)
  | _ => exact Int.le_refl 0

/-- The counter only falls where nothing is about to be added to it. -/
def Rises (w w' : World) : Prop := w'.pc.uncounted = 0 ∨ w.inflight ≤ w'.inflight

theorem rises_of_zero (h : w'.pc.uncounted = 0) : Rises w w' := Or.inl h

theorem rises_of_le (h : w.inflight ≤ w'.inflight) : Rises w w' := Or.inr h

theorem turn_rises {c : Collect} (ht : Turn setup w c w') : Rises w w' := by
  cases ht with
  | close head pc hcl | flagNotify p w₁ head pc hp hn hb hcl => exact rises_of_zero hcl.uncounted
  | miss spin misses hw | inlineNotify p w₁ hp hn hw hb hlt | stash p w₁ head hp hwr hb =>
      exact rises_of_zero rfl
  | first p w₁ hp hwr hw hb hlt => exact rises_of_zero rfl
  | ignored p w₁ pc hp hw hn hpc =>
      refine rises_of_zero ?_
      rcases hpc with ⟨-, rfl⟩ | ⟨-, s, m, rfl⟩ <;> rfl
  | join p w₁ pc hp hwr ha hpc =>
      refine rises_of_zero ?_
      rcases hpc with ⟨-, rfl⟩ | ⟨-, s, m, rfl⟩ <;> rfl

theorem stageBarrierStep_rises (site : BarrierSite) (p : Nat) (ok : Bool) :
    Rises w (stageBarrierStep setup w site p ok) := by
  unfold stageBarrierStep
  split
  · dsimp only
    split
    · exact rises_of_zero rfl
    · split
      · exact rises_of_le (Int.le_refl _)
      · exact rises_of_zero rfl
  · refine rises_of_zero ?_
    cases site <;> rfl

theorem postStep_rises (c : Collect) (ok : Bool) : Rises w (postStep setup w c ok) := by
  unfold postStep
  split
  · exact rises_of_zero rfl
  · dsimp only
    split
    · exact rises_of_le (Int.le_refl _)
    · exact rises_of_zero rfl

theorem proxyStep_rises {ok : Bool} {ne : Nat} (hstep : proxyStep setup w ok ne = some w') :
    Rises w w' := by
  unfold proxyStep at hstep
  cases hpc : w.pc with
  | loop | pauseGate | pausedSpin =>
      simp only [hpc, Option.some.injEq] at hstep
      rw [← hstep]
      refine rises_of_zero ?_
      dsimp only
      split <;> rfl
  | ackStore | ackClear | advanceTail | stageCount site p | account c =>
      simp only [hpc, Option.some.injEq] at hstep
      rw [← hstep]
      exact rises_of_zero rfl
  | barrierGate =>
      simp only [hpc] at hstep
      split at hstep <;>
        · rw [← Option.some.inj hstep]
          exact rises_of_zero rfl
  | drainCq site =>
      simp only [hpc] at hstep
      split at hstep <;> rw [← Option.some.inj hstep]
      · -- A drain adds nothing.
        refine rises_of_zero ?_
        rw [pollNic_drainReap]
        dsimp only
        rw [hpc]
        rfl
      · exact rises_of_zero rfl
  | stageBarrier site p =>
      simp only [hpc, Option.some.injEq] at hstep
      rw [← hstep]
      exact stageBarrierStep_rises site p ok
  | collect =>
      simp only [hpc, Option.some.injEq] at hstep
      have hb := collectStep_begin setup w
      rw [hstep] at hb
      cases hb <;> exact rises_of_zero rfl
  | fill c =>
      simp only [hpc, Option.some.injEq] at hstep
      rw [← hstep]
      exact turn_rises (fillStep_turn hpc)
  | accumulate c spin misses =>
      simp only [hpc, Option.some.injEq] at hstep
      rw [← hstep]
      exact turn_rises (accumulateStep_turn hpc)
  | post c =>
      simp only [hpc, Option.some.injEq] at hstep
      rw [← hstep]
      exact postStep_rises c ok
  | pollCq posted =>
      simp only [hpc, Option.some.injEq] at hstep
      rw [← hstep]
      refine rises_of_zero ?_
      dsimp only
      split <;> rfl
  | exitDrain =>
      simp only [hpc] at hstep
      split at hstep <;> rw [← Option.some.inj hstep]
      · refine rises_of_zero ?_
        rw [pollNic_drainReap]
        dsimp only
        rw [hpc]
        rfl
      · exact rises_of_zero rfl
  | exited => simp only [hpc, reduceCtorEq] at hstep

/-- An action of anybody lowers the counter only where nothing is about to be added. -/
theorem step_rises (hg : Handshake.Inv (toHandshake w)) {a : Action}
    (hstep : step setup w a = some w') : Rises w w' := by
  cases a with
  | claim k cmd | stop | setEpoch epoch | fifoReset k =>
      rw [← Option.some.inj hstep]
      exact rises_of_le (Int.le_refl _)
  | publish k | place i | complete i | host b =>
      rcases Option.map_eq_some_iff.mp hstep with ⟨x, -, rfl⟩
      exact rises_of_le (Int.le_refl _)
  | recv r =>
      simp only [step, Option.ite_none_right_eq_some, Option.some.injEq] at hstep
      rw [← hstep.2]
      exact rises_of_le (Int.le_refl _)
  | hostDrain ne =>
      simp only [step, Option.ite_none_right_eq_some, Option.some.injEq] at hstep
      rcases hstep with ⟨⟨hs, -⟩, hw⟩
      -- The host polls while the proxy spins in its pause, with nothing to add.
      refine rises_of_zero ?_
      rw [← hw, pollNic_drainReap]
      dsimp only
      rw [spin_of_stopped hg hs]
      rfl
  | hostReset =>
      simp only [step, Option.ite_none_right_eq_some, Option.some.injEq] at hstep
      rcases hstep with ⟨⟨-, hle⟩, rfl⟩
      exact rises_of_le hle
  | hostBarrier p slot token ok =>
      simp only [step, Option.ite_none_right_eq_some, Option.some.injEq] at hstep
      rw [← hstep.2]
      cases ok with
      | true => exact rises_of_le (Int.le_add_one (Int.le_refl _))
      | false => exact rises_of_le (Int.le_refl _)
  | proxy ok ne => exact proxyStep_rises hstep

end Steps

/-- In every run the counter is not negative. -/
theorem nonneg_of_reaches {ok : World → Action → Prop}
    (h : Reaches (step setup) ok (init setup) w) : 0 ≤ w.inflight := by
  have hall : (AccountInv w ∧ Handshake.Inv (toHandshake w)) ∧ 0 ≤ w.inflight := by
    refine invariant_of_reaches
      (fun w => (AccountInv w ∧ Handshake.Inv (toHandshake w)) ∧ 0 ≤ w.inflight) ?_ h
      ⟨⟨account_init, Handshake.inv_init⟩, Int.le_refl 0⟩
    rintro s a t ⟨⟨ha, hg⟩, hn⟩ - hstep
    have ha' := step_account ha hg hstep
    refine ⟨⟨ha', follows_handshake.step_inv hg hstep⟩, ?_⟩
    rcases step_rises hg hstep with hzero | hle
    · rw [ha'.inflight_eq hzero]
      exact WorkQueue.weight_nonneg fun v _ => weight_nonneg v
    · exact Int.le_trans hn hle
  exact hall.2

/-- In every run the counter counts what is outstanding. -/
theorem balanced_of_reaches {ok : World → Action → Prop}
    (h : Reaches (step setup) ok (init setup) w) : Balanced w := by
  have hn := nonneg_of_reaches h
  have hun := uncounted_nonneg w.pc
  have hcount : w.inflight + w.pc.uncounted = (w.nic.outstanding.map WorkRequest.weight).sum :=
    (account_of_reaches h).count.symm
  refine ⟨hcount, hn, hun, fun hnone => ?_⟩
  rw [hnone] at hcount
  simp only [List.map_nil, List.sum_nil] at hcount
  omega

end Efa

/-- In every state of either proxy, the counter counts what is outstanding. -/
theorem inflight_conserved :
    (∀ (setup : Cx7.Setup) (w : Cx7.World),
      Reaches (Cx7.step setup) always (Cx7.init setup) w → Cx7.Balanced w) ∧
    ∀ (setup : Efa.Setup) (w : Efa.World),
      Reaches (Efa.step setup) always (Efa.init setup) w → Efa.Balanced w :=
  ⟨fun _ _ => Cx7.balanced_of_reaches, fun _ _ => Efa.balanced_of_reaches⟩

section Sample

/-- A proxy in the middle of an iteration: a strided WRITE is posted and not counted. -/
def Cx7.uncountedStrided : Cx7.World :=
  (run (Cx7.step Cx7.sampleSetup) always
    (Cx7.pushes [Cx7.writeCmd 0 0, Cx7.stridedCmd 0 1] ++ Cx7.goes 10)
      (Cx7.init Cx7.sampleSetup)).get
    (by decide +kernel)

/-- A proxy that has posted a batch of two, and has seen one of its requests complete. -/
def Efa.halfReaped : Efa.World :=
  (run (Efa.step Efa.writeImmSetup) always
    (Efa.pushes 0 [Efa.writeCmd 0 0, Efa.writeCmd 0 1] ++ Efa.goes 26 ++
      [Efa.Action.place 1, .complete 0] ++
      Efa.goes 12) (Efa.init Efa.writeImmSetup)).get (by decide +kernel)

theorem inflight_conserved_sample :
    (Cx7.uncountedStrided.inflight, Cx7.uncountedStrided.pc.uncounted) = (0, 3) ∧
    Cx7.Balanced Cx7.uncountedStrided ∧
    (Efa.halfReaped.inflight, Efa.halfReaped.nic.outstanding.length) = (1, 1) ∧
    Efa.Balanced Efa.halfReaped :=
  ⟨by decide +kernel, inflight_conserved.1 _ _ (reaches_of_run _ _ _ (Option.some_get _).symm),
    by decide +kernel, inflight_conserved.2 _ _ (reaches_of_run _ _ _ (Option.some_get _).symm)⟩

end Sample

end Internode

end MKernel
