import MKernel.Internode.Cx7.Accounting

/-!
# The Chains of the CX7 Proxy

What every chain has in common, whoever posts it.

A chain is built from a batch, from a strided command, from a notification that
is passed on, or for a stage barrier (`Built`). Whichever it is, its last
request is signaled and no other is (`Closed`), so its requests report exactly
one completion, and that retires what the chain counts. A part of a chain that
is cut off before its end reports none.

## Main definitions

* `Built`: The chains that are posted.
* `Closed`: Only the last request is signaled.
* `SendWr.retires`: What the completion of a request subtracts.

## Theorems

* `Built.closed`: Every chain that is posted is closed.
* `Closed.sum_retires`: The requests of a closed chain retire its count.
* `Closed.sum_retires_take`: The requests before the last one retire nothing.
* `built_of_reaches`: Whatever is outstanding was built.
-/

namespace MKernel

namespace Internode

namespace Cx7

open MKernel.Core

variable {setup : Setup} {w w' : World} {c : Chain}

/-- The chains that the proxy and its host post. -/
inductive Built (setup : Setup) : Chain → Prop where
  | batch (epoch : BitVec 32) (senderSeq : Nat → BitVec 32) (qp : Int) {batch : List Polled}
      (hne : batch ≠ []) (hlen : batch.length ≤ BATCH_SIZE) :
      Built setup (batchChain setup epoch senderSeq qp batch).1
  | strided {epoch : BitVec 32} {senderSeq senderSeq' : Nat → BitVec 32} {qp : Int} {p : Polled}
      {c : Chain} {n : Nat}
      (h : stridedChain setup epoch senderSeq qp p = some (c, n, senderSeq')) :
      Built setup c
  | forward {epoch : BitVec 32} {cmd : TransferCmd} {c : Chain}
      (h : forwardChain setup epoch cmd = some c) : Built setup c
  | barrier (slot : Nat) (token : BitVec 32) (p : Nat) :
    Built setup (barrierChain setup slot token p)

/-- The last of some requests is signaled, and none before it. -/
def Closes (ws : List SendWr) : Prop :=
  ∃ before wr, ws = before ++ [wr] ∧ wr.signaled = true ∧ ∀ v ∈ before, v.signaled = false

/-- Only the last request of a chain is signaled. -/
def Chain.Closed (c : Chain) : Prop := Closes c.wrs

/-- What the completion of a request subtracts from the in-flight counter. A
    request that is not signaled has no completion. -/
def SendWr.retires (wr : SendWr) : Int := if wr.signaled then decodeWrCount wr.wrId else 0

section Closing

variable {epoch : BitVec 32} {senderSeq : Nat → BitVec 32} {qp : Int} {p : Polled}
  {batch : List Polled} {ws ws' : List SendWr}

/-- Requests that are not signaled may stand before a closed chain. -/
theorem Closes.append (h : ∀ v ∈ ws, v.signaled = false) (h' : Closes ws') :
    Closes (ws ++ ws') := by
  rcases h' with ⟨before, wr, rfl, hs, hb⟩
  refine ⟨ws ++ before, wr, (List.append_assoc _ _ _).symm, hs, fun v hv => ?_⟩
  rcases List.mem_append.mp hv with hv | hv
  · exact h v hv
  · exact hb v hv

/-- A single signaled request. -/
theorem closes_singleton {wr : SendWr} (h : wr.signaled = true) : Closes [wr] :=
  ⟨[], wr, rfl, h, fun _ hv => absurd hv List.not_mem_nil⟩

/-- The requests of a command that is not the last of its batch. -/
theorem signaled_commandWrs {count i : Nat} (hi : i + 1 ≠ count) :
    ∀ v ∈ (commandWrs setup epoch senderSeq qp count i p).1, v.signaled = false := by
  unfold commandWrs
  dsimp only
  split
  · split <;> simp [dataWr, wordWr, hi]
  · split <;> simp [dataWr, wordWr, notifyWr, hi]

/-- The requests of the last command close the chain. -/
theorem closes_commandWrs {count i : Nat} (hi : i + 1 = count) :
    Closes (commandWrs setup epoch senderSeq qp count i p).1 := by
  unfold commandWrs
  dsimp only
  -- Two or three requests, depending on the layout.
  split
  · split
    · exact ⟨[_, _], _, rfl, by simp [wordWr, hi], by simp [dataWr, wordWr]⟩
    · exact ⟨[_], _, rfl, by simp [wordWr, hi], by simp [dataWr]⟩
  · split
    · exact ⟨[_, _], _, rfl, by simp [notifyWr, hi], by simp [dataWr, wordWr]⟩
    · exact ⟨[_], _, rfl, by simp [wordWr, hi], by simp [dataWr]⟩

theorem closes_chainLoop {count i : Nat} (hne : batch ≠ []) (hc : i + batch.length = count) :
    Closes (chainLoop setup epoch qp count senderSeq i batch).1 := by
  induction batch generalizing senderSeq i with
  | nil => exact absurd rfl hne
  | cons p ps ih =>
      rw [List.length_cons] at hc
      cases ps with
      | nil =>
          simp only [chainLoop, List.append_nil]
          exact closes_commandWrs hc
      -- More commands follow, so this one's requests stand before the end.
      | cons p' ps =>
          rw [List.length_cons] at hc
          exact (ih (List.cons_ne_nil _ _) (by rw [List.length_cons]; omega)).append
            (signaled_commandWrs (by omega))

theorem signaled_stridedDataWrs (k rowCursor : Nat) (remoteCursor : BitVec 64) :
    ∀ v ∈ stridedDataWrs setup qp p k rowCursor remoteCursor, v.signaled = false := by
  induction k generalizing rowCursor remoteCursor with
  | zero => exact fun _ hv => absurd hv List.not_mem_nil
  | succ k ih =>
      intro v hv
      rw [stridedDataWrs] at hv
      rcases List.mem_cons.mp hv with rfl | hv
      · rfl
      · exact ih _ _ v hv

theorem closed_stridedChain {senderSeq' : Nat → BitVec 32} {n : Nat}
    (h : stridedChain setup epoch senderSeq qp p = some (c, n, senderSeq')) : c.Closed := by
  unfold stridedChain at h
  split at h
  · dsimp only at h
    split at h
    · split at h <;> simp only [Option.some.injEq, Prod.mk.injEq] at h <;> rw [← h.1]
      · exact Closes.append (signaled_stridedDataWrs _ _ _) ⟨[_], _, rfl, rfl, by simp [wordWr]⟩
      · exact Closes.append (signaled_stridedDataWrs _ _ _) (closes_singleton rfl)
    · simp only [Option.some.injEq, Prod.mk.injEq] at h
      rw [← h.1]
      exact Closes.append (signaled_stridedDataWrs _ _ _) (closes_singleton rfl)
  · exact absurd h (by simp only [reduceCtorEq, not_false_eq_true])

theorem closed_forwardChain {cmd : TransferCmd} (h : forwardChain setup epoch cmd = some c) :
    c.Closed := by
  unfold forwardChain at h
  dsimp only at h
  split at h
  · rw [← Option.some.inj h]
    exact ⟨[_], _, rfl, rfl, by simp⟩
  · exact absurd h (by simp only [reduceCtorEq, not_false_eq_true])

end Closing

/-- Every chain that is posted is closed. -/
theorem Built.closed (h : Built setup c) : c.Closed := by
  cases h with
  | batch epoch senderSeq qp hne hlen => exact closes_chainLoop hne (Nat.zero_add _)
  | strided h => exact closed_stridedChain h
  | forward h => exact closed_forwardChain h
  | barrier slot token p => exact closes_singleton rfl

theorem sum_retires_eq_zero {ws : List SendWr} (h : ∀ v ∈ ws, v.signaled = false) :
    (ws.map SendWr.retires).sum = 0 := by
  refine List.sum_eq_zero fun x hx => ?_
  rcases List.mem_map.mp hx with ⟨v, hv, rfl⟩
  rw [SendWr.retires, h v hv, if_neg Bool.false_ne_true]

/-- The requests of a closed chain retire what the chain counts. -/
theorem Closed.sum_retires (h : c.Closed) : (c.wrs.map SendWr.retires).sum = c.count := by
  rcases h with ⟨before, wr, hw, hs, hb⟩
  have hlast : c.wrs.getLast? = some wr := by rw [hw, List.getLast?_concat]
  rw [hw, List.map_append, List.sum_append, sum_retires_eq_zero hb, Int.zero_add,
    List.map_singleton, List.sum_singleton, SendWr.retires, if_pos hs]
  simp only [Chain.count, hlast]

/-- A chain that is cut off before its end retires nothing. -/
theorem Closed.sum_retires_take (h : c.Closed) {k : Nat} (hk : k < c.wrs.length) :
    ((c.wrs.take k).map SendWr.retires).sum = 0 := by
  rcases h with ⟨before, wr, hw, -, hb⟩
  rw [hw, List.length_append, List.length_singleton] at hk
  refine sum_retires_eq_zero fun v hv => hb v ?_
  rw [hw, List.take_append_of_le_length (by omega)] at hv
  exact List.mem_of_mem_take hv

/-- What an action adds to the outstanding chains was built. -/
def Adds (setup : Setup) (w w' : World) : Prop :=
  ∀ c ∈ w'.nic.outstanding, c ∈ w.nic.outstanding ∨ Built setup c

section Steps

theorem adds_of_perm (h : w'.nic.outstanding.Perm w.nic.outstanding) : Adds setup w w' :=
  fun _ hc => Or.inl (h.mem_iff.mp hc)

theorem adds_of_nic (h : w'.nic = w.nic) : Adds setup w w' := adds_of_perm (by rw [h])

theorem adds_of_post (hb : Built setup c) (h : w'.nic = w.nic.post [c]) : Adds setup w w' := by
  intro v hv
  rw [h] at hv
  rcases List.mem_append.mp ((WorkQueue.outstanding_post w.nic [c]).mem_iff.mp hv) with hv | hv
  · exact Or.inl hv
  · rw [List.mem_singleton.mp hv]
    exact Or.inr hb

theorem adds_pollNic (ne : Nat) (pc : Pc) : Adds setup w { pollNic w ne with pc := pc } := by
  intro v hv
  rw [pollNic_eq] at hv
  exact Or.inl ((WorkQueue.outstanding_poll w.nic (min ne 32)).mem_iff.mpr
    (List.mem_append_right _ hv))

theorem endFill_adds (v : World) (c : Collect) (h : v.nic = w.nic) :
    Adds setup w (endFill setup v c) := by
  unfold endFill
  split <;> exact adds_of_nic h

theorem fillStep_adds (c : Collect) : Adds setup w (fillStep setup w c) := by
  unfold fillStep
  split
  · cases hp : pollFifo setup w with
    | none => exact endFill_adds w c rfl
    | some r =>
        rcases r with ⟨p, w₁⟩
        rcases pollFifo_eq_some hp with ⟨f, -, -, rfl⟩
        dsimp only
        split
        · exact adds_of_nic rfl
        · unfold collectWrite
          split
          · dsimp only
            split
            · exact adds_of_nic rfl
            · split
              · exact adds_of_nic rfl
              · split
                · exact adds_of_nic rfl
                · exact endFill_adds _ c rfl
          · -- Without routing every WRITE joins the batch.
            exact adds_of_nic rfl
        · exact adds_of_nic rfl
  · exact endFill_adds w c rfl

theorem collectStep_nic (setup : Setup) (w : World) : (collectStep setup w).nic = w.nic := by
  unfold collectStep
  split
  · split <;> rfl
  · rfl

theorem forwardStep_adds (i : Nat) (ok : Bool) : Adds setup w (forwardStep setup w i ok) := by
  unfold forwardStep
  split
  · dsimp only
    split
    · exact adds_of_nic rfl
    · split
      · rename_i hc
        split
        · exact adds_of_post (.forward hc) rfl
        · exact adds_of_nic rfl
      · exact adds_of_nic rfl
  · exact adds_of_nic rfl

theorem stageBarrierStep_adds (c : Collect) (p : Nat) (ok : Bool) :
    Adds setup w (stageBarrierStep setup w c p ok) := by
  unfold stageBarrierStep
  split
  · split
    · exact adds_of_post (.barrier 0 w.epoch p) rfl
    · exact adds_of_nic rfl
  · exact adds_of_nic rfl

theorem filterStep_adds (rest kept : List Polled) (qp n : Int) (ok : Bool) :
    Adds setup w (filterStep setup w rest kept qp n ok) := by
  unfold filterStep
  split
  · exact adds_of_nic rfl
  · split
    · split
      · rename_i hc
        split
        · exact adds_of_post (.strided hc) rfl
        · exact adds_of_nic rfl
      · exact adds_of_nic rfl
    · exact adds_of_nic rfl

theorem postStep_adds {batch : List Polled} (hlen : batch.length ≤ BATCH_SIZE) (qp n : Int)
    (ok : Bool) : Adds setup w (postStep setup w batch qp n ok) := by
  unfold postStep
  split
  · exact adds_of_nic rfl
  · rename_i hne
    dsimp only
    split
    · exact adds_of_post (.batch w.epoch w.senderSeq qp hne hlen) rfl
    · exact adds_of_nic rfl

/-- What an action of the proxy adds was built. -/
theorem proxyStep_adds {ok : Bool} {ne : Nat} (hs : SiteBound w.pc)
    (hstep : proxyStep setup w ok ne = some w') : Adds setup w w' := by
  unfold proxyStep at hstep
  cases hpc : w.pc with
  | loop | pauseGate | ackStore | pausedSpin | ackClear | forwardCount | stageCount | account |
    stridedCount | advanceTail =>
      simp only [hpc, Option.some.injEq] at hstep
      rw [← hstep]
      exact adds_of_nic rfl
  | forwardGate =>
      simp only [hpc] at hstep
      split at hstep <;>
        · rw [← Option.some.inj hstep]
          exact adds_of_nic rfl
  | forward i =>
      simp only [hpc, Option.some.injEq] at hstep
      rw [← hstep]
      exact forwardStep_adds i ok
  | collect =>
      simp only [hpc, Option.some.injEq] at hstep
      rw [← hstep]
      exact adds_of_nic (collectStep_nic setup w)
  | fill c =>
      simp only [hpc, Option.some.injEq] at hstep
      rw [← hstep]
      exact fillStep_adds c
  | stageBarrier c p =>
      simp only [hpc, Option.some.injEq] at hstep
      rw [← hstep]
      exact stageBarrierStep_adds c p ok
  | filter rest kept qp n =>
      simp only [hpc, Option.some.injEq] at hstep
      rw [← hstep]
      exact filterStep_adds rest kept qp n ok
  | post batch qp n =>
      rw [hpc] at hs
      simp only [hpc, Option.some.injEq] at hstep
      rw [← hstep]
      exact postStep_adds hs.1 qp n ok
  | pollCq posted =>
      simp only [hpc, Option.some.injEq] at hstep
      rw [← hstep]
      exact adds_pollNic ne _
  | exitDrain =>
      simp only [hpc] at hstep
      -- The drain only takes from what the NIC has.
      split at hstep <;> rw [← Option.some.inj hstep]
      · exact adds_pollNic ne (pollNic w ne).pc
      · exact adds_of_nic rfl
  | exited => simp only [hpc, reduceCtorEq] at hstep

/-- What an action of anybody adds was built. -/
theorem step_adds (hs : SiteBound w.pc) {a : Action} (hstep : step setup w a = some w') :
    Adds setup w w' := by
  cases a with
  | claim cmd | stop | fifoReset | forwardNotify slot n
  | resetForwardNotifyTable | setEpoch epoch =>
      rw [← Option.some.inj hstep]
      exact adds_of_nic rfl
  | publish | host b =>
      rcases Option.map_eq_some_iff.mp hstep with ⟨x, -, rfl⟩
      exact adds_of_nic rfl
  | place i =>
      simp only [step, Option.ite_none_right_eq_some] at hstep
      rcases Option.map_eq_some_iff.mp hstep.2 with ⟨r, hr, rfl⟩
      -- What is placed or completed was outstanding before.
      exact adds_of_perm (WorkQueue.outstanding_place hr)
  | complete i =>
      simp only [step, Option.ite_none_right_eq_some] at hstep
      rcases Option.map_eq_some_iff.mp hstep.2 with ⟨nic, hr, rfl⟩
      exact adds_of_perm (WorkQueue.outstanding_complete hr)
  | hostDrain ne =>
      simp only [step, Option.ite_none_right_eq_some, Option.some.injEq] at hstep
      rw [← hstep.2]
      exact adds_pollNic ne (pollNic w ne).pc
  | hostReset =>
      simp only [step, Option.ite_none_right_eq_some, Option.some.injEq] at hstep
      rw [← hstep.2]
      exact adds_of_nic rfl
  | hostBarrier p slot token =>
      simp only [step, Option.ite_none_right_eq_some, Option.some.injEq] at hstep
      rw [← hstep.2]
      exact adds_of_post (.barrier slot token p) rfl
  | proxy ok ne => exact proxyStep_adds hs hstep

end Steps

/-- Whatever is outstanding was built. -/
theorem built_of_reaches {ok : World → Action → Prop}
    (h : Reaches (step setup) ok (init setup) w) : ∀ c ∈ w.nic.outstanding, Built setup c := by
  -- The batches are bounded wherever a step is taken.
  have hsite : Reaches (step setup) (fun v _ => SiteBound v.pc) (init setup) w :=
    reaches_strengthen (fun _ _ _ hr _ _ => (account_of_reaches hr).site) h
  refine invariant_of_reaches (fun v => ∀ c ∈ v.nic.outstanding, Built setup c) ?_ hsite
    fun _ hc => absurd hc List.not_mem_nil
  intro s a t hs hok hstep c hc
  rcases step_adds hok hstep c hc with hold | hnew
  · exact hs c hold
  · exact hnew

end Cx7

end Internode

end MKernel
