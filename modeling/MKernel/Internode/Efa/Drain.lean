import MKernel.Internode.Efa.Accounting

/-!
# The Drain Before a Stage Barrier

A stage barrier of the EFA proxy comes after every WRITE polled before it.

Two places post one: the gate at the top of the loop, for a notify that was met
behind a batch, and the poll loop, for one met with nothing collected. Either
way the retry buffer and the stash are empty when `drain_cq` starts, so every
polled WRITE is posted; nothing is polled or posted while it runs; and it
returns with the counter at zero. So when the first peer's request is built,
every polled WRITE has been posted and the completion that counts it has been
reaped (`Settled`), and that stays so until the last peer is served.

## Main definitions

* `Notified`: A notify was polled.
* `Settled`: A notify was polled, and every polled WRITE is posted and reaped.
* `DrainInv`: What holds at each place of the drain.

## Theorems

* `settled_of_drained`: When `drain_cq` returns, the history is settled.
* `drain_of_reaches`: Every run posts stage barriers into settled histories.
* `barrier_after_writes`: The statement about each stage-barrier post.
-/

namespace MKernel

namespace Internode

namespace Efa

open MKernel.Core

variable {setup : Setup} {w w' : World} {h l : List Event}

/-- A notify was polled. -/
def Notified (h : List Event) : Prop := ∃ n ∈ polledOf h, n.cmd.cmdType = .barrierNotify

/-- A notify was polled, and every polled WRITE is posted and its counting
    completion reaped. -/
def Settled (h : List Event) : Prop :=
  Notified h ∧ ∀ p ∈ writesPolled h, p ∈ postedOf h ∧ ∃ wr ∈ reapedOf h, Counts wr p

/-- What the history says at each place of the drain. -/
def SiteDrained (pc : Pc) (h : List Event) : Prop :=
  match pc with
  | .drainCq _ => Notified h
  | .stageBarrier _ _ => Settled h
  | .stageCount _ _ => Settled h
  | _ => True

/-- A stage-barrier write goes out into a settled history. -/
def AfterWrites (before : List Event) (e : Event) : Prop :=
  ∀ peer token, e = .stageBarrier peer token → Settled before

/-- The invariant of the drain. -/
structure DrainInv (w : World) : Prop where
  flagged : w.hasPendingBarrier = true → Notified w.hist
  site : SiteDrained w.pc w.hist
  along : Along AfterWrites w.hist

theorem Notified.append (hn : Notified h) : Notified (h ++ l) := by
  rcases hn with ⟨n, hm, ht⟩
  exact ⟨n, by rw [polledOf_append]; exact List.mem_append_left _ hm, ht⟩

theorem notified_polled {p : Polled} (hp : p.cmd.cmdType = .barrierNotify) :
    Notified (h ++ [Event.polled p]) := by
  refine ⟨p, ?_, hp⟩
  rw [polledOf_append]
  exact List.mem_append_right _ (List.mem_singleton_self p)

/-- Events that poll nothing leave a settled history settled. -/
theorem Settled.append (hs : Settled h) (hl : polledOf l = []) : Settled (h ++ l) := by
  refine ⟨hs.1.append, fun p hp => ?_⟩
  -- No new WRITE is asked about, and the old ones stay posted and reaped.
  have hnil : writesPolled l = [] := by rw [writesPolled, hl, List.filter_nil]
  rw [writesPolled_append, hnil, List.append_nil] at hp
  rcases hs.2 p hp with ⟨hposted, wr, hm, hc⟩
  refine ⟨by rw [postedOf_append]; exact List.mem_append_left _ hposted, wr, ?_, hc⟩
  rw [reapedOf_append]
  exact List.mem_append_left _ hm

theorem drain_init : DrainInv (init setup) where
  flagged := by
    intro hf
    exact absurd hf (by simp only [init, Bool.false_eq_true, not_false_eq_true])
  site := trivial
  along := along_nil

/-- Steps whose events are no stage barriers. -/
theorem DrainInv.of_append (hd : DrainInv w) {l : List Event} (hhist : w'.hist = w.hist ++ l)
    (hes : ∀ e ∈ l, ∀ peer token, e ≠ .stageBarrier peer token)
    (hflag : w'.hasPendingBarrier = true → Notified w'.hist)
    (hsite : SiteDrained w'.pc w'.hist) : DrainInv w' := by
  refine ⟨hflag, hsite, ?_⟩
  rw [hhist]
  refine along_append hd.along (fun before e after hs peer token he => ?_)
  exact absurd he (hes e (by rw [hs]; exact List.mem_append_right _ List.mem_cons_self) peer token)

/-- Steps without events, to a place that asks nothing of the history. -/
theorem DrainInv.of_same (hd : DrainInv w) (hhist : w'.hist = w.hist)
    (hflag : w'.hasPendingBarrier = true → w.hasPendingBarrier = true)
    (hsite : SiteDrained w'.pc w.hist) : DrainInv w' := by
  refine hd.of_append (l := []) (by rw [hhist, List.append_nil]) ?_ ?_ (by rw [hhist]; exact hsite)
  · intro e he
    exact absurd he List.not_mem_nil
  · intro hf
    rw [hhist]
    exact hd.flagged (hflag hf)

/-- When `drain_cq` returns, every polled WRITE is posted and counted. -/
theorem settled_of_drained (ho : OrderInv setup w) (ha : AccountInv w) (hd : DrainInv w)
    {site : BarrierSite} (hpc : w.pc = .drainCq site) (hle : ¬ 0 < w.inflight) :
    Settled w.hist := by
  have hsite := ho.site
  have hn := hd.site
  rw [hpc] at hsite hn
  -- While `drain_cq` runs, the stash and the retry buffer are empty.
  have hheld : held w = [] := by
    rw [held, hpc, hsite.2]
    exact List.append_eq_nil_iff.mpr ⟨hsite.1, rfl⟩
  have hsplit : writesPolled w.hist = postedOf w.hist := by
    rw [ho.split, hheld, List.append_nil]
  refine ⟨hn, fun p hp => ?_⟩
  rw [hsplit] at hp
  exact ⟨hp, ha.reaped_of_drained (by rw [hpc]; rfl) (Int.not_lt.mp hle) p hp⟩

theorem Closes.drained {c : Collect} {cmd : Option Polled} {pc : Pc} (hc : Closes c cmd pc) :
    SiteDrained pc h := by
  rcases hc with rfl | ⟨rfl, -⟩ <;> trivial

/-- A turn of the loops of step 1 raises the flag, or starts a drain, only for
    a notify it has polled. -/
theorem turn_drain (hd : DrainInv w) {c : Collect} (ht : Turn setup w c w') : DrainInv w' := by
  have hpoll : ∀ {p : Polled} {w₁ : World}, pollFifo setup w = some (p, w₁) →
      w₁.hist = w.hist ++ [Event.polled p] ∧ (w₁.hasPendingBarrier = true → Notified w₁.hist) := by
    intro p w₁ hp
    rcases pollFifo_eq_some hp with ⟨f, -, -, -, rfl⟩
    exact ⟨rfl, fun hf => (hd.flagged hf).append⟩
  -- A poll is no stage barrier.
  have hev : ∀ (p : Polled), ∀ e ∈ [Event.polled p], ∀ peer token,
      e ≠ .stageBarrier peer token := by
    intro p e he peer token
    rw [List.mem_singleton.mp he]
    simp only [ne_eq, reduceCtorEq, not_false_eq_true]
  cases ht with
  | close head pc hcl => exact hd.of_same rfl id hcl.drained
  | miss spin misses hw => exact hd.of_same rfl id trivial
  | ignored p w₁ pc hp hw hn hpc =>
      rcases hpoll hp with ⟨h1, h2⟩
      refine hd.of_append h1 (hev p) h2 ?_
      rcases hpc with ⟨-, rfl⟩ | ⟨-, s, m, rfl⟩ <;> trivial
  | inlineNotify p w₁ hp hn hw hb hlt =>
      rcases hpoll hp with ⟨h1, h2⟩
      refine hd.of_append h1 (hev p) h2 ?_
      dsimp only
      rw [h1]
      exact notified_polled hn
  | flagNotify p w₁ head pc hp hn hb hcl =>
      rcases hpoll hp with ⟨h1, -⟩
      refine hd.of_append h1 (hev p) (fun _ => ?_) hcl.drained
      dsimp only
      rw [h1]
      exact notified_polled hn
  | first p w₁ hp hwr hw hb hlt =>
      rcases hpoll hp with ⟨h1, h2⟩
      exact hd.of_append h1 (hev p) h2 trivial
  | join p w₁ pc hp hwr ha hpc =>
      rcases hpoll hp with ⟨h1, h2⟩
      refine hd.of_append h1 (hev p) h2 ?_
      rcases hpc with ⟨-, rfl⟩ | ⟨-, s, m, rfl⟩ <;> trivial
  | stash p w₁ head hp hwr hb =>
      rcases hpoll hp with ⟨h1, h2⟩
      exact hd.of_append h1 (hev p) h2 trivial

/-- The loop over peers posts into the settled history it started with. -/
theorem stageBarrierStep_drain (hd : DrainInv w) {site : BarrierSite} {p : Nat}
    (hpc : w.pc = .stageBarrier site p) (ok : Bool) :
    DrainInv (stageBarrierStep setup w site p ok) := by
  have hs : Settled w.hist := by
    have hsite := hd.site
    rw [hpc] at hsite
    exact hsite
  unfold stageBarrierStep
  split
  · dsimp only
    split
    · exact hd.of_same rfl id hs
    · split
      · refine ⟨fun hf => (hd.flagged hf).append, hs.append rfl, ?_⟩
        -- The one new event is the barrier, and what came before it is settled.
        exact along_concat.mpr ⟨hd.along, fun _ _ _ => hs⟩
      · exact hd.of_same rfl id hs
  · refine hd.of_same rfl id ?_
    cases site <;> trivial

theorem drainReap_drain (hd : DrainInv w) (ne : Nat)
    (hpc : SiteDrained w.pc (pollNic drainReap w ne).hist) : DrainInv (pollNic drainReap w ne) := by
  rw [pollNic_drainReap] at hpc ⊢
  refine hd.of_append rfl ?_ (fun hf => (hd.flagged hf).append) hpc
  intro e he peer token
  rcases List.mem_map.mp he with ⟨wr, -, rfl⟩
  simp only [ne_eq, reduceCtorEq, not_false_eq_true]

/-- One action of the proxy thread keeps the invariant. -/
theorem proxyStep_drain (ho : OrderInv setup w) (ha : AccountInv w) (hd : DrainInv w) {ok : Bool}
    {ne : Nat} (hstep : proxyStep setup w ok ne = some w') : DrainInv w' := by
  unfold proxyStep at hstep
  cases hpc : w.pc with
  | loop | pauseGate | pausedSpin =>
      simp only [hpc, Option.some.injEq] at hstep
      rw [← hstep]
      refine hd.of_same rfl id ?_
      dsimp only
      split <;> trivial
  | ackStore | ackClear | account c | advanceTail =>
      simp only [hpc, Option.some.injEq] at hstep
      rw [← hstep]
      exact hd.of_same rfl id trivial
  | barrierGate =>
      simp only [hpc] at hstep
      split at hstep <;> rw [← Option.some.inj hstep]
      · rename_i hf
        -- The flag was raised for a notify, and lowering it asks for nothing.
        refine hd.of_same rfl (fun hc => ?_) (hd.flagged hf.1)
        exact absurd hc (by simp only [Bool.false_eq_true, not_false_eq_true])
      · exact hd.of_same rfl id trivial
  | drainCq site =>
      have hn : Notified w.hist := by
        have hsite := hd.site
        rw [hpc] at hsite
        exact hsite
      simp only [hpc] at hstep
      split at hstep <;> rw [← Option.some.inj hstep]
      · refine drainReap_drain hd ne ?_
        rw [pollNic_drainReap, hpc]
        exact hn.append
      · -- The loop of `drain_cq` ends with nothing in flight.
        rename_i hle
        exact hd.of_same rfl id (settled_of_drained ho ha hd hpc hle)
  | stageBarrier site p =>
      simp only [hpc, Option.some.injEq] at hstep
      rw [← hstep]
      exact stageBarrierStep_drain hd hpc ok
  | stageCount site p =>
      have hs : Settled w.hist := by
        have hsite := hd.site
        rw [hpc] at hsite
        exact hsite
      simp only [hpc, Option.some.injEq] at hstep
      rw [← hstep]
      exact hd.of_same rfl id hs
  | collect =>
      simp only [hpc, Option.some.injEq] at hstep
      have hb := collectStep_begin setup w
      rw [hstep] at hb
      cases hb <;> exact hd.of_same rfl id trivial
  | fill c =>
      simp only [hpc, Option.some.injEq] at hstep
      rw [← hstep]
      exact turn_drain hd (fillStep_turn hpc)
  | accumulate c spin misses =>
      simp only [hpc, Option.some.injEq] at hstep
      rw [← hstep]
      exact turn_drain hd (accumulateStep_turn hpc)
  | post c =>
      simp only [hpc, Option.some.injEq] at hstep
      rw [← hstep]
      unfold postStep
      split
      · exact hd.of_same rfl id trivial
      · dsimp only
        split
        · refine hd.of_append rfl ?_ (fun hf => (hd.flagged hf).append) trivial
          intro e he peer token
          rw [List.mem_singleton.mp he]
          simp only [ne_eq, reduceCtorEq, not_false_eq_true]
        · exact hd.of_same rfl id trivial
  | pollCq posted =>
      simp only [hpc, Option.some.injEq] at hstep
      rcases pollNic_reap setup w ne with ⟨es, arrival, hw, -, hes, -⟩
      rw [← hstep, hw]
      refine hd.of_append rfl ?_ (fun hf => (hd.flagged hf).append) ?_
      · intro e he peer token
        rcases hes e he with ⟨wr, rfl⟩ | ⟨r, rfl, -⟩ <;>
          simp only [ne_eq, reduceCtorEq, not_false_eq_true]
      · dsimp only
        split <;> trivial
  | exitDrain =>
      simp only [hpc] at hstep
      split at hstep <;> rw [← Option.some.inj hstep]
      · refine drainReap_drain hd ne ?_
        rw [hpc]
        trivial
      · exact hd.of_same rfl id trivial
  | exited => simp only [hpc, reduceCtorEq] at hstep

/-- One action of anybody keeps the invariant. -/
theorem step_drain (ho : OrderInv setup w) (ha : AccountInv w) (hg : Handshake.Inv (toHandshake w))
    (hd : DrainInv w) {a : Action} (hstep : step setup w a = some w') : DrainInv w' := by
  cases a with
  | claim k cmd | stop | setEpoch epoch | fifoReset k =>
      rw [← Option.some.inj hstep]
      exact ⟨hd.flagged, hd.site, hd.along⟩
  | publish k | place i | complete i | host b =>
      rcases Option.map_eq_some_iff.mp hstep with ⟨x, -, rfl⟩
      exact ⟨hd.flagged, hd.site, hd.along⟩
  | recv r =>
      simp only [step, Option.ite_none_right_eq_some, Option.some.injEq] at hstep
      rw [← hstep.2]
      exact ⟨hd.flagged, hd.site, hd.along⟩
  | hostDrain ne =>
      simp only [step, Option.ite_none_right_eq_some, Option.some.injEq] at hstep
      rcases hstep with ⟨⟨hs, -⟩, rfl⟩
      refine drainReap_drain hd ne ?_
      -- The host reaps only while the thread spins.
      rw [spin_of_stopped hg hs]
      trivial
  | hostReset =>
      simp only [step, Option.ite_none_right_eq_some, Option.some.injEq] at hstep
      rw [← hstep.2]
      refine hd.of_same rfl (fun hc => ?_) hd.site
      exact absurd hc (by simp only [Bool.false_eq_true, not_false_eq_true])
  | hostBarrier p slot token ok =>
      simp only [step, Option.ite_none_right_eq_some, Option.some.injEq] at hstep
      rcases hstep with ⟨⟨hs, -⟩, rfl⟩
      cases ok with
      | true =>
          refine hd.of_append rfl ?_ (fun hf => (hd.flagged hf).append) ?_
          · -- It stages no barrier of a command.
            intro e he peer token
            rw [List.mem_singleton.mp he]
            simp only [ne_eq, reduceCtorEq, not_false_eq_true]
          · simp only [hostBarrierStep, if_true]
            rw [spin_of_stopped hg hs]
            trivial
      | false => exact hd.of_same rfl (fun hf => hf) hd.site
  | proxy ok ne => exact proxyStep_drain ho ha hd hstep

theorem drain_of_reaches {ok : World → Action → Prop}
    (h : Reaches (step setup) ok (init setup) w) : DrainInv w := by
  have hall : (OrderInv setup w ∧ AccountInv w ∧ Handshake.Inv (toHandshake w)) ∧ DrainInv w := by
    refine invariant_of_reaches
      (fun w => (OrderInv setup w ∧ AccountInv w ∧ Handshake.Inv (toHandshake w)) ∧ DrainInv w)
      ?_ h ⟨⟨order_init, account_init, Handshake.inv_init⟩, drain_init⟩
    rintro s a t ⟨⟨ho, ha, hg⟩, hd⟩ - hstep
    exact ⟨⟨step_order ho hstep, step_account ha hg hstep, follows_handshake.step_inv hg hstep⟩,
      step_drain ho ha hg hd hstep⟩
  exact hall.2

/-- In every run, each stage-barrier write goes out after a notify was polled,
    and every WRITE polled before it, from whichever FIFO, has by then been
    posted and its completion with `wr_id` 1 reaped. -/
theorem barrier_after_writes (hr : Reaches (step setup) always (init setup) w)
    {before after : List Event} {peer : Nat} {token : BitVec 32}
    (hsplit : w.hist = before ++ .stageBarrier peer token :: after) :
    (∃ n ∈ polledOf before, n.cmd.cmdType = .barrierNotify) ∧
    ∀ p ∈ writesPolled before, p ∈ postedOf before ∧
      ∃ wr ∈ reapedOf before, wr.wrId = 1 ∧ wr.role.cmd? = some p :=
  (drain_of_reaches hr).along before _ after hsplit peer token rfl

section Sample

/-- A WRITE and a notify, and a peer that confirms the WRITE. -/
def notifiedRun : List Action :=
  pushes 0 [writeCmd 0 0, notifyCmd] ++ goes 22 ++ [Action.place 0, .complete 0] ++ goes 3

def notified : World :=
  (run (step writeImmSetup) always notifiedRun (init writeImmSetup)).get (by decide)

/-- The WRITE is posted and reaped before the stage barrier. -/
theorem barrier_after_writes_notified :
    ∃ p ∈ writesPolled (notified.hist.take 4), p ∈ postedOf (notified.hist.take 4) :=
  have ⟨p, hp⟩ := List.exists_mem_of_ne_nil (writesPolled (notified.hist.take 4)) (by decide)
  ⟨p, hp, ((barrier_after_writes (w := notified)
    (reaches_of_run notifiedRun _ _ (Option.some_get _).symm) (by decide :
      notified.hist = notified.hist.take 4 ++ Event.stageBarrier 0 1 :: [])).2 p hp).1⟩

end Sample

end Efa

end Internode

end MKernel
