import MKernel.Internode.Efa.Gate

/-!
# Stage Barriers Owed

How many stage barriers the EFA proxy posts for the notifies it polls.

A notify that is met behind a batch is remembered in one flag, and one that is
met with nothing collected is served on the spot. Either way one loop over the
peers serves it. So the number of notifies polled is the number of stage barriers
posted to a peer plus what is `owed` to it: one for the flag, and one for a loop
over the peers that has not come to the peer.

The count goes wrong where a notify is polled with the flag already set, since
two notifies then share a flag; where a call that posts a stage barrier fails;
and where the host starts an epoch and forgets the flag. `NotifyCounted` excludes
just these.

## Main definitions

* `notifies`, `barriersTo`: The notifies polled, the barriers posted to a peer.
* `Addressed`: A peer that stage barriers are posted to.
* `owed`: The barriers still to be posted to a peer.
* `NotifyCounted`: The condition on a run.
* `Pays`: What a step adds to the history, and to what is owed.

## Theorems

* `proxyStep_pays`, `step_pays`: No step loses a notify.
* `notifies_eq`: Runs under the condition keep the count.
-/

namespace MKernel

namespace Internode

namespace Efa

open MKernel.Core

variable {setup : Setup} {w w' : World} {h l : List Event} {q : Nat}

/-- A notify is polled. -/
def Event.isNotify : Event → Bool
  | .polled p => p.cmd.cmdType = .barrierNotify
  | _ => false

/-- The stage barrier of a notify is posted to peer `q`. -/
def Event.isBarrierTo (q : Nat) : Event → Bool
  | .stageBarrier p _ => p = q
  | _ => false

/-- The number of notifies polled. -/
def notifies (h : List Event) : Nat := h.countP Event.isNotify

/-- The number of stage barriers posted to peer `q`. -/
def barriersTo (q : Nat) (h : List Event) : Nat := h.countP (Event.isBarrierTo q)

@[simp] theorem notifies_append (h l : List Event) :
    notifies (h ++ l) = notifies h + notifies l :=
  List.countP_append

@[simp] theorem barriersTo_append (q : Nat) (h l : List Event) :
    barriersTo q (h ++ l) = barriersTo q h + barriersTo q l :=
  List.countP_append

/-- A peer that stage barriers are posted to. -/
def Addressed (setup : Setup) (q : Nat) : Prop :=
  q < setup.cfg.numPeers ∧ (setup.cfg.perPeer q).remoteBarrierAddr ≠ 0

instance (setup : Setup) (q : Nat) : Decidable (Addressed setup q) := by
  unfold Addressed
  infer_instance

/-- What the loop over peers has still to post to peer `q`. -/
def Pc.owed (q : Nat) : Pc → Nat
  | .drainCq _ => 1
  -- The loop runs over the peers in order, so it owes those from `p` on.
  | .stageBarrier _ p => if p ≤ q then 1 else 0
  | .stageCount _ p => if p < q then 1 else 0
  | _ => 0

/-- The stage barriers still to be posted to peer `q`. -/
def owed (q : Nat) (w : World) : Nat := (if w.hasPendingBarrier then 1 else 0) + w.pc.owed q

/-- The proxy is at a place that polls a FIFO next. -/
def Polls (setup : Setup) (w : World) : Prop :=
  match w.pc with
  | .fill c => c.batch.length < batchCap setup ∧
      c.preInflight + c.batch.length < setup.effectiveMaxInflight
  | .accumulate c spin misses => Spins setup c spin misses
  | _ => False

instance (setup : Setup) (w : World) : Decidable (Polls setup w) := by
  unfold Polls
  generalize w.pc = pc
  apply @Pc.casesOn _ pc <;> intros <;> infer_instance

/-- The condition on a run: no notify is polled with the flag set; the calls
    that post stage barriers succeed; and the host starts no epoch over a notify
    that is still flagged. -/
def NotifyCounted (setup : Setup) (w : World) : Action → Prop
  | .proxy ok _ =>
      (w.hasPendingBarrier = true → Polls setup w →
        ∀ r ∈ pollFifo setup w, r.1.cmd.cmdType ≠ .barrierNotify) ∧
      match w.pc with
      | .stageBarrier _ p => Addressed setup p → ok = true
      | _ => True
  | .hostReset => w.hasPendingBarrier = false
  | _ => True

instance (setup : Setup) (w : World) (a : Action) : Decidable (NotifyCounted setup w a) := by
  unfold NotifyCounted
  generalize w.pc = pc
  apply @Action.casesOn _ a
  case proxy => exact fun _ _ => by apply @Pc.casesOn _ pc <;> intros <;> infer_instance
  all_goals intros; infer_instance

/-- An event that is no poll, no post and no stage barrier. -/
def Event.Silent (e : Event) : Prop :=
  e.polled? = none ∧ e.batch = [] ∧ ∀ q, e.isBarrierTo q = false

theorem Event.Silent.notNotify {e : Event} (h : e.Silent) : e.isNotify = false := by
  -- A notify is polled, and nothing polled is silent.
  cases e with
  | polled p => exact absurd h.1 (by simp only [Event.polled?, reduceCtorEq, not_false_eq_true])
  | _ => rfl

theorem notifies_silent {es : List Event} (h : ∀ e ∈ es, e.Silent) : notifies es = 0 :=
  List.countP_eq_zero.mpr fun e he => by
    rw [(h e he).notNotify]
    exact Bool.false_ne_true

theorem barriersTo_silent {es : List Event} (h : ∀ e ∈ es, e.Silent) : barriersTo q es = 0 :=
  List.countP_eq_zero.mpr fun e he => by
    rw [(h e he).2.2 q]
    exact Bool.false_ne_true

theorem silent_reaped (wrs : List WorkRequest) : ∀ e ∈ wrs.map Event.reaped, e.Silent := by
  intro e he
  rcases List.mem_map.mp he with ⟨wr, _, rfl⟩
  exact ⟨rfl, rfl, fun _ => rfl⟩

/-- A step adds some events to the history, and what is owed afterwards is what
    was owed, with the notifies among them and without the barriers. -/
def Pays (setup : Setup) (w w' : World) : Prop :=
  ∃ l, w'.hist = w.hist ++ l ∧
    ∀ q, Addressed setup q → notifies l + owed q w = barriersTo q l + owed q w'

/-- A step whose events are silent owes what was owed. -/
theorem Pays.of_silent (hhist : w'.hist = w.hist ++ l) (hes : ∀ e ∈ l, e.Silent)
    (howed : ∀ q, Addressed setup q → owed q w' = owed q w) : Pays setup w w' := by
  refine ⟨l, hhist, fun q hq => ?_⟩
  rw [notifies_silent hes, barriersTo_silent hes, howed q hq]

/-- A step without events that keeps the flag. -/
theorem Pays.of_same (hhist : w'.hist = w.hist)
    (hflag : w'.hasPendingBarrier = w.hasPendingBarrier)
    (howed : ∀ q, Addressed setup q → w'.pc.owed q = w.pc.owed q) : Pays setup w w' := by
  refine .of_silent (l := []) (by rw [hhist, List.append_nil]) (by simp) fun q hq => ?_
  rw [owed, owed, hflag, howed q hq]

/-- A poll is owed a barrier from now on if it returns a notify. -/
theorem Pays.of_polled {p : Polled} (hhist : w'.hist = w.hist ++ [Event.polled p])
    (howed : ∀ q, owed q w' = owed q w + if p.cmd.cmdType = .barrierNotify then 1 else 0) :
    Pays setup w w' := by
  refine ⟨[.polled p], hhist, fun q _ => ?_⟩
  have hn : notifies [Event.polled p] = if p.cmd.cmdType = .barrierNotify then 1 else 0 := by
    simp only [notifies, List.countP_cons, List.countP_nil, Event.isNotify, decide_eq_true_eq,
      Nat.zero_add]
  have hb : barriersTo q [Event.polled p] = 0 := rfl
  rw [hn, hb, howed q]
  omega

theorem Closes.owed {c : Collect} {cmd : Option Polled} {pc : Pc} (hc : Closes c cmd pc)
    (q : Nat) : pc.owed q = 0 := by
  rcases hc with rfl | ⟨rfl, -⟩ <;> rfl

/-- What a poll adds to the history, and that it leaves the flag alone. -/
theorem pollFifo_flag {p : Polled} {w₁ : World} (hp : pollFifo setup w = some (p, w₁)) :
    w₁.hist = w.hist ++ [Event.polled p] ∧ w₁.hasPendingBarrier = w.hasPendingBarrier := by
  rcases pollFifo_eq_some hp with ⟨f, -, -, -, rfl⟩
  exact ⟨rfl, rfl⟩

/-- One turn of the loops of step 1, when a notify is polled only with the flag
    clear. -/
theorem turn_pays {c : Collect} (howed : ∀ q, w.pc.owed q = 0)
    (hnext : w.hasPendingBarrier = true → ∀ r ∈ pollFifo setup w, r.1.cmd.cmdType ≠ .barrierNotify)
    (ht : Turn setup w c w') : Pays setup w w' := by
  -- A poll of anything but a notify, to a place that owes nothing.
  have hother : ∀ {p : Polled} {w₁ : World} (w' : World), pollFifo setup w = some (p, w₁) →
      w'.hist = w₁.hist → w'.hasPendingBarrier = w₁.hasPendingBarrier →
      (∀ q, w'.pc.owed q = 0) → p.cmd.cmdType ≠ .barrierNotify → Pays setup w w' := by
    intro p w₁ w' hp hhist hflag hpc hn
    rcases pollFifo_flag hp with ⟨h1, h2⟩
    refine .of_polled (hhist.trans h1) fun q => ?_
    rw [if_neg hn, owed, owed, hflag, h2, hpc, howed, Nat.add_zero]
  have hwrite : ∀ {p : Polled}, p.cmd.cmdType = .write → p.cmd.cmdType ≠ .barrierNotify := by
    intro p hp
    rw [hp]
    decide
  cases ht with
  | close head pc hcl => exact .of_same rfl rfl fun q _ => (hcl.owed q).trans (howed q).symm
  | miss spin misses hw => exact .of_same rfl rfl fun q _ => (howed q).symm
  | ignored p w₁ pc hp hw hn hpc =>
      refine hother _ hp rfl rfl (fun q => ?_) hn
      rcases hpc with ⟨-, rfl⟩ | ⟨-, s, m, rfl⟩ <;> rfl
  | inlineNotify p w₁ hp hn hw hb hlt =>
      rcases pollFifo_flag hp with ⟨h1, h2⟩
      refine .of_polled h1 fun q => ?_
      -- The drain that begins owes the barrier of the notify just polled.
      rw [owed, owed, h2, howed q, if_pos hn, Nat.add_zero]
      rfl
  | flagNotify p w₁ head pc hp hn hb hcl =>
      rcases pollFifo_flag hp with ⟨h1, -⟩
      -- With the flag set no notify is polled: one flag cannot owe two barriers.
      have hf : w.hasPendingBarrier = false := by
        cases hf : w.hasPendingBarrier with
        | false => rfl
        | true => exact absurd hn (hnext hf (p, w₁) hp)
      refine .of_polled h1 fun q => ?_
      rw [owed, owed, hf, howed q, hcl.owed q, if_pos hn]
      rfl
  | first p w₁ hp hwr hw hb hlt => exact hother _ hp rfl rfl (fun _ => rfl) (hwrite hwr)
  | join p w₁ pc hp hwr ha hpc =>
      refine hother _ hp rfl rfl (fun q => ?_) (hwrite hwr)
      rcases hpc with ⟨-, rfl⟩ | ⟨-, s, m, rfl⟩ <;> rfl
  | stash p w₁ head hp hwr hb => exact hother _ hp rfl rfl (fun _ => rfl) (hwrite hwr)

/-- The loop over peers pays what it owes. -/
theorem stageBarrierStep_pays {site : BarrierSite} {p : Nat} (hpc : w.pc = .stageBarrier site p)
    {ok : Bool} (hok : Addressed setup p → ok = true) :
    Pays setup w (stageBarrierStep setup w site p ok) := by
  unfold stageBarrierStep
  split
  · rename_i hlt
    dsimp only
    split
    · rename_i haddr
      refine .of_same rfl rfl fun q hq => ?_
      -- A peer without an address is owed nothing.
      have hne : q ≠ p := fun he => hq.2 (he ▸ haddr)
      rw [hpc]
      simp only [Pc.owed]
      split <;> split <;> omega
    · rename_i haddr
      rw [if_pos (hok ⟨hlt, haddr⟩)]
      refine ⟨[.stageBarrier p w.epoch], rfl, fun q _ => ?_⟩
      have hn : notifies [Event.stageBarrier p w.epoch] = 0 := rfl
      have hb : barriersTo q [Event.stageBarrier p w.epoch] = if p = q then 1 else 0 := by
        simp only [barriersTo, List.countP_cons, List.countP_nil, Event.isBarrierTo,
          decide_eq_true_eq, Nat.zero_add]
      -- What the loop owed is what it posts now and what it owes from the next peer on.
      have hpaid : (if p ≤ q then 1 else 0) =
          (if p = q then 1 else 0) + if p < q then 1 else 0 := by
        split <;> split <;> split <;> omega
      rw [hn, hb, owed, owed, hpc]
      simp only [Pc.owed, hpaid]
      omega
  · rename_i hge
    refine .of_same rfl rfl fun q hq => ?_
    -- All peers are behind the loop.
    have hlt := hq.1
    rw [hpc]
    simp only [Pc.owed]
    rw [if_neg (by omega)]
    cases site <;> rfl

theorem drainReap_pays (ne : Nat) : Pays setup w (pollNic drainReap w ne) := by
  rw [pollNic_drainReap]
  exact .of_silent rfl (silent_reaped _) fun _ _ => rfl

/-- One action of the proxy thread loses no notify. -/
theorem proxyStep_pays {ok : Bool} {ne : Nat} (hok : NotifyCounted setup w (.proxy ok ne))
    (hstep : proxyStep setup w ok ne = some w') : Pays setup w w' := by
  unfold proxyStep at hstep
  cases hpc : w.pc with
  | loop | pauseGate | pausedSpin =>
      simp only [hpc, Option.some.injEq] at hstep
      rw [← hstep]
      refine .of_same rfl rfl fun q _ => ?_
      rw [hpc]
      dsimp only
      split <;> rfl
  | ackStore | ackClear | advanceTail | account c =>
      simp only [hpc, Option.some.injEq] at hstep
      rw [← hstep]
      exact .of_same rfl rfl fun q _ => by rw [hpc]; rfl
  | barrierGate =>
      simp only [hpc] at hstep
      split at hstep <;> rename_i hgate <;> rw [← Option.some.inj hstep]
      · -- The loop over peers takes over what the flag owed.
        refine .of_silent (l := []) (List.append_nil _).symm (by simp) fun q _ => ?_
        rw [owed, owed, hpc, hgate.1]
        rfl
      · exact .of_same rfl rfl fun q _ => by rw [hpc]; rfl
  | drainCq site =>
      simp only [hpc] at hstep
      split at hstep <;> rw [← Option.some.inj hstep]
      · exact drainReap_pays ne
      · refine .of_same rfl rfl fun q _ => ?_
        rw [hpc]
        simp only [Pc.owed, Nat.zero_le, if_true]
  | stageBarrier site p =>
      simp only [NotifyCounted, hpc] at hok
      simp only [hpc, Option.some.injEq] at hstep
      rw [← hstep]
      exact stageBarrierStep_pays hpc hok.2
  | stageCount site p =>
      simp only [hpc, Option.some.injEq] at hstep
      rw [← hstep]
      exact .of_same rfl rfl fun q _ => by rw [hpc]; rfl
  | collect =>
      simp only [hpc, Option.some.injEq] at hstep
      have hb := collectStep_begin setup w
      rw [hstep] at hb
      cases hb <;> exact .of_same rfl rfl fun q _ => by rw [hpc]; rfl
  | fill c =>
      have hpolls : (c.batch.length < batchCap setup ∧
          c.preInflight + c.batch.length < setup.effectiveMaxInflight) → Polls setup w :=
        fun hc => by
        rw [Polls, hpc]
        exact hc
      simp only [hpc, Option.some.injEq] at hstep
      rw [← hstep]
      by_cases hc : c.batch.length < batchCap setup ∧
          c.preInflight + c.batch.length < setup.effectiveMaxInflight
      · exact turn_pays (by rw [hpc]; exact fun _ => rfl) (fun hf => hok.1 hf (hpolls hc))
          (fillStep_turn hpc)
      · -- Nothing is polled, so the condition is not needed.
        rw [fillStep, if_neg hc]
        rcases endFill_eq setup w c with ⟨head, pc, heq, hcl⟩
        rw [heq]
        exact .of_same rfl rfl fun q _ => by rw [hpc]; exact hcl.owed q
  | accumulate c spin misses =>
      simp only [hpc, Option.some.injEq] at hstep
      rw [← hstep]
      by_cases hc : Spins setup c spin misses
      · have hpolls : Polls setup w := by
          rw [Polls, hpc]
          exact hc
        exact turn_pays (by rw [hpc]; exact fun _ => rfl) (fun hf => hok.1 hf hpolls)
          (accumulateStep_turn hpc)
      · rw [accumulateStep, if_neg hc]
        rcases endAccumulate_eq setup w c with ⟨head, heq⟩
        rw [heq]
        exact .of_same rfl rfl fun q _ => by rw [hpc]; rfl
  | post c =>
      simp only [hpc, Option.some.injEq] at hstep
      rw [← hstep]
      unfold postStep
      split
      · exact .of_same rfl rfl fun q _ => by rw [hpc]; rfl
      · dsimp only
        split
        · refine ⟨_, rfl, fun q _ => ?_⟩
          rw [owed, owed, hpc]
          rfl
        · exact .of_same rfl rfl fun q _ => by rw [hpc]; rfl
  | pollCq posted =>
      simp only [hpc, Option.some.injEq] at hstep
      rcases pollNic_reap setup w ne with ⟨es, arrival, hw, -, hes, -⟩
      rw [← hstep, hw]
      refine .of_silent rfl (fun e he => ?_) fun q _ => ?_
      · rcases hes e he with ⟨wr, rfl⟩ | ⟨r, rfl, -⟩ <;> exact ⟨rfl, rfl, fun _ => rfl⟩
      · rw [owed, owed, hpc]
        cases posted <;> rfl
  | exitDrain =>
      simp only [hpc] at hstep
      split at hstep <;> rw [← Option.some.inj hstep]
      · exact drainReap_pays ne
      · exact .of_same rfl rfl fun q _ => by rw [hpc]; rfl
  | exited => simp only [hpc, reduceCtorEq] at hstep

/-- One action of anybody loses no notify. -/
theorem step_pays {a : Action} (hok : NotifyCounted setup w a) (hstep : step setup w a = some w') :
    Pays setup w w' := by
  cases a with
  | claim k cmd | stop | setEpoch epoch | fifoReset k =>
      rw [← Option.some.inj hstep]
      exact .of_same rfl rfl fun _ _ => rfl
  | publish k | place i | complete i | host b =>
      rcases Option.map_eq_some_iff.mp hstep with ⟨x, -, rfl⟩
      exact .of_same rfl rfl fun _ _ => rfl
  | recv r =>
      simp only [step, Option.ite_none_right_eq_some, Option.some.injEq] at hstep
      rw [← hstep.2]
      exact .of_same rfl rfl fun _ _ => rfl
  | hostDrain ne =>
      simp only [step, Option.ite_none_right_eq_some, Option.some.injEq] at hstep
      rw [← hstep.2]
      exact drainReap_pays ne
  | hostReset =>
      simp only [step, Option.ite_none_right_eq_some, Option.some.injEq] at hstep
      rw [← hstep.2]
      -- The host clears no flag, by the condition.
      exact .of_same rfl hok.symm fun _ _ => rfl
  | hostBarrier p slot token ok =>
      simp only [step, Option.ite_none_right_eq_some, Option.some.injEq] at hstep
      rw [← hstep.2]
      cases ok with
      | true =>
          refine .of_silent rfl (fun e he => ?_) fun _ _ => rfl
          rw [List.mem_singleton.mp he]
          exact ⟨rfl, rfl, fun _ => rfl⟩
      | false => exact .of_same rfl rfl fun _ _ => rfl
  | proxy ok ne => exact proxyStep_pays hok hstep

/-- The notifies polled are the barriers posted to a peer and those owed. -/
def CountInv (setup : Setup) (w : World) : Prop :=
  ∀ q, Addressed setup q → notifies w.hist = barriersTo q w.hist + owed q w

theorem count_init : CountInv setup (init setup) := fun _ _ => rfl

theorem CountInv.of_pays (h : CountInv setup w) (hp : Pays setup w w') : CountInv setup w' := by
  intro q hq
  rcases hp with ⟨l, hhist, hl⟩
  have hold := h q hq
  have hnew := hl q hq
  rw [hhist, notifies_append, barriersTo_append]
  omega

/-- Runs under the condition keep the count. -/
theorem notifies_eq (hr : Reaches (step setup) (NotifyCounted setup) (init setup) w) :
    CountInv setup w :=
  invariant_of_reaches (CountInv setup)
    (fun _ _ _ hi hok hstep => hi.of_pays (step_pays hok hstep)) hr count_init

end Efa

end Internode

end MKernel
