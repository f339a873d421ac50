import MKernel.Internode.Cx7.Gate

/-!
# The Books of the CX7 Proxy

What the in-flight counter counts, and the stage barriers owed to notifies.

The completion of a chain lowers the counter by the count in its `wr_id`, and
the counter is raised by the same amount after the chain is posted, at once or,
for strided commands, at the end of step 2. So the counter and what is still to
be added to it are together the sum of the counts of the chains outstanding.
Every chain counts at least one, so a counter at zero says that nothing is
outstanding.

A notify is served by a loop over the barriers to post, and while every call
succeeds each turn of the loop pays one.

`Ledger` is one action's entry in these books, and `step_ledger` writes it for
every action.

## Main definitions

* `Pc.uncounted`: What is posted and not yet in the counter.
* `Pc.owed`: The stage barriers a notify is still to be given.
* `SiteBound`: The batch is short enough to be counted.
* `Ledger`: What one action adds to the books.
* `AccountInv`: The counter is the count of what is outstanding.

## Theorems

* `proxyStep_ledger`, `step_ledger`: The entry of each action.
* `account_of_reaches`: Every run keeps the count.
* `AccountInv.outstanding_eq`: A counter at zero means nothing is outstanding.
* `notifies_eq`: While every call succeeds, each notify gets its barriers.
-/

namespace MKernel

namespace Internode

namespace Cx7

open MKernel.Core
open MKernel.Core.WorkQueue (requests)

variable {setup : Setup} {w w' : World} {l : List Event} {n : List Chain}

def Event.reaped? : Event → Option Chain
  | .reaped chain => some chain
  | _ => none

/-- The chains whose completion was reaped, in order. -/
def reapedOf (h : List Event) : List Chain := h.filterMap Event.reaped?

/-- A notify is polled. -/
def Event.isNotify : Event → Bool
  | .polled p => p.cmd.cmdType = .barrierNotify
  | _ => false

/-- The `i`th stage barrier of a notify is posted. -/
def Event.isBarrier (i : Nat) : Event → Bool
  | .stageBarrier p _ => p = i
  | _ => false

/-- The number of notifies polled. -/
def notifies (h : List Event) : Nat := h.countP Event.isNotify

/-- The number of notifies whose `i`th stage barrier was posted. -/
def barriersOf (i : Nat) (h : List Event) : Nat := h.countP (Event.isBarrier i)

/-- What is posted and not yet in the counter. -/
def Pc.uncounted : Pc → Int
  | .forwardCount _ => 1
  | .stageCount _ _ => 1
  | .filter _ _ _ stridedPosted => stridedPosted
  | .post _ _ stridedPosted => stridedPosted
  | .account count stridedPosted => count + stridedPosted
  | .stridedCount stridedPosted _ => stridedPosted
  | _ => 0

/-- Whether the `i`th stage barrier of a notify is still to be posted. -/
def Pc.owed (i : Nat) : Pc → Nat
  | .stageBarrier _ p => if p ≤ i then 1 else 0
  | .stageCount _ p => if p < i then 1 else 0
  | _ => 0

/-- The batch is not longer than a batch may be, and what is to be added to the
    counter for strided commands is not negative. -/
def SiteBound : Pc → Prop
  | .fill c => c.batch.length ≤ BATCH_SIZE
  | .stageBarrier c _ => c.batch.length ≤ BATCH_SIZE
  | .stageCount c _ => c.batch.length ≤ BATCH_SIZE
  | .filter rest kept _ stridedPosted => kept.length + rest.length ≤ BATCH_SIZE ∧ 0 ≤ stridedPosted
  | .post batch _ stridedPosted => batch.length ≤ BATCH_SIZE ∧ 0 ≤ stridedPosted
  | .account _ stridedPosted => 0 ≤ stridedPosted
  | .stridedCount stridedPosted _ => 0 ≤ stridedPosted
  | _ => True

/-- The sum of the counts of some chains. -/
def countOf (chains : List Chain) : Int := (chains.map Chain.count).sum

/-- An action for which no call of `ibv_post_send` fails. -/
def Succeeds (a : Action) : Prop := ∀ ne, a ≠ .proxy false ne

/-- What one action adds to the books: some events, and some chains. -/
structure Ledger (setup : Setup) (a : Action) (w w' : World) (l : List Event) (n : List Chain) :
    Prop where
  hist : w'.hist = w.hist ++ l
  nic : (reapedOf l ++ w'.nic.outstanding).Perm (w.nic.outstanding ++ n)
  counts : ∀ c ∈ n, 0 < c.count
  posted : ∀ batch c, Event.posted batch c ∈ l → c ∈ n
  inflight : w'.inflight + w'.pc.uncounted + countOf (reapedOf l) =
    w.inflight + w.pc.uncounted + countOf n
  site : SiteBound w'.pc
  notify : Succeeds a → ∀ i < barrierIters setup,
    notifies l + w.pc.owed i = barriersOf i l + w'.pc.owed i

/-- An action that posts and reaps nothing, and serves no notify. -/
theorem Ledger.of_move {a : Action} (hhist : w'.hist = w.hist ++ l)
    (hl : reapedOf l = [] ∧ (∀ batch c, Event.posted batch c ∉ l) ∧ ∀ i, barriersOf i l = 0)
    (hnic : w'.nic.outstanding.Perm w.nic.outstanding)
    (hcount : w'.inflight + w'.pc.uncounted = w.inflight + w.pc.uncounted)
    (hsite : SiteBound w'.pc)
    (howed : ∀ i < barrierIters setup, notifies l + w.pc.owed i = w'.pc.owed i) :
    Ledger setup a w w' l [] where
  hist := hhist
  nic := by
    rw [hl.1, List.nil_append, List.append_nil]
    exact hnic
  counts := fun _ hc => absurd hc List.not_mem_nil
  posted := fun batch c hm => absurd hm (hl.2.1 batch c)
  inflight := by rw [hl.1, hcount]
  site := hsite
  notify := fun _ i hi => by rw [hl.2.2 i, Nat.zero_add, howed i hi]

/-- An action without events that leaves the NIC alone. -/
theorem Ledger.of_same {a : Action} (hhist : w'.hist = w.hist)
    (hnic : w'.nic.outstanding.Perm w.nic.outstanding)
    (hcount : w'.inflight + w'.pc.uncounted = w.inflight + w.pc.uncounted)
    (hsite : SiteBound w'.pc) (howed : ∀ i < barrierIters setup, w'.pc.owed i = w.pc.owed i) :
    Ledger setup a w w' [] [] :=
  .of_move (by rw [hhist, List.append_nil]) ⟨rfl, fun _ _ => List.not_mem_nil, fun _ => rfl⟩ hnic
    hcount hsite fun i hi => by rw [howed i hi]; exact Nat.zero_add _

/-- An action that posts one chain. -/
theorem Ledger.of_post {a : Action} {e : Event} {chain : Chain} (hhist : w'.hist = w.hist ++ [e])
    (he : reapedOf [e] = [] ∧ (∀ batch c, e = .posted batch c → c = chain) ∧ e.isNotify = false)
    (hnic : w'.nic = w.nic.post [chain]) (hpos : 0 < chain.count)
    (hcount : w'.inflight + w'.pc.uncounted = w.inflight + w.pc.uncounted + chain.count)
    (hsite : SiteBound w'.pc)
    (howed : ∀ i < barrierIters setup, w.pc.owed i = barriersOf i [e] + w'.pc.owed i) :
    Ledger setup a w w' [e] [chain] where
  hist := hhist
  nic := by
    rw [he.1, List.nil_append, hnic]
    exact WorkQueue.outstanding_post w.nic _
  counts := fun c hc => by
    rw [List.mem_singleton.mp hc]
    exact hpos
  posted := fun batch c hm => by
    rw [he.2.1 batch c (List.mem_singleton.mp hm).symm]
    exact .head _
  inflight := by
    have hone : countOf [chain] = chain.count := by
      simp only [countOf, List.map_singleton, List.sum_singleton]
    have hnone : countOf ([] : List Chain) = 0 := rfl
    rw [he.1, hone, hcount, hnone, Int.add_zero]
  site := hsite
  notify := fun _ i hi => by
    have hzero : notifies [e] = 0 := by
      simp only [notifies, List.countP_cons, he.2.2, List.countP_nil, Bool.false_eq_true, if_false]
    rw [hzero, Nat.zero_add, howed i hi]

/-- One `ibv_poll_cq`. -/
theorem pollNic_ledger {a : Action} (ne : Nat) {pc : Pc} (hun : pc.uncounted = w.pc.uncounted)
    (hsite : SiteBound pc) (howed : ∀ i, pc.owed i = w.pc.owed i) :
    Ledger setup a w { pollNic w ne with pc := pc } ((polledChains w ne).map Event.reaped) [] := by
  have hreaped : reapedOf ((polledChains w ne).map Event.reaped) = polledChains w ne := by
    simp only [reapedOf, List.filterMap_map]
    exact List.filterMap_some
  have hnone : countOf ([] : List Chain) = 0 := rfl
  -- A poll takes from the queue and from the count the same chains.
  rw [pollNic_eq]
  refine ⟨rfl, ?_, fun _ hc => absurd hc List.not_mem_nil, fun batch c hm => ?_, ?_, hsite,
    fun _ i _ => ?_⟩
  · rw [hreaped, List.append_nil]
    exact (WorkQueue.outstanding_poll w.nic (min ne 32)).symm
  · rcases List.mem_map.mp hm with ⟨_, -, hc⟩
    exact absurd hc (by simp only [reduceCtorEq, not_false_eq_true])
  · rw [hreaped, hnone]
    simp only [countOf, hun]
    omega
  · have hn : notifies ((polledChains w ne).map Event.reaped) = 0 := by
      simp [notifies, Event.isNotify]
    have hb : barriersOf i ((polledChains w ne).map Event.reaped) = 0 := by
      simp [barriersOf, Event.isBarrier]
    rw [hn, hb, howed i]

/-- The collection loop ends with what it has collected. -/
theorem endFill_ledger {a : Action} {c : Collect} {v : World} (hhist : v.hist = w.hist ++ l)
    (hl : reapedOf l = [] ∧ (∀ batch c, Event.posted batch c ∉ l) ∧ ∀ i, barriersOf i l = 0)
    (hn : notifies l = 0) (hnic : v.nic = w.nic) (hinf : v.inflight = w.inflight)
    (hpc : w.pc = .fill c) (hlen : c.batch.length ≤ BATCH_SIZE) :
    Ledger setup a w (endFill setup v c) l [] := by
  unfold endFill
  split
  · refine .of_move hhist hl (by dsimp only; rw [hnic]) (by dsimp only; rw [hinf, hpc]; rfl)
      ⟨by rwa [List.length_nil, Nat.zero_add], Int.le_refl 0⟩ fun i _ => ?_
    rw [hn, hpc]
    rfl
  · refine .of_move hhist hl (by dsimp only; rw [hnic]) (by dsimp only; rw [hinf, hpc]; rfl)
      ⟨hlen, Int.le_refl 0⟩ fun i _ => ?_
    rw [hn, hpc]
    rfl

/-- One turn of the collection loop. -/
theorem fillStep_ledger {a : Action} {c : Collect} (hpc : w.pc = .fill c) (hs : SiteBound w.pc) :
    ∃ l n, Ledger setup a w (fillStep setup w c) l n := by
  have hlen : c.batch.length ≤ BATCH_SIZE := by rw [hpc] at hs; exact hs
  have hend : ∃ l n, Ledger setup a w (endFill setup w c) l n :=
    ⟨[], [], endFill_ledger (List.append_nil _).symm
      ⟨rfl, fun _ _ => List.not_mem_nil, fun _ => rfl⟩ rfl rfl rfl hpc hlen⟩
  unfold fillStep
  split
  · rename_i hfills
    cases hp : pollFifo setup w with
    | none => exact hend
    | some r =>
        rcases r with ⟨p, w₁⟩
        rcases pollFifo_eq_some hp with ⟨f, -, -, rfl⟩
        have hquiet : ∀ l, l = [Event.polled p] ∨ l = [.polled p, .dropped [p]] →
            reapedOf l = [] ∧ (∀ batch c, Event.posted batch c ∉ l) ∧ ∀ i, barriersOf i l = 0 := by
          rintro l (rfl | rfl) <;> exact ⟨rfl, by simp, fun _ => rfl⟩
        have hnone : p.cmd.cmdType ≠ .barrierNotify → ∀ l, l = [Event.polled p] ∨
            l = [.polled p, .dropped [p]] → notifies l = 0 := by
          rintro hn l (rfl | rfl) <;> simp [notifies, Event.isNotify, hn]
        -- A poll of anything but a notify, to another turn of the loop.
        have hfill : ∀ (es : List Event) (c' : Collect) (v : World),
            (es = [Event.polled p] ∨ es = [.polled p, .dropped [p]]) → v.hist = w.hist ++ es →
            v.nic = w.nic → v.inflight = w.inflight → p.cmd.cmdType ≠ .barrierNotify →
            c'.batch.length ≤ BATCH_SIZE →
            ∃ l n, Ledger setup a w { v with pc := .fill c' } l n := by
          intro es c' v hes hhist hnic hinf hn hlen'
          refine ⟨es, [], .of_move hhist (hquiet es hes) (by dsimp only; rw [hnic])
            (by dsimp only; rw [hinf, hpc]; rfl) hlen' fun i _ => ?_⟩
          rw [hnone hn es hes, hpc]
          rfl
        simp only
        cases hty : p.cmd.cmdType with
        | barrierNotify =>
            refine ⟨[.polled p], [], .of_move rfl (hquiet _ (Or.inl rfl)) (List.Perm.refl _)
              (by rw [hpc]; rfl) hlen fun i _ => ?_⟩
            rw [hpc]
            simp [notifies, Event.isNotify, hty, Pc.owed]
        | write =>
            have hn : p.cmd.cmdType ≠ .barrierNotify := by rw [hty]; decide
            have hlt : (c.push p).batch.length ≤ BATCH_SIZE := by
              rw [Collect.push, List.length_append]
              exact hfills.1
            simp only
            unfold collectWrite
            split
            · dsimp only
              split
              · exact hfill [.polled p, .dropped [p]] c
                  { w with
                    fifo := f
                    hist := w.hist ++ [Event.polled p] ++ [Event.dropped [p]] } (Or.inr rfl)
                  (List.append_assoc _ _ _) rfl rfl hn hlen
              · split
                · refine hfill _ _ { w with fifo := f, hist := w.hist ++ [Event.polled p] }
                    (Or.inl rfl) rfl
                    rfl rfl hn ?_
                  exact Nat.succ_le_succ (Nat.zero_le _)
                · split
                  · exact hfill _ _ { w with fifo := f, hist := w.hist ++ [Event.polled p] }
                      (Or.inl rfl)
                      rfl rfl rfl hn hlt
                  · exact ⟨_, _, endFill_ledger rfl (hquiet _ (Or.inl rfl))
                      (hnone hn _ (Or.inl rfl)) rfl rfl hpc hlen⟩
            · exact hfill _ _ { w with fifo := f, hist := w.hist ++ [Event.polled p] }
                (Or.inl rfl) rfl rfl
                rfl hn hlt
        | empty =>
            exact hfill _ c { w with fifo := f, hist := w.hist ++ [Event.polled p] }
              (Or.inl rfl) rfl
                    rfl rfl (by rw [hty]; decide) hlen
        | fence =>
            exact hfill _ c { w with fifo := f, hist := w.hist ++ [Event.polled p] }
              (Or.inl rfl) rfl
                    rfl rfl (by rw [hty]; decide) hlen
  · exact hend

/-- One turn of the filter. -/
theorem filterStep_ledger {a : Action} {rest kept : List Polled} {qp stridedPosted : Int}
    {ok : Bool} (hpc : w.pc = .filter rest kept qp stridedPosted) (hs : SiteBound w.pc) :
    ∃ l n, Ledger setup a w (filterStep setup w rest kept qp stridedPosted ok) l n := by
  rw [hpc] at hs
  rcases hs with ⟨hlen, hpos⟩
  -- A command that is given up.
  have hdrop : ∀ (p : Polled) (rest' : List Polled) (senderSeq : Nat → BitVec 32),
      rest = p :: rest' → ∃ l n, Ledger setup a w { w with
        senderSeq := senderSeq
        hist := w.hist ++ [Event.dropped [p]]
        pc := .filter rest' kept qp stridedPosted } l n := by
    intro p rest' senderSeq hr
    rw [hr, List.length_cons] at hlen
    refine ⟨[.dropped [p]], [], .of_move rfl ⟨rfl, by simp, fun _ => rfl⟩ (List.Perm.refl _)
      (by rw [hpc]; rfl) ⟨by omega, hpos⟩ fun i _ => ?_⟩
    rw [hpc]
    rfl
  unfold filterStep
  split
  · exact ⟨_, _, .of_same rfl (List.Perm.refl _) (by rw [hpc]; rfl) ⟨by simpa using hlen, hpos⟩
      fun i _ => by rw [hpc]; rfl⟩
  · rename_i p rest'
    split
    · split
      · rename_i chain n senderSeq hc
        rcases count_stridedChain hc with ⟨hcount, hn⟩
        split
        · rw [List.length_cons] at hlen
          refine ⟨[.posted [p] chain], [chain], .of_post rfl ⟨rfl, fun batch c he => ?_, rfl⟩ rfl
            (by omega) ?_ ⟨by omega, by omega⟩ fun i _ => by rw [hpc]; rfl⟩
          · exact (Event.posted.inj he).2.symm
          · rw [hpc]
            simp only [Pc.uncounted, hcount]
            omega
        · exact hdrop p rest' senderSeq rfl
      · exact hdrop p rest' w.senderSeq rfl
    · refine ⟨_, _, .of_same rfl (List.Perm.refl _) (by rw [hpc]; rfl) ⟨?_, hpos⟩
        fun i _ => by rw [hpc]; rfl⟩
      rw [List.length_append, List.length_singleton]
      rw [List.length_cons] at hlen
      omega

/-- Step 2. -/
theorem postStep_ledger {a : Action} {batch : List Polled} {qp stridedPosted : Int} {ok : Bool}
    (hpc : w.pc = .post batch qp stridedPosted) (hs : SiteBound w.pc) :
    ∃ l n, Ledger setup a w (postStep setup w batch qp stridedPosted ok) l n := by
  rw [hpc] at hs
  unfold postStep
  split
  · exact ⟨_, _, .of_same rfl (List.Perm.refl _) (by rw [hpc]; rfl) hs.2
    fun i _ => by rw [hpc]; rfl⟩
  · rename_i hne
    dsimp only
    split
    · have hlen : batch.length ≤ 8 := hs.1
      -- The chain counts the commands of the batch, on its last request.
      have hpos : 0 < batch.length := List.length_pos_of_ne_nil hne
      have hcount : (batchChain setup w.epoch w.senderSeq qp batch).1.count = batch.length :=
        count_batchChain hne (by omega)
      refine ⟨_, _, .of_post rfl ⟨rfl, fun b c he => (Event.posted.inj he).2.symm, rfl⟩ rfl
        (by omega) ?_ hs.2 fun i _ => by rw [hpc]; rfl⟩
      rw [hpc]
      simp only [Pc.uncounted, hcount]
      omega
    · refine ⟨[.dropped batch], [], .of_move rfl ⟨rfl, by simp, fun _ => rfl⟩ (List.Perm.refl _)
        (by rw [hpc]; rfl) hs.2 fun i _ => ?_⟩
      rw [hpc]
      rfl

/-- One turn over the forward table. -/
theorem forwardStep_ledger {a : Action} {i : Nat} {ok : Bool} (hpc : w.pc = .forward i) :
    ∃ l n, Ledger setup a w (forwardStep setup w i ok) l n := by
  -- A turn that posts nothing.
  have hpass : ∀ v : World, v.hist = w.hist → v.nic = w.nic → v.inflight = w.inflight →
      v.pc.uncounted = 0 → SiteBound v.pc → (∀ i, v.pc.owed i = 0) →
      ∃ l n, Ledger setup a w v l n := by
    intro v hhist hnic hinf hun hsite howed
    refine ⟨_, _, .of_same hhist (by rw [hnic]) ?_ hsite fun i _ => ?_⟩
    · rw [hinf, hun, hpc]
      rfl
    · rw [howed, hpc]
      rfl
  unfold forwardStep
  split
  · dsimp only
    split
    · exact hpass _ rfl rfl rfl rfl trivial fun _ => rfl
    · cases hc : forwardChain setup w.epoch
        (setup.makeForwardCmdFromNotify (w.localForwardNotify w.forwardScanCursor)) with
      | none => exact hpass _ rfl rfl rfl rfl trivial fun _ => rfl
      | some chain =>
          simp only
          split
          · have hcount := count_forwardChain hc
            refine ⟨[.forwarded chain], [chain], .of_post rfl ⟨rfl, fun b c he => ?_, rfl⟩ rfl
              (by omega) ?_ trivial fun i _ => by rw [hpc]; rfl⟩
            · exact absurd he (by simp only [reduceCtorEq, not_false_eq_true])
            · rw [hpc]
              simp only [Pc.uncounted, hcount]
              omega
          · exact hpass _ rfl rfl rfl rfl trivial fun _ => rfl
  · exact hpass _ rfl rfl rfl rfl trivial fun _ => rfl

/-- One turn of the loop in `post_stage_barrier`. A call that fails loses one
    barrier. -/
theorem stageBarrierStep_ledger {c : Collect} {p : Nat} {ok : Bool} {ne : Nat}
    (hpc : w.pc = .stageBarrier c p) (hs : SiteBound w.pc) :
    ∃ l n, Ledger setup (.proxy ok ne) w (stageBarrierStep setup w c p ok) l n := by
  rw [hpc] at hs
  unfold stageBarrierStep
  split
  · split
    · refine ⟨[.stageBarrier p w.epoch], [barrierChain setup 0 w.epoch p],
        .of_post rfl ⟨rfl, fun b c he => ?_, rfl⟩ rfl ?_ ?_ hs fun i _ => ?_⟩
      · exact absurd he (by simp only [reduceCtorEq, not_false_eq_true])
      · rw [count_barrierChain]
        decide
      · rw [hpc, count_barrierChain]
        simp only [Pc.uncounted]
        omega
      · -- A barrier to this peer is one less to be posted.
        have hb : barriersOf i [Event.stageBarrier p w.epoch] = if p = i then 1 else 0 := by
          simp only [barriersOf, List.countP_cons, List.countP_nil, Event.isBarrier,
            decide_eq_true_eq, Nat.zero_add]
        rw [hpc, hb]
        simp only [Pc.owed]
        split <;> split <;> split <;> omega
    · rename_i hok
      rw [Bool.not_eq_true] at hok
      refine ⟨[], [], (List.append_nil _).symm, by simp [reapedOf], by simp, by simp, ?_, hs,
        fun hc => absurd (by rw [hok]) (hc ne)⟩
      rw [hpc]
      rfl
  · rename_i hge
    refine ⟨_, _, .of_same rfl (List.Perm.refl _) (by rw [hpc]; rfl) hs fun i hi => ?_⟩
    rw [hpc]
    simp only [Pc.owed]
    rw [if_neg (by omega)]

/-- The beginning of a round: the stash is taken up, or left where it is. -/
theorem collectStep_ledger {a : Action} (hpc : w.pc = .collect) :
    ∃ l n, Ledger setup a w (collectStep setup w) l n := by
  have hstart : ∀ (v : World) (c : Collect), v.hist = w.hist → v.nic = w.nic →
      v.inflight = w.inflight → c.batch.length ≤ BATCH_SIZE →
      ∃ l n, Ledger setup a w { v with pc := .fill c } l n := by
    intro v c hhist hnic hinf hlen
    refine ⟨_, _, .of_same hhist (by dsimp only; rw [hnic]) ?_ hlen fun i _ => by rw [hpc]; rfl⟩
    dsimp only
    rw [hinf, hpc]
    rfl
  unfold collectStep
  split
  · split
    · exact hstart { w with pendingCmd := none } _ rfl rfl rfl (Nat.succ_le_succ (Nat.zero_le _))
    · exact hstart w _ rfl rfl rfl (Nat.zero_le _)
  · exact hstart w _ rfl rfl rfl (Nat.zero_le _)

/-- What was posted is added to the counter. -/
theorem count_ledger {a : Action} {inflight : Int} {pc : Pc}
    (hcount : inflight + pc.uncounted = w.inflight + w.pc.uncounted) (hsite : SiteBound pc)
    (howed : ∀ i, pc.owed i = w.pc.owed i) :
    ∃ l n, Ledger setup a w { w with inflight := inflight, pc := pc } l n :=
  ⟨_, _, .of_same rfl (List.Perm.refl _) hcount hsite fun i _ => howed i⟩

/-- The poll behind the posts, and the drain before the proxy exits. -/
theorem reap_ledger {ok : Bool} {ne : Nat}
    (hpc : (∃ posted, w.pc = .pollCq posted) ∨ w.pc = .exitDrain) (hs : SiteBound w.pc)
    (hstep : proxyStep setup w ok ne = some w') :
    ∃ l n, Ledger setup (.proxy ok ne) w w' l n := by
  unfold proxyStep at hstep
  -- After a batch, `ibv_poll_cq` is called once.
  rcases hpc with ⟨posted, hpc⟩ | hpc
  · simp only [hpc, Option.some.injEq] at hstep
    rw [← hstep]
    refine ⟨_, _, pollNic_ledger ne ?_ ?_ fun i => ?_⟩
    · rw [hpc]
      split <;> rfl
    · split <;> trivial
    · rw [hpc]
      split <;> rfl
  · -- At the exit, while the queue is not empty.
    simp only [hpc] at hstep
    split at hstep <;> rw [← Option.some.inj hstep]
    · have hdrain : Ledger setup (.proxy ok ne) w { pollNic w ne with pc := w.pc } _ _ :=
        pollNic_ledger ne rfl hs fun _ => rfl
      rw [pollNic_eq] at hdrain ⊢
      exact ⟨_, _, hdrain⟩
    · exact ⟨_, _, .of_same rfl (List.Perm.refl _) (by rw [hpc]; rfl) trivial
        fun i _ => by rw [hpc]; rfl⟩

/-- The entry of one action of the proxy. -/
theorem proxyStep_ledger {ok : Bool} {ne : Nat} (hs : SiteBound w.pc)
    (hstep : proxyStep setup w ok ne = some w') :
    ∃ l n, Ledger setup (.proxy ok ne) w w' l n := by
  unfold proxyStep at hstep
  cases hpc : w.pc with
  | loop | pauseGate | pausedSpin =>
      simp only [hpc, Option.some.injEq] at hstep
      rw [← hstep]
      refine ⟨_, _, .of_same rfl (List.Perm.refl _) ?_ ?_ fun i _ => ?_⟩
      · rw [hpc]
        dsimp only
        split <;> rfl
      · dsimp only
        split <;> trivial
      · rw [hpc]
        dsimp only
        split <;> rfl
  | ackStore | ackClear | advanceTail =>
      simp only [hpc, Option.some.injEq] at hstep
      rw [← hstep]
      exact ⟨_, _, .of_same rfl (List.Perm.refl _) (by rw [hpc]; rfl) trivial
        fun i _ => by rw [hpc]; rfl⟩
  | forwardGate =>
      simp only [hpc] at hstep
      split at hstep <;>
        · rw [← Option.some.inj hstep]
          exact ⟨_, _, .of_same rfl (List.Perm.refl _) (by rw [hpc]; rfl) trivial
            fun i _ => by rw [hpc]; rfl⟩
  | forward i =>
      simp only [hpc, Option.some.injEq] at hstep
      rw [← hstep]
      exact forwardStep_ledger hpc
  | forwardCount i =>
      simp only [hpc, Option.some.injEq] at hstep
      rw [← hstep]
      refine count_ledger ?_ trivial fun i => by rw [hpc]; rfl
      rw [hpc]
      simp only [Pc.uncounted, Int.add_zero]
  | collect =>
      simp only [hpc, Option.some.injEq] at hstep
      rw [← hstep]
      exact collectStep_ledger hpc
  | fill c =>
      simp only [hpc, Option.some.injEq] at hstep
      rw [← hstep]
      exact fillStep_ledger hpc hs
  | stageBarrier c p =>
      simp only [hpc, Option.some.injEq] at hstep
      rw [← hstep]
      exact stageBarrierStep_ledger hpc hs
  | stageCount c p =>
      rw [hpc] at hs
      simp only [hpc, Option.some.injEq] at hstep
      rw [← hstep]
      refine count_ledger ?_ hs fun i => by rw [hpc]; rfl
      rw [hpc]
      simp only [Pc.uncounted, Int.add_zero]
  | filter rest kept qp stridedPosted =>
      simp only [hpc, Option.some.injEq] at hstep
      rw [← hstep]
      exact filterStep_ledger hpc hs
  | post batch qp stridedPosted =>
      simp only [hpc, Option.some.injEq] at hstep
      rw [← hstep]
      exact postStep_ledger hpc hs
  | account count stridedPosted =>
      rw [hpc] at hs
      simp only [hpc, Option.some.injEq] at hstep
      rw [← hstep]
      refine count_ledger ?_ hs fun i => by rw [hpc]; rfl
      rw [hpc]
      simp only [Pc.uncounted]
      omega
  | stridedCount stridedPosted posted =>
      rw [hpc] at hs
      simp only [hpc, Option.some.injEq] at hstep
      rw [← hstep]
      refine count_ledger ?_ trivial fun i => by rw [hpc]; rfl
      -- Only a positive number is added, and it is not negative.
      have hnonneg : 0 ≤ stridedPosted := hs
      rw [hpc]
      simp only [Pc.uncounted, Int.add_zero]
      split <;> omega
  | pollCq posted => exact reap_ledger (Or.inl ⟨posted, hpc⟩) hs hstep
  | exitDrain => exact reap_ledger (Or.inr hpc) hs hstep
  | exited => simp only [hpc, reduceCtorEq] at hstep

/-- The invariant of the in-flight counter. -/
structure AccountInv (w : World) : Prop where
  count : w.nic.weight Chain.count = w.inflight + w.pc.uncounted
  counts : ∀ c ∈ w.nic.outstanding, 0 < c.count
  posted : ∀ batch c, Event.posted batch c ∈ w.hist → c ∈ w.nic.outstanding ∨ c ∈ reapedOf w.hist
  site : SiteBound w.pc

theorem account_init : AccountInv (init setup) where
  count := rfl
  counts := fun _ hc => absurd hc List.not_mem_nil
  posted := fun _ _ hm => absurd hm List.not_mem_nil
  site := trivial

/-- An entry in the books keeps them balanced. -/
theorem AccountInv.of_ledger (h : AccountInv w) {a : Action} (hl : Ledger setup a w w' l n) :
    AccountInv w' := by
  have hmem : ∀ c, c ∈ w.nic.outstanding ++ n → c ∈ w'.nic.outstanding ∨ c ∈ reapedOf w'.hist := by
    intro c hc
    rcases List.mem_append.mp (hl.nic.mem_iff.mpr hc) with hm | hm
    · refine Or.inr ?_
      rw [hl.hist, reapedOf, List.filterMap_append]
      exact List.mem_append_right _ hm
    · exact Or.inl hm
  refine ⟨?_, fun c hc => ?_, fun batch c hm => ?_, hl.site⟩
  · -- What is reaped leaves the counter as it leaves the NIC.
    have hsum := (hl.nic.map Chain.count).sum_eq
    rw [List.map_append, List.sum_append, List.map_append, List.sum_append] at hsum
    have hinf := hl.inflight
    have hold := h.count
    simp only [countOf] at hinf
    simp only [WorkQueue.weight] at hold ⊢
    omega
  · rcases List.mem_append.mp (hl.nic.mem_iff.mp (List.mem_append_right _ hc)) with hm | hm
    · exact h.counts c hm
    · exact hl.counts c hm
  · rw [hl.hist] at hm
    rcases List.mem_append.mp hm with hm | hm
    · rcases h.posted batch c hm with ho | hr
      · exact hmem c (List.mem_append_left _ ho)
      · refine Or.inr ?_
        rw [hl.hist, reapedOf, List.filterMap_append]
        exact List.mem_append_left _ hr
    · exact hmem c (List.mem_append_right _ (hl.posted batch c hm))

/-- Where nothing waits to be counted, the counter is not negative. -/
theorem AccountInv.inflight_nonneg (h : AccountInv w) (hpc : w.pc.uncounted = 0) :
    0 ≤ w.inflight := by
  -- Every chain counts something, so their sum is not negative.
  have hw : 0 ≤ w.nic.weight Chain.count :=
    WorkQueue.weight_nonneg fun c hc => Int.le_of_lt (h.counts c hc)
  have hcount := h.count
  omega

/-- Where nothing waits to be counted, a counter at zero means that nothing is
    outstanding. -/
theorem AccountInv.outstanding_eq (h : AccountInv w) (hpc : w.pc.uncounted = 0)
    (hle : w.inflight ≤ 0) : w.nic.outstanding = [] := by
  refine WorkQueue.outstanding_eq_nil (f := Chain.count) h.counts ?_
  rw [h.count, hpc]
  omega

/-- The entry of one action of anybody. -/
theorem step_ledger (h : AccountInv w) (hg : Handshake.Inv (toHandshake w)) {a : Action}
    (hstep : step setup w a = some w') : ∃ l n, Ledger setup a w w' l n := by
  -- Most actions of the others leave the books alone.
  have hkept : ∀ v : World, v.hist = w.hist → v.nic.outstanding.Perm w.nic.outstanding →
      v.inflight = w.inflight → v.pc = w.pc → ∃ l n, Ledger setup a w v l n := by
    intro v hhist hnic hinf hp
    exact ⟨_, _, .of_same hhist hnic (by rw [hinf, hp]) (hp ▸ h.site) fun i _ => by rw [hp]⟩
  cases a with
  | claim cmd | stop | fifoReset =>
      rw [← Option.some.inj hstep]
      exact hkept _ rfl (List.Perm.refl _) rfl rfl
  | forwardNotify slot n | resetForwardNotifyTable =>
      rw [← Option.some.inj hstep]
      exact hkept _ rfl (List.Perm.refl _) rfl rfl
  | publish | host b =>
      rcases Option.map_eq_some_iff.mp hstep with ⟨x, -, rfl⟩
      exact hkept _ rfl (List.Perm.refl _) rfl rfl
  | place i =>
      simp only [step, Option.ite_none_right_eq_some] at hstep
      rcases Option.map_eq_some_iff.mp hstep.2 with ⟨r, hr, rfl⟩
      exact hkept _ rfl (WorkQueue.outstanding_place hr) rfl rfl
  | complete i =>
      simp only [step, Option.ite_none_right_eq_some] at hstep
      rcases Option.map_eq_some_iff.mp hstep.2 with ⟨nic, hr, rfl⟩
      exact hkept _ rfl (WorkQueue.outstanding_complete hr) rfl rfl
  | hostDrain ne =>
      simp only [step, Option.ite_none_right_eq_some, Option.some.injEq] at hstep
      rw [← hstep.2]
      have hdrain : Ledger setup (.hostDrain ne) w { pollNic w ne with pc := w.pc } _ _ :=
        pollNic_ledger ne rfl h.site fun _ => rfl
      rw [pollNic_eq] at hdrain ⊢
      exact ⟨_, _, hdrain⟩
  | hostReset =>
      simp only [step, Option.ite_none_right_eq_some, Option.some.injEq] at hstep
      rcases hstep with ⟨⟨hs, hle⟩, rfl⟩
      -- A stopped proxy has nothing left to count, so the counter is zero already.
      have hnonneg := h.inflight_nonneg (by rw [spin_of_stopped hg hs]; rfl)
      exact hkept _ rfl (List.Perm.refl _) (by dsimp only; omega) rfl
  | setEpoch epoch =>
      rw [← Option.some.inj hstep]
      exact ⟨[.epoch epoch], [], .of_move rfl ⟨rfl, by simp, fun _ => rfl⟩ (List.Perm.refl _) rfl
        h.site fun i _ => Nat.zero_add _⟩
  | hostBarrier p slot token =>
      simp only [step, Option.ite_none_right_eq_some, Option.some.injEq] at hstep
      rw [← hstep.2]
      refine ⟨[.hostBarrier p slot token], [barrierChain setup slot token p],
        .of_post rfl ⟨rfl, fun b c he => ?_, rfl⟩ rfl ?_ ?_ h.site fun i _ => (Nat.zero_add _).symm⟩
      · exact absurd he (by simp only [reduceCtorEq, not_false_eq_true])
      · rw [count_barrierChain]
        decide
      · rw [count_barrierChain]
        dsimp only
        omega
  | proxy ok ne => exact proxyStep_ledger h.site hstep

/-- Every run keeps the books balanced. -/
theorem account_of_reaches {ok : World → Action → Prop}
    (h : Reaches (step setup) ok (init setup) w) : AccountInv w := by
  have hboth : AccountInv w ∧ Handshake.Inv (toHandshake w) := by
    refine invariant_of_reaches (fun w => AccountInv w ∧ Handshake.Inv (toHandshake w)) ?_ h
      ⟨account_init, Handshake.inv_init⟩
    rintro s a t ⟨ha, hg⟩ - hstep
    rcases step_ledger ha hg hstep with ⟨l, n, hl⟩
    exact ⟨ha.of_ledger hl, follows_handshake.step_inv hg hstep⟩
  exact hboth.1

/-- While every call succeeds, each notify polled has its stage barriers posted,
    but for those its loop has not come to. -/
theorem notifies_eq {ok : World → Action → Prop} (hok : ∀ w a, ok w a → Succeeds a)
    (h : Reaches (step setup) ok (init setup) w) {i : Nat} (hi : i < barrierIters setup) :
    notifies w.hist = barriersOf i w.hist + w.pc.owed i := by
  -- The invariants of the counts and of the gate go along, for the step lemma.
  have hall : (AccountInv w ∧ Handshake.Inv (toHandshake w)) ∧
      notifies w.hist = barriersOf i w.hist + w.pc.owed i := by
    refine invariant_of_reaches (fun w => (AccountInv w ∧ Handshake.Inv (toHandshake w)) ∧
      notifies w.hist = barriersOf i w.hist + w.pc.owed i) ?_ h
      ⟨⟨account_init, Handshake.inv_init⟩, rfl⟩
    rintro s a t ⟨⟨ha, hg⟩, hn⟩ hsa hstep
    rcases step_ledger ha hg hstep with ⟨l, n, hl⟩
    refine ⟨⟨ha.of_ledger hl, follows_handshake.step_inv hg hstep⟩, ?_⟩
    have hstep := hl.notify (hok s a hsa) i hi
    have hadd : notifies t.hist = notifies s.hist + notifies l := by
      rw [hl.hist]
      exact List.countP_append
    have hadd' : barriersOf i t.hist = barriersOf i s.hist + barriersOf i l := by
      rw [hl.hist]
      exact List.countP_append
    omega
  exact hall.2

end Cx7

end Internode

end MKernel
