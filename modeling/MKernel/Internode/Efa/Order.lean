import MKernel.Internode.Efa.Proxy

/-!
# Order in the EFA Proxy

No WRITE is lost, doubled or reordered on its way from the FIFOs to the NIC.

At any moment a polled WRITE that is not posted is in one of three places: the
batch being worked on, the retry buffer, or the stash. The first two never hold
different commands at once, the batch comes before the stash, and the stash is
empty whenever more can be polled into a batch. So the WRITEs polled are, in
order, the WRITEs posted followed by those held (`OrderInv.split`), over all
FIFOs together and therefore over each one.

Every way an iteration can go keeps this: a batch closed by its limit, by
another QP or destination, by a barrier or by an empty FIFO, a post that fails
and is replayed, a FIFO rotated away from while its command waits in the stash.

## Main definitions

* `held`: The WRITEs polled and not posted, in order.
* `SameRoute`: One QP and one destination for all commands of a batch.
* `OrderInv`: The invariant.

## Theorems

* `OrderInv.of_quiet`: Steps that neither poll nor post.
* `OrderInv.of_poll`: Steps that poll.
* `proxyStep_order`, `step_order`: One action keeps the invariant.
* `order_of_reaches`: Every run does.
* `run_posts_in_order`: What the NIC is given is what was polled, in order.
-/

namespace MKernel

namespace Internode

namespace Efa

open MKernel.Core

variable {setup : Setup} {w w' : World}

/-- The commands of the batch or retry buffer, by the place in `run`. -/
def Pc.unposted (pc : Pc) (pendingBatch : List Polled) : List Polled :=
  match pc with
  | .fill c => c.batch
  | .accumulate c _ _ => c.batch
  | .post c => c.batch
  | .account _ => []
  | _ => pendingBatch

/-- The WRITEs polled and not posted, in order. -/
def held (w : World) : List Polled := w.pc.unposted w.pendingBatch ++ w.pendingCmd.toList

/-- One local QP and one destination for all commands of a batch. -/
def SameRoute (setup : Setup) (qp : Nat) (batch : List Polled) : Prop :=
  (∀ p ∈ batch, setup.mapToLocalQp p.cmd = qp) ∧
  ∀ p ∈ batch, ∀ q ∈ batch, p.cmd.dstRank = q.cmd.dstRank

/-- What is in the retry buffer and the stash, by the place in `run`. -/
def SiteInv (setup : Setup) (pc : Pc) (pendingBatch : List Polled)
    (pendingCmd : Option Polled) : Prop :=
  match pc with
  | .drainCq _ => pendingBatch = [] ∧ pendingCmd = none
  | .stageBarrier _ _ => pendingBatch = [] ∧ pendingCmd = none
  | .stageCount _ _ => pendingBatch = [] ∧ pendingCmd = none
  | .fill c => pendingBatch = [] ∧ SameRoute setup c.batchQp c.batch ∧
      (pendingCmd = none ∨ c.batch = [] ∧ setup.effectiveMaxInflight ≤ c.preInflight)
  | .accumulate c _ _ => pendingBatch = [] ∧ SameRoute setup c.batchQp c.batch ∧
      pendingCmd = none ∧ c.batch ≠ []
  | .post c => SameRoute setup c.batchQp c.batch ∧ (pendingBatch = [] ∨ pendingBatch = c.batch)
  | _ => True

/-- The commands polled from one FIFO. -/
def polledFrom (k : Nat) (h : List Event) : List Polled := (polledOf h).filter fun p => p.fifo = k

/-- The invariant of the commands on their way through the proxy. -/
structure OrderInv (setup : Setup) (w : World) : Prop where
  split : writesPolled w.hist = postedOf w.hist ++ held w
  pending : SameRoute setup w.pendingBatchQp w.pendingBatch
  site : SiteInv setup w.pc w.pendingBatch w.pendingCmd
  posted : ∀ qp slot batch wrs, Event.posted qp slot batch wrs ∈ w.hist → SameRoute setup qp batch
  cmds : ∀ k, (polledFrom k w.hist).map Polled.cmd = (w.fifos k).polled
  seqs : ∀ k, (polledFrom k w.hist).map Polled.seq = List.range (w.fifos k).cpuHead

theorem sameRoute_nil (qp : Nat) : SameRoute setup qp [] := by
  constructor
  · intro p hp
    exact absurd hp (List.not_mem_nil)
  · intro p hp
    exact absurd hp (List.not_mem_nil)

theorem sameRoute_singleton (p : Polled) : SameRoute setup (setup.mapToLocalQp p.cmd) [p] := by
  constructor
  · intro q hq
    rw [List.mem_singleton.mp hq]
  · intro q hq r hr
    rw [List.mem_singleton.mp hq, List.mem_singleton.mp hr]

/-- A command that is accepted has the route of the batch. -/
theorem SameRoute.push {c : Collect} {p : Polled} (h : SameRoute setup c.batchQp c.batch)
    (ha : c.accepts setup p.cmd = true) :
    SameRoute setup (c.push p).batchQp (c.push p).batch := by
  simp only [Collect.accepts, Bool.and_eq_true, decide_eq_true_eq] at ha
  rcases ha with ⟨hqp, hdst⟩
  have hall : ∀ q ∈ c.batch, q.cmd.dstRank = p.cmd.dstRank := by
    intro q hq
    -- The batch has one destination already, and its first command names it.
    rcases Option.map_eq_some_iff.mp hdst with ⟨b, hb, hbd⟩
    rw [← hbd]
    exact h.2 q hq b (List.mem_of_mem_head? hb)
  constructor
  · intro q hq
    rcases List.mem_append.mp hq with hq | hq
    · exact h.1 q hq
    · rw [List.mem_singleton.mp hq]
      exact hqp
  · have hp : ∀ q ∈ c.batch ++ [p], q.cmd.dstRank = p.cmd.dstRank := by
      intro q hq
      rcases List.mem_append.mp hq with hq | hq
      · exact hall q hq
      · rw [List.mem_singleton.mp hq]
    intro q hq r hr
    rw [hp q hq, hp r hr]

/-- An event that is neither a poll nor a post. -/
def Event.Quiet (e : Event) : Prop := e.polled? = none ∧ e.batch = []

theorem polledOf_quiet {es : List Event} (h : ∀ e ∈ es, e.Quiet) : polledOf es = [] :=
  List.filterMap_eq_nil_iff.mpr fun e he => (h e he).1

theorem postedOf_quiet {es : List Event} (h : ∀ e ∈ es, e.Quiet) : postedOf es = [] :=
  List.flatMap_eq_nil_iff.mpr fun e he => (h e he).2

theorem writesPolled_quiet {es : List Event} (h : ∀ e ∈ es, e.Quiet) : writesPolled es = [] := by
  rw [writesPolled, polledOf_quiet h, List.filter_nil]

theorem polledFrom_append (k : Nat) (h l : List Event) :
    polledFrom k (h ++ l) = polledFrom k h ++ polledFrom k l := by
  rw [polledFrom, polledOf_append, List.filter_append, polledFrom, polledFrom]

theorem quiet_reaped (wrs : List WorkRequest) : ∀ e ∈ wrs.map Event.reaped, e.Quiet := by
  intro e he
  rcases List.mem_map.mp he with ⟨wr, _, rfl⟩
  exact ⟨rfl, rfl⟩

/-- A step that neither polls nor posts, and leaves what is held where the
    invariant of its next place wants it. -/
theorem OrderInv.of_quiet (h : OrderInv setup w) {l : List Event}
    (hhist : w'.hist = w.hist ++ l) (hes : ∀ e ∈ l, e.Quiet)
    (hbatch : w'.pendingBatch = w.pendingBatch) (hqp : w'.pendingBatchQp = w.pendingBatchQp)
    (hcmd : w'.pendingCmd = w.pendingCmd) (hfifo : ∀ k, (w'.fifos k).polled = (w.fifos k).polled)
    (hpc : w'.pc.unposted w.pendingBatch = w.pc.unposted w.pendingBatch)
    (hsite : SiteInv setup w'.pc w.pendingBatch w.pendingCmd) : OrderInv setup w' := by
  -- Quiet events are no polls, so each FIFO's record is the old one.
  have hfrom : ∀ k, polledFrom k w'.hist = polledFrom k w.hist := fun k => by
    rw [hhist, polledFrom_append, polledFrom, polledFrom, polledOf_quiet hes, List.filter_nil,
      List.append_nil]
  refine ⟨?_, ?_, ?_, fun qp slot batch wrs hm => ?_, fun k => ?_, fun k => ?_⟩
  · rw [hhist, writesPolled_append, postedOf_append, writesPolled_quiet hes, postedOf_quiet hes,
      List.append_nil, List.append_nil, h.split, held, held, hbatch, hcmd, hpc]
  · rw [hbatch, hqp]
    exact h.pending
  · rw [hbatch, hcmd]
    exact hsite
  · rw [hhist] at hm
    rcases List.mem_append.mp hm with hm | hm
    · exact h.posted qp slot batch wrs hm
    · -- A quiet event posts no batch.
      have hnil : batch = [] := (hes _ hm).2
      rw [hnil]
      exact sameRoute_nil qp
  · rw [hfrom k, hfifo k]
    exact h.cmds k
  · rw [hfrom k, ← Fifo.length_polled, hfifo k, Fifo.length_polled]
    exact h.seqs k

/-- A WRITE among the events of one poll. -/
def writeOf (p : Polled) : List Polled := if p.cmd.cmdType = .write then [p] else []

theorem writesPolled_polled (p : Polled) : writesPolled [Event.polled p] = writeOf p := by
  simp only [writesPolled, polledOf, Event.polled?, writeOf, List.filterMap_cons,
    List.filterMap_nil, List.filter_cons, List.filter_nil, decide_eq_true_eq]

/-- A step that polls one command, and puts it last among those held if it is
    a WRITE. -/
theorem OrderInv.of_poll (h : OrderInv setup w) {p : Polled} {w₁ : World}
    (hp : pollFifo setup w = some (p, w₁)) (hhist : w'.hist = w₁.hist)
    (hfifo : w'.fifos = w₁.fifos) (hbatch : w'.pendingBatch = w.pendingBatch)
    (hqp : w'.pendingBatchQp = w.pendingBatchQp) (hheld : held w' = held w ++ writeOf p)
    (hsite : SiteInv setup w'.pc w'.pendingBatch w'.pendingCmd) : OrderInv setup w' := by
  rcases pollFifo_eq_some hp with ⟨f, hpoll, hpf, hseq, hw⟩
  have hhist' : w'.hist = w.hist ++ [Event.polled p] := by rw [hhist, hw]
  have hfifos' : w'.fifos = Function.update w.fifos (currentFifo setup w) f := by rw [hfifo, hw]
  have hself : (w'.fifos (currentFifo setup w)) = f := by rw [hfifos', Function.update_self]
  have hother : ∀ k, k ≠ currentFifo setup w → w'.fifos k = w.fifos k := fun k hk => by
    rw [hfifos', Function.update_of_ne hk]
  have hfrom : ∀ k, polledFrom k w'.hist
      = polledFrom k w.hist ++ if p.fifo = k then [p] else [] := fun k => by
    rw [hhist', polledFrom_append]
    simp only [polledFrom, polledOf, Event.polled?, List.filterMap_cons, List.filterMap_nil,
      List.filter_cons, List.filter_nil, decide_eq_true_eq]
  refine ⟨?_, ?_, hsite, fun qp slot batch wrs hm => ?_, fun k => ?_, fun k => ?_⟩
  · have hposted : postedOf [Event.polled p] = [] := rfl
    rw [hhist', writesPolled_append, postedOf_append, h.split, writesPolled_polled, hposted,
      List.append_nil, hheld, List.append_assoc]
  · rw [hbatch, hqp]
    exact h.pending
  · rw [hhist'] at hm
    rcases List.mem_append.mp hm with hm | hm
    · exact h.posted qp slot batch wrs hm
    · exact absurd (List.mem_singleton.mp hm) (by simp only [reduceCtorEq, not_false_eq_true])
  · -- Only the FIFO that was polled has a new command, and it stands last.
    rw [hfrom k, List.map_append, h.cmds k]
    by_cases hk : k = currentFifo setup w
    · rw [hk, hself, Fifo.polled_of_poll hpoll, hpf, if_pos rfl, List.map_singleton]
    · rw [hother k hk, hpf, if_neg (fun hc => hk hc.symm), List.map_nil, List.append_nil]
  · rw [hfrom k, List.map_append, h.seqs k]
    by_cases hk : k = currentFifo setup w
    · -- Its position is the old `cpu_head`, which moves on by one.
      have hhead := (Fifo.poll_eq_some hpoll).2.2.1
      rw [hk, hself, hhead, hpf, if_pos rfl, List.map_singleton, hseq, List.range_succ]
    · rw [hother k hk, hpf, if_neg (fun hc => hk hc.symm), List.map_nil, List.append_nil]

theorem order_init : OrderInv setup (init setup) where
  split := rfl
  pending := sameRoute_nil 0
  site := trivial
  posted := by
    intro qp slot batch wrs hm
    exact absurd hm List.not_mem_nil
  cmds := fun _ => rfl
  seqs := fun _ => rfl

/-- What one poll keeps of the fields that decide what is held. -/
theorem pollFifo_fields {p : Polled} {w₁ : World} (hp : pollFifo setup w = some (p, w₁)) :
    w₁.pc = w.pc ∧ w₁.pendingBatch = w.pendingBatch ∧ w₁.pendingBatchQp = w.pendingBatchQp ∧
      w₁.pendingCmd = w.pendingCmd := by
  rcases pollFifo_eq_some hp with ⟨f, -, -, -, rfl⟩
  exact ⟨rfl, rfl, rfl, rfl⟩

/-- The batch is what the loops of step 1 hold outside the stash. -/
theorem Closes.unposted {c : Collect} {cmd : Option Polled} {pc : Pc} (h : Closes c cmd pc)
    (l : List Polled) : pc.unposted l = c.batch := by
  rcases h with rfl | ⟨rfl, -⟩ <;> rfl

theorem Closes.site {c : Collect} {cmd : Option Polled} {pc : Pc} (h : Closes c cmd pc)
    (hc : SameRoute setup c.batchQp c.batch) : SiteInv setup pc [] cmd := by
  rcases h with rfl | ⟨rfl, hne, hn⟩
  · exact ⟨hc, Or.inl rfl⟩
  · exact ⟨rfl, hc, hn, hne⟩

/-- Nothing is stashed while a poll can still put something before it. -/
theorem OrderInv.stash_none (h : OrderInv setup w) {c : Collect}
    (hpc : w.pc = .fill c ∨ ∃ s m, w.pc = .accumulate c s m)
    (hroom : c.preInflight < setup.effectiveMaxInflight ∨ c.batch ≠ []) : w.pendingCmd = none := by
  have hsite := h.site
  rcases hpc with hpc | ⟨s, m, hpc⟩ <;> rw [hpc] at hsite
  · rcases hsite.2.2 with hn | ⟨hnil, hle⟩
    · exact hn
    · rcases hroom with hlt | hne
      · omega
      · exact absurd hnil hne
  · exact hsite.2.2.1

/-- The spin loop is entered with a batch, and never loses it. -/
theorem OrderInv.batch_ne_nil (h : OrderInv setup w) {c : Collect}
    (hpc : w.pc = .fill c ∨ ∃ s m, w.pc = .accumulate c s m)
    (hfill : w.pc = .fill c → c.batch ≠ []) : c.batch ≠ [] := by
  have hsite := h.site
  rcases hpc with hpc | ⟨s, m, hpc⟩
  · exact hfill hpc
  · rw [hpc] at hsite
    exact hsite.2.2.2

/-- One turn of the poll loop or the spin loop keeps the invariant. The retry
    buffer is empty all along, and the stash is empty as long as a poll can
    still put something before it. -/
theorem turn_order (h : OrderInv setup w) {c : Collect}
    (hpc : w.pc = .fill c ∨ ∃ s m, w.pc = .accumulate c s m) (ht : Turn setup w c w') :
    OrderInv setup w' := by
  have hun : w.pc.unposted w.pendingBatch = c.batch := by
    rcases hpc with hpc | ⟨s, m, hpc⟩ <;> rw [hpc] <;> rfl
  have hsite := h.site
  have hb : w.pendingBatch = [] ∧ SameRoute setup c.batchQp c.batch := by
    rcases hpc with hpc | ⟨s, m, hpc⟩ <;> rw [hpc] at hsite <;> exact ⟨hsite.1, hsite.2.1⟩
  have hheld : held w = c.batch ++ w.pendingCmd.toList := by rw [held, hun]
  cases ht with
  | close head pc hcl =>
      refine h.of_quiet (l := []) (List.append_nil _).symm (by simp) rfl rfl rfl (fun _ => rfl)
        ?_ ?_
      · rw [hun]
        exact hcl.unposted _
      · rw [hb.1]
        exact hcl.site hb.2
  | miss spin misses hw =>
      refine h.of_quiet (l := []) (List.append_nil _).symm (by simp) rfl rfl rfl (fun _ => rfl)
        hun.symm ?_
      rcases hw with ⟨s, m, hw⟩
      rw [hw] at hsite
      exact hsite
  | ignored p w₁ pc hp hw hn hpc' =>
      rcases pollFifo_fields hp with ⟨-, h2, h3, h4⟩
      have hnw : writeOf p = [] := if_neg hw
      refine h.of_poll hp rfl rfl h2 h3 ?_ ?_
      · rw [hnw, List.append_nil, hheld, held]
        rcases hpc' with ⟨-, rfl⟩ | ⟨-, s, m, rfl⟩ <;> simp only [Pc.unposted, h4]
      · simp only [h2, h4]
        rcases hpc' with ⟨hw, rfl⟩ | ⟨⟨s, m, hw⟩, s', m', rfl⟩ <;> rw [hw] at hsite <;> exact hsite
  -- Nothing is held: the barrier may go out once the queue is drained.
  | inlineNotify p w₁ hp hn hw hnil hlt =>
      rcases pollFifo_fields hp with ⟨-, h2, h3, h4⟩
      have hnw : writeOf p = [] := if_neg (by rw [hn]; decide)
      have hnone := h.stash_none hpc (Or.inl hlt)
      refine h.of_poll hp rfl rfl h2 h3 ?_ ⟨h2.trans hb.1, h4.trans hnone⟩
      rw [hnw, List.append_nil, hheld, held]
      simp only [Pc.unposted, h2, h4, hb.1, hnil]
  | flagNotify p w₁ head pc hp hn hne hcl =>
      rcases pollFifo_fields hp with ⟨-, h2, h3, h4⟩
      have hnw : writeOf p = [] := if_neg (by rw [hn]; decide)
      refine h.of_poll hp rfl rfl h2 h3 ?_ ?_
      · rw [hnw, List.append_nil, hheld, held]
        simp only [hcl.unposted, h4]
      · simp only [h2, h4, hb.1]
        exact hcl.site hb.2
  | first p w₁ hp hwr hw hnil hlt =>
      rcases pollFifo_fields hp with ⟨-, h2, h3, h4⟩
      have hpw : writeOf p = [p] := if_pos hwr
      have hnone := h.stash_none hpc (Or.inl hlt)
      refine h.of_poll hp rfl rfl h2 h3 ?_ ?_
      · rw [hpw, hheld, held]
        simp only [Pc.unposted, h4, hnone, hnil, Option.toList_none, List.append_nil,
          List.nil_append]
      · simp only [h2, h4]
        exact ⟨hb.1, sameRoute_singleton p, Or.inl hnone⟩
  | join p w₁ pc hp hwr ha hpc' =>
      rcases pollFifo_fields hp with ⟨-, h2, h3, h4⟩
      have hpw : writeOf p = [p] := if_pos hwr
      have hne : c.batch ≠ [] := by
        intro hc
        -- An empty batch has no first command to agree with.
        simp [Collect.accepts, hc] at ha
      have hnone := h.stash_none hpc (Or.inr hne)
      refine h.of_poll hp rfl rfl h2 h3 ?_ ?_
      · rw [hpw, hheld, held]
        rcases hpc' with ⟨-, rfl⟩ | ⟨-, s, m, rfl⟩ <;>
          simp only [Pc.unposted, Collect.push, h4, hnone, Option.toList_none, List.append_nil]
      · simp only [h2, h4]
        rcases hpc' with ⟨-, rfl⟩ | ⟨-, s, m, rfl⟩
        · exact ⟨hb.1, hb.2.push ha, Or.inl hnone⟩
        · -- In the spin loop the stash stays empty and the batch does not.
          exact ⟨hb.1, hb.2.push ha, hnone, by simp [Collect.push]⟩
  | stash p w₁ head hp hwr hne =>
      rcases pollFifo_fields hp with ⟨-, h2, h3, -⟩
      have hpw : writeOf p = [p] := if_pos hwr
      -- The stash is free, so the command it takes is the last one held.
      have hnone := h.stash_none hpc (Or.inr (h.batch_ne_nil hpc hne))
      refine h.of_poll hp rfl rfl h2 h3 ?_ ?_
      · rw [hpw, hheld, held]
        simp only [Pc.unposted, hnone, Option.toList_none, Option.toList_some, List.append_nil]
      · simp only [h2]
        exact ⟨hb.2, Or.inl hb.1⟩

/-- Step 1 begins with the retry buffer, or with the stash, or with nothing. -/
theorem begin_order (h : OrderInv setup w) (hpc : w.pc = .collect) (hb : Begin setup w w') :
    OrderInv setup w' := by
  have hun : w.pc.unposted w.pendingBatch = w.pendingBatch := by rw [hpc]; rfl
  cases hb with
  | retry hb =>
      exact h.of_quiet (l := []) (List.append_nil _).symm (by simp) rfl rfl rfl (fun _ => rfl)
        hun.symm ⟨h.pending, Or.inr rfl⟩
  | seed idx p hb hcmd hlt =>
      -- The stashed command moves to the front of the new batch.
      refine ⟨?_, h.pending, ⟨hb, sameRoute_singleton p, Or.inl rfl⟩, h.posted, h.cmds, h.seqs⟩
      rw [h.split, held, held, hun, hb, hcmd]
      rfl
  | fresh idx hb hcmd =>
      refine h.of_quiet (l := []) (List.append_nil _).symm (by simp) rfl rfl rfl (fun _ => rfl)
        ?_ ⟨hb, sameRoute_nil 0, ?_⟩
      · rw [hun, hb]
        rfl
      · -- A command stays in the stash only where the budget is used up.
        rcases hcmd with hcmd | hle
        · exact Or.inl hcmd
        · exact Or.inr ⟨rfl, hle⟩

/-- Step 2 posts the batch, or puts it in the retry buffer. -/
theorem postStep_order (h : OrderInv setup w) {c : Collect} (hpc : w.pc = .post c) (ok : Bool) :
    OrderInv setup (postStep setup w c ok) := by
  have hsite := h.site
  rw [hpc] at hsite
  have hun : w.pc.unposted w.pendingBatch = c.batch := by rw [hpc]; rfl
  have hheld : held w = c.batch ++ w.pendingCmd.toList := by rw [held, hun]
  unfold postStep
  split
  · rename_i hnil
    have hb : w.pendingBatch = [] := by
      rcases hsite.2 with hb | hb
      · exact hb
      · rw [hb, hnil]
    refine h.of_quiet (l := []) (List.append_nil _).symm (by simp) rfl rfl rfl (fun _ => rfl) ?_
      trivial
    rw [hun, hnil, hb]
    rfl
  · dsimp only
    split
    · -- The batch moves from those held to those posted.
      refine ⟨?_, h.pending, trivial, ?_, ?_, ?_⟩
      · have hnone : writesPolled [Event.posted c.batchQp (peerSlot setup c.batch) c.batch
            (postBatch setup (setup.cfg.perPeer (peerSlot setup c.batch))
              ((setup.cfg.perPeer (peerSlot setup c.batch)).dstQpns c.batchQp) w.epoch w.flags
              c.batch).1] = [] := rfl
        rw [writesPolled_append, postedOf_append, hnone, List.append_nil, h.split, hheld]
        simp only [held, Pc.unposted, postedOf, List.flatMap_cons, List.flatMap_nil, Event.batch,
          List.append_nil, List.nil_append, List.append_assoc]
      · intro qp slot batch wrs hm
        rcases List.mem_append.mp hm with hm | hm
        · exact h.posted qp slot batch wrs hm
        · rcases Event.posted.inj (List.mem_singleton.mp hm) with ⟨rfl, -, rfl, -⟩
          exact hsite.1
      · intro k
        rw [polledFrom_append]
        simpa only [polledFrom, polledOf, Event.polled?, List.filterMap_cons, List.filterMap_nil,
          List.filter_nil, List.append_nil] using h.cmds k
      · intro k
        rw [polledFrom_append]
        simpa only [polledFrom, polledOf, Event.polled?, List.filterMap_cons, List.filterMap_nil,
          List.filter_nil, List.append_nil] using h.seqs k
    · -- The batch moves to the retry buffer, and is held as before.
      refine ⟨?_, hsite.1, trivial, h.posted, h.cmds, h.seqs⟩
      rw [h.split, hheld]
      rfl

/-- The loop over peers in `post_stage_barrier` touches nothing held. -/
theorem stageBarrierStep_order (h : OrderInv setup w) {site : BarrierSite} {p : Nat}
    (hpc : w.pc = .stageBarrier site p) (ok : Bool) :
    OrderInv setup (stageBarrierStep setup w site p ok) := by
  have hsite := h.site
  rw [hpc] at hsite
  have hun : w.pc.unposted w.pendingBatch = w.pendingBatch := by rw [hpc]; rfl
  unfold stageBarrierStep
  split
  · dsimp only
    split
    · exact h.of_quiet (l := []) (List.append_nil _).symm (by simp) rfl rfl rfl (fun _ => rfl)
        hun.symm hsite
    · split
      · exact h.of_quiet rfl (by simp [Event.Quiet, Event.polled?, Event.batch]) rfl rfl rfl
          (fun _ => rfl) hun.symm hsite
      · exact h.of_quiet (l := []) (List.append_nil _).symm (by simp) rfl rfl rfl (fun _ => rfl)
          hun.symm hsite
  · refine h.of_quiet (l := []) (List.append_nil _).symm (by simp) rfl rfl rfl (fun _ => rfl) ?_ ?_
    · rw [hun, hsite.1]
      cases site <;> rfl
    · cases site with
      | gate => trivial
      -- The poll loop goes on with an empty batch and an empty stash.
      | inline pre => exact ⟨hsite.1, sameRoute_nil 0, Or.inl hsite.2⟩

/-- A step to a place that holds what the place before it held. -/
theorem OrderInv.goto (h : OrderInv setup w) {pc : Pc}
    (hun : pc.unposted w.pendingBatch = w.pc.unposted w.pendingBatch)
    (hsite : SiteInv setup pc w.pendingBatch w.pendingCmd) : OrderInv setup { w with pc := pc } :=
  h.of_quiet (l := []) (List.append_nil _).symm (by simp) rfl rfl rfl (fun _ => rfl) hun hsite

theorem pollNic_drainReap_order (h : OrderInv setup w) (ne : Nat) :
    OrderInv setup (pollNic drainReap w ne) := by
  rw [pollNic_drainReap]
  exact h.of_quiet rfl (quiet_reaped _) rfl rfl rfl (fun _ => rfl) rfl h.site

/-- One action of the proxy thread keeps the invariant. -/
theorem proxyStep_order (h : OrderInv setup w) {ok : Bool} {ne : Nat}
    (hstep : proxyStep setup w ok ne = some w') : OrderInv setup w' := by
  unfold proxyStep at hstep
  cases hpc : w.pc with
  | loop | pauseGate | pausedSpin =>
      simp only [hpc, Option.some.injEq] at hstep
      rw [← hstep]
      -- These steps neither poll nor post.
      refine h.goto ?_ ?_ <;> (try rw [hpc]) <;> split <;> trivial
  | ackStore | ackClear =>
      simp only [hpc, Option.some.injEq] at hstep
      rw [← hstep]
      exact h.of_quiet (l := []) (List.append_nil _).symm (by simp) rfl rfl rfl (fun _ => rfl)
        -- Nothing is put into the history that the order is about.
        (by rw [hpc]; rfl) trivial
  | barrierGate =>
      simp only [hpc] at hstep
      split at hstep
      · rename_i hg
        rw [← Option.some.inj hstep]
        exact h.of_quiet (l := []) (List.append_nil _).symm (by simp) rfl rfl rfl (fun _ => rfl)
          (by rw [hpc]; rfl) hg.2
      · rw [← Option.some.inj hstep]
        exact h.goto (by rw [hpc]; rfl) trivial
  | drainCq site =>
      have hsite := h.site
      rw [hpc] at hsite
      simp only [hpc] at hstep
      split at hstep
      · rw [← Option.some.inj hstep]
        -- A drain only reaps, which the order does not depend on.
        exact pollNic_drainReap_order h ne
      · rw [← Option.some.inj hstep]
        exact h.goto (by rw [hpc]; rfl) hsite
  | stageBarrier site p =>
      simp only [hpc, Option.some.injEq] at hstep
      rw [← hstep]
      exact stageBarrierStep_order h hpc ok
  | stageCount site p =>
      have hsite := h.site
      rw [hpc] at hsite
      simp only [hpc, Option.some.injEq] at hstep
      rw [← hstep]
      exact h.of_quiet (l := []) (List.append_nil _).symm (by simp) rfl rfl rfl (fun _ => rfl)
        (by rw [hpc]; rfl) hsite
  | collect =>
      simp only [hpc, Option.some.injEq] at hstep
      rw [← hstep]
      exact begin_order h hpc (collectStep_begin setup w)
  | fill c =>
      simp only [hpc, Option.some.injEq] at hstep
      rw [← hstep]
      exact turn_order h (Or.inl hpc) (fillStep_turn hpc)
  | accumulate c spin misses =>
      simp only [hpc, Option.some.injEq] at hstep
      rw [← hstep]
      exact turn_order h (Or.inr ⟨_, _, hpc⟩) (accumulateStep_turn hpc)
  | post c =>
      simp only [hpc, Option.some.injEq] at hstep
      rw [← hstep]
      exact postStep_order h hpc ok
  | account c =>
      simp only [hpc, Option.some.injEq] at hstep
      rw [← hstep]
      -- The batch is posted, and its commands are no longer held.
      refine ⟨?_, sameRoute_nil _, trivial, h.posted, h.cmds, h.seqs⟩
      rw [h.split, held, hpc]
      rfl
  | pollCq posted =>
      simp only [hpc, Option.some.injEq] at hstep
      rcases pollNic_reap setup w ne with ⟨es, arrival, hw, -, hes, -⟩
      -- A completion is neither a poll nor a post.
      have hquiet : ∀ e ∈ es, e.Quiet := by
        intro e he
        rcases hes e he with ⟨wr, rfl⟩ | ⟨r, rfl, -⟩ <;> exact ⟨rfl, rfl⟩
      rw [← hstep, hw]
      refine h.of_quiet rfl hquiet rfl rfl rfl (fun _ => rfl) ?_ ?_
      · rw [hpc]
        dsimp only
        split <;> rfl
      · dsimp only
        split <;> trivial
  | advanceTail =>
      simp only [hpc, Option.some.injEq] at hstep
      rw [← hstep]
      refine h.of_quiet (l := []) (List.append_nil _).symm (by simp) rfl rfl rfl (fun k => ?_)
        (by rw [hpc]; rfl) trivial
      dsimp only
      by_cases hk : k = currentFifo setup w
      · -- What has been polled is the same, although it is given back.
        rw [hk, Function.update_self, Fifo.polled_advanceTail]
      · rw [Function.update_of_ne hk]
  | exitDrain =>
      simp only [hpc] at hstep
      split at hstep
      · rw [← Option.some.inj hstep]
        exact pollNic_drainReap_order h ne
      · rw [← Option.some.inj hstep]
        exact h.goto (by rw [hpc]; rfl) trivial
  | exited =>
      simp only [hpc, reduceCtorEq] at hstep

/-- Replacing a FIFO by one that has read the same commands. -/
theorem OrderInv.of_fifo (h : OrderInv setup w) {k : Nat} {f : Fifo}
    (hf : f.polled = (w.fifos k).polled) :
    OrderInv setup { w with fifos := Function.update w.fifos k f } := by
  refine h.of_quiet (l := []) (List.append_nil _).symm (by simp) rfl rfl rfl
    (fun j => ?_) rfl h.site
  dsimp only
  by_cases hj : j = k
  · rw [hj, Function.update_self, hf]
  · rw [Function.update_of_ne hj]

/-- One action of anybody keeps the invariant. -/
theorem step_order (h : OrderInv setup w) {a : Action} (hstep : step setup w a = some w') :
    OrderInv setup w' := by
  cases a with
  | claim k cmd =>
      rw [← Option.some.inj hstep]
      exact h.of_fifo (Fifo.polled_claim _ _)
  | publish k =>
      rcases Option.map_eq_some_iff.mp hstep with ⟨f, hf, rfl⟩
      exact h.of_fifo (Fifo.polled_of_publish hf)
  | place i =>
      rcases Option.map_eq_some_iff.mp hstep with ⟨r, _, rfl⟩
      -- The NIC makes no history.
      exact ⟨h.split, h.pending, h.site, h.posted, h.cmds, h.seqs⟩
  | complete i =>
      rcases Option.map_eq_some_iff.mp hstep with ⟨nic, _, rfl⟩
      exact ⟨h.split, h.pending, h.site, h.posted, h.cmds, h.seqs⟩
  | recv r =>
      simp only [step] at hstep
      split at hstep
      · rw [← Option.some.inj hstep]
        exact ⟨h.split, h.pending, h.site, h.posted, h.cmds, h.seqs⟩
      · exact absurd hstep (by simp only [reduceCtorEq, not_false_eq_true])
  | host a =>
      rcases Option.map_eq_some_iff.mp hstep with ⟨g, _, rfl⟩
      exact ⟨h.split, h.pending, h.site, h.posted, h.cmds, h.seqs⟩
  | stop =>
      rw [← Option.some.inj hstep]
      exact ⟨h.split, h.pending, h.site, h.posted, h.cmds, h.seqs⟩
  | hostDrain ne =>
      simp only [step] at hstep
      split at hstep
      · rw [← Option.some.inj hstep]
        exact pollNic_drainReap_order h ne
      · exact absurd hstep (by simp only [reduceCtorEq, not_false_eq_true])
  | hostReset =>
      simp only [step] at hstep
      split at hstep
      · rw [← Option.some.inj hstep]
        exact ⟨h.split, h.pending, h.site, h.posted, h.cmds, h.seqs⟩
      · exact absurd hstep (by simp only [reduceCtorEq, not_false_eq_true])
  | setEpoch epoch =>
      rw [← Option.some.inj hstep]
      exact ⟨h.split, h.pending, h.site, h.posted, h.cmds, h.seqs⟩
  | fifoReset k =>
      rw [← Option.some.inj hstep]
      exact h.of_fifo (Fifo.polled_reset _)
  | hostBarrier p slot token ok =>
      simp only [step] at hstep
      split at hstep
      · rw [← Option.some.inj hstep]
        cases ok with
        | true =>
            -- A stage barrier on its own is quiet as well.
            exact h.of_quiet rfl (by simp [Event.Quiet, Event.polled?, Event.batch]) rfl rfl rfl
              (fun _ => rfl) rfl h.site
        | false => exact ⟨h.split, h.pending, h.site, h.posted, h.cmds, h.seqs⟩
      · exact absurd hstep (by simp only [reduceCtorEq, not_false_eq_true])
  | proxy ok ne => exact proxyStep_order h hstep

theorem order_of_reaches {ok : World → Action → Prop}
    (h : Reaches (step setup) ok (init setup) w) : OrderInv setup w :=
  invariant_of_reaches (OrderInv setup) (fun _ _ _ hi _ hstep => step_order hi hstep) h order_init

/-- In every run, over any FIFOs and any outcomes of `ibv_wr_complete`: what
    was posted from a FIFO is a prefix of the WRITEs polled from it, which are
    those of the commands the FIFO says were read; every posted batch has one
    local QP and one destination; and at the top of the loop the WRITEs polled
    and not posted are the retry buffer followed by the stash. -/
theorem run_posts_in_order (h : Reaches (step setup) always (init setup) w) :
    (∀ k, (postedOf w.hist).filter (fun p => p.fifo = k) <+:
      (writesPolled w.hist).filter (fun p => p.fifo = k)) ∧
    (∀ k, (polledFrom k w.hist).map Polled.cmd = (w.fifos k).polled ∧
      (polledFrom k w.hist).map Polled.seq = List.range (w.fifos k).cpuHead) ∧
    (∀ qp slot batch wrs, Event.posted qp slot batch wrs ∈ w.hist → SameRoute setup qp batch) ∧
    (w.pc = .loop →
      writesPolled w.hist = postedOf w.hist ++ (w.pendingBatch ++ w.pendingCmd.toList)) := by
  have hi := order_of_reaches h
  refine ⟨fun k => ?_, fun k => ⟨hi.cmds k, hi.seqs k⟩, hi.posted, fun hpc => ?_⟩
  · rw [hi.split, List.filter_append]
    exact List.prefix_append _ _
  · rw [hi.split, held, hpc]
    rfl

section Sample

/-- Three WRITEs over two QPs, and a first post that fails. -/
def stashedRun : List Action :=
  pushes 0 [writeCmd 0 0, writeCmd 0 1, writeCmd 1 2] ++ goes 7 ++ [Action.proxy false 32] ++ goes 1

def stashed : World :=
  (run (step writeImmSetup) always stashedRun (init writeImmSetup)).get (by decide)

/-- At the top of the loop two WRITEs wait for the retry and one in the stash. -/
theorem run_posts_in_order_stashed :
    writesPolled stashed.hist = postedOf stashed.hist ++
      (stashed.pendingBatch ++ stashed.pendingCmd.toList) ∧
    (stashed.pendingBatch.map Polled.seq, stashed.pendingCmd.map Polled.seq) = ([0, 1], some 2) :=
  ⟨(run_posts_in_order (reaches_of_run stashedRun _ _ (Option.some_get _).symm)).2.2.2 (by decide),
    by decide⟩

end Sample

end Efa

end Internode

end MKernel
