import Mathlib.Data.List.Infix
import MKernel.Internode.Cx7.Flow

/-!
# Order in the CX7 Proxy

No WRITE is lost or doubled on its way from the FIFO to the NIC, each goes to
the QP it is routed to, and the arrival words take the slots of their logical
queues one after the other.

In any run the WRITEs polled are those posted, those given up and those held
(`OrderInv.perm`). As long as none is given up the order is kept within each
kind (`OrderInv.kinds`) and no slot is skipped (`OrderInv.slots`). A run gives
up no WRITE when `ibv_post_send` never fails, every WRITE is routed to one of
the proxy's QPs and every strided one is within the limits of its builder.

The slots are counted from the last `set_epoch`, which resets the counters, and
modulo `2 ^ 32`, which is the width of a counter. A run over two epochs uses
the first slot of a logical queue twice (`slots_reused`).

## Main definitions

* `sinceEpoch`: The history since the last `set_epoch`.
* `postedWrs`: The requests of the posted commands.
* `OrderInv`: The invariant.
* `Routable`: The WRITEs the proxy can serve.
* `Lossless`: Every WRITE can be served, and every call succeeds.

## Theorems

* `flow_order`: What any action keeps.
* `order_of_reaches`: Every run keeps the invariant.
* `lossless_of_reaches`: No WRITE is given up.
* `writes_posted_once`: What the NIC is given is what was polled.
-/

namespace MKernel

namespace Internode

namespace Cx7

open MKernel.Core

variable {setup : Setup} {w w' : World}

/-- The history since the last `set_epoch`. -/
def sinceEpoch (h : List Event) : List Event :=
  h.foldl (fun l e =>
    match e with
    | .epoch _ => []
    | e => l ++ [e]) []

def Event.wrs : Event → List SendWr
  | .posted _ chain => chain.wrs
  | _ => []

/-- The requests of the posted commands, in order. -/
def postedWrs (h : List Event) : List SendWr := h.flatMap Event.wrs

@[simp] theorem postedWrs_append (h l : List Event) :
    postedWrs (h ++ l) = postedWrs h ++ postedWrs l :=
  List.flatMap_append

theorem sinceEpoch_epoch (h : List Event) (epoch : BitVec 32) :
    sinceEpoch (h ++ [Event.epoch epoch]) = [] := by
  rw [sinceEpoch, List.foldl_append]
  rfl

theorem sinceEpoch_append (h : List Event) {l : List Event} (hl : ∀ e ∈ l, ∀ k, e ≠ .epoch k) :
    sinceEpoch (h ++ l) = sinceEpoch h ++ l := by
  induction l using List.reverseRecOn with
  | nil => rw [List.append_nil, List.append_nil]
  | append_singleton l e ih =>
      -- Only an epoch makes it start over, and the last event is none.
      have hlast := hl e (List.mem_append_right _ (.head _))
      rw [← List.append_assoc, sinceEpoch, List.foldl_append, ← sinceEpoch,
        ih fun d hd => hl d (List.mem_append_left _ hd), ← List.append_assoc]
      cases e with
      | epoch k => exact absurd rfl (hlast k)
      | _ => rfl

/-- The invariant of the commands on their way through the proxy. -/
structure OrderInv (setup : Setup) (w : World) : Prop where
  flow : FlowInv setup w
  perm : (writesPolled w.hist).Perm (postedOf w.hist ++ (droppedOf w.hist ++ held w))
  kinds : droppedOf w.hist = [] →
    ByKind setup (writesPolled w.hist) (postedOf w.hist) (held w)
  posted : ∀ batch chain, Event.posted batch chain ∈ w.hist →
    OneQp setup chain.qp batch ∧ Carries setup batch chain.wrs
  slots : droppedOf w.hist = [] →
    Announces (fun _ => 0) w.senderSeq (postedWrs (sinceEpoch w.hist))
  cmds : (polledOf w.hist).map Polled.cmd = w.fifo.polled
  seqs : (polledOf w.hist).map Polled.seq = List.range w.fifo.cpuHead

theorem order_init : OrderInv setup (init setup) where
  flow := flowInv_init
  perm := List.Perm.refl _
  kinds := fun _ _ => rfl
  posted := fun _ _ hm => absurd hm List.not_mem_nil
  slots := fun _ => announces_of_none fun _ => rfl
  cmds := rfl
  seqs := rfl

section Quiet

variable {l : List Event}

theorem polledOf_quiet (hl : ∀ e ∈ l, e.Quiet) : polledOf l = [] := by
  refine List.filterMap_eq_nil_iff.mpr fun e he => ?_
  have hq := hl e he
  cases e with
  | polled p => exact absurd hq id
  | _ => rfl

theorem postedOf_quiet (hl : ∀ e ∈ l, e.Quiet) : postedOf l = [] := by
  refine List.flatMap_eq_nil_iff.mpr fun e he => ?_
  have hq := hl e he
  cases e with
  | posted batch chain => exact absurd hq id
  | _ => rfl

theorem droppedOf_quiet (hl : ∀ e ∈ l, e.Quiet) : droppedOf l = [] := by
  refine List.flatMap_eq_nil_iff.mpr fun e he => ?_
  have hq := hl e he
  cases e with
  | dropped batch => exact absurd hq id
  | _ => rfl

theorem postedWrs_quiet (hl : ∀ e ∈ l, e.Quiet) : postedWrs l = [] := by
  refine List.flatMap_eq_nil_iff.mpr fun e he => ?_
  have hq := hl e he
  cases e with
  | posted batch chain => exact absurd hq id
  | _ => rfl

theorem ne_epoch_of_quiet (hl : ∀ e ∈ l, e.Quiet) : ∀ e ∈ l, ∀ k, e ≠ .epoch k := by
  intro e he k hk
  have hq := hl e he
  rw [hk] at hq
  exact hq

end Quiet

/-- Commands polled after those of a list are held after those held. -/
theorem ByKind.snoc {l l₁ l₂ : List Polled} (h : ByKind setup l l₁ l₂) (r : List Polled) :
    ByKind setup (l ++ r) l₁ (l₂ ++ r) := by
  intro b
  rw [ofKind_append, ofKind_append, h b, List.append_assoc]

/-- What is posted of those held comes after those posted. -/
theorem ByKind.move {l l₁ l₂ batch r : List Polled} (h : ByKind setup l l₁ l₂)
    (hb : ByKind setup l₂ batch r) : ByKind setup l (l₁ ++ batch) r := by
  intro b
  rw [ofKind_append, h b, hb b, List.append_assoc]

theorem writesPolled_polled (p : Polled) : writesPolled [Event.polled p] = writeOf p := by
  simp only [writesPolled, polledOf, Event.polled?, writeOf, List.filterMap_cons,
    List.filterMap_nil, List.filter_cons, List.filter_nil, decide_eq_true_eq]

/-- What a poll adds to the commands and positions read. -/
theorem OrderInv.read (h : OrderInv setup w) {p : Polled} {f : Fifo} {l : List Event}
    (hpoll : w.fifo.poll = some (p.cmd, f)) (hpos : p.seq = w.fifo.cpuHead)
    (hl : polledOf l = [p]) :
    (polledOf (w.hist ++ l)).map Polled.cmd = f.polled ∧
      (polledOf (w.hist ++ l)).map Polled.seq = List.range f.cpuHead := by
  rw [polledOf_append, hl, List.map_append, List.map_append, h.cmds, h.seqs,
    Fifo.polled_of_poll hpoll, (Fifo.poll_eq_some hpoll).2.2.1, List.range_succ, List.map_singleton,
    List.map_singleton, hpos]
  exact ⟨rfl, rfl⟩

/-- Nothing is polled, so the commands and positions read stay. -/
theorem OrderInv.read_none (h : OrderInv setup w) {l : List Event} (hl : polledOf l = [])
    {f : Fifo} (hf : f.polled = w.fifo.polled) :
    (polledOf (w.hist ++ l)).map Polled.cmd = f.polled ∧
      (polledOf (w.hist ++ l)).map Polled.seq = List.range f.cpuHead := by
  rw [polledOf_append, hl, List.append_nil, ← Fifo.length_polled, hf, Fifo.length_polled]
  exact ⟨h.cmds, h.seqs⟩

/-- The slots of some events that start no epoch come after those before. -/
theorem OrderInv.slots_append (h : OrderInv setup w) {l : List Event}
    (hl : ∀ e ∈ l, ∀ k, e ≠ .epoch k) (hann : Announces w.senderSeq w'.senderSeq (postedWrs l))
    (hd : droppedOf w.hist = []) :
    Announces (fun _ => 0) w'.senderSeq (postedWrs (sinceEpoch (w.hist ++ l))) := by
  rw [sinceEpoch_append _ hl, postedWrs_append]
  exact (h.slots hd).append hann

/-- What comes in joins what is held, and what leaves joins what has left. -/
theorem perm_through {α : Type*} {come posted dropped held come' posted' dropped' held' : List α}
    (h : come.Perm (posted ++ (dropped ++ held)))
    (h' : (held ++ come').Perm (posted' ++ (dropped' ++ held'))) :
    (come ++ come').Perm ((posted ++ posted') ++ ((dropped ++ dropped') ++ held')) := by
  refine (h.append_right come').trans ?_
  rw [List.append_assoc, List.append_assoc, List.append_assoc, List.append_assoc]
  refine List.Perm.append_left posted ?_
  refine (h'.append_left dropped).trans ?_
  have hswap : (dropped ++ posted').Perm (posted' ++ dropped) := List.perm_append_comm
  simpa only [List.append_assoc] using hswap.append_right (dropped' ++ held')

/-- An action that records the events `l`: what was held and what is polled is
    what is posted, given up and held then. -/
theorem OrderInv.of_append (h : OrderInv setup w) (hflow : FlowInv setup w') {l : List Event}
    (hhist : w'.hist = w.hist ++ l)
    (hperm : (held w ++ writesPolled l).Perm (postedOf l ++ (droppedOf l ++ held w')))
    (hkinds : droppedOf l = [] → ByKind setup (held w ++ writesPolled l) (postedOf l) (held w'))
    (hposted : ∀ batch chain, Event.posted batch chain ∈ l →
      OneQp setup chain.qp batch ∧ Carries setup batch chain.wrs)
    (hslots : droppedOf l = [] → droppedOf w.hist = [] →
      Announces (fun _ => 0) w'.senderSeq (postedWrs (sinceEpoch (w.hist ++ l))))
    (hread : (polledOf (w.hist ++ l)).map Polled.cmd = w'.fifo.polled ∧
      (polledOf (w.hist ++ l)).map Polled.seq = List.range w'.fifo.cpuHead) :
    OrderInv setup w' := by
  -- What is given up stays given up.
  have hnil : droppedOf w'.hist = [] → droppedOf w.hist = [] ∧ droppedOf l = [] := by
    intro hd
    rw [hhist, droppedOf_append] at hd
    exact List.append_eq_nil_iff.mp hd
  refine ⟨hflow, ?_, fun hd => ?_, fun batch chain hm => ?_, fun hd => ?_, ?_, ?_⟩
  · rw [hhist, writesPolled_append, postedOf_append, droppedOf_append]
    exact perm_through h.perm hperm
  · rw [hhist, writesPolled_append, postedOf_append]
    exact ((h.kinds (hnil hd).1).snoc _).move (hkinds (hnil hd).2)
  · rw [hhist] at hm
    rcases List.mem_append.mp hm with hm | hm
    · exact h.posted batch chain hm
    · exact hposted batch chain hm
  · rw [hhist]
    exact hslots (hnil hd).2 (hnil hd).1
  · rw [hhist]
    exact hread.1
  · rw [hhist]
    exact hread.2

/-- What any action keeps. -/
theorem flow_order {a : Action} (h : OrderInv setup w) (hf : Flow setup a w w')
    (hflow : FlowInv setup w') : OrderInv setup w' := by
  have hsame : Announces w.senderSeq w.senderSeq [] := announces_of_none fun _ => rfl
  have hone : ∀ {e : Event}, (∀ k, e ≠ .epoch k) → ∀ d ∈ [e], ∀ k, d ≠ .epoch k := by
    intro e he d hd
    rw [List.mem_singleton.mp hd]
    exact he
  cases hf with
  | quiet l hhist hl hheld hseq hfifo =>
      have hwrites : writesPolled l = [] := by rw [writesPolled, polledOf_quiet hl, List.filter_nil]
      refine h.of_append hflow hhist ?_ (fun _ => ?_) (fun _ _ hm => absurd (hl _ hm) id)
        (fun _ => h.slots_append (ne_epoch_of_quiet hl) ?_)
        (h.read_none (polledOf_quiet hl) hfifo.polled)
      · rw [hwrites, postedOf_quiet hl, droppedOf_quiet hl, hheld, List.append_nil]
        exact List.Perm.refl _
      · rw [hwrites, postedOf_quiet hl, hheld, List.append_nil]
        exact byKind_append [] _
      · rw [postedWrs_quiet hl, hseq]
        exact hsame
  | poll p f hpoll hpos hhist hheld hseq hfifo =>
      refine h.of_append hflow hhist ?_ (fun _ => ?_) (fun _ _ hm => ?_)
        (fun _ => h.slots_append (hone (by simp)) (by rw [hseq]; exact hsame)) ?_
      · rw [writesPolled_polled, hheld]
        exact List.Perm.refl _
      · rw [writesPolled_polled, hheld]
        exact byKind_append [] _
      · exact absurd (List.mem_singleton.mp hm) (by simp only [reduceCtorEq, not_false_eq_true])
      · rw [hfifo]
        exact h.read hpoll hpos rfl
  | refuse p f hpoll hpos hwrite hqp hhist hheld hseq hfifo =>
      have hwrites : writesPolled [.polled p, .dropped [p]] = [p] := by
        have hwo : writeOf p = [p] := if_pos hwrite
        rw [← hwo, ← writesPolled_polled]
        rfl
      refine h.of_append hflow hhist ?_ (fun hd => absurd hd (List.cons_ne_nil _ _))
        (fun _ _ hm => ?_) (fun hd => absurd hd (List.cons_ne_nil _ _)) ?_
      · -- What is read is given up at once.
        rw [hwrites, hheld]
        exact List.perm_append_comm
      · simp only [List.mem_cons, reduceCtorEq, List.not_mem_nil, or_self] at hm
      · rw [hfifo]
        exact h.read hpoll hpos rfl
  | post batch chain hhist hkind hqp hcarries hann hfifo =>
      have hposted : postedOf [.posted batch chain] = batch := List.append_nil _
      have hwrs : postedWrs [.posted batch chain] = chain.wrs := List.append_nil _
      have hnone : writesPolled [.posted batch chain] = [] := rfl
      have hdrop : droppedOf [.posted batch chain] = [] := rfl
      refine h.of_append hflow hhist ?_ (fun _ => ?_) (fun batch' chain' hm => ?_)
        (fun _ => h.slots_append (hone (by simp)) (by rw [hwrs]; exact hann))
        (h.read_none rfl (by rw [hfifo]))
      · rw [hposted, hnone, hdrop, List.append_nil]
        exact hkind.perm
      · rw [hposted, hnone, List.append_nil]
        exact hkind
      · rcases Event.posted.inj (List.mem_singleton.mp hm) with ⟨rfl, rfl⟩
        exact ⟨hqp, hcarries⟩
  | drop batch hne hwhy hhist hkind hfifo =>
      have hdrop : droppedOf [.dropped batch] = batch := List.append_nil _
      have hnone : writesPolled [.dropped batch] = [] := rfl
      refine h.of_append hflow hhist ?_ (fun hd => absurd (hdrop.symm.trans hd) hne)
        (fun _ _ hm => ?_) (fun hd => absurd (hdrop.symm.trans hd) hne)
        (h.read_none rfl (by rw [hfifo]))
      · rw [hdrop, hnone, List.append_nil]
        exact hkind.perm
      · exact absurd (List.mem_singleton.mp hm) (by simp only [reduceCtorEq, not_false_eq_true])
  | epoch k hhist hheld hseq hfifo =>
      refine h.of_append hflow hhist ?_ (fun _ => ?_) (fun _ _ hm => ?_) (fun _ _ => ?_)
        (h.read_none rfl (by rw [hfifo]))
      · rw [hheld]
        exact List.perm_append_comm
      · rw [hheld, show writesPolled [.epoch k] = [] from rfl, List.append_nil]
        exact byKind_append [] _
      · exact absurd (List.mem_singleton.mp hm) (by simp only [reduceCtorEq, not_false_eq_true])
      · -- The slots count from zero again.
        rw [sinceEpoch_epoch, hseq]
        exact announces_of_none fun _ => rfl

/-- One action of anybody keeps the invariant. -/
theorem step_order (h : OrderInv setup w) {a : Action} (hstep : step setup w a = some w') :
    OrderInv setup w' := by
  rcases step_flow h.flow hstep with ⟨hf, hflow⟩
  exact flow_order h hf hflow

/-- Every run keeps the invariant. -/
theorem order_of_reaches {ok : World → Action → Prop} (h : Reaches (step setup) ok (init setup) w) :
    OrderInv setup w :=
  invariant_of_reaches (OrderInv setup) (fun _ _ _ hi _ hstep => step_order hi hstep) h order_init

/-- Every command read is one of those claimed. -/
theorem OrderInv.mem_claimed (h : OrderInv setup w) {p : Polled} (hp : p ∈ polledOf w.hist) :
    p.cmd ∈ w.fifo.claimed := by
  have hm : p.cmd ∈ w.fifo.polled := h.cmds ▸ List.mem_map_of_mem hp
  exact List.mem_of_mem_take hm

/-- No WRITE is polled twice. -/
theorem OrderInv.nodup (h : OrderInv setup w) : (writesPolled w.hist).Nodup := by
  -- Their positions in the FIFO are different.
  have hseqs : ((polledOf w.hist).map Polled.seq).Nodup := h.seqs ▸ List.nodup_range
  exact hseqs.of_map.filter _

/-- What is held was polled. -/
theorem OrderInv.mem_of_held (h : OrderInv setup w) {p : Polled} (hp : p ∈ held w) :
    p ∈ writesPolled w.hist :=
  h.perm.symm.subset (List.mem_append_right _ (List.mem_append_right _ hp))

/-- The WRITEs the proxy can serve: where commands are routed their QP is one of
    its own, and if they are strided they are within the limits of
    `post_strided_direct`. -/
def Routable (setup : Setup) (cmd : TransferCmd) : Prop :=
  cmd.cmdType = .write → (setup.routed = true → setup.InRange (setup.localQp cmd)) ∧
    (setup.cfg.directDmabufEnabled = true → cmd.srcView = 2 → StridedFits setup cmd)

instance (cmd : TransferCmd) : Decidable (Routable setup cmd) :=
  inferInstanceAs (Decidable (_ → _))

/-- Every WRITE pushed can be served, and every `ibv_post_send` succeeds. -/
def Lossless (setup : Setup) (_ : World) : Action → Prop
  | .claim cmd => Routable setup cmd
  | .proxy ok _ => ok = true
  | _ => True

instance (w : World) (a : Action) : Decidable (Lossless setup w a) := by
  unfold Lossless
  apply @Action.casesOn _ a <;> intros <;> infer_instance

/-- No WRITE was given up, and none that was claimed will have to be. -/
structure LosslessInv (setup : Setup) (w : World) : Prop where
  order : OrderInv setup w
  claimed : ∀ cmd ∈ w.fifo.claimed, Routable setup cmd
  dropped : droppedOf w.hist = []

theorem step_lossless (h : LosslessInv setup w) {a : Action} (hok : Lossless setup w a)
    (hstep : step setup w a = some w') : LosslessInv setup w' := by
  rcases step_flow h.order.flow hstep with ⟨hf, hflow⟩
  refine ⟨flow_order h.order hf hflow, ?_, ?_⟩
  · cases hf with
    | quiet l hhist hl hheld hseq hfifo =>
        intro cmd hcmd
        rcases hfifo.claimed cmd hcmd with hold | rfl
        · exact h.claimed cmd hold
        · exact hok
    | poll p f hpoll hpos hhist hheld hseq hfifo =>
        rw [hfifo, (Fifo.poll_eq_some hpoll).2.1]
        exact h.claimed
    | refuse p f hpoll hpos hwrite hqp hhist hheld hseq hfifo =>
        rw [hfifo, (Fifo.poll_eq_some hpoll).2.1]
        exact h.claimed
    | post batch chain hhist hkind hqp hcarries hann hfifo =>
        rw [hfifo]
        exact h.claimed
    | drop batch hne hwhy hhist hkind hfifo =>
        rw [hfifo]
        exact h.claimed
    | epoch k hhist hheld hseq hfifo =>
        rw [hfifo]
        exact h.claimed
  · cases hf with
    | quiet l hhist hl hheld hseq hfifo =>
        rw [hhist, droppedOf_append, droppedOf_quiet hl, h.dropped]
        rfl
    | poll p f hpoll hpos hhist hheld hseq hfifo =>
        rw [hhist, droppedOf_append, h.dropped]
        rfl
    | refuse p f hpoll hpos hwrite hqp hhist hheld hseq hfifo =>
        -- A refused WRITE could not be served.
        have hmem := List.mem_of_getElem? (Fifo.poll_eq_some hpoll).1
        exact absurd ((h.claimed p.cmd hmem hwrite).1 hqp.1) hqp.2
    | post batch chain hhist hkind hqp hcarries hann hfifo =>
        rw [hhist, droppedOf_append, h.dropped]
        rfl
    | drop batch hne hwhy hhist hkind hfifo =>
        rcases hwhy with ⟨ne, rfl⟩ | ⟨p, rfl, hstrided, hfit⟩
        · exact absurd hok (by simp only [Lossless, Bool.false_eq_true, not_false_eq_true])
        · -- A strided WRITE that was polled is within limits.
          have hheld : p ∈ held w := hkind.perm.symm.subset (List.mem_append_left _ (.head _))
          rcases List.mem_filter.mp (h.order.mem_of_held hheld) with ⟨hpolled, hwrite⟩
          rw [Setup.strided, Bool.and_eq_true, decide_eq_true_eq] at hstrided
          have hroute := h.claimed p.cmd (h.order.mem_claimed hpolled) (of_decide_eq_true hwrite)
          exact absurd (hroute.2 hstrided.1 hstrided.2) hfit
    | epoch k hhist hheld hseq hfifo =>
        rw [hhist, droppedOf_append, h.dropped]
        rfl

theorem lossless_init : LosslessInv setup (init setup) where
  order := order_init
  claimed := fun _ hm => absurd hm List.not_mem_nil
  dropped := rfl

/-- Where every WRITE can be served and every call succeeds, none is given up. -/
theorem lossless_of_reaches (h : Reaches (step setup) (Lossless setup) (init setup) w) :
    LosslessInv setup w :=
  invariant_of_reaches (LosslessInv setup) (fun _ _ _ hi hok hstep => step_lossless hi hok hstep) h
    lossless_init

/-- The commands that are not strided and are routed to a QP. -/
def plainOn (setup : Setup) (qp : Int) (l : List Polled) : List Polled :=
  (ofKind setup false l).filter fun p => setup.localQp p.cmd = qp

/-- In every run in which each WRITE can be served and each call succeeds, in
    the layouts that route: each polled WRITE is posted once, on the QP it is
    routed to, or held; the WRITEs of a QP that are not strided are posted in
    FIFO order; at the top of the loop only the stash is held; and in each
    logical queue the `k`th command since the last `set_epoch` is announced in
    slot `k` modulo `2 ^ 32`. -/
theorem writes_posted_once (hr : setup.routed = true)
    (h : Reaches (step setup) (Lossless setup) (init setup) w) :
    (writesPolled w.hist).Nodup ∧
    (writesPolled w.hist).Perm (postedOf w.hist ++ held w) ∧
    (w.pc = .loop → held w = w.pendingCmd.toList) ∧
    (∀ batch chain, Event.posted batch chain ∈ w.hist → Carries setup batch chain.wrs ∧
      ∀ p ∈ batch, setup.cfg.qpBaseIdx + chain.qp = setup.routeGlobalQp p.cmd ∧
        setup.InRange chain.qp) ∧
    (∀ qp, plainOn setup qp (postedOf w.hist) <+: plainOn setup qp (writesPolled w.hist)) ∧
    ∀ q, slotsIn q (postedWrs (sinceEpoch w.hist)) =
      slotsFrom 0 (slotsIn q (postedWrs (sinceEpoch w.hist))).length := by
  have hi := lossless_of_reaches h
  refine ⟨hi.order.nodup, ?_, fun hpc => ?_, fun batch chain hm => ?_, fun qp => ?_, fun q => ?_⟩
  · have hperm := hi.order.perm
    rwa [hi.dropped, List.nil_append] at hperm
  · rw [held, hpc]
    rfl
  · rcases hi.order.posted batch chain hm with ⟨hqp, hcarries⟩
    refine ⟨hcarries, fun p hp => ?_⟩
    rcases hqp hr p hp with ⟨heq, hin⟩
    refine ⟨?_, hin⟩
    -- The local number of a QP is its global one less the base.
    rw [← heq, Setup.localQp]
    omega
  · -- Of one kind, what is held comes after what is posted.
    rw [plainOn, plainOn, hi.order.kinds hi.dropped false, List.filter_append]
    exact List.prefix_append _ _
  · exact (hi.order.slots hi.dropped q).1

section Sample

/-- Three plain WRITEs, and two strided ones, over two QPs. -/
def mixed : World :=
  (run (step sampleSetup) (Lossless sampleSetup)
    (pushes [writeCmd 0 0, stridedCmd 0 1, writeCmd 0 2, writeCmd 1 3, stridedCmd 1 4] ++ goes 17)
    (init sampleSetup)).get (by decide +kernel)

/-- After one iteration the strided WRITE was posted first, and the WRITE of
    the other QP waits in the stash. -/
theorem writes_posted_once_mixed :
    held mixed = mixed.pendingCmd.toList ∧
    ((postedOf mixed.hist).map Polled.seq, mixed.pendingCmd.map Polled.seq) = ([1, 0, 2], some 3) :=
  ⟨(writes_posted_once rfl (reaches_of_run _ _ _ (Option.some_get _).symm)).2.2.1
    (by decide +kernel), by decide +kernel⟩

/-- One WRITE, a new epoch, and one more WRITE of the same lane. -/
def twoEpochs : World :=
  (run (step sampleSetup) (Lossless sampleSetup)
    (pushes [writeCmd 0 0] ++ goes 9 ++ [Action.place 0, .complete 0] ++ goes 4 ++
      [Action.host .pause] ++ goes 3 ++
      [Action.host .acked, .hostReset, .setEpoch 2, .fifoReset, .host .resume, .host .unpause] ++
      pushes [writeCmd 0 0] ++ goes 11)
    (init sampleSetup)).get (by decide +kernel)

/-- Over a whole run the slots of a logical queue are not the numbers from zero
    on: a new epoch starts over. -/
theorem slots_reused :
    ¬ ∀ (setup : Setup) (w : World), setup.routed = true →
      Reaches (step setup) (Lossless setup) (init setup) w →
      ∀ q, slotsIn q (postedWrs w.hist) =
        slotsFrom 0 (slotsIn q (postedWrs w.hist)).length := by
  intro h
  have hrun := h sampleSetup twoEpochs rfl (reaches_of_run _ _ _ (Option.some_get _).symm) 0
  exact absurd hrun (by decide +kernel)

end Sample

end Cx7

end Internode

end MKernel
