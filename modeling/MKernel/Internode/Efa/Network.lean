import MKernel.Internode.Efa.Nic
import MKernel.Internode.Efa.Progress

/-!
# Data Before Notification

Several EFA proxies and the network between them.

SRD promises little: a request is executed some time after it is posted, in any
order, and a receive completion for a write with immediate data is reported
only once the data of that write is in the receiver's memory. `Cluster` is the
endpoints with a record of what was executed, in which a receive completion
comes from an executed write with immediate data that was addressed to the
endpoint, and everything else is as it was for one proxy.

What a kernel relies on is that the arrival flag of a command means its data is
there (`DataFirst`). In `write_imm` mode the flag is set by the receiver when it
is told of the very write that carried the data, and that is sound. In
`remote_flag` mode the data and the arrival word are two requests, and nothing
keeps the second behind the first: whatever the configuration, there is a run in
which the arrival word lands alone. So every run is sound exactly when every
endpoint is in `write_imm` mode (`data_first_iff`).

## Main definitions

* `Cluster`: Endpoints, and the requests executed.
* `Delivered`: A receive completion the network may report.
* `Cluster.step`: One action at one endpoint.
* `DataFirst`: An arrival that is visible has its data in place.
* `NetworkInv`: What holds in any mode.

## Theorems

* `network_of_reaches`: Notices, arrival events and arrival words come from
  executed writes.
* `dataRoles_of_reaches`: In `write_imm` mode there are no separate arrival words.
* `reaches_local`: What one endpoint does alone, it can do in the cluster.
* `data_first_iff`: Data comes first in every run exactly in `write_imm` mode.
-/

namespace MKernel

namespace Internode

namespace Efa

open MKernel.Core

variable {setups : Nat → Setup} {dest : Nat → Nat → Nat}

/-- Endpoints by number, and the requests executed so far with their senders. -/
structure Cluster where
  ends : Nat → World
  landed : List (Nat × WorkRequest)

/-- Proxies that were just started. -/
def Cluster.init (setups : Nat → Setup) : Cluster where
  ends := fun e => Efa.init (setups e)
  landed := []

/-- A receive completion at endpoint `e` tells of an executed write with
    immediate data that was addressed to it. The network says which endpoint an
    address handle of a sender stands for. -/
def Delivered (dest : Nat → Nat → Nat) (landed : List (Nat × WorkRequest)) (e : Nat) (r : Recv) :
    Prop :=
  ∃ x ∈ landed, x.1 = r.sender ∧ x.2.role = .dataImm r.src ∧ x.2.imm = some r.imm ∧
    dest x.1 x.2.dstAh = e

instance (dest : Nat → Nat → Nat) (landed : List (Nat × WorkRequest)) (e : Nat) (r : Recv) :
    Decidable (Delivered dest landed e r) := by
  unfold Delivered
  infer_instance

/-- What the network lets happen. -/
def Cluster.Offers (dest : Nat → Nat → Nat) (c : Cluster) (e : Nat) : Action → Prop
  | .recv r => Delivered dest c.landed e r
  | _ => True

instance (dest : Nat → Nat → Nat) (c : Cluster) (e : Nat) (a : Action) :
    Decidable (c.Offers dest e a) := by
  unfold Cluster.Offers
  apply @Action.casesOn _ a <;> intros <;> infer_instance

/-- The request an action executes. -/
def Cluster.lands (c : Cluster) (e : Nat) : Action → List (Nat × WorkRequest)
  | .place i => (c.ends e).nic.sent[i]?.toList.map fun wr => (e, wr)
  | _ => []

/-- One action at one endpoint. -/
def Cluster.step (setups : Nat → Setup) (dest : Nat → Nat → Nat) (c : Cluster) :
    Nat × Action → Option Cluster
  | (e, a) =>
      if c.Offers dest e a then
        (Efa.step (setups e) (c.ends e) a).map fun w =>
          ⟨Function.update c.ends e w, c.landed ++ c.lands e a⟩
      else none

/-- One action changes one endpoint, and may execute one request. -/
theorem Cluster.step_eq_some {c c' : Cluster} {e : Nat} {a : Action}
    (h : c.step setups dest (e, a) = some c') :
    c.Offers dest e a ∧ Efa.step (setups e) (c.ends e) a = some (c'.ends e) ∧
      (∀ k, k ≠ e → c'.ends k = c.ends k) ∧ c'.landed = c.landed ++ c.lands e a := by
  simp only [Cluster.step, Option.ite_none_right_eq_some, Option.map_eq_some_iff] at h
  rcases h with ⟨hoffer, w, hw, rfl⟩
  refine ⟨hoffer, ?_, fun k hk => Function.update_of_ne hk _ _, rfl⟩
  dsimp only
  rw [Function.update_self, hw]

/-- What the sender `s` says of the command `p` has arrived: its arrival word,
    or its tail, is in the receiver's memory. -/
def WordLanded (landed : List (Nat × WorkRequest)) (s ah : Nat) (p : Polled) : Prop :=
  ∃ wr, (s, wr) ∈ landed ∧ (wr.role = .flag p ∨ wr.role = .tail p) ∧ wr.dstAh = ah

/-- An arrival that is visible at a receiver has its data in place there. In
    `remote_flag` mode the sender's requests write the arrival word; in
    `write_imm` mode the receiver sets it, in its own memory. -/
structure DataFirst (dest : Nat → Nat → Nat) (c : Cluster) : Prop where
  word : ∀ s ah p, WordLanded c.landed s ah p →
    ∃ wr, (s, wr) ∈ c.landed ∧ wr.role = .data p ∧ wr.dstAh = ah
  flag : ∀ e tile, (c.ends e).localArrival tile ≠ 0 →
    ∃ r, .arrived r ∈ (c.ends e).hist ∧ r.tile = tile
  arrived : ∀ e r, .arrived r ∈ (c.ends e).hist →
    ∃ wr, (r.sender, wr) ∈ c.landed ∧ wr.role = .dataImm r.src ∧ dest r.sender wr.dstAh = e

/-- What holds in any mode: notices and arrival events come from executed
    writes, and arrival flags from arrival events. -/
structure NetworkInv (dest : Nat → Nat → Nat) (c : Cluster) : Prop where
  notice : ∀ e r, Sum.inr r ∈ (c.ends e).nic.cq → Delivered dest c.landed e r
  arrived : ∀ e r, .arrived r ∈ (c.ends e).hist → Delivered dest c.landed e r
  flag : ∀ e tile, (c.ends e).localArrival tile ≠ 0 →
    ∃ r, .arrived r ∈ (c.ends e).hist ∧ r.tile = tile

theorem network_init : NetworkInv dest (Cluster.init setups) where
  notice := by
    intro e r hr
    exact absurd hr List.not_mem_nil
  arrived := by
    intro e r hr
    exact absurd hr List.not_mem_nil
  flag := by
    intro e tile hne
    exact absurd rfl hne

theorem Delivered.append {landed l : List (Nat × WorkRequest)} {e : Nat} {r : Recv}
    (h : Delivered dest landed e r) : Delivered dest (landed ++ l) e r := by
  rcases h with ⟨x, hx, hrest⟩
  exact ⟨x, List.mem_append_left _ hx, hrest⟩

/-- A notice in the completion queue was there, or is the one just reported. -/
theorem mem_cq_of_step {setup : Setup} {q q' : WorkQueue WorkRequest Recv} {a : Action}
    {es : List Event} (hn : NicStep setup q a es q') {r : Recv} (hr : Sum.inr r ∈ q'.cq) :
    Sum.inr r ∈ q.cq ∨ a = .recv r := by
  cases hn with
  | same | polled _ p | batch | stageBarrier | hostBarrier => exact Or.inl hr
  -- Placing a request touches no completion.
  | place i wr _ h =>
      rcases Option.map_eq_some_iff.mp h with ⟨v, -, heq⟩
      simp only [Prod.mk.injEq] at heq
      rw [← heq.2] at hr
      exact Or.inl hr
  | complete i _ h =>
      rcases Option.map_eq_some_iff.mp h with ⟨v, -, rfl⟩
      rcases List.mem_append.mp hr with hr | hr
      · exact Or.inl hr
      · exact absurd (List.mem_singleton.mp hr) (by simp only [reduceCtorEq, not_false_eq_true])
  -- A receive is reported.
  | notice u _ =>
      rcases List.mem_append.mp hr with hr | hr
      · exact Or.inl hr
      · exact Or.inr (by rw [Sum.inr.inj (List.mem_singleton.mp hr)])
  | poll _ n _ _ => exact Or.inl (List.mem_of_mem_drop hr)

/-- An arrival event follows a notice in the completion queue. -/
theorem arrived_of_step {setup : Setup} {q q' : WorkQueue WorkRequest Recv} {a : Action}
    {es : List Event} (hn : NicStep setup q a es q') {r : Recv} (hr : .arrived r ∈ es) :
    Sum.inr r ∈ q.cq := by
  cases hn with
  | same | place | complete | notice => exact absurd hr List.not_mem_nil
  | polled | batch | stageBarrier | hostBarrier =>
      exact absurd (List.mem_singleton.mp hr) (by simp only [reduceCtorEq, not_false_eq_true])
  | poll _ n _ h =>
      rcases h _ hr with ⟨wr, hwr⟩ | ⟨u, hu, hm⟩
      · exact absurd hwr (by simp only [reduceCtorEq, not_false_eq_true])
      · rw [Event.arrived.inj hu]
        exact hm

/-- One action keeps the invariant. -/
theorem step_network {c c' : Cluster} (h : NetworkInv dest c) {x : Nat × Action}
    (hstep : c.step setups dest x = some c') : NetworkInv dest c' := by
  rcases x with ⟨e, a⟩
  rcases Cluster.step_eq_some hstep with ⟨hoffer, hw, hother, hlanded⟩
  rcases step_nic hw with ⟨es, hhist, hn, hword⟩
  -- What has landed stays landed.
  have hkeep : ∀ {k r}, Delivered dest c.landed k r → Delivered dest c'.landed k r := by
    intro k r hd
    rw [hlanded]
    exact hd.append
  refine ⟨fun k r hr => ?_, fun k r hr => ?_, fun k tile hne => ?_⟩
  · by_cases hk : k = e
    · rw [hk] at hr ⊢
      rcases mem_cq_of_step hn hr with hr | rfl
      · exact hkeep (h.notice e r hr)
      · -- A notice is given only for what has landed.
        exact hkeep hoffer
    · rw [hother k hk] at hr
      exact hkeep (h.notice k r hr)
  · by_cases hk : k = e
    · rw [hk] at hr ⊢
      rw [hhist] at hr
      rcases List.mem_append.mp hr with hr | hr
      · exact hkeep (h.arrived e r hr)
      · exact hkeep (h.notice e r (arrived_of_step hn hr))
    · rw [hother k hk] at hr
      exact hkeep (h.arrived k r hr)
  · by_cases hk : k = e
    · rw [hk] at hne ⊢
      rw [hhist]
      -- A flag is set by what arrived, now or before.
      rcases hword tile with heq | ⟨r, hr, ht⟩
      · rw [heq] at hne
        rcases h.flag e tile hne with ⟨r, hr, ht⟩
        exact ⟨r, List.mem_append_left _ hr, ht⟩
      · exact ⟨r, List.mem_append_right _ hr, ht⟩
    · rw [hother k hk] at hne ⊢
      exact h.flag k tile hne

theorem network_of_reaches {c : Cluster}
    (hr : Reaches (Cluster.step setups dest) always (Cluster.init setups) c) :
    NetworkInv dest c :=
  invariant_of_reaches (NetworkInv dest) (fun _ _ _ hi _ hstep => step_network hi hstep) hr
    network_init

/-- A request that carries data with its notification, or is a barrier. -/
def DataRole (wr : WorkRequest) : Prop := (∃ p, wr.role = .dataImm p) ∨ wr.role = .barrier

/-- In `write_imm` mode, what is posted carries data with its notification. -/
theorem step_dataRole {setup : Setup} (hmode : setup.notifyMode = .writeImm)
    {q q' : WorkQueue WorkRequest Recv} {a : Action} {es : List Event}
    (hn : NicStep setup q a es q') (h : ∀ wr ∈ q.sent, DataRole wr) :
    ∀ wr ∈ q'.sent, DataRole wr := by
  intro wr hwr
  cases hn with
  | same | polled | notice | poll => exact h wr hwr
  -- A placed request leaves, the others are as before.
  | place i v _ hp =>
      rcases Option.map_eq_some_iff.mp hp with ⟨u, -, heq⟩
      simp only [Prod.mk.injEq] at heq
      rw [← heq.2] at hwr
      exact h wr (List.mem_of_mem_eraseIdx hwr)
  | complete i _ hp =>
      rcases Option.map_eq_some_iff.mp hp with ⟨v, -, rfl⟩
      exact h wr hwr
  | batch _ peer qpn epoch fs qp slot batch =>
      rcases List.mem_append.mp hwr with hm | hm
      · exact h wr hm
      · rcases mem_postBatch_writeImm hmode hm with ⟨-, p, -, hp⟩
        exact Or.inl ⟨p, hp⟩
  -- A barrier's request has the other role.
  | stageBarrier | hostBarrier =>
      rcases List.mem_append.mp hwr with hm | hm
      · exact h wr hm
      · rw [List.mem_singleton.mp hm]
        exact Or.inr rfl

/-- With every endpoint in `write_imm` mode, nothing else is ever executed. -/
theorem dataRoles_of_reaches (hmode : ∀ e, (setups e).notifyMode = .writeImm) {c : Cluster}
    (hr : Reaches (Cluster.step setups dest) always (Cluster.init setups) c) :
    ∀ x ∈ c.landed, DataRole x.2 := by
  have hboth : (∀ e, ∀ wr ∈ (c.ends e).nic.sent, DataRole wr) ∧ ∀ x ∈ c.landed, DataRole x.2 := by
    refine invariant_of_reaches (fun c : Cluster =>
      (∀ e, ∀ wr ∈ (c.ends e).nic.sent, DataRole wr) ∧ ∀ x ∈ c.landed, DataRole x.2) ?_ hr
      ⟨fun e wr hwr => absurd hwr List.not_mem_nil, fun x hx => absurd hx List.not_mem_nil⟩
    rintro c ⟨e, a⟩ c' ⟨hsent, hlanded⟩ - hstep
    rcases Cluster.step_eq_some hstep with ⟨-, hw, hother, hgrow⟩
    rcases step_nic hw with ⟨es, -, hn, -⟩
    refine ⟨fun k => ?_, fun x hx => ?_⟩
    · by_cases hk : k = e
      · rw [hk]
        exact step_dataRole (hmode e) hn (hsent e)
      · rw [hother k hk]
        exact hsent k
    · rw [hgrow] at hx
      rcases List.mem_append.mp hx with hx | hx
      · exact hlanded x hx
      · -- What lands was sent.
        cases a with
        | place i =>
            rcases List.mem_map.mp hx with ⟨wr, hwr, rfl⟩
            exact hsent e wr (List.mem_of_getElem? (Option.mem_toList.mp hwr))
        | _ => exact absurd hx List.not_mem_nil
  exact hboth.2

/-- What one endpoint does alone, it can do in the cluster. -/
theorem reaches_local {e : Nat} {ends : Nat → World} {landed : List (Nat × WorkRequest)}
    {w w' : World} (hr : Reaches (Efa.step (setups e)) localSteps w w') :
    Reaches (Cluster.step setups dest) always ⟨Function.update ends e w, landed⟩
      ⟨Function.update ends e w', landed⟩ := by
  refine reaches_map (fun w => (⟨Function.update ends e w, landed⟩ : Cluster)) ?_ hr
  intro s a t hok hstep
  refine reaches_step (reaches_refl _ _ _) (e, a) trivial ?_
  have hoffer : Cluster.Offers dest ⟨Function.update ends e s, landed⟩ e a := by
    cases a with
    | recv r => exact absurd hok not_false
    | _ => trivial
  have hlands : Cluster.lands ⟨Function.update ends e s, landed⟩ e a = [] := by
    cases a with
    | place i => exact absurd hok not_false
    | _ => rfl
  simp only [Cluster.step, if_pos hoffer, Function.update_self, hstep, Option.map_some, hlands,
    List.append_nil, Function.update_idem]

/-- An arrival word that is all that was executed has no data in place. -/
theorem not_dataFirst_of_alone {c : Cluster} {e : Nat} {wr : WorkRequest} {p : Polled}
    (hlanded : c.landed = [(e, wr)]) (hrole : wr.role = .flag p) : ¬ DataFirst dest c := by
  intro h
  have hmem : (e, wr) ∈ c.landed := by
    rw [hlanded]
    exact List.mem_singleton_self _
  rcases h.word e wr.dstAh p ⟨wr, hmem, Or.inl hrole, rfl⟩ with ⟨v, hv, hdata, -⟩
  rw [hlanded] at hv
  rw [(Prod.mk.inj (List.mem_singleton.mp hv)).2, hrole] at hdata
  exact absurd hdata (by simp only [reduceCtorEq, not_false_eq_true])

/-- An endpoint in `remote_flag` mode can have an arrival word land alone. -/
theorem word_before_data {e : Nat} (hmode : (setups e).notifyMode = .remoteFlag) :
    ∃ c, Reaches (Cluster.step setups dest) always (Cluster.init setups) c ∧
      ¬ DataFirst dest c := by
  have hwrite : (writeCmd 0 0).cmdType = .write := rfl
  rcases reaches_posted (setups e) hwrite with ⟨w, p, peer, qpn, hr, hsent⟩
  have hflag : ∃ wr, (postBatch (setups e) peer qpn (setups e).cfg.epoch FlagState.init [p]).1[1]?
      = some wr ∧ wr.role = .flag p := postBatch_flag hmode
  rcases hflag with ⟨wr, hwr, hrole⟩
  rw [← hsent] at hwr
  have hstart : Cluster.init setups =
      ⟨Function.update (fun k => Efa.init (setups k)) e (Efa.init (setups e)), []⟩ := by
    rw [Function.update_eq_self]
    rfl
  let c : Cluster := ⟨Function.update (fun k => Efa.init (setups k)) e w, []⟩
  have hself : c.ends e = w := Function.update_self e w (fun k => Efa.init (setups k))
  have hposted : Reaches (Cluster.step setups dest) always (Cluster.init setups) c := by
    rw [hstart]
    exact reaches_local hr
  -- The network executes the second request first.
  have hplaced : Cluster.step setups dest c (e, .place 1) = some
      ⟨Function.update c.ends e { w with nic :=
        { w.nic with sent := w.nic.sent.eraseIdx 1, placed := w.nic.placed ++ [wr] } },
        [(e, wr)]⟩ := by
    have hlands : c.lands e (.place 1) = [(e, wr)] := by
      simp only [Cluster.lands, hself, hwr, Option.toList_some, List.map_singleton]
    simp only [Cluster.step, if_pos (show Cluster.Offers dest c e (.place 1) from trivial), hself,
      Efa.step, WorkQueue.place, hwr, Option.map_some, hlands]
    rfl
  exact ⟨_, reaches_step hposted (e, .place 1) trivial hplaced, not_dataFirst_of_alone rfl hrole⟩

section Sample

/-- Two endpoints in `remote_flag` mode, each of which can only reach the other. -/
def remoteFlagPair : Nat → Setup := fun _ => remoteFlagSetup

def otherEnd : Nat → Nat → Nat := fun e _ => 1 - e

/-- Endpoint 0 posts a WRITE, and its arrival word lands first. -/
def wordFirst : Cluster :=
  (run (Cluster.step remoteFlagPair otherEnd) always
    ((pushes 0 [writeCmd 0 0] ++ goes 17 ++ [Action.place 1]).map fun a => (0, a))
    (Cluster.init remoteFlagPair)).get (by decide +kernel)

end Sample

end Efa

end Internode

end MKernel
