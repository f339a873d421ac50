import MKernel.Internode.Cx7.Proxy

/-!
# The Way of a Command

What one action of anybody can do to the commands on their way through the CX7
proxy, said once.

A polled WRITE that is neither posted nor given up is in the batch or in the
stash. The stash is empty whenever the loop polls, so a polled WRITE comes after
all that are held. The filter takes strided commands out of the batch and posts
them before the rest; among themselves the strided commands keep their order,
and so do the others. `ByKind` says so: it splits a list into two that together
hold the same commands, with the order kept within each kind.

`Flow` lists the cases, with everything the invariants about order, slots and
completions need of each, and `step_flow` is the only place where the
definitions of the proxy are taken apart for them.

## Main definitions

* `held`: The WRITEs polled, and neither posted nor given up.
* `ByKind`: A split that keeps the order within each kind.
* `OneQp`: All commands of a batch are routed to its QP.
* `FlowInv`: What is in the batch and the stash, by the place in `run`.
* `Flow`: What one action does to the commands on their way.

## Theorems

* `proxyStep_flow`: One action of the proxy.
* `step_flow`: One action of anybody.
* `flowInv_of_reaches`: Every run keeps the invariant.
-/

namespace MKernel

namespace Internode

namespace Cx7

open MKernel.Core

variable {setup : Setup} {w w' : World}

/-- Whether the filter takes a command out of the batch. -/
def Setup.strided (setup : Setup) (p : Polled) : Bool :=
  setup.cfg.directDmabufEnabled && decide (p.cmd.srcView = 2)

/-- The commands of the batch, by the place in `run`. -/
def Pc.unposted : Pc → List Polled
  | .fill c => c.batch
  | .stageBarrier c _ => c.batch
  | .stageCount c _ => c.batch
  | .filter rest kept _ _ => kept ++ rest
  | .post batch _ _ => batch
  | _ => []

/-- The WRITEs polled, and neither posted nor given up. -/
def held (w : World) : List Polled := w.pc.unposted ++ w.pendingCmd.toList

/-- The commands of one kind: strided, or not. -/
def ofKind (setup : Setup) (b : Bool) (l : List Polled) : List Polled :=
  l.filter fun p => setup.strided p = b

/-- Two lists that together hold the commands of a third, with the order kept
    within each kind. -/
def ByKind (setup : Setup) (l l₁ l₂ : List Polled) : Prop :=
  ∀ b, ofKind setup b l = ofKind setup b l₁ ++ ofKind setup b l₂

@[simp] theorem ofKind_append (b : Bool) (l₁ l₂ : List Polled) :
    ofKind setup b (l₁ ++ l₂) = ofKind setup b l₁ ++ ofKind setup b l₂ :=
  List.filter_append l₁ l₂

theorem byKind_append (l₁ l₂ : List Polled) : ByKind setup (l₁ ++ l₂) l₁ l₂ :=
  fun b => ofKind_append b l₁ l₂

theorem perm_ofKind (l : List Polled) : (ofKind setup true l ++ ofKind setup false l).Perm l := by
  have hneg : ofKind setup false l = l.filter fun p => ! decide (setup.strided p = true) := by
    refine List.filter_congr fun p _ => ?_
    cases setup.strided p <;> rfl
  rw [hneg]
  exact List.filter_append_perm _ l

/-- A split by kind loses and doubles nothing. -/
theorem ByKind.perm {l l₁ l₂ : List Polled} (h : ByKind setup l l₁ l₂) : l.Perm (l₁ ++ l₂) := by
  have hkinds : ofKind setup true l ++ ofKind setup false l =
      ofKind setup true (l₁ ++ l₂) ++ ofKind setup false (l₁ ++ l₂) := by
    rw [h true, h false, ofKind_append, ofKind_append]
  exact (perm_ofKind l).symm.trans (hkinds ▸ perm_ofKind (l₁ ++ l₂))

/-- All commands of a batch are routed to its QP. -/
def OneQp (setup : Setup) (qp : Int) (batch : List Polled) : Prop :=
  setup.routed = true → ∀ p ∈ batch, setup.localQp p.cmd = qp ∧ setup.InRange qp

theorem oneQp_nil (qp : Int) : OneQp setup qp [] :=
  fun _ _ hp => absurd hp List.not_mem_nil

/-- No command of the list is strided. -/
def Plain (setup : Setup) (l : List Polled) : Prop := ∀ p ∈ l, setup.strided p = false

theorem plain_nil : Plain setup [] := fun _ hp => absurd hp List.not_mem_nil

/-- What is in the batch and the stash, by the place in `run`. -/
def SiteInv (setup : Setup) (pc : Pc) (pendingCmd : Option Polled) : Prop :=
  match pc with
  | .fill c => OneQp setup c.batchQp c.batch ∧ (pendingCmd = none ∨ ¬ Fills setup c)
  | .stageBarrier c _ => OneQp setup c.batchQp c.batch ∧ pendingCmd = none
  | .stageCount c _ => OneQp setup c.batchQp c.batch ∧ pendingCmd = none
  | .filter rest kept qp _ => OneQp setup qp (kept ++ rest) ∧ Plain setup kept ∧
      setup.cfg.directDmabufEnabled = true
  | .post batch qp _ => OneQp setup qp batch ∧ Plain setup batch
  | _ => True

/-- What is in the batch and the stash. Only routed commands are stashed. -/
structure FlowInv (setup : Setup) (w : World) : Prop where
  stash : ∀ p, w.pendingCmd = some p → setup.routed = true ∧ setup.InRange (setup.localQp p.cmd)
  site : SiteInv setup w.pc w.pendingCmd

/-- An event that neither moves a command nor begins an epoch. -/
def Event.Quiet : Event → Prop
  | .polled _ => False
  | .posted _ _ => False
  | .dropped _ => False
  | .epoch _ => False
  | _ => True

/-- A FIFO that has read the same commands and gained none, but for a claim. -/
structure Keeps (a : Action) (f g : Fifo) : Prop where
  polled : g.polled = f.polled
  claimed : ∀ cmd ∈ g.claimed, cmd ∈ f.claimed ∨ a = .claim cmd

theorem keeps_refl (a : Action) (f : Fifo) : Keeps a f f := ⟨rfl, fun _ h => Or.inl h⟩

/-- A polled command, if it is a WRITE. -/
def writeOf (p : Polled) : List Polled := if p.cmd.cmdType = .write then [p] else []

/-- What one action does to the commands on their way. -/
inductive Flow (setup : Setup) (a : Action) (w w' : World) : Prop where
  /-- No command moves. -/
  | quiet (l : List Event) (hhist : w'.hist = w.hist ++ l) (hl : ∀ e ∈ l, e.Quiet)
      (hheld : held w' = held w) (hseq : w'.senderSeq = w.senderSeq)
      (hfifo : Keeps a w.fifo w'.fifo)
  /-- A command is polled, and held if it is a WRITE. -/
  | poll (p : Polled) (f : Fifo) (hpoll : w.fifo.poll = some (p.cmd, f))
      (hpos : p.seq = w.fifo.cpuHead) (hhist : w'.hist = w.hist ++ [Event.polled p])
      (hheld : held w' = held w ++ writeOf p) (hseq : w'.senderSeq = w.senderSeq)
      (hfifo : w'.fifo = f)
  /-- A WRITE is polled whose QP is not the proxy's. -/
  | refuse (p : Polled) (f : Fifo) (hpoll : w.fifo.poll = some (p.cmd, f))
      (hpos : p.seq = w.fifo.cpuHead) (hwrite : p.cmd.cmdType = .write)
      (hqp : setup.routed = true ∧ ¬ setup.InRange (setup.localQp p.cmd))
      (hhist : w'.hist = w.hist ++ [Event.polled p, .dropped [p]]) (hheld : held w' = held w)
      (hseq : w'.senderSeq = w.senderSeq) (hfifo : w'.fifo = f)
  /-- A chain is posted. -/
  | post (batch : List Polled) (chain : Chain)
      (hhist : w'.hist = w.hist ++ [Event.posted batch chain])
      (hkind : ByKind setup (held w) batch (held w')) (hqp : OneQp setup chain.qp batch)
      (hcarries : Carries setup batch chain.wrs)
      (hann : Announces w.senderSeq w'.senderSeq chain.wrs) (hfifo : w'.fifo = w.fifo)
  /-- Commands are given up. -/
  | drop (batch : List Polled) (hne : batch ≠ [])
      (hwhy : (∃ ne, a = .proxy false ne) ∨
        ∃ p, batch = [p] ∧ setup.strided p = true ∧ ¬ StridedFits setup p.cmd)
      (hhist : w'.hist = w.hist ++ [Event.dropped batch])
      (hkind : ByKind setup (held w) batch (held w'))
      (hfifo : w'.fifo = w.fifo)
  /-- `set_epoch`. -/
  | epoch (epoch : BitVec 32) (hhist : w'.hist = w.hist ++ [Event.epoch epoch])
      (hheld : held w' = held w) (hseq : w'.senderSeq = fun _ => 0) (hfifo : w'.fifo = w.fifo)

theorem flowInv_init : FlowInv setup (init setup) where
  stash := fun p hp => absurd hp (by simp only [init, reduceCtorEq, not_false_eq_true])
  site := trivial

/-- What the loop leaves behind, and where it goes on. -/
theorem endFill_eq (setup : Setup) (w : World) (c : Collect) :
    ∃ pc, endFill setup w c = { w with pc := pc } ∧ pc.unposted = c.batch ∧
      (OneQp setup c.batchQp c.batch → ∀ cmd, SiteInv setup pc cmd) := by
  unfold endFill
  split
  · rename_i hc
    exact ⟨_, rfl, rfl, fun h _ => ⟨h, plain_nil, hc.2⟩⟩
  · rename_i hc
    refine ⟨_, rfl, rfl, fun h _ => ⟨h, fun p hp => ?_⟩⟩
    have hoff : setup.cfg.directDmabufEnabled = false := by
      cases hd : setup.cfg.directDmabufEnabled with
      | false => rfl
      | true => exact absurd ⟨List.ne_nil_of_mem hp, hd⟩ hc
    rw [Setup.strided, hoff, Bool.false_and]

/-- A polled WRITE joins the batch, is stashed behind it, or is refused. -/
theorem collectWrite_flow {c : Collect} {p : Polled} {w₁ : World} {a : Action}
    (hs : OneQp setup c.batchQp c.batch) (hn : w.pendingCmd = none) (hpc : w.pc = .fill c)
    (hp : pollFifo setup w = some (p, w₁)) (hw : p.cmd.cmdType = .write) :
    Flow setup a w (collectWrite setup w₁ c p) ∧ FlowInv setup (collectWrite setup w₁ c p) := by
  rcases pollFifo_eq_some hp with ⟨f, hpoll, hpos, rfl⟩
  have hheld : held w = c.batch := by
    rw [held, hpc, hn]
    exact List.append_nil _
  have hwo : writeOf p = [p] := if_pos hw
  -- The stash is empty, so the batch with the command at its end is all that is held.
  have hjoin : ∀ c' : Collect, c'.batch = c.batch ++ [p] → OneQp setup c'.batchQp c'.batch →
      Flow setup a w { w with fifo := f, hist := w.hist ++ [Event.polled p], pc := .fill c' } ∧
      FlowInv setup { w with fifo := f, hist := w.hist ++ [Event.polled p], pc := .fill c' } := by
    intro c' hb hqp
    refine ⟨.poll p f hpoll hpos rfl ?_ rfl rfl, fun q hq => ?_, hqp, Or.inl hn⟩
    · rw [hwo, hheld, held]
      simp only [Pc.unposted, hb, hn, Option.toList_none, List.append_nil]
    · exact absurd (hn.symm.trans hq) (by simp only [reduceCtorEq, not_false_eq_true])
  unfold collectWrite
  split
  · rename_i hr
    dsimp only
    split
    · rename_i hout
      refine ⟨.refuse p f hpoll hpos hw ⟨hr, hout⟩ (by simp) ?_ rfl rfl, fun q hq => ?_, hs,
        Or.inl hn⟩
      · rw [held, held, hpc]
      · exact absurd (hn.symm.trans hq) (by simp only [reduceCtorEq, not_false_eq_true])
    · rename_i hin
      have hin := not_not.mp hin
      split
      · rename_i hb
        refine hjoin ⟨[p], setup.localQp p.cmd, c.preInflight⟩ (by rw [hb]; rfl) fun _ q hq => ?_
        rw [List.mem_singleton.mp hq]
        exact ⟨rfl, hin⟩
      · split
        · rename_i hqp
          refine hjoin (c.push p) rfl fun _ q hq => ?_
          rcases List.mem_append.mp hq with hq | hq
          · exact hs hr q hq
          · rw [List.mem_singleton.mp hq]
            exact ⟨hqp, hqp ▸ hin⟩
        · -- The command waits in the stash, behind the batch.
          rcases endFill_eq setup
            { w with fifo := f, hist := w.hist ++ [Event.polled p], pendingCmd := some p } c with
            ⟨pc, heq, hun, hsite⟩
          rw [heq]
          refine ⟨.poll p f hpoll hpos rfl ?_ rfl rfl, fun q hq => ?_, hsite hs _⟩
          · rw [hwo, hheld, held]
            simp only [hun, Option.toList_some]
          · rw [← Option.some.inj hq]
            exact ⟨hr, hin⟩
  · rename_i hr
    exact hjoin (c.push p) rfl fun hc => absurd hc hr

/-- One turn of the collection loop. -/
theorem fillStep_flow {c : Collect} {a : Action} (h : FlowInv setup w) (hpc : w.pc = .fill c) :
    Flow setup a w (fillStep setup w c) ∧ FlowInv setup (fillStep setup w c) := by
  have hs := h.site
  rw [hpc] at hs
  have hend : Flow setup a w (endFill setup w c) ∧ FlowInv setup (endFill setup w c) := by
    rcases endFill_eq setup w c with ⟨pc, heq, hun, hsite⟩
    rw [heq]
    refine ⟨.quiet [] (List.append_nil _).symm (by simp) ?_ rfl (keeps_refl _ _), h.stash,
      hsite hs.1 _⟩
    rw [held, held, hpc]
    dsimp only
    rw [hun]
    rfl
  unfold fillStep
  split
  · rename_i hfills
    have hn : w.pendingCmd = none := by
      rcases hs.2 with hn | hc
      · exact hn
      · exact absurd hfills hc
    cases hp : pollFifo setup w with
    | none => exact hend
    | some r =>
        rcases r with ⟨p, w₁⟩
        -- A command that is not a WRITE leaves the batch as it is.
        have hother : ∀ pc, p.cmd.cmdType ≠ .write → pc.unposted = c.batch →
            SiteInv setup pc none →
            Flow setup a w { w₁ with pc := pc } ∧ FlowInv setup { w₁ with pc := pc } := by
          intro pc hty hun hsite
          rcases pollFifo_eq_some hp with ⟨f, hpoll, hpos, rfl⟩
          refine ⟨.poll p f hpoll hpos rfl ?_ rfl rfl, fun q hq => ?_, ?_⟩
          · rw [writeOf, if_neg hty, List.append_nil, held, held, hpc]
            dsimp only
            rw [hun]
            rfl
          · exact absurd (hn.symm.trans hq) (by simp only [reduceCtorEq, not_false_eq_true])
          · simp only [hn]
            exact hsite
        simp only
        cases hty : p.cmd.cmdType with
        | write => exact collectWrite_flow hs.1 hn hpc hp hty
        | barrierNotify => exact hother _ (by rw [hty]; decide) rfl ⟨hs.1, rfl⟩
        | empty => exact hother _ (by rw [hty]; decide) rfl ⟨hs.1, Or.inl rfl⟩
        | fence => exact hother _ (by rw [hty]; decide) rfl ⟨hs.1, Or.inl rfl⟩
  · exact hend

/-- Step 1 begins. The stash empties into the batch. -/
theorem collectStep_flow {a : Action} (h : FlowInv setup w) (hpc : w.pc = .collect) :
    Flow setup a w (collectStep setup w) ∧ FlowInv setup (collectStep setup w) := by
  -- Without room for the stashed command nothing is polled either.
  have hnew : (w.pendingCmd = none ∨ setup.effectiveMaxInflight ≤ w.inflight) →
      Flow setup a w { w with pc := .fill ⟨[], w.qpRrIdx, w.inflight⟩ } ∧
      FlowInv setup { w with pc := .fill ⟨[], w.qpRrIdx, w.inflight⟩ } := by
    intro hroom
    refine ⟨.quiet [] (List.append_nil _).symm (by simp) ?_ rfl (keeps_refl _ _), h.stash,
      oneQp_nil _, hroom.imp id fun hle hf => ?_⟩
    · rw [held, held, hpc]
      rfl
    · have hlt := hf.2
      simp only [List.length_nil] at hlt
      omega
  unfold collectStep
  split
  · rename_i p hr hp
    split
    · refine ⟨.quiet [] (List.append_nil _).symm (by simp) ?_ rfl (keeps_refl _ _), fun q hq => ?_,
        fun _ q hq => ?_, Or.inl rfl⟩
      · rw [held, held, hpc, hp]
        rfl
      · exact absurd hq (by simp only [reduceCtorEq, not_false_eq_true])
      · rw [List.mem_singleton.mp hq]
        exact ⟨rfl, (h.stash p hp).2⟩
    · rename_i hge
      exact hnew (Or.inr (by omega))
  · rename_i hne
    refine hnew (Or.inl ?_)
    cases hp : w.pendingCmd with
    | none => rfl
    | some p => exact absurd hp (hne p (h.stash p hp).1)

/-- One turn of the filter. -/
theorem filterStep_flow {rest kept : List Polled} {qp stridedPosted : Int} {ok : Bool} {ne : Nat}
    (h : FlowInv setup w) (hpc : w.pc = .filter rest kept qp stridedPosted) :
    Flow setup (.proxy ok ne) w (filterStep setup w rest kept qp stridedPosted ok) ∧
      FlowInv setup (filterStep setup w rest kept qp stridedPosted ok) := by
  have hs := h.site
  rw [hpc] at hs
  rcases hs with ⟨hqp, hplain, hdirect⟩
  have hheld : held w = kept ++ rest ++ w.pendingCmd.toList := by
    rw [held, hpc]
    rfl
  unfold filterStep
  cases rest with
  | nil =>
      rw [List.append_nil] at hqp hheld
      refine ⟨.quiet [] (List.append_nil _).symm (by simp) ?_ rfl (keeps_refl _ _), h.stash, hqp,
        hplain⟩
      rw [hheld]
      rfl
  | cons p rest =>
      simp only
      -- Taking a strided command out of the middle keeps the order within each kind.
      have hrest : OneQp setup qp (kept ++ rest) := fun hr q hq => by
        refine hqp hr q ?_
        rcases List.mem_append.mp hq with hq | hq
        · exact List.mem_append_left _ hq
        · exact List.mem_append_right _ (List.mem_cons_of_mem _ hq)
      have hkind : setup.strided p = true →
          ByKind setup (held w) [p] (kept ++ rest ++ w.pendingCmd.toList) := by
        intro hp b
        have hcons : kept ++ p :: rest ++ w.pendingCmd.toList =
            kept ++ [p] ++ (rest ++ w.pendingCmd.toList) := by simp
        have hswap : ofKind setup b (kept ++ [p]) = ofKind setup b ([p] ++ kept) := by
          rw [ofKind_append, ofKind_append]
          cases b with
          | true =>
              have hnil : ofKind setup true kept = [] :=
                List.filter_eq_nil_iff.mpr fun q hq => by simp [hplain q hq]
              rw [hnil, List.append_nil, List.nil_append]
          | false =>
              have hnil : ofKind setup false [p] = [] :=
                List.filter_eq_nil_iff.mpr fun q hq => by simp [List.mem_singleton.mp hq, hp]
              rw [hnil, List.append_nil, List.nil_append]
        rw [hheld, hcons, ofKind_append, hswap]
        simp only [ofKind_append, List.append_assoc]
      split
      · rename_i hview
        have hp : setup.strided p = true := by
          rw [Setup.strided, hdirect, Bool.true_and, decide_eq_true_eq]
          exact hview
        cases hc : stridedChain setup w.epoch w.senderSeq qp p with
        | none =>
            have hfit : ¬ StridedFits setup p.cmd := stridedChain_eq_none.mp hc
            exact ⟨.drop [p] (List.cons_ne_nil _ _) (Or.inr ⟨p, rfl, hp, hfit⟩) rfl (hkind hp) rfl,
              h.stash, hrest, hplain, hdirect⟩
        | some r =>
            rcases r with ⟨chain, n, senderSeq⟩
            simp only
            have hchain : chain.qp = qp := qp_stridedChain hc
            split
            · refine ⟨.post [p] chain rfl (hkind hp) (fun hr q hq => ?_) (carries_stridedChain hc)
                (announces_stridedChain hc) rfl, h.stash, hrest, hplain, hdirect⟩
              rw [hchain, List.mem_singleton.mp hq]
              exact hqp hr p (List.mem_append_right _ (.head _))
            · rename_i hok
              rw [Bool.not_eq_true] at hok
              exact ⟨.drop [p] (List.cons_ne_nil _ _) (Or.inl ⟨ne, by rw [hok]⟩) rfl (hkind hp) rfl,
                h.stash, hrest, hplain, hdirect⟩
      · rename_i hview
        have hsplit : kept ++ [p] ++ rest = kept ++ p :: rest := by simp
        refine ⟨.quiet [] (List.append_nil _).symm (by simp) ?_ rfl (keeps_refl _ _), h.stash,
          hsplit ▸ hqp, fun q hq => ?_, hdirect⟩
        · rw [hheld, held]
          simp only [Pc.unposted, hsplit]
        · rcases List.mem_append.mp hq with hq | hq
          · exact hplain q hq
          · rw [List.mem_singleton.mp hq, Setup.strided, hdirect, Bool.true_and,
              decide_eq_false_iff_not]
            exact hview

/-- Step 2. -/
theorem postStep_flow {batch : List Polled} {qp stridedPosted : Int} {ok : Bool} {ne : Nat}
    (h : FlowInv setup w) (hpc : w.pc = .post batch qp stridedPosted) :
    Flow setup (.proxy ok ne) w (postStep setup w batch qp stridedPosted ok) ∧
      FlowInv setup (postStep setup w batch qp stridedPosted ok) := by
  have hs := h.site
  rw [hpc] at hs
  have hheld : held w = batch ++ w.pendingCmd.toList := by
    rw [held, hpc]
    rfl
  unfold postStep
  split
  · rename_i hb
    -- The second pass left nothing to post.
    refine ⟨.quiet [] (List.append_nil _).symm (by simp) ?_ rfl (keeps_refl _ _), h.stash, trivial⟩
    rw [hheld, hb]
    rfl
  · rename_i hb
    dsimp only
    split
    · -- The chain carries the batch.
      refine ⟨.post batch _ rfl ?_ hs.1 carries_batchChain announces_batchChain rfl, h.stash,
        trivial⟩
      rw [hheld]
      exact byKind_append _ _
    · rename_i hok
      rw [Bool.not_eq_true] at hok
      -- The failed batch is dropped, and reported.
      refine ⟨.drop batch hb (Or.inl ⟨ne, by rw [hok]⟩) rfl ?_ rfl, h.stash, trivial⟩
      rw [hheld]
      exact byKind_append _ _

/-- An action of the proxy that moves no command. -/
theorem flow_of_quiet {a : Action} {l : List Event} (h : FlowInv setup w)
    (hhist : w'.hist = w.hist ++ l) (hl : ∀ e ∈ l, e.Quiet) (hcmd : w'.pendingCmd = w.pendingCmd)
    (hpc : w'.pc.unposted = w.pc.unposted) (hseq : w'.senderSeq = w.senderSeq)
    (hfifo : Keeps a w.fifo w'.fifo) (hsite : SiteInv setup w'.pc w.pendingCmd) :
    Flow setup a w w' ∧ FlowInv setup w' := by
  refine ⟨.quiet l hhist hl ?_ hseq hfifo, ?_, ?_⟩
  · rw [held, held, hcmd, hpc]
  · rw [hcmd]
    exact h.stash
  · rw [hcmd]
    exact hsite

theorem quiet_reaped (chains : List Chain) : ∀ e ∈ chains.map Event.reaped, e.Quiet := by
  intro e he
  rcases List.mem_map.mp he with ⟨chain, -, rfl⟩
  trivial

/-- One turn over the forward table. -/
theorem forwardStep_flow {i : Nat} {ok : Bool} {a : Action} (h : FlowInv setup w)
    (hpc : w.pc = .forward i) :
    Flow setup a w (forwardStep setup w i ok) ∧ FlowInv setup (forwardStep setup w i ok) := by
  have hnone : w.pc.unposted = [] := by rw [hpc]; rfl
  unfold forwardStep
  split
  · dsimp only
    split
    · -- No notify in the slot.
      exact flow_of_quiet (l := []) h (List.append_nil _).symm (by simp) rfl hnone.symm rfl
        (keeps_refl _ _) trivial
    · cases forwardChain setup w.epoch
        (setup.makeForwardCmdFromNotify (w.localForwardNotify w.forwardScanCursor)) with
      | none =>
          exact flow_of_quiet (l := []) h (List.append_nil _).symm (by simp) rfl hnone.symm rfl
            (keeps_refl _ _) trivial
      | some chain =>
          -- Only a call that succeeds posts the forward.
          simp only
          split
          · refine flow_of_quiet (l := [.forwarded chain]) h rfl (fun e he => ?_) rfl hnone.symm rfl
              (keeps_refl _ _) trivial
            rw [List.mem_singleton.mp he]
            trivial
          · exact flow_of_quiet (l := []) h (List.append_nil _).symm (by simp) rfl hnone.symm rfl
              (keeps_refl _ _) trivial
  · exact flow_of_quiet (l := []) h (List.append_nil _).symm (by simp) rfl hnone.symm rfl
      (keeps_refl _ _) trivial

/-- One turn of the loop in `post_stage_barrier`. -/
theorem stageBarrierStep_flow {c : Collect} {p : Nat} {ok : Bool} {a : Action}
    (h : FlowInv setup w) (hpc : w.pc = .stageBarrier c p) :
    Flow setup a w (stageBarrierStep setup w c p ok) ∧
      FlowInv setup (stageBarrierStep setup w c p ok) := by
  have hun : w.pc.unposted = c.batch := by rw [hpc]; rfl
  have hs := h.site
  rw [hpc] at hs
  unfold stageBarrierStep
  split
  · split
    · refine flow_of_quiet (l := [.stageBarrier p w.epoch]) h rfl (fun e he => ?_) rfl hun.symm rfl
        (keeps_refl _ _) hs
      rw [List.mem_singleton.mp he]
      trivial
    · exact flow_of_quiet (l := []) h (List.append_nil _).symm (by simp) rfl hun.symm rfl
        (keeps_refl _ _) hs
  · exact flow_of_quiet (l := []) h (List.append_nil _).symm (by simp) rfl hun.symm rfl
      (keeps_refl _ _) ⟨hs.1, Or.inl hs.2⟩

/-- One `ibv_poll_cq`. -/
theorem pollNic_flow {a : Action} {pc : Pc} (h : FlowInv setup w) (ne : Nat)
    (hpc : pc.unposted = w.pc.unposted) (hsite : SiteInv setup pc w.pendingCmd) :
    Flow setup a w { pollNic w ne with pc := pc } ∧
      FlowInv setup { pollNic w ne with pc := pc } := by
  rw [pollNic_eq]
  exact flow_of_quiet h rfl (quiet_reaped _) rfl hpc rfl (keeps_refl _ _) hsite

/-- One action of the proxy. -/
theorem proxyStep_flow {ok : Bool} {ne : Nat} (h : FlowInv setup w)
    (hstep : proxyStep setup w ok ne = some w') :
    Flow setup (.proxy ok ne) w w' ∧ FlowInv setup w' := by
  -- Where nothing is collected, and nothing is said about the stash.
  have hmove : ∀ (w' : World), w'.hist = w.hist → w'.pendingCmd = w.pendingCmd →
      w'.senderSeq = w.senderSeq → Keeps (.proxy ok ne) w.fifo w'.fifo →
      w'.pc.unposted = w.pc.unposted → SiteInv setup w'.pc w.pendingCmd →
      Flow setup (.proxy ok ne) w w' ∧ FlowInv setup w' := fun w' hh hc hs hf hp hsite =>
    flow_of_quiet (l := []) h (by rw [hh, List.append_nil]) (by simp) hc hp hs hf hsite
  unfold proxyStep at hstep
  cases hpc : w.pc with
  | loop | pauseGate | pausedSpin =>
      simp only [hpc, Option.some.injEq] at hstep
      rw [← hstep]
      refine hmove _ rfl rfl rfl (keeps_refl _ _) ?_ ?_
      · rw [hpc]
        dsimp only
        split <;> rfl
      · dsimp only
        split <;> trivial
  | ackStore | ackClear | forwardCount i | account count stridedPosted =>
      simp only [hpc, Option.some.injEq] at hstep
      rw [← hstep]
      exact hmove _ rfl rfl rfl (keeps_refl _ _) (by rw [hpc]; rfl) trivial
  | stridedCount stridedPosted posted =>
      simp only [hpc, Option.some.injEq] at hstep
      rw [← hstep]
      exact hmove _ rfl rfl rfl (keeps_refl _ _) (by rw [hpc]; rfl) trivial
  | forwardGate =>
      simp only [hpc] at hstep
      split at hstep <;>
        · rw [← Option.some.inj hstep]
          exact hmove _ rfl rfl rfl (keeps_refl _ _) (by rw [hpc]; rfl) trivial
  | forward i =>
      simp only [hpc, Option.some.injEq] at hstep
      rw [← hstep]
      exact forwardStep_flow h hpc
  | collect =>
      simp only [hpc, Option.some.injEq] at hstep
      rw [← hstep]
      exact collectStep_flow h hpc
  | fill c =>
      simp only [hpc, Option.some.injEq] at hstep
      rw [← hstep]
      exact fillStep_flow h hpc
  | stageBarrier c p =>
      simp only [hpc, Option.some.injEq] at hstep
      rw [← hstep]
      exact stageBarrierStep_flow h hpc
  | stageCount c p =>
      simp only [hpc, Option.some.injEq] at hstep
      have hs := h.site
      rw [hpc] at hs
      rw [← hstep]
      exact hmove _ rfl rfl rfl (keeps_refl _ _) (by rw [hpc]; rfl) hs
  | filter rest kept qp stridedPosted =>
      simp only [hpc, Option.some.injEq] at hstep
      rw [← hstep]
      exact filterStep_flow h hpc
  | post batch qp stridedPosted =>
      simp only [hpc, Option.some.injEq] at hstep
      rw [← hstep]
      exact postStep_flow h hpc
  | pollCq posted =>
      simp only [hpc, Option.some.injEq] at hstep
      rw [← hstep]
      refine pollNic_flow h ne ?_ ?_
      · rw [hpc]
        split <;> rfl
      · split <;> trivial
  | advanceTail =>
      simp only [hpc, Option.some.injEq] at hstep
      rw [← hstep]
      exact hmove _ rfl rfl rfl ⟨Fifo.polled_advanceTail _ _, fun _ hm => Or.inl hm⟩
        (by rw [hpc]; rfl) trivial
  | exitDrain =>
      simp only [hpc] at hstep
      split at hstep
      · rw [← Option.some.inj hstep]
        have hs := h.site
        have hdrain := pollNic_flow (a := .proxy ok ne) h ne rfl hs
        rwa [pollNic_eq] at hdrain ⊢
      · rw [← Option.some.inj hstep]
        exact hmove _ rfl rfl rfl (keeps_refl _ _) (by rw [hpc]; rfl) trivial
  | exited => simp only [hpc, reduceCtorEq] at hstep

/-- One action of anybody. -/
theorem step_flow (h : FlowInv setup w) {a : Action} (hstep : step setup w a = some w') :
    Flow setup a w w' ∧ FlowInv setup w' := by
  -- Most actions neither poll nor stash.
  have hkept : ∀ (w' : World), w'.hist = w.hist → w'.pendingCmd = w.pendingCmd →
      w'.senderSeq = w.senderSeq → Keeps a w.fifo w'.fifo → w'.pc = w.pc →
      Flow setup a w w' ∧ FlowInv setup w' := fun w' hh hc hs hf hp =>
    flow_of_quiet (l := []) h (by rw [hh, List.append_nil]) (by simp) hc (by rw [hp]) hs hf
      (hp ▸ h.site)
  cases a with
  | claim cmd =>
      rw [← Option.some.inj hstep]
      refine hkept _ rfl rfl rfl ⟨Fifo.polled_claim _ _, fun c hc => ?_⟩ rfl
      rcases List.mem_append.mp hc with hc | hc
      · exact Or.inl hc
      · -- The command that is claimed is the one of the action.
        rw [List.mem_singleton.mp hc]
        exact Or.inr rfl
  | publish =>
      rcases Option.map_eq_some_iff.mp hstep with ⟨f, hf, rfl⟩
      refine hkept _ rfl rfl rfl ⟨Fifo.polled_of_publish hf, fun c hc => Or.inl ?_⟩ rfl
      rwa [← (Fifo.publish_eq_some hf).1]
  | place i =>
      simp only [step, Option.ite_none_right_eq_some] at hstep
      rcases Option.map_eq_some_iff.mp hstep.2 with ⟨r, -, rfl⟩
      exact hkept _ rfl rfl rfl (keeps_refl _ _) rfl
  | complete i =>
      simp only [step, Option.ite_none_right_eq_some] at hstep
      rcases Option.map_eq_some_iff.mp hstep.2 with ⟨nic, -, rfl⟩
      exact hkept _ rfl rfl rfl (keeps_refl _ _) rfl
  | host b =>
      rcases Option.map_eq_some_iff.mp hstep with ⟨g, -, rfl⟩
      exact hkept _ rfl rfl rfl (keeps_refl _ _) rfl
  | forwardNotify slot n | stop | resetForwardNotifyTable =>
      rw [← Option.some.inj hstep]
      exact hkept _ rfl rfl rfl (keeps_refl _ _) rfl
  | hostDrain ne =>
      simp only [step, Option.ite_none_right_eq_some, Option.some.injEq] at hstep
      rw [← hstep.2]
      have hdrain := pollNic_flow (a := .hostDrain ne) h ne rfl h.site
      rwa [pollNic_eq] at hdrain ⊢
  | hostReset =>
      simp only [step, Option.ite_none_right_eq_some, Option.some.injEq] at hstep
      rw [← hstep.2]
      exact hkept _ rfl rfl rfl (keeps_refl _ _) rfl
  | setEpoch epoch =>
      rw [← Option.some.inj hstep]
      exact ⟨.epoch epoch rfl rfl rfl rfl, h.stash, h.site⟩
  | fifoReset =>
      rw [← Option.some.inj hstep]
      -- A reset leaves what was claimed and read.
      exact hkept _ rfl rfl rfl ⟨Fifo.polled_reset _, fun c hc => Or.inl (List.mem_of_mem_take hc)⟩
        rfl
  | hostBarrier p slot token =>
      simp only [step, Option.ite_none_right_eq_some, Option.some.injEq] at hstep
      rw [← hstep.2]
      refine flow_of_quiet (l := [.hostBarrier p slot token]) h rfl (fun e he => ?_) rfl rfl rfl
        (keeps_refl _ _) h.site
      rw [List.mem_singleton.mp he]
      trivial
  | proxy ok ne => exact proxyStep_flow h hstep

/-- Every run keeps the invariant of the batch and the stash. -/
theorem flowInv_of_reaches {ok : World → Action → Prop}
    (h : Reaches (step setup) ok (init setup) w) : FlowInv setup w :=
  invariant_of_reaches (FlowInv setup) (fun _ _ _ hi _ hstep => (step_flow hi hstep).2) h
    flowInv_init

end Cx7

end Internode

end MKernel
