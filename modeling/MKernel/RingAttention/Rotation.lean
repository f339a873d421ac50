import MKernel.Core.SmallNumbers
import MKernel.RingAttention.Progress

/-!
# Every Shard Once

What the buffers of the ring hold in each stage.

That they hold what goes around in the round is an invariant of the phases (`Good`). In a
stage the one half holds the data of the stage on every GPU, and what has been moved to
the other half is of the data of the next stage. `kv_copy` fills `K0` and `V0`, and so the
first stage of a round has to be an even one, which it is for an even number of GPUs.

What `kv_copy` finds is the shard of the peer (`recv_shard`), where the commands of the
peers carry their shards as these were at the push (`Delivered`) and the bytes of the
peers fit into an `int` (`Setup.Fits`). With more bytes the product for the last slots
wraps, and `kv_copy` reads from before the receive buffer (`not_consumed_four`).

## Main definitions

* `roundData`: What goes around the GPUs in a round.
* `Holds`: The half of a stage holds the data of the stage.
* `target`: What the vectors that are written in a phase are to hold.
* `Good`: What the buffers hold in a phase.
* `InPhase`, `Inv`: The node is in a phase, whatever the skew of its GPUs.

## Theorems

* `written_target`: What is written is what is to be there.
* `good_follows`: What is good at the end of a phase is good for the next.
* `inv_step`: The invariant of all runs.
* `consumed_once`: Every GPU attends to every shard once.
* `not_consumed_four`: Otherwise it may attend to none.
-/

namespace MKernel

namespace RingAttention

namespace Rotation

open MKernel.Core
open MKernel.Internode (peerRankForSlot slotAtPeer)

variable {setup : Setup} {α : Type*} {c : Contents setup α}

/-! ## What the buffers hold -/

/-- What goes around the GPUs in a round: the shards of the node itself, and then what each
    `kv_copy` finds. -/
def roundData (c : Contents setup α) (round : Nat) (d : Fin setup.numDevices) (side : Side)
    (vec : Nat) : α :=
  match round with
  | 0 => c.shard setup.nodeIdx d side vec
  | p + 1 => c.recvBuf d (recvVec setup p side vec)

/-- On every GPU the half of a stage holds the data of the stage. -/
def Holds (c : Contents setup α) (mem : Cell setup → α) (stage : Nat) : Prop :=
  ∀ d side vec, setup.Attended vec → mem ⟨d, side, stage % 2, vec⟩ =
    roundData c (stage / setup.numDevices) (shardDev d stage) side vec

/-- What a vector that is written in a phase is to hold. `kv_send` writes none. -/
def target (c : Contents setup α) : Kernel → Cell setup → α
  | .stage stage, x =>
      roundData c (stage / setup.numDevices) (shardDev x.dev (stage + 1)) x.side x.vec
  | .kvCopy peerSlot, x => roundData c (peerSlot + 1) x.dev x.side x.vec
  | _, x => roundData c 0 x.dev x.side x.vec

/-- What is there for the kernels of a phase. `kv_copy` reads the receive buffers only. -/
def Readable (c : Contents setup α) (mem : Cell setup → α) : Kernel → Prop
  | .kvSend => Holds c mem 0
  | .stage stage => Holds c mem stage
  | _ => True

/-- What the buffers hold in a phase, of which `carried` has been carried out. -/
structure Good (c : Contents setup α) (k : Kernel) (mem : Cell setup → α)
    (carried : Fin setup.numDevices → Item → Prop) : Prop where
  readable : Readable c mem k
  carried : ∀ d i, i ∈ setup.items k → carried d i → ∀ x, (written c d mem k i x).isSome →
    mem x = target c k x

theorem isSome_written (mem : Cell setup → α) {mem' : Cell setup → α} {d : Fin setup.numDevices}
    {k : Kernel} {i : Item} {x : Cell setup} :
    (written c d mem' k i x).isSome = (written c d mem k i x).isSome := by
  unfold written
  split
  · split <;> rfl
  · rfl
  · rfl

/-- A tile is moved to the other half of the next GPU. -/
theorem written_stage {d : Fin setup.numDevices} {mem : Cell setup → α} {s : Nat} {i : Item}
    {x : Cell setup} {y : α} (h : written c d mem (.stage s) i x = some y) :
    ∃ t, i = .move x.side t ∧ x.dev = dstDev d ∧ x.half = (s + 1) % 2 ∧ setup.InTask t x.vec ∧
      y = mem ⟨d, x.side, s % 2, x.vec⟩ := by
  cases i with
  | move side t =>
      simp only [written] at h
      split at h
      · rename_i hx
        rcases hx with ⟨hdev, hside, hhalf, htask⟩
        exact ⟨t, by rw [hside], hdev, hhalf, htask, (Option.some.inj h).symm⟩
      · exact absurd h (by simp only [reduceCtorEq, not_false_eq_true])
  | _ => exact absurd h (by simp only [written, reduceCtorEq, not_false_eq_true])

/-- A chunk is copied from the receive buffer. -/
theorem written_kvCopy {d : Fin setup.numDevices} {mem : Cell setup → α} {p : Nat} {i : Item}
    {x : Cell setup} {y : α} (h : written c d mem (.kvCopy p) i x = some y) :
    ∃ chunk, i = .copy chunk ∧ x.dev = d ∧ x.half = 0 ∧ setup.InChunk chunk x.side x.vec ∧
      y = c.recvBuf d (recvVec setup p x.side x.vec) := by
  cases i with
  | copy chunk =>
      simp only [written] at h
      split at h
      · rename_i hx
        rcases hx with ⟨hdev, hhalf, hchunk⟩
        exact ⟨chunk, rfl, hdev, hhalf, hchunk, (Option.some.inj h).symm⟩
      · exact absurd h (by simp only [reduceCtorEq, not_false_eq_true])
  | _ => exact absurd h (by simp only [written, reduceCtorEq, not_false_eq_true])

/-- What is written in a phase is what is to be there. -/
theorem written_target {d : Fin setup.numDevices} {mem : Cell setup → α} {k : Kernel}
    (hread : Readable c mem k) {i : Item} (hi : i ∈ setup.items k) {x : Cell setup} {y : α}
    (h : written c d mem k i x = some y) : y = target c k x := by
  cases k with
  | stage s =>
      rcases written_stage h with ⟨t, rfl, hdev, _, htask, rfl⟩
      have hall : setup.Attended x.vec := attended_iff.mpr ⟨t, mem_items_move.mp hi, htask⟩
      simp only [target, hdev, shardDev_dstDev]
      exact hread d x.side x.vec hall
  | kvCopy p =>
      rcases written_kvCopy h with ⟨chunk, rfl, hdev, _, _, rfl⟩
      simp only [target, hdev, roundData]
  | kvSend => exact absurd h (by simp only [written, reduceCtorEq, not_false_eq_true])
  | _ => exact absurd hi List.not_mem_nil

/-- A stage does not write to what it reads. -/
theorem Readable.write {mem mem' : Cell setup → α} {k : Kernel} (h : Readable c mem k)
    (hmem : ∀ x, mem' x = mem x ∨ ∃ d i, written c d mem k i x = some (mem' x)) :
    Readable c mem' k := by
  cases k with
  | kvSend =>
      intro d side vec hvec
      rcases hmem ⟨d, side, 0 % 2, vec⟩ with heq | ⟨e, i, hw⟩
      · rw [heq]
        exact h d side vec hvec
      · exact absurd hw (by simp only [written, reduceCtorEq, not_false_eq_true])
  | stage s =>
      intro d side vec hvec
      rcases hmem ⟨d, side, s % 2, vec⟩ with heq | ⟨e, i, hw⟩
      · rw [heq]
        exact h d side vec hvec
      · rcases written_stage hw with ⟨_, _, _, hhalf, _, _⟩
        simp only at hhalf
        omega
  | _ => trivial

section Good

variable {k k' : Kernel} {mem mem' : Cell setup → α}
  {carried carried' : Fin setup.numDevices → Item → Prop}

theorem Good.mono (h : Good c k mem carried)
    (hcarried : ∀ d i, i ∈ setup.items k → carried' d i → carried d i) : Good c k mem carried' :=
  ⟨h.readable, fun d i hi hc => h.carried d i hi (hcarried d i hi hc)⟩

/-- CTAs write vectors, and may have carried out a piece of work with it. -/
theorem Good.write (h : Good c k mem carried)
    (hmem : ∀ x, mem' x = mem x ∨
      ∃ d, ∃ i ∈ setup.items k, written c d mem k i x = some (mem' x))
    (hnew : ∀ d i, carried' d i → carried d i ∨
      ∀ x, (written c d mem k i x).isSome → written c d mem k i x = some (mem' x)) :
    Good c k mem' carried' where
  readable := h.readable.write fun x => (hmem x).imp_right fun ⟨d, i, _, hw⟩ => ⟨d, i, hw⟩
  carried d i hi hc x hx := by
    rw [isSome_written mem] at hx
    rcases hnew d i hc with hold | hall
    · rcases hmem x with heq | ⟨e, j, hj, hw⟩
      · rw [heq]
        exact h.carried d i hi hold x hx
      · exact written_target h.readable hj hw
    · exact written_target h.readable hi (hall x hx)

/-- What is good at the end of a phase is good for the next. -/
theorem good_follows (heven : Even setup.numDevices)
    (hchunks : setup.numNodes ≤ 1 ∨ setup.bufferBytes + chunkBytes ≤ 2 ^ 31)
    (hfollows : Follows setup k k') (hk : k ∈ setup.phases)
    (h : Good c k mem fun _ i => i ∈ setup.items k) : Good c k' mem fun _ _ => False := by
  refine ⟨?_, fun _ _ _ hf => absurd hf not_false⟩
  cases hfollows with
  | first => exact h.readable
  | stage s hmod =>
      -- The tile was moved here by the GPU before.
      intro d side vec hvec
      rcases attended_iff.mp hvec with ⟨t, ht, htask⟩
      rcases dstDev_surjective d with ⟨e, rfl⟩
      have hmoved := h.carried e (.move side t) (mem_items_move.mpr ht) (mem_items_move.mpr ht)
        ⟨dstDev e, side, (s + 1) % 2, vec⟩ (by simp only [written, htask, and_self, if_true,
          Option.isSome_some])
      rw [hmoved, round_succ hmod]
      rfl
  | copy s p hs => trivial
  | round p =>
      -- It was copied here, to the half an even stage reads.
      intro d side vec hvec
      have hslot := lt_of_kvCopy_mem hk
      rcases exists_chunk (hchunks.resolve_left (by omega)) side (lt_of_attended hvec) with
        ⟨chunk, hchunk, hin⟩
      have hhalf : (p + 1) * setup.numDevices % 2 = 0 :=
        Nat.mod_eq_zero_of_dvd (Dvd.dvd.mul_left heven.two_dvd _)
      have hcopied := h.carried d (.copy chunk) (mem_items_copy.mpr hchunk)
        (mem_items_copy.mpr hchunk) ⟨d, side, 0, vec⟩ (by simp only [written, hin, and_self,
          if_true, Option.isSome_some])
      rw [hhalf, hcopied, Nat.mul_div_cancel _ setup.numDevices_pos, shardDev_round]
      rfl

end Good

/-! ## The invariant -/

/-- The node is in the phase of kernel `k`. -/
structure InPhase (c : Contents setup α) (w : World setup α) (k : Kernel) (ks : List Kernel)
    (σ : Fin setup.numDevices → Lockstep.Stand) : Prop where
  suffix : k :: ks <:+ setup.phases
  stands : ∀ d, Lockstep.Stands .barrier tail k ks (w.rest d) (σ d)
  good : Good c k w.mem fun d => Lockstep.Carried (setup.items k) (w.done d) (σ d)

/-- The node is in one of the phases, and its buffers hold what they are to hold. -/
def Inv (c : Contents setup α) (w : World setup α) : Prop := ∃ k ks σ, InPhase c w k ks σ

theorem inv_init : Inv c (init c) := by
  refine ⟨.kvSend, (List.range setup.numNodes).flatMap setup.roundPhases, fun _ => .running,
    List.suffix_refl _, fun d => hostSchedule_eq_laid, ?_, fun d i _ hc => ?_⟩
  · intro d side vec _
    have hd := shardDev_round d 0
    rw [Nat.zero_mul] at hd
    rw [hd]
    simp only [init, Nat.zero_mod, if_true, Nat.zero_div, roundData]
  · exact absurd hc List.not_mem_nil

section Steps

variable {w : World setup α} {k : Kernel} {ks : List Kernel}
  {σ : Fin setup.numDevices → Lockstep.Stand} {d : Fin setup.numDevices} {k0 : Kernel}
  {rest : List Kernel}

/-- A GPU at a kernel of some phase is at the kernel of the phase the node is in. -/
theorem InPhase.working (h : InPhase c w k ks σ) (hrest : w.rest d = k0 :: rest)
    (hk0 : k0 ≠ .barrier ∧ ∀ k', k0 ∉ tail k') : σ d = .running ∧ k0 = k := by
  have hstands := h.stands d
  rw [hrest] at hstands
  exact hstands.working hk0.1 hk0.2

/-- The kernels with work for CTAs are those of the phases. -/
theorem of_mem_items {i : Item} (hi : i ∈ setup.items k0) :
    k0 ≠ .barrier ∧ ∀ k', k0 ∉ tail k' := by
  cases k0 with
  | kvSend => exact ⟨by decide, kvSend_notMem_tail⟩
  | kvCopy p => exact ⟨by simp only [ne_eq, reduceCtorEq, not_false_eq_true], kvCopy_notMem_tail p⟩
  | stage s => exact ⟨by simp only [ne_eq, reduceCtorEq, not_false_eq_true], stage_notMem_tail s⟩
  | _ => exact absurd hi List.not_mem_nil

theorem InPhase.mem_phases (h : InPhase c w k ks σ) : k ∈ setup.phases :=
  h.suffix.subset List.mem_cons_self

/-- A CTA writes a vector. -/
theorem InPhase.write (h : InPhase c w k ks σ) (hrest : w.rest d = k0 :: rest)
    {i : Item} (hi : i ∈ setup.items k0) {x : Cell setup} {y : α}
    (hy : written c d w.mem k0 i x = some y) :
    InPhase c { w with mem := Function.update w.mem x y } k ks σ := by
  rcases h.working hrest (of_mem_items hi) with ⟨_, rfl⟩
  refine ⟨h.suffix, h.stands, h.good.write (fun z => ?_) fun _ _ hc => Or.inl hc⟩
  simp only
  by_cases hzx : z = x
  · rw [hzx, Function.update_self]
    exact Or.inr ⟨d, i, hi, hy⟩
  · rw [Function.update_of_ne hzx]
    exact Or.inl rfl

/-- A CTA has carried out a piece of work. -/
theorem InPhase.finish (h : InPhase c w k ks σ)
    (hrest : w.rest d = k0 :: rest) {i : Item} (hi : i ∈ setup.items k0)
    (out : Outbox (Cmd setup) (Cell setup) α) :
    InPhase c { w with
      done := Function.update w.done d (w.done d ++ [i])
      mem := finished c d w.mem k0 i
      out := out } k ks σ := by
  rcases h.working hrest (of_mem_items hi) with ⟨hσ, rfl⟩
  -- A cell keeps what it has, or gets what the work writes.
  refine ⟨h.suffix, h.stands, h.good.write (fun x => ?_) fun e j hc => ?_⟩
  · simp only [finished]
    cases hw : written c d w.mem k0 i x with
    | none => exact Or.inl rfl
    | some y => exact Or.inr ⟨d, i, hi, hw⟩
  · simp only at hc
    -- The GPU's own work is one piece longer.
    by_cases hed : e = d
    · rw [hed, Function.update_self, hσ,
        Lockstep.Carried, List.mem_append, List.mem_singleton] at hc
      rw [hed, hσ]
      rcases hc with hc | rfl
      · exact Or.inl hc
      · refine Or.inr fun x hx => ?_
        rcases Option.isSome_iff_exists.mp hx with ⟨y, hy⟩
        simp only [finished, hy, Option.getD_some]
    · rw [Function.update_of_ne hed] at hc
      exact Or.inl hc

/-- A GPU goes on. -/
theorem InPhase.next (h : InPhase c w k ks σ) (heven : Even setup.numDevices)
    (hchunks : setup.numNodes ≤ 1 ∨ setup.bufferBytes + chunkBytes ≤ 2 ^ 31)
    (hrest : w.rest d = k0 :: rest) (hdone : ∀ i ∈ setup.items k0, i ∈ w.done d)
    (hpass : k0 = .barrier → ∀ e, (w.rest e).length ≤ (w.rest d).length) :
    Inv c { w with
      rest := Function.update w.rest d rest
      done := Function.update w.done d [] } := by
  have hpassable : Lockstep.Passable .barrier w.rest d := fun hhead => by
    rw [hrest, List.head?_cons, Option.some.injEq] at hhead
    exact hpass hhead
  -- The same phase, with the GPU in another place.
  have hsame : ∀ s, Lockstep.Stands .barrier tail k ks rest s →
      (∀ i ∈ setup.items k, Lockstep.Carried (setup.items k) [] s i →
        Lockstep.Carried (setup.items k) (w.done d) (σ d) i) →
      Inv c { w with
        rest := Function.update w.rest d rest
        done := Function.update w.done d [] } := by
    intro s hs hcarried
    refine ⟨k, ks, Function.update σ d s, h.suffix, fun e => ?_, h.good.mono fun e i hi hc => ?_⟩
    · simp only
      by_cases hed : e = d
      · rw [hed, Function.update_self, Function.update_self]
        exact hs
      · rw [Function.update_of_ne hed, Function.update_of_ne hed]
        exact h.stands e
    · simp only at hc
      by_cases hed : e = d
      · rw [hed, Function.update_self, Function.update_self] at hc
        rw [hed]
        exact hcarried i hi hc
      · rw [Function.update_of_ne hed, Function.update_of_ne hed] at hc
        exact hc
  rcases Lockstep.advance h.stands hrest hpassable with
    ⟨_, hs⟩ | ⟨hσ, rfl, hs⟩ | ⟨hσ, hs⟩ | ⟨k', ks', rfl, hafter, hs, hbefore⟩
  · exact hsame _ hs fun _ _ hc => absurd hc List.not_mem_nil
  · exact hsame _ hs fun i hi _ => by
      rw [hσ]
      exact hdone i hi
  · exact hsame _ hs fun i hi _ => by
      rw [hσ]
      exact hi
  · -- The GPU is the first in the next phase, for which all is carried out.
    have hfollows : Follows setup k k' :=
      (List.isChain_cons_cons.mp (phases_chain.suffix h.suffix)).1
    have hall : Good c k w.mem fun _ i => i ∈ setup.items k := h.good.mono fun e i _ hi => by
      rw [hafter e]
      exact hi
    refine ⟨k', ks', Function.update (fun _ => .before) d .running,
      (List.suffix_cons k _).trans h.suffix, fun e => ?_,
      (good_follows heven hchunks hfollows h.mem_phases hall).mono fun e i _ hc => ?_⟩
    · simp only
      by_cases hed : e = d
      · rw [hed, Function.update_self, Function.update_self]
        exact hs
      · rw [Function.update_of_ne hed, Function.update_of_ne hed]
        exact hbefore e
    · simp only at hc
      by_cases hed : e = d
      · rw [hed, Function.update_self, Function.update_self] at hc
        exact absurd hc List.not_mem_nil
      · rw [Function.update_of_ne hed, Function.update_of_ne hed] at hc
        exact hc

end Steps

/-- Every step keeps the invariant. -/
theorem inv_step (heven : Even setup.numDevices)
    (hchunks : setup.numNodes ≤ 1 ∨ setup.bufferBytes + chunkBytes ≤ 2 ^ 31)
    {w w' : World setup α} (h : Inv c w) {a : Action setup} (hstep : step c w a = some w') :
    Inv c w' := by
  rcases h with ⟨k, ks, σ, h⟩
  cases a with
  | write d i x =>
      simp only [step] at hstep
      split at hstep
      · rename_i k0 rest hrest
        split at hstep
        · rename_i hi
          rcases Option.map_eq_some_iff.mp hstep with ⟨y, hy, rfl⟩
          -- A writer works on the kernel that its GPU is in.
          exact ⟨k, ks, σ, h.write hrest hi hy⟩
        · exact absurd hstep (by simp only [reduceCtorEq, not_false_eq_true])
      · exact absurd hstep (by simp only [reduceCtorEq, not_false_eq_true])
  | finish d i =>
      simp only [step] at hstep
      split at hstep
      · rename_i k0 rest hrest
        split at hstep
        · rename_i hi
          cases hstep
          exact ⟨k, ks, σ, h.finish hrest hi.1 _⟩
        · exact absurd hstep (by simp only [reduceCtorEq, not_false_eq_true])
      · exact absurd hstep (by simp only [reduceCtorEq, not_false_eq_true])
  | next d =>
      simp only [step] at hstep
      split at hstep
      · rename_i k0 rest hrest
        split at hstep
        · rename_i hok
          cases hstep
          -- A GPU goes to its next kernel, for which the roles may turn.
          exact h.next heven hchunks hrest hok.1 hok.2
        · exact absurd hstep (by simp only [reduceCtorEq, not_false_eq_true])
      · exact absurd hstep (by simp only [reduceCtorEq, not_false_eq_true])
  | nicRead i x =>
      simp only [step] at hstep
      rcases Option.map_eq_some_iff.mp hstep with ⟨out, _, rfl⟩
      -- The NIC reads at any time, and what it reads is not part of the rotation.
      exact ⟨k, ks, σ, h.suffix, h.stands, h.good⟩
  | complete i =>
      simp only [step] at hstep
      rcases Option.map_eq_some_iff.mp hstep with ⟨out, _, rfl⟩
      exact ⟨k, ks, σ, h.suffix, h.stands, h.good⟩

/-- In every state of every run, a GPU in a stage has the data of the stage in the half it
    attends to. -/
theorem holds_of_reaches (heven : Even setup.numDevices)
    (hchunks : setup.numNodes ≤ 1 ∨ setup.bufferBytes + chunkBytes ≤ 2 ^ 31) {w : World setup α}
    (h : Reaches (step c) always (init c) w) {d : Fin setup.numDevices} {stage : Nat}
    {rest : List Kernel} (hrest : w.rest d = .stage stage :: rest) : Holds c w.mem stage := by
  rcases invariant_of_reaches (Inv c) (fun _ _ _ hi _ hstep => inv_step heven hchunks hi hstep) h
    inv_init with ⟨k, ks, σ, hin⟩
  have hne : Kernel.stage stage ≠ .barrier := by simp only [ne_eq, reduceCtorEq, not_false_eq_true]
  rcases hin.working hrest ⟨hne, stage_notMem_tail stage⟩ with ⟨_, hk⟩
  have hread := hin.good.readable
  rw [← hk] at hread
  exact hread

/-- The kernels are run in the order they are launched in. -/
theorem rest_suffix {w : World setup α} (h : Reaches (step c) always (init c) w)
    (d : Fin setup.numDevices) : w.rest d <:+ setup.hostSchedule := by
  refine invariant_of_reaches (fun w : World setup α => ∀ e, w.rest e <:+ setup.hostSchedule)
    (fun s a t hs _ hstep e => ?_) h (fun _ => List.suffix_refl _) d
  cases a with
  | next d =>
      simp only [step] at hstep
      split at hstep
      · rename_i k0 rest hrest
        split at hstep
        · cases hstep
          simp only
          -- Only the GPU that goes on has one kernel less.
          by_cases hed : e = d
          · rw [hed, Function.update_self]
            have hd := hs d
            rw [hrest] at hd
            exact (List.suffix_cons k0 rest).trans hd
          · rw [Function.update_of_ne hed]
            exact hs e
        · exact absurd hstep (by simp only [reduceCtorEq, not_false_eq_true])
      · exact absurd hstep (by simp only [reduceCtorEq, not_false_eq_true])
  | write d i x =>
      simp only [step] at hstep
      split at hstep
      · split at hstep
        · rcases Option.map_eq_some_iff.mp hstep with ⟨_, _, rfl⟩
          exact hs e
        · exact absurd hstep (by simp only [reduceCtorEq, not_false_eq_true])
      · exact absurd hstep (by simp only [reduceCtorEq, not_false_eq_true])
  | finish d i =>
      simp only [step] at hstep
      split at hstep
      · split at hstep
        · cases hstep
          exact hs e
        · exact absurd hstep (by simp only [reduceCtorEq, not_false_eq_true])
      · exact absurd hstep (by simp only [reduceCtorEq, not_false_eq_true])
  | nicRead i x =>
      rcases Option.map_eq_some_iff.mp hstep with ⟨_, _, rfl⟩
      exact hs e
  | complete i =>
      rcases Option.map_eq_some_iff.mp hstep with ⟨_, _, rfl⟩
      exact hs e

/-- A kernel that is still to run is one of those the host launches. -/
theorem lt_of_rest {w : World setup α} (h : Reaches (step c) always (init c) w)
    {d : Fin setup.numDevices} {stage : Nat} {rest : List Kernel}
    (hrest : w.rest d = .stage stage :: rest) : stage < setup.numNodes * setup.numDevices := by
  have hmem : Kernel.stage stage ∈ setup.hostSchedule := by
    refine (rest_suffix h d).subset ?_
    rw [hrest]
    exact List.mem_cons_self
  rw [← List.mem_range, ← stages_hostSchedule]
  exact List.mem_filterMap.mpr ⟨_, hmem, rfl⟩

/-- What goes around in a round is the shard of a node. -/
theorem roundData_eq (hfits : setup.Fits) (hdel : Delivered c) {round : Nat}
    (hround : round < setup.numNodes) (d : Fin setup.numDevices) (side : Side) {vec : Nat}
    (hvec : setup.Attended vec) :
    roundData c round d side vec = c.shard (roundNode setup round) d side vec := by
  cases round with
  | zero => rfl
  | succ p =>
      rw [roundNode_succ]
      exact recv_shard hdel hfits d (by omega) side (lt_of_attended hvec)

/-- Where the numbers of the exchange fit into an `int`, every GPU attends to every shard
    once: each stage is launched once and can be reached, the shards of the stages are all
    shards, and in a stage the buffer holds its shard, in every state of every run. -/
theorem consumed_once (setup : Setup) (c : Contents setup α) (heven : Even setup.numDevices)
    (hfits : setup.Fits) (hdel : Delivered c) (d : Fin setup.numDevices) :
    setup.hostSchedule.filterMap stage? = List.range (setup.numNodes * setup.numDevices) ∧
    Set.BijOn (fun stage => (shardNode setup stage, shardDev d stage))
      (Set.Iio (setup.numNodes * setup.numDevices))
      (Set.Ico (0 : Int) setup.numNodes ×ˢ Set.univ) ∧
    (∀ stage < setup.numNodes * setup.numDevices, ∃ w rest,
      Reaches (step c) always (init c) w ∧ w.rest d = .stage stage :: rest) ∧
    ∀ w, Reaches (step c) always (init c) w → w.rest d <:+ setup.hostSchedule ∧
      ∀ stage rest, w.rest d = .stage stage :: rest → ∀ side vec, setup.Attended vec →
        w.mem ⟨d, side, stage % 2, vec⟩ =
          c.shard (shardNode setup stage) (shardDev d stage) side vec := by
  refine ⟨stages_hostSchedule, shards_bijOn d, fun stage hlt => ?_, fun w hw =>
    ⟨rest_suffix hw d, fun stage rest hrest side vec hvec => ?_⟩⟩
  · -- The host's schedule reaches each stage.
    rcases reaches_stage c hlt with ⟨w, rest, hreach, hrest⟩
    exact ⟨w, rest, hreach, hrest d⟩
  · have hround : stage / setup.numDevices < setup.numNodes :=
      (Nat.div_lt_iff_lt_mul setup.numDevices_pos).mpr (lt_of_rest hw hrest)
    -- The buffer of a stage was filled in its own round.
    rw [holds_of_reaches heven hfits.chunks hw hrest d side vec hvec]
    exact roundData_eq hfits hdel hround (shardDev d stage) side hvec

section Sample

/-- Two nodes of two GPUs, with one tile and one chunk of each side. -/
def twoGpus : Setup where
  numNodes := 2
  nodeIdx := 0
  numDevices := 2
  batch := 1
  heads := 1
  rows := 128
  numCommSms := 2
  numSendSms := 1
  numCopySms := 1
  nodeIdx_lt := Nat.two_pos
  numDevices_pos := Nat.two_pos
  numCommSms_ge := two_le_two

/-- Each vector holds the number of the GPU it is from. -/
def numbered : Contents twoGpus Int where
  shard := fun m d _ _ => 2 * m + d
  recvBuf := fun d _ => 2 + d
  stale := fun _ _ _ => 4

theorem delivered_numbered : Delivered numbered := by
  intro m hm d chunk _ q hq hdst j _
  -- The only node that sends to this one is the other.
  have hone : m = 1 := by
    have hq0 : q = 0 := Nat.lt_one_iff.mp hq
    rw [hq0] at hdst
    change peerRankForSlot m ((2 : Nat) : Int) ((0 : Nat) : Int) = ((0 : Nat) : Int) at hdst
    simp only [peerRankForSlot] at hdst
    split at hdst <;> omega
  rw [hone]
  rfl

/-- Both GPUs do the same. -/
def both (as : Fin 2 → List (Action twoGpus)) : List (Action twoGpus) := as 0 ++ as 1

/-- They go past a barrier. -/
def meets : List (Action twoGpus) := both fun d => [.next d]

/-- They move their shards. -/
def moves : List (Action twoGpus) :=
  both fun d => [.finish d (.move .k 0), .finish d (.move .v 0), .next d]

/-- A forward pass up to the first stage of the second round. -/
def roundActions : List (Action twoGpus) :=
  both (fun d => [Action.finish d (.push 0 0), .finish d (.push 1 0), .next d]) ++ meets ++
    moves ++ meets ++ moves ++ meets ++ meets ++
    both (fun d => [Action.finish d (.copy 0), .finish d (.copy 1), .next d]) ++ meets

def secondRound : World twoGpus Int :=
  (run (step numbered) always roundActions (init numbered)).get (by decide +kernel)

/-- There GPU 1 has the shard of GPU 1 of the other node. -/
theorem consumed_once_secondRound :
    secondRound.rest (1 : Fin 2) =
      [.stage 2, .reduction 2, .barrier, .stage 3, .reduction 3, .barrier] ∧
      secondRound.mem ⟨(1 : Fin 2), .k, 0, 0⟩ = 3 := by
  have hrest : secondRound.rest (1 : Fin 2) =
      [.stage 2, .reduction 2, .barrier, .stage 3, .reduction 3, .barrier] := by
    decide +kernel
  refine ⟨hrest, ?_⟩
  have hruns : Reaches (step numbered) always (init numbered) secondRound :=
    reaches_of_run roundActions _ _ (Option.some_get _).symm
  have hshard := ((consumed_once twoGpus numbered (by decide) (by decide +kernel)
    delivered_numbered (1 : Fin 2)).2.2.2 secondRound hruns).2 2 _ hrest .k 0
    ⟨0, by decide, 0, by decide, 0, by decide, by decide⟩
  have hvalue : numbered.shard (shardNode twoGpus 2)
      (shardDev (⟨1, by decide⟩ : Fin twoGpus.numDevices) 2) .k 0 = 3 := by
    decide
  exact hshard.trans hvalue

/-- Four nodes, with half a gigabyte of keys and as much of values on each GPU. -/
def fourNodes : Setup where
  numNodes := 4
  nodeIdx := 0
  numDevices := 2
  batch := 1
  heads := 1
  rows := 2 ^ 21
  numCommSms := 2
  numSendSms := 1
  numCopySms := 1
  nodeIdx_lt := nat_four_pos
  numDevices_pos := Nat.two_pos
  numCommSms_ge := two_le_two

/-- Each vector holds the number of the node it is from, in the slots of the receive buffer
    too. There is nothing before the buffer. -/
def perNode : Contents fourNodes Int where
  shard := fun m _ _ _ => m
  recvBuf := fun _ j => if 0 ≤ j then j / 2 ^ 26 + 1 else -1
  stale := fun _ _ _ => -1

theorem fourNodes_fit : fourNodes.bufferBytes + chunkBytes ≤ 2 ^ 31 := by decide

theorem sideBytes_fourNodes : fourNodes.sideBytes = 2 ^ 29 := by
  rw [sideBytes_eq fourNodes_fit]
  decide

/-- A node has its slot at node 0 by its rank. -/
theorem slot_at_zero {m q : Nat} (hm : m < 4) (hq : q < 3)
    (hdst : peerRankForSlot m (4 : Nat) q = (0 : Nat)) :
    slotAtPeer m (0 : Nat) (4 : Nat) = (m : Int) - 1 ∧ 0 < m := by
  simp only [slotAtPeer, peerRankForSlot] at hdst ⊢
  split at hdst <;> split <;> omega

/-- Chunks are within the buffer. -/
theorem off_lt {chunk j : Nat} (hj : j < fourNodes.bytes chunk / vecBytes) :
    fourNodes.off chunk + 16 * j < 2 ^ 29 := by
  simp only [Setup.bytes, sideBytes_fourNodes, vecBytes] at hj
  omega

theorem sideOff_le (side : Side) : fourNodes.sideOff side ≤ 2 ^ 29 := by
  cases side with
  | k => exact Nat.zero_le _
  | v => exact Nat.le_of_eq sideBytes_fourNodes

/-- What is sent by a node is in its slot. -/
theorem node_of_vec {m so off j : Nat} (hpos : 0 < m) (hso : so ≤ 2 ^ 29)
    (hin : off + 16 * j < 2 ^ 29) :
    perNode.recvBuf (0 : Fin 2) ((((m : Int) - 1) * 2 ^ 30 + (so + off : Nat)) / vecBytes + j) =
      m := by
  simp only [perNode, vecBytes]
  rw [if_pos (by omega)]
  omega

theorem delivered_perNode : Delivered perNode := by
  intro m hm d chunk _ q hq hdst j hj
  have hdst' : peerRankForSlot m fourNodes.numNodes q = (0 : Nat) := hdst
  rcases slot_at_zero hm hq hdst' with ⟨hsap, hpos⟩
  have hslot : slotAtPeer m (0 : Nat) fourNodes.numNodes = (m : Int) - 1 := hsap
  have hbytes : ((fourNodes.bufferBytes + fourNodes.bufferBytes : Nat) : Int) = 2 ^ 30 := by decide
  rw [remoteOffset_eq fourNodes_fit, hdst', hslot, hbytes]
  exact node_of_vec hpos (sideOff_le _) (off_lt hj)

/-- In its third round node 0 looks for the shard of node 3 before its receive buffer, and
    attends to no shard at all. -/
theorem not_consumed_four : Delivered perNode ∧
    ∃ w rest, Reaches (step perNode) always (init perNode) w ∧
      w.rest (0 : Fin 2) = .stage 6 :: rest ∧ fourNodes.Attended 0 ∧
      ∀ m ∈ Set.Ico (0 : Int) 4, ∀ e,
        w.mem ⟨(0 : Fin 2), .k, 0, 0⟩ ≠ perNode.shard m e .k 0 := by
  rcases reaches_stage perNode (show 6 < fourNodes.numNodes * fourNodes.numDevices by decide) with
    ⟨w, rest, hreach, hrest⟩
  have hall : fourNodes.Attended 0 := ⟨0, by decide, 0, by decide, 0, by decide, by decide⟩
  have hread := holds_of_reaches (by decide) (Or.inr (by decide)) hreach (hrest (0 : Fin 2))
    (0 : Fin 2) .k 0 hall
  have hdata : roundData perNode (6 / fourNodes.numDevices) (shardDev (0 : Fin 2) 6) .k 0 = -1 := by
    decide
  refine ⟨delivered_perNode, w, rest, hreach, hrest (0 : Fin 2), hall, fun m hm e heq => ?_⟩
  have hm0 := hm.1
  have hnone : perNode.shard m e .k 0 = -1 := heq.symm.trans (hread.trans hdata)
  simp only [perNode] at hnone
  omega

end Sample

end Rotation

end RingAttention

end MKernel
