import MKernel.Core.SmallNumbers
import MKernel.RingAttention.Stages

/-!
# Sending from the Ring's Buffers

What the NIC reads for the commands of `kv_send`.

The source of a command are vectors of `K0` or `V0`. From stage 1 on every odd stage
fills these again on the next GPU, and so does `kv_copy` before each round. Barriers
order the stages, but nothing in them waits for the NIC, so a vector may be overwritten
before it is read (`overwritten`). What is read is what was pushed in the runs in which
no CTA changes a vector that a command in flight is sent from (`sent_as_pushed`). Up to
the end of stage 0 all runs are of this kind (`spares_kvSend`, `spares_stage_even`).

## Main definitions

* `Spares`: A CTA leaves the sources of the commands in flight as they are.
* `Timely`: All CTAs do.

## Theorems

* `spares_kvSend`, `spares_stage_even`: The kernels that spare all sources.
* `inv_step`: What holds of the commands and of what was read for them.
* `sent_as_pushed`: What is read is what was in the buffers at the push.
* `overwritten`: Otherwise it may not be.
-/

namespace MKernel

namespace RingAttention

namespace ZeroCopy

open MKernel.Core

variable {setup : Setup} {α : Type*} {c : Contents setup α}

/-- What a CTA writes to a vector, for a piece of work of the kernel its GPU is at, does
    not change it where a command in flight is sent from it. -/
def Spares (c : Contents setup α) (w : World setup α) (d : Fin setup.numDevices) (i : Item)
    (x : Cell setup) : Prop :=
  ∀ k ∈ (w.rest d).head?, ∀ y ∈ written c d w.mem k i x, ∀ p ∈ w.out.flight,
    source setup p.cmd x → y = w.mem x

/-- All sources in flight are spared. -/
def Timely (c : Contents setup α) (w : World setup α) : Action setup → Prop
  | .write d i x => Spares c w d i x
  | .finish d i => ∀ x, Spares c w d i x
  | _ => True

section Spared

variable {w : World setup α} {d : Fin setup.numDevices} {i : Item} {x : Cell setup}

/-- `kv_send` writes to no buffer. -/
theorem spares_kvSend (hk : (w.rest d).head? = some .kvSend) : Spares c w d i x := by
  intro k hin y hy
  rw [hk, Option.mem_some_iff] at hin
  rw [← hin] at hy
  exact absurd hy (by simp only [written, Option.mem_def, reduceCtorEq, not_false_eq_true])

/-- An even stage writes to `K1` and `V1`, which are not sent. -/
theorem spares_stage_even {stage : Nat} (hk : (w.rest d).head? = some (.stage stage))
    (heven : Even stage) : Spares c w d i x := by
  intro k hin y hy p _ hsrc
  rw [hk, Option.mem_some_iff] at hin
  rw [← hin] at hy
  have hhalf : x.half = (stage + 1) % 2 := by
    cases i with
    | move side taskId =>
        simp only [written, Option.mem_def] at hy
        split at hy
        · rename_i hx
          exact hx.2.2.1
        · exact absurd hy (by simp only [reduceCtorEq, not_false_eq_true])
    | _ => exact absurd hy (by simp only [written, Option.mem_def, reduceCtorEq, not_false_eq_true])
  have hzero : x.half = 0 := hsrc.2.2.1
  rcases heven with ⟨m, rfl⟩
  omega

/-- Where nothing is in flight, nothing has to be spared. -/
theorem spares_of_flight (h : w.out.flight = []) : Spares c w d i x := by
  intro k _ y _ p hp
  rw [h] at hp
  exact absurd hp List.not_mem_nil

end Spared

/-- What holds of the commands in flight, and of what was read. -/
structure Inv (w : World setup α) : Prop where
  undisturbed : w.out.Undisturbed (source setup) w.mem
  faithful : w.out.Faithful

theorem inv_init : Inv (init c) where
  undisturbed := Outbox.undisturbed_empty
  faithful := Outbox.faithful_empty

section Steps

variable {w : World setup α}

/-- Where a piece of work spares the sources, so does the vector it writes. -/
theorem Spares.written_eq {d : Fin setup.numDevices} {i : Item} {x : Cell setup} {k : Kernel}
    {rest : List Kernel} (h : Spares c w d i x) (hrest : w.rest d = k :: rest) {y : α}
    (hy : written c d w.mem k i x = some y) {p : Posting (Cmd setup) (Cell setup) α}
    (hp : p ∈ w.out.flight) (hx : source setup p.cmd x) : y = w.mem x :=
  h k (by rw [hrest]; rfl) y hy p hp hx

/-- A push leaves the sources of the others as they are. -/
theorem Inv.pushed (h : Inv w) (d : Fin setup.numDevices) (i : Item) :
    (pushed d w.mem w.out i).Undisturbed (source setup) w.mem ∧
      (pushed d w.mem w.out i).Faithful := by
  cases i with
  | push chunk peerSlot => exact ⟨h.undisturbed.push _, h.faithful⟩
  | copy chunk => exact ⟨h.undisturbed, h.faithful⟩
  | move side taskId => exact ⟨h.undisturbed, h.faithful⟩

/-- A CTA pushes a command, or writes the vectors of a chunk or a tile. -/
theorem Inv.finish (h : Inv w) {d : Fin setup.numDevices} {i : Item} {k : Kernel}
    {rest : List Kernel} (hrest : w.rest d = k :: rest) (hok : ∀ x, Spares c w d i x)
    (done : Fin setup.numDevices → List Item) :
    Inv { w with
      done := done
      mem := finished c d w.mem k i
      out := RingAttention.pushed d w.mem w.out i } := by
  have hspared : ∀ p ∈ w.out.flight, ∀ x, source setup p.cmd x →
      finished c d w.mem k i x = w.mem x := by
    intro p hp x hx
    cases hy : written c d w.mem k i x with
    | none => rw [finished, hy, Option.getD_none]
    | some y =>
        rw [finished, hy, Option.getD_some]
        exact (hok x).written_eq hrest hy hp hx
  cases i with
  | push chunk peerSlot =>
      -- A push writes nothing.
      have hmem : finished c d w.mem k (.push chunk peerSlot) = w.mem := by
        funext x
        cases k <;> rfl
      exact ⟨by simpa only [hmem] using (h.pushed d (.push chunk peerSlot)).1, h.faithful⟩
  | copy chunk => exact ⟨h.undisturbed.write hspared, h.faithful⟩
  | move side taskId => exact ⟨h.undisturbed.write hspared, h.faithful⟩

end Steps

/-- Every step keeps what was read faithful, as long as the sources in flight are
    spared. -/
theorem inv_step {w w' : World setup α} (h : Inv w) {a : Action setup} (hok : Timely c w a)
    (hstep : step c w a = some w') : Inv w' := by
  cases a with
  | write d i x =>
      simp only [step] at hstep
      split at hstep
      · rename_i k rest hrest
        split at hstep
        · rcases Option.map_eq_some_iff.mp hstep with ⟨y, hy, rfl⟩
          refine ⟨h.undisturbed.write fun p hp z hz => ?_, h.faithful⟩
          simp only
          -- Only the place that is written changes, and it is spared.
          by_cases hzx : z = x
          · rw [hzx, Function.update_self]
            rw [hzx] at hz
            exact Spares.written_eq hok hrest hy hp hz
          · rw [Function.update_of_ne hzx]
        · exact absurd hstep (by simp only [reduceCtorEq, not_false_eq_true])
      · exact absurd hstep (by simp only [reduceCtorEq, not_false_eq_true])
  | finish d i =>
      simp only [step] at hstep
      split at hstep
      · rename_i k rest hrest
        split at hstep
        · cases hstep
          exact h.finish hrest hok _
        · exact absurd hstep (by simp only [reduceCtorEq, not_false_eq_true])
      · exact absurd hstep (by simp only [reduceCtorEq, not_false_eq_true])
  | next d =>
      simp only [step] at hstep
      split at hstep
      · split at hstep
        · cases hstep
          exact ⟨h.undisturbed, h.faithful⟩
        · exact absurd hstep (by simp only [reduceCtorEq, not_false_eq_true])
      · exact absurd hstep (by simp only [reduceCtorEq, not_false_eq_true])
  | nicRead i x =>
      simp only [step] at hstep
      rcases Option.map_eq_some_iff.mp hstep with ⟨out, hout, rfl⟩
      refine ⟨?_, h.faithful.read h.undisturbed hout⟩
      rcases Outbox.read_spec hout with ⟨_, _, _, hflight, _, _⟩
      -- A read leaves the commands in flight.
      intro p hp
      exact h.undisturbed p (by simpa only [hflight] using hp)
  | complete i =>
      simp only [step] at hstep
      rcases Option.map_eq_some_iff.mp hstep with ⟨out, hout, rfl⟩
      refine ⟨h.undisturbed.complete hout, ?_⟩
      rcases Outbox.complete_spec hout with ⟨_, _, _, hreads, _⟩
      intro r hr
      exact h.faithful r (by simpa only [hreads] using hr)

/-- Where no CTA changes a vector that a command in flight is sent from, the NIC reads
    what was in the buffers at the push, in every state of every run. -/
theorem sent_as_pushed {w : World setup α} (h : Reaches (step c) (Timely c) (init c) w) :
    w.out.Faithful :=
  (invariant_of_reaches Inv (fun _ _ _ hi hok hstep => inv_step hi hok hstep) h inv_init).faithful

section Sample

/-- Two nodes of four GPUs, with one tile and one chunk of each side. -/
def fourGpus : Setup where
  numNodes := 2
  nodeIdx := 0
  numDevices := 4
  batch := 1
  heads := 1
  rows := 128
  numCommSms := 2
  numSendSms := 1
  numCopySms := 1
  nodeIdx_lt := Nat.two_pos
  numDevices_pos := nat_four_pos
  numCommSms_ge := two_le_two

/-- Each vector holds the number of the GPU it is from. -/
def numbered : Contents fourGpus Nat where
  shard := fun m d _ _ => m.toNat * 4 + d
  recvBuf := fun d _ => 4 + d
  stale := fun _ _ _ => 8

/-- All GPUs do the same. -/
def allGpus (as : Fin 4 → List (Action fourGpus)) : List (Action fourGpus) :=
  (List.finRange 4).flatMap as

/-- All GPUs push their commands. -/
def sends : List (Action fourGpus) :=
  allGpus fun d => [.finish d (.push 0 0), .finish d (.push 1 0), .next d]

/-- They go past a barrier. -/
def meets : List (Action fourGpus) := allGpus fun d => [.next d]

/-- They move their shards. -/
def moves : List (Action fourGpus) :=
  allGpus fun d => [.finish d (.move .k 0), .finish d (.move .v 0), .next d]

/-- The first vector of the keys of GPU 1. -/
def firstKey : Cell fourGpus := ⟨(1 : Fin 4), .k, 0, 0⟩

/-- In stage 1 the next shard is moved to GPU 1, and only then the NIC reads for the
    command GPU 1 pushed for its keys. -/
def lateActions : List (Action fourGpus) :=
  sends ++ meets ++ moves ++ meets ++ [Action.finish (0 : Fin 4) (.move .k 0), .nicRead 2 firstKey]

def late : World fourGpus Nat := (run (step numbered) always lateActions (init numbered)).get
  (by decide +kernel)

/-- The peer is sent keys of GPU 3 for those of GPU 1. -/
theorem overwritten : Reaches (step numbered) always (init numbered) late ∧
    late.out.reads.map (fun r => (r.value, r.posting.pushed r.cell)) = [(3, 1)] ∧
    ¬ late.out.Faithful := by
  have hreads : late.out.reads.map (fun r => (r.value, r.posting.pushed r.cell)) = [(3, 1)] := by
    decide +kernel
  refine ⟨reaches_of_run lateActions _ _ (Option.some_get _).symm, hreads, fun hall => ?_⟩
  have hpair :
      ((3, 1) : Nat × Nat) ∈ late.out.reads.map fun r => (r.value, r.posting.pushed r.cell) :=
    hreads.symm ▸ List.mem_singleton.mpr rfl
  rcases List.mem_map.mp hpair with ⟨r, hr, heq⟩
  have hsame := hall r hr
  rw [Prod.mk.injEq] at heq
  rw [heq.1, heq.2] at hsame
  exact absurd hsame (by decide)

/-- Nothing is moved or copied while a command is in flight. -/
def Quiet (w : World fourGpus Nat) : Action fourGpus → Prop
  | .write _ _ _ => w.out.flight.isEmpty = true
  | .finish d _ => (w.rest d).head? = some .kvSend ∨ w.out.flight.isEmpty = true
  | _ => True

instance (w : World fourGpus Nat) : ∀ a, Decidable (Quiet w a) := fun a => by
  cases a with
  | write d i x => exact inferInstanceAs (Decidable (w.out.flight.isEmpty = true))
  | finish d i =>
      exact inferInstanceAs
        (Decidable ((w.rest d).head? = some .kvSend ∨ w.out.flight.isEmpty = true))
  | _ => exact .isTrue trivial

theorem timely_of_quiet {w : World fourGpus Nat} : ∀ a, Quiet w a → Timely numbered w a
  | .write _ _ _, h => spares_of_flight (List.isEmpty_iff.mp h)
  | .finish _ _, .inl h => fun _ => spares_kvSend h
  | .finish _ _, .inr h => fun _ => spares_of_flight (List.isEmpty_iff.mp h)
  | .next _, _ => trivial
  | .nicRead _ _, _ => trivial
  | .complete _, _ => trivial

/-- The NIC reads first, and all commands are complete before the stages. -/
def inTimeActions : List (Action fourGpus) :=
  sends ++ [Action.nicRead 2 firstKey] ++ List.replicate 8 (Action.complete 0) ++ meets ++ moves ++
    meets ++
    [Action.finish (0 : Fin 4) (.move .k 0)]

def inTime : World fourGpus Nat := (run (step numbered) Quiet inTimeActions (init numbered)).get
  (by decide +kernel)

theorem sent_as_pushed_inTime :
    inTime.out.reads.map (fun r => (r.value, r.posting.pushed r.cell)) = [(1, 1)] ∧
      inTime.mem firstKey = 3 ∧ inTime.out.Faithful := by
  refine ⟨by decide +kernel, by decide +kernel, ?_⟩
  have hrun : Reaches (step numbered) Quiet (init numbered) inTime :=
    reaches_of_run inTimeActions _ _ (Option.some_get _).symm
  exact sent_as_pushed (reaches_mono (fun _ a ha => timely_of_quiet a ha) hrun)

end Sample

end ZeroCopy

end RingAttention

end MKernel
