import Mathlib.Data.Nat.Count
import MKernel.Core.SmallNumbers
import MKernel.Dist.Barrier

/-!
# The Final Publication Barrier

The end of a `gemm_ar` iteration on the GPUs of one node, over any number of
iterations.

Every reduce CTA calls `gemm_ar_finish_multicast_publication`. The leader,
`red_id` 0, waits until all chunks are published on its GPU, signals all
replicas of its own slot, waits until the slot of each GPU in turn reads 1 on
some replica, and raises `final_publish_done`, which the other reduce CTAs wait
for. The slot of a GPU lies in the row `epoch & 1023` and is never cleared, so
it counts the iterations of the past whose epoch fell in the same row
(`total_eq_count`).

From that count both halves of the barrier's promise follow as long as the row
is a fresh one: a slot that reads 1 has the signal of this very iteration, so
a CTA returns only when every GPU has published all its chunks, and no slot
ever reads more than 1. Rows come round again, however: consecutive epochs use
each row once in 1024 iterations, after which a signal makes the slot 2 and
its waiters spin forever.

## Main definitions

* `Setup`: The number of GPUs, chunks and reduce CTAs, and the epochs.
* `finalSliceSlot`: The slot a GPU signals in an epoch.
* `World`, `step`: The reduce CTAs of the node's GPUs and the barrier buffer.
* `Fresh`: The row a GPU signals has not been used by an earlier iteration.
* `PublishedBy`, `Returned`, `Overrun`: What the barrier promises.

## Theorems

* `total_eq_count`: A slot counts the iterations its GPU signalled in its row.
* `publication_complete`: On fresh rows, CTAs return only after all GPUs have
  published, and no wait is overrun.
* `publication_complete_consecutive`: The promise, met over two iterations.
* `publication_overrun`: A second iteration in the same row.
* `fresh_of_consecutive`: Up to 1024 consecutive epochs use fresh rows.
-/

namespace MKernel

namespace GemmAr

open MKernel.Core MKernel.Dist

/-- A position in the barrier buffer: plane, row and column. -/
abbrev Coord := Nat × Nat × Nat

/-- `gemm_ar_final_slice_slot`: plane 1, a row for the epoch, a column for the
    device. -/
def finalSliceSlot (devIdx : Nat) (epoch : BitVec 32) : Coord :=
  (1, (epoch &&& 1023#32).toNat, 32 + devIdx)

namespace Publication

/-- The GPUs of a node, their work and the epochs of the iterations. -/
structure Setup where
  numDevices : Nat
  totalChunks : Nat
  numReduce : Nat
  epochs : Nat → Nat

/-- The epoch the kernel of an iteration is launched with. -/
def Setup.epoch (setup : Setup) (iter : Nat) : BitVec 32 := BitVec.ofNat 32 (setup.epochs iter)

/-- The row of the barrier buffer an iteration uses. -/
def Setup.row (setup : Setup) (iter : Nat) : Nat := (setup.epoch iter &&& 1023#32).toNat

/-- Where the leader CTA of a GPU stands. -/
inductive Pc where
  /-- Between two kernels. -/
  | idle
  /-- Waiting for `published_chunks` to reach `total_chunks`. -/
  | publishing
  /-- In the loop over the peers, at the peer of this number. -/
  | waiting (peer : Nat)
  | returned
deriving DecidableEq, Repr

/-- One GPU: its leader, the iteration it is in, the scratch it was launched
    with and the reduce CTAs that have returned. -/
structure Gpu (setup : Setup) where
  pc : Pc
  iter : Nat
  chunks : Finset (Fin setup.totalChunks)
  publishedChunks : Nat
  finalPublishDone : Bool
  returned : Nat → Bool

/-- The GPUs and the barrier buffer. -/
structure World (setup : Setup) where
  gpu : Fin setup.numDevices → Gpu setup
  slots : Coord → Slot setup.numDevices

/-- What can happen next. -/
inductive Action (setup : Setup) where
  /-- The kernel of the next iteration starts, its scratch zeroed. -/
  | launch (d : Fin setup.numDevices)
  /-- A reduce CTA publishes a chunk. -/
  | publish (d : Fin setup.numDevices) (c : Fin setup.totalChunks)
  /-- The leader finds all chunks published and signals. -/
  | signal (d : Fin setup.numDevices)
  /-- A signal reaches a replica. -/
  | land (x : Coord) (sender dst : Fin setup.numDevices)
  /-- The leader reads its current peer's slot once. -/
  | poll (d : Fin setup.numDevices)
  /-- The leader leaves the loop over the peers and returns. -/
  | finish (d : Fin setup.numDevices)
  /-- Another reduce CTA sees `final_publish_done` and returns. -/
  | follow (d : Fin setup.numDevices) (redId : Nat)
  /-- All reduce CTAs have returned and the kernel ends. -/
  | retire (d : Fin setup.numDevices)
deriving DecidableEq

variable {setup : Setup}

/-- A GPU before its first iteration. -/
def Gpu.fresh : Gpu setup where
  pc := .idle
  iter := 0
  chunks := ∅
  publishedChunks := 0
  finalPublishDone := false
  returned := fun _ => false

/-- No iteration begun, the barrier buffer zeroed. -/
def init (setup : Setup) : World setup :=
  { gpu := fun _ => Gpu.fresh, slots := fun _ => Slot.zeroed }

/-- Replace one GPU. -/
def World.setGpu (w : World setup) (d : Fin setup.numDevices) (g : Gpu setup) : World setup :=
  { w with gpu := fun e => if e = d then g else w.gpu e }

/-- Replace one slot. -/
def World.setSlot (w : World setup) (x : Coord) (b : Slot setup.numDevices) : World setup :=
  { w with slots := fun y => if y = x then b else w.slots y }

/-- One step of the GPUs and the signals on their way. -/
def step (w : World setup) : Action setup → Option (World setup)
  | .launch d =>
    if (w.gpu d).pc = .idle then
      some (w.setGpu d { Gpu.fresh with pc := .publishing, iter := (w.gpu d).iter })
    else
      none
  | .publish d c =>
    if (w.gpu d).pc ≠ .idle ∧ c ∉ (w.gpu d).chunks then
      some (w.setGpu d { w.gpu d with
        chunks := insert c (w.gpu d).chunks
        publishedChunks := (w.gpu d).publishedChunks + 1 })
    else
      none
  | .signal d =>
    if (w.gpu d).pc = .publishing ∧ setup.totalChunks ≤ (w.gpu d).publishedChunks then
      let x := finalSliceSlot d (setup.epoch (w.gpu d).iter)
      some ((w.setSlot x ((w.slots x).signalAll d)).setGpu d { w.gpu d with pc := .waiting 0 })
    else
      none
  | .land x sender dst => ((w.slots x).land sender dst).map (w.setSlot x)
  | .poll d =>
    match (w.gpu d).pc with
    | .waiting peer =>
      if peer < setup.numDevices then
        if (w.slots (finalSliceSlot peer (setup.epoch (w.gpu d).iter))).readyMc 1 then
          some (w.setGpu d { w.gpu d with pc := .waiting (peer + 1) })
        else
          some w
      else
        none
    | _ => none
  | .finish d =>
    if (w.gpu d).pc = .waiting setup.numDevices then
      some (w.setGpu d { w.gpu d with
        pc := .returned
        finalPublishDone := true
        returned := fun r => r == 0 || (w.gpu d).returned r })
    else
      none
  | .follow d redId =>
    if (w.gpu d).pc ≠ .idle ∧ (w.gpu d).finalPublishDone = true ∧ 0 < redId ∧
        redId < setup.numReduce then
      some (w.setGpu d { w.gpu d with
        returned := fun r => r == redId || (w.gpu d).returned r })
    else
      none
  | .retire d =>
    if (w.gpu d).pc = .returned ∧ ∀ r < setup.numReduce, (w.gpu d).returned r = true then
      some (w.setGpu d { w.gpu d with
        pc := .idle
        iter := (w.gpu d).iter + 1
        returned := fun _ => false })
    else
      none

/-- No earlier iteration used the row a GPU signals in. -/
def Fresh (w : World setup) : Action setup → Prop
  | .signal d => ∀ k < (w.gpu d).iter, setup.row k ≠ setup.row (w.gpu d).iter
  | _ => True

instance : ∀ (w : World setup) (a : Action setup), Decidable (Fresh w a)
  | w, .signal d => inferInstanceAs
      (Decidable (∀ k < (w.gpu d).iter, setup.row k ≠ setup.row (w.gpu d).iter))
  | _, .launch _ => isTrue trivial
  | _, .publish _ _ => isTrue trivial
  | _, .land _ _ _ => isTrue trivial
  | _, .poll _ => isTrue trivial
  | _, .finish _ => isTrue trivial
  | _, .follow _ _ => isTrue trivial
  | _, .retire _ => isTrue trivial

/-- The GPU has published all chunks of an iteration. -/
def PublishedBy (g : Gpu setup) (k : Nat) : Prop :=
  k < g.iter ∨ (k = g.iter ∧ g.pc ≠ .idle ∧ g.chunks = Finset.univ)

/-- A reduce CTA has returned from the call of the GPU's current iteration. -/
def Returned (w : World setup) (d : Fin setup.numDevices) (redId : Nat) : Prop :=
  (w.gpu d).returned redId = true

/-- The leader waits on a slot that has passed the awaited value. -/
def Overrun (w : World setup) (d : Fin setup.numDevices) : Prop :=
  ∃ peer < setup.numDevices, (w.gpu d).pc = .waiting peer ∧
    ∃ j, 1 < ((w.slots (finalSliceSlot peer (setup.epoch (w.gpu d).iter))) j).value

/-! ## One step -/

/-- How many iterations the GPU has signalled. -/
def Gpu.sent (g : Gpu setup) : Nat :=
  match g.pc with
  | .idle => g.iter
  | .publishing => g.iter
  | .waiting _ => g.iter + 1
  | .returned => g.iter + 1

/-- The steps of one GPU that send no signal, by what becomes of the GPU. -/
inductive Moves (w : World setup) (d : Fin setup.numDevices) : Gpu setup → Prop where
  | launch (hpc : (w.gpu d).pc = .idle) :
      Moves w d { Gpu.fresh with pc := .publishing, iter := (w.gpu d).iter }
  | publish (c : Fin setup.totalChunks) (hpc : (w.gpu d).pc ≠ .idle)
      (hc : c ∉ (w.gpu d).chunks) :
      Moves w d { w.gpu d with
        chunks := insert c (w.gpu d).chunks
        publishedChunks := (w.gpu d).publishedChunks + 1 }
  | hear (peer : Nat) (hpc : (w.gpu d).pc = .waiting peer) (hp : peer < setup.numDevices)
      (hready : (w.slots (finalSliceSlot peer (setup.epoch (w.gpu d).iter))).readyMc 1 = true) :
      Moves w d { w.gpu d with pc := .waiting (peer + 1) }
  | finish (hpc : (w.gpu d).pc = .waiting setup.numDevices) :
      Moves w d { w.gpu d with
        pc := .returned
        finalPublishDone := true
        returned := fun r => r == 0 || (w.gpu d).returned r }
  | follow (redId : Nat) (hpc : (w.gpu d).pc ≠ .idle)
      (hdone : (w.gpu d).finalPublishDone = true) :
      Moves w d { w.gpu d with returned := fun r => r == redId || (w.gpu d).returned r }
  | retire (hpc : (w.gpu d).pc = .returned) :
      Moves w d { w.gpu d with
        pc := .idle
        iter := (w.gpu d).iter + 1
        returned := fun _ => false }

/-- A step is a signal, a landing, a move of one GPU or a read in vain. -/
theorem step_cases {w u : World setup} {a : Action setup} (h : step w a = some u) :
    (∃ d, a = .signal d ∧ (w.gpu d).pc = .publishing ∧
      setup.totalChunks ≤ (w.gpu d).publishedChunks ∧
      u = (w.setSlot (finalSliceSlot d (setup.epoch (w.gpu d).iter))
        ((w.slots (finalSliceSlot d (setup.epoch (w.gpu d).iter))).signalAll d)).setGpu d
          { w.gpu d with pc := .waiting 0 }) ∨
    (∃ x i j b, (w.slots x).land i j = some b ∧ u = w.setSlot x b) ∨
    (∃ d g, Moves w d g ∧ u = w.setGpu d g) ∨ u = w := by
  cases a with
  | launch d =>
      by_cases hpc : (w.gpu d).pc = .idle
      · rw [step, if_pos hpc, Option.some.injEq] at h
        exact Or.inr (Or.inr (Or.inl ⟨d, _, .launch hpc, h.symm⟩))
      · rw [step, if_neg hpc] at h
        exact absurd h (by simp only [reduceCtorEq, not_false_eq_true])
  | publish d c =>
      by_cases hc : (w.gpu d).pc ≠ .idle ∧ c ∉ (w.gpu d).chunks
      · rw [step, if_pos hc, Option.some.injEq] at h
        exact Or.inr (Or.inr (Or.inl ⟨d, _, .publish c hc.1 hc.2, h.symm⟩))
      · rw [step, if_neg hc] at h
        exact absurd h (by simp only [reduceCtorEq, not_false_eq_true])
  | signal d =>
      by_cases hc : (w.gpu d).pc = .publishing ∧
          setup.totalChunks ≤ (w.gpu d).publishedChunks
      · rw [step, if_pos hc, Option.some.injEq] at h
        exact Or.inl ⟨d, rfl, hc.1, hc.2, h.symm⟩
      · rw [step, if_neg hc] at h
        exact absurd h (by simp only [reduceCtorEq, not_false_eq_true])
  | land x i j =>
      rcases Option.map_eq_some_iff.mp h with ⟨b, hb, hu⟩
      exact Or.inr (Or.inl ⟨x, i, j, b, hb, hu.symm⟩)
  | poll d =>
      cases hpc : (w.gpu d).pc with
      | waiting peer =>
          simp only [step, hpc] at h
          by_cases hp : peer < setup.numDevices
          · rw [if_pos hp] at h
            -- The wait ends when the largest value of the slot is one.
            by_cases hready :
                (w.slots (finalSliceSlot peer (setup.epoch (w.gpu d).iter))).readyMc 1 = true
            · rw [if_pos hready, Option.some.injEq] at h
              exact Or.inr (Or.inr (Or.inl ⟨d, _, .hear peer hpc hp hready, h.symm⟩))
            · rw [if_neg hready, Option.some.injEq] at h
              exact Or.inr (Or.inr (Or.inr h.symm))
          · rw [if_neg hp] at h
            exact absurd h (by simp only [reduceCtorEq, not_false_eq_true])
      | idle => simp only [step, hpc, reduceCtorEq] at h
      | publishing => simp only [step, hpc, reduceCtorEq] at h
      | returned => simp only [step, hpc, reduceCtorEq] at h
  | finish d =>
      by_cases hpc : (w.gpu d).pc = .waiting setup.numDevices
      · rw [step, if_pos hpc, Option.some.injEq] at h
        exact Or.inr (Or.inr (Or.inl ⟨d, _, .finish hpc, h.symm⟩))
      · rw [step, if_neg hpc] at h
        exact absurd h (by simp only [reduceCtorEq, not_false_eq_true])
  | follow d redId =>
      -- The others follow when the first has seen the whole wait.
      by_cases hc : (w.gpu d).pc ≠ .idle ∧ (w.gpu d).finalPublishDone = true ∧ 0 < redId ∧
          redId < setup.numReduce
      · rw [step, if_pos hc, Option.some.injEq] at h
        exact Or.inr (Or.inr (Or.inl ⟨d, _, .follow redId hc.1 hc.2.1, h.symm⟩))
      · rw [step, if_neg hc] at h
        exact absurd h (by simp only [reduceCtorEq, not_false_eq_true])
  | retire d =>
      by_cases hc : (w.gpu d).pc = .returned ∧
          ∀ r < setup.numReduce, (w.gpu d).returned r = true
      · rw [step, if_pos hc, Option.some.injEq] at h
        exact Or.inr (Or.inr (Or.inl ⟨d, _, .retire hc.1, h.symm⟩))
      · rw [step, if_neg hc] at h
        exact absurd h (by simp only [reduceCtorEq, not_false_eq_true])

theorem setGpu_gpu (w : World setup) (d e : Fin setup.numDevices) (g : Gpu setup) :
    (w.setGpu d g).gpu e = if e = d then g else w.gpu e := rfl

@[simp] theorem setGpu_slots (w : World setup) (d : Fin setup.numDevices) (g : Gpu setup) :
    (w.setGpu d g).slots = w.slots := rfl

@[simp] theorem setSlot_gpu (w : World setup) (x : Coord) (b : Slot setup.numDevices) :
    (w.setSlot x b).gpu = w.gpu := rfl

theorem setSlot_slots (w : World setup) (x y : Coord) (b : Slot setup.numDevices) :
    (w.setSlot x b).slots y = if y = x then b else w.slots y := rfl

/-- A step that sends no signal leaves the number of iterations signalled. -/
theorem sent_of_moves {w : World setup} {d : Fin setup.numDevices} {g : Gpu setup}
    (h : Moves w d g) : g.sent = (w.gpu d).sent := by
  cases h with
  | launch hpc => simp only [Gpu.sent, hpc]
  | publish c hpc hc => rfl
  | hear peer hpc hp hready => simp only [Gpu.sent, hpc]
  | finish hpc => simp only [Gpu.sent, hpc]
  | follow redId hpc hdone => rfl
  | retire hpc => simp only [Gpu.sent, hpc]

/-- A signal counts the iteration it is for. -/
theorem sent_signal {w : World setup} {d : Fin setup.numDevices}
    (hpc : (w.gpu d).pc = .publishing) :
    (w.gpu d).sent = (w.gpu d).iter ∧
      ({ w.gpu d with pc := .waiting 0 } : Gpu setup).sent = (w.gpu d).sent + 1 := by
  constructor
  · simp only [Gpu.sent, hpc]
  · simp only [Gpu.sent, hpc]

/-- A GPU never takes a signal back. -/
theorem sent_le_step {w u : World setup} {a : Action setup} (h : step w a = some u)
    (e : Fin setup.numDevices) : (w.gpu e).sent ≤ (u.gpu e).sent := by
  rcases step_cases h with ⟨d, -, hpc, -, rfl⟩ | ⟨x, i, j, b, -, rfl⟩ | ⟨d, g, hm, rfl⟩ | rfl
  · rw [setGpu_gpu]
    by_cases he : e = d
    · rw [if_pos he, he, (sent_signal hpc).2]
      omega
    · rw [if_neg he]
      exact le_refl _
  · exact le_refl _
  · rw [setGpu_gpu]
    by_cases he : e = d
    · rw [if_pos he, he, sent_of_moves hm]
    · rw [if_neg he]
  · exact le_refl _

/-! ## What a slot counts -/

/-- A slot of a GPU holds one for each iteration the GPU has signalled with
    that row. -/
def Counts (w : World setup) : Prop :=
  ∀ (d : Fin setup.numDevices) (r : Nat) (j : Fin setup.numDevices),
    (w.slots (1, r, 32 + d.val) j).total =
      (Nat.count (fun k => setup.row k = r) (w.gpu d).sent : Int)

theorem counts_step {w u : World setup} {a : Action setup} (hc : Counts w)
    (h : step w a = some u) : Counts u := by
  intro e r j
  have hold := hc e r j
  rcases step_cases h with ⟨d, -, hpc, -, rfl⟩ | ⟨x, i, k, b, hb, rfl⟩ | ⟨d, g, hm, rfl⟩ | rfl
  · rw [setGpu_slots, setSlot_slots, setGpu_gpu]
    by_cases he : e = d
    · subst he
      rw [if_pos rfl, (sent_signal hpc).2, Nat.count_succ]
      by_cases hr : setup.row (w.gpu e).iter = r
      · -- The signal goes to this row, and the iteration is counted in it.
        have hx : ((1, r, 32 + e.val) : Coord) =
            finalSliceSlot e (setup.epoch (w.gpu e).iter) := by
          rw [← hr]
          rfl
        rw [if_pos hx, ← hx, Slot.total_signalAll, hold, (sent_signal hpc).1, if_pos hr]
        push_cast
        rfl
      · -- It goes to another row, and is not counted in this one.
        have hx : ((1, r, 32 + e.val) : Coord) ≠
            finalSliceSlot e (setup.epoch (w.gpu e).iter) := by
          intro hx
          exact hr (Prod.mk.inj (Prod.mk.inj hx).2).1.symm
        rw [if_neg hx, hold, (sent_signal hpc).1, if_neg hr, add_zero]
    · -- Another GPU's signal goes to another column.
      have hx : ((1, r, 32 + e.val) : Coord) ≠
          finalSliceSlot d (setup.epoch (w.gpu d).iter) := by
        intro hx
        have hcol := (Prod.mk.inj (Prod.mk.inj hx).2).2
        exact he (Fin.ext (by omega))
      rw [if_neg he, if_neg hx]
      exact hold
  · rw [setSlot_slots, setSlot_gpu]
    by_cases hx : ((1, r, 32 + e.val) : Coord) = x
    · rw [if_pos hx, (Slot.land_spec hb j).1, ← hx]
      exact hold
    · rw [if_neg hx]
      exact hold
  · rw [setGpu_slots, setGpu_gpu]
    by_cases he : e = d
    · rw [if_pos he, sent_of_moves hm, ← he]
      exact hold
    · rw [if_neg he]
      exact hold
  · exact hold

/-- In every run a slot counts the iterations its GPU has signalled with that
    row. -/
theorem total_eq_count {w : World setup} (h : Reaches step always (init setup) w) : Counts w := by
  refine invariant_of_reaches Counts (fun s a t hs _ hst => counts_step hs hst) h ?_
  intro d r j
  exact Tally.total_empty

/-! ## The state of one GPU -/

/-- What the scratch and the flags of a GPU say about where its leader is. -/
structure Gpu.Ok (g : Gpu setup) : Prop where
  counted : g.publishedChunks = g.chunks.card
  full : g.iter < g.sent → g.chunks = Finset.univ
  lowered : g.pc ≠ .idle → g.pc ≠ .returned → g.finalPublishDone = false
  none : g.pc ≠ .returned → ∀ r, g.returned r = false

/-- A counter that has reached the number of chunks has counted every chunk. -/
theorem chunks_univ {g : Gpu setup} (hcounted : g.publishedChunks = g.chunks.card)
    (hle : setup.totalChunks ≤ g.publishedChunks) : g.chunks = Finset.univ := by
  refine Finset.eq_univ_of_card _ ?_
  -- No chunk is counted twice, so nothing else adds up to all.
  have hmost := Finset.card_le_univ g.chunks
  rw [Fintype.card_fin] at hmost ⊢
  omega

theorem ok_of_moves {w : World setup} {d : Fin setup.numDevices} {g : Gpu setup}
    (hok : (w.gpu d).Ok) (h : Moves w d g) : g.Ok := by
  cases h with
  | launch hpc =>
      refine ⟨rfl, fun hlt => ?_, fun _ _ => rfl, fun _ _ => rfl⟩
      exact absurd hlt (lt_irrefl _)
  | publish c hpc hc =>
      refine ⟨?_, fun hlt => ?_, hok.lowered, hok.none⟩
      · rw [Finset.card_insert_of_notMem hc, hok.counted]
      · -- Once all are published there is no other to publish.
        rw [hok.full hlt, Finset.insert_eq_of_mem (Finset.mem_univ c)]
  | hear peer hpc hp hready =>
      have hne : (w.gpu d).pc ≠ .returned := by
        rw [hpc]
        exact (by simp only [ne_eq, reduceCtorEq, not_false_eq_true])
      refine ⟨hok.counted, fun _ => hok.full ?_, fun _ _ => hok.lowered ?_ hne,
        fun _ => hok.none hne⟩
      · simp only [Gpu.sent, hpc]
        exact Nat.lt_succ_self _
      · rw [hpc]
        exact (by simp only [ne_eq, reduceCtorEq, not_false_eq_true])
  | finish hpc =>
      refine ⟨hok.counted, fun _ => hok.full ?_, fun _ hne => absurd rfl hne,
        fun hne => absurd rfl hne⟩
      simp only [Gpu.sent, hpc]
      exact Nat.lt_succ_self _
  | follow redId hpc hdone =>
      -- The flag is up, so the leader has returned.
      have hret : (w.gpu d).pc = .returned := by
        by_contra hne
        rw [hok.lowered hpc hne] at hdone
        exact absurd hdone (by simp only [Bool.false_eq_true, not_false_eq_true])
      exact ⟨hok.counted, hok.full, hok.lowered, fun hne => absurd hret hne⟩
  | retire hpc =>
      exact ⟨hok.counted, fun hlt => absurd hlt (lt_irrefl _), fun hne => absurd rfl hne,
        fun _ _ => rfl⟩

/-- A GPU that has signalled an iteration has published all its chunks. -/
theorem publishedBy_of_sent {g : Gpu setup} (hok : g.Ok) {k : Nat} (h : k < g.sent) :
    PublishedBy g k := by
  by_cases hk : k < g.iter
  · exact Or.inl hk
  · have hsent : g.sent ≤ g.iter + 1 := by
      cases hpc : g.pc with
      | idle => simp only [Gpu.sent, hpc, Nat.le_succ]
      | publishing => simp only [Gpu.sent, hpc, Nat.le_succ]
      | waiting peer => simp only [Gpu.sent, hpc, le_refl]
      | returned => simp only [Gpu.sent, hpc, le_refl]
    refine Or.inr ⟨by omega, fun hpc => ?_, hok.full (by omega)⟩
    have hidle : g.sent = g.iter := by simp only [Gpu.sent, hpc]
    omega

theorem ok_signal {g : Gpu setup} (hok : g.Ok) (hpc : g.pc = .publishing)
    (hle : setup.totalChunks ≤ g.publishedChunks) :
    ({ g with pc := .waiting 0 } : Gpu setup).Ok := by
  have hne : g.pc ≠ .returned := by
    rw [hpc]
    exact (by simp only [ne_eq, reduceCtorEq, not_false_eq_true])
  refine ⟨hok.counted, fun _ => chunks_univ hok.counted hle, fun _ _ => hok.lowered ?_ hne,
    fun _ => hok.none hne⟩
  rw [hpc]
  exact (by simp only [ne_eq, reduceCtorEq, not_false_eq_true])

/-! ## Fresh rows -/

/-- Every GPU whose slot a leader has read has signalled the leader's
    iteration. -/
def Heard (w : World setup) (g : Gpu setup) : Prop :=
  match g.pc with
  | .idle => True
  | .publishing => True
  | .waiting peer => ∀ q : Fin setup.numDevices, q.val < peer → g.iter < (w.gpu q).sent
  | .returned => ∀ q : Fin setup.numDevices, g.iter < (w.gpu q).sent

/-- The iterations a GPU has signalled have different rows. -/
def Distinct (setup : Setup) (n : Nat) : Prop :=
  ∀ k < n, ∀ i < k, setup.row i ≠ setup.row k

/-- What holds in a run on fresh rows. -/
structure Inv (w : World setup) : Prop where
  counts : Counts w
  ok : ∀ d, (w.gpu d).Ok
  distinct : ∀ d, Distinct setup (w.gpu d).sent
  heard : ∀ d, Heard w (w.gpu d)

/-- Among iterations of different rows at most one has a given row. -/
theorem count_le_one {n r : Nat} (h : Distinct setup n) :
    Nat.count (fun k => setup.row k = r) n ≤ 1 := by
  rw [Nat.count_eq_card_filter_range, Finset.card_le_one]
  intro i hi k hk
  rw [Finset.mem_filter, Finset.mem_range] at hi hk
  rcases lt_trichotomy i k with hlt | heq | hgt
  · exact absurd (hi.2.trans hk.2.symm) (h k hk.1 i hlt)
  · exact heq
  · exact absurd (hk.2.trans hi.2.symm) (h i hi.1 k hgt)

/-- A slot that has been raised was raised for an iteration of its row. -/
theorem exists_of_count_pos {n r : Nat} (h : 0 < Nat.count (fun k => setup.row k = r) n) :
    ∃ k < n, setup.row k = r := by
  rw [Nat.count_eq_card_filter_range, Finset.card_pos] at h
  rcases h with ⟨k, hk⟩
  rw [Finset.mem_filter, Finset.mem_range] at hk
  exact ⟨k, hk⟩

/-- A slot that reads 1 in a fresh row carries the signal of the reader's own
    iteration. -/
theorem sent_of_ready {w : World setup} (hi : Inv w) {d : Fin setup.numDevices} {peer : Nat}
    (hd : (w.gpu d).iter < (w.gpu d).sent) (hp : peer < setup.numDevices)
    (hready : (w.slots (finalSliceSlot peer (setup.epoch (w.gpu d).iter))).readyMc 1 = true) :
    (w.gpu d).iter < (w.gpu ⟨peer, hp⟩).sent := by
  rw [Slot.readyMc, decide_eq_true_eq] at hready
  rcases hready.2 with ⟨j, hj⟩
  have htotal := hi.counts ⟨peer, hp⟩ (setup.row (w.gpu d).iter) j
  have hle := (w.slots (finalSliceSlot peer (setup.epoch (w.gpu d).iter)) j).value_le_total
  -- The 1 on the replica is a signal of the peer, for some iteration of the row.
  have hpos : 0 < Nat.count (fun k => setup.row k = setup.row (w.gpu d).iter)
      (w.gpu ⟨peer, hp⟩).sent := by
    change ((w.slots (finalSliceSlot peer (setup.epoch (w.gpu d).iter))) j).total = _ at htotal
    omega
  rcases exists_of_count_pos hpos with ⟨k, hk, hrow⟩
  by_contra hlt
  -- Otherwise the signal is of an earlier iteration in the same row.
  exact hi.distinct d _ hd k (by omega) hrow

theorem heard_mono {w u : World setup} {g : Gpu setup}
    (hle : ∀ q, (w.gpu q).sent ≤ (u.gpu q).sent) (h : Heard w g) : Heard u g := by
  rw [Heard] at h ⊢
  cases hpc : g.pc with
  | idle => trivial
  | publishing => trivial
  | waiting peer =>
      rw [hpc] at h
      exact fun q hq => lt_of_lt_of_le (h q hq) (hle q)
  | returned =>
      rw [hpc] at h
      exact fun q => lt_of_lt_of_le (h q) (hle q)

theorem heard_of_moves {w : World setup} (hi : Inv w) {d : Fin setup.numDevices} {g : Gpu setup}
    (h : Moves w d g) : Heard w g := by
  have hold := hi.heard d
  cases h with
  | launch hpc => trivial
  | publish c hpc hc => exact hold
  | hear peer hpc hp hready =>
      rw [Heard, hpc] at hold
      intro q hq
      have hsent : (w.gpu d).iter < (w.gpu d).sent := by
        simp only [Gpu.sent, hpc]
        exact Nat.lt_succ_self _
      -- The earlier peers were heard before, the last one just now.
      rcases Nat.lt_succ_iff_lt_or_eq.mp hq with hlt | heq
      · exact hold q hlt
      · have hready' := sent_of_ready hi hsent hp hready
        rwa [show (⟨peer, hp⟩ : Fin setup.numDevices) = q from Fin.ext heq.symm] at hready'
  | finish hpc =>
      rw [Heard, hpc] at hold
      exact fun q => hold q q.isLt
  | follow redId hpc hdone => exact hold
  | retire hpc => trivial

theorem inv_step {w u : World setup} {a : Action setup} (hi : Inv w) (hfresh : Fresh w a)
    (h : step w a = some u) : Inv u := by
  have hle := sent_le_step h
  refine ⟨counts_step hi.counts h, fun e => ?_, fun e => ?_, fun e => heard_mono hle ?_⟩
  · rcases step_cases h with ⟨d, -, hpc, hfull, rfl⟩ | ⟨x, i, j, b, -, rfl⟩ | ⟨d, g, hm, rfl⟩ | rfl
    · rw [setGpu_gpu]
      by_cases he : e = d
      · rw [if_pos he]
        exact ok_signal (hi.ok d) hpc hfull
      · rw [if_neg he]
        exact hi.ok e
    · exact hi.ok e
    · rw [setGpu_gpu]
      by_cases he : e = d
      · rw [if_pos he]
        exact ok_of_moves (hi.ok d) hm
      · rw [if_neg he]
        exact hi.ok e
    · exact hi.ok e
  · rcases step_cases h with ⟨d, rfl, hpc, -, rfl⟩ | ⟨x, i, j, b, -, rfl⟩ | ⟨d, g, hm, rfl⟩ | rfl
    · rw [setGpu_gpu]
      by_cases he : e = d
      · -- The new iteration's row is a fresh one.
        rw [if_pos he, (sent_signal hpc).2]
        intro k hk i hik
        rcases Nat.lt_succ_iff_lt_or_eq.mp hk with hlt | heq
        · exact hi.distinct d k hlt i hik
        · rw [heq, (sent_signal hpc).1] at hik ⊢
          exact hfresh i hik
      · rw [if_neg he]
        exact hi.distinct e
    · exact hi.distinct e
    · rw [setGpu_gpu]
      by_cases he : e = d
      · rw [if_pos he, sent_of_moves hm]
        exact hi.distinct d
      · rw [if_neg he]
        exact hi.distinct e
    · exact hi.distinct e
  · rcases step_cases h with ⟨d, -, hpc, -, rfl⟩ | ⟨x, i, j, b, -, rfl⟩ | ⟨d, g, hm, rfl⟩ | rfl
    · rw [setGpu_gpu]
      by_cases he : e = d
      · rw [if_pos he]
        exact fun q hq => absurd hq (Nat.not_lt_zero _)
      · rw [if_neg he]
        exact hi.heard e
    · exact hi.heard e
    · rw [setGpu_gpu]
      by_cases he : e = d
      · rw [if_pos he]
        exact heard_of_moves hi hm
      · rw [if_neg he]
        exact hi.heard e
    · exact hi.heard e

theorem inv_init : Inv (init setup) :=
  ⟨fun _ _ _ => Tally.total_empty, fun _ => ⟨rfl, fun h => absurd h (lt_irrefl _),
    fun h => absurd rfl h, fun _ _ => rfl⟩, fun _ _ hk => absurd hk (Nat.not_lt_zero _),
    fun _ => trivial⟩

/-- In every run in which each signal goes to a row no earlier iteration used,
    a reduce CTA returns only when every GPU has published all its chunks of
    the iteration, and no wait is overrun. -/
theorem publication_complete {w : World setup} (h : Reaches step Fresh (init setup) w) :
    (∀ d redId, Returned w d redId → ∀ q, PublishedBy (w.gpu q) (w.gpu d).iter) ∧
      ∀ d, ¬ Overrun w d := by
  have hi := invariant_of_reaches Inv (fun s a t hs hok hst => inv_step hs hok hst) h inv_init
  constructor
  · intro d redId hret q
    -- Nobody returns before the leader.
    have hpc : (w.gpu d).pc = .returned := by
      by_contra hne
      rw [Returned, (hi.ok d).none hne redId] at hret
      exact absurd hret (by simp only [Bool.false_eq_true, not_false_eq_true])
    have hheard := hi.heard d
    rw [Heard, hpc] at hheard
    exact publishedBy_of_sent (hi.ok q) (hheard q)
  · rintro d ⟨peer, hp, hpc, j, hvalue⟩
    have htotal := hi.counts ⟨peer, hp⟩ (setup.row (w.gpu d).iter) j
    -- The replica holds no more than the peer's signals of the row, which is one.
    have hcount := count_le_one (r := setup.row (w.gpu d).iter) (hi.distinct ⟨peer, hp⟩)
    have hle := (w.slots (finalSliceSlot peer (setup.epoch (w.gpu d).iter)) j).value_le_total
    change ((w.slots (finalSliceSlot peer (setup.epoch (w.gpu d).iter))) j).total = _ at htotal
    omega

/-- The row is the low ten bits of the epoch. -/
theorem row_eq (setup : Setup) (k : Nat) : setup.row k = setup.epochs k % 1024 := by
  have hmask : (1023#32).toNat = 2 ^ 10 - 1 := rfl
  rw [Setup.row, Setup.epoch, BitVec.toNat_and, hmask, Nat.and_two_pow_sub_one_eq_mod,
    BitVec.toNat_ofNat, Nat.mod_mod_of_dvd _ (by norm_num : (2 : Nat) ^ 10 ∣ 2 ^ 32)]
  norm_num

/-- The first 1024 iterations of consecutive epochs use fresh rows. -/
theorem fresh_of_consecutive {first : Nat} (hepochs : ∀ k, setup.epochs k = first + k)
    {w : World setup} {d : Fin setup.numDevices} (hiter : (w.gpu d).iter < 1024) :
    Fresh w (.signal d) := by
  intro k hk
  rw [row_eq, row_eq, hepochs, hepochs]
  omega

/-- Two GPUs, one chunk, one reduce CTA, consecutive epochs. -/
def consecutive : Setup where
  numDevices := 2
  totalChunks := 1
  numReduce := 1
  epochs := fun k => k + 1

/-- One whole iteration of both GPUs. -/
def oneIteration (setup : Setup) (d₀ d₁ : Fin setup.numDevices) (c : Fin setup.totalChunks)
    (k : Nat) : List (Action setup) :=
  [.launch d₀, .launch d₁, .publish d₀ c, .signal d₀, .publish d₁ c,
    .land (finalSliceSlot d₀ (setup.epoch k)) d₀ d₀, .signal d₁, .poll d₀,
    .land (finalSliceSlot d₁ (setup.epoch k)) d₁ d₀, .poll d₀, .finish d₀, .poll d₁, .poll d₁,
    .finish d₁, .retire d₀, .retire d₁]

/-- A second iteration, up to the return of the first GPU. -/
def consecutiveRun : List (Action consecutive) :=
  oneIteration consecutive (0 : Fin 2) (1 : Fin 2) (0 : Fin 1) 0 ++
    (oneIteration consecutive (0 : Fin 2) (1 : Fin 2) (0 : Fin 1) 1).take 11

theorem publication_complete_consecutive : ∃ w : World consecutive,
    Reaches step Fresh (init consecutive) w ∧ Returned w (0 : Fin 2) 0 ∧
      (w.gpu (0 : Fin 2)).iter = 1 ∧
      (∀ q, PublishedBy (w.gpu q) 1) ∧ ∀ d, ¬ Overrun w d :=
  have h : Reaches step Fresh (init consecutive)
      ((run step Fresh consecutiveRun (init consecutive)).get (by decide +kernel)) :=
    reaches_of_run _ _ _ (Option.some_get _).symm
  have hret : Returned ((run step Fresh consecutiveRun (init consecutive)).get
      (by decide +kernel)) (0 : Fin 2) 0 := by
    change (World.gpu _ _).returned 0 = true
    decide +kernel
  ⟨_, h, hret, by decide +kernel, (publication_complete h).1 (0 : Fin 2) 0 hret,
    (publication_complete h).2⟩

/-- The same GPUs with epochs that fall in one row. -/
def sameRow : Setup where
  numDevices := 2
  totalChunks := 1
  numReduce := 1
  epochs := fun k => 1024 * k + 1

/-- The second iteration, up to the landing of the first GPU's signal. -/
def sameRowRun : List (Action sameRow) :=
  oneIteration sameRow (0 : Fin 2) (1 : Fin 2) (0 : Fin 1) 0 ++
    (oneIteration sameRow (0 : Fin 2) (1 : Fin 2) (0 : Fin 1) 1).take 6

/-- With increasing epochs, the second iteration to use a row makes a slot
    pass the value its waiters wait for. -/
theorem publication_overrun : StrictMono sameRow.epochs ∧ ∃ w : World sameRow,
    Reaches step always (init sameRow) w ∧ ∃ d, Overrun w d := by
  refine ⟨fun i k hik => ?_, (run step always sameRowRun (init sameRow)).get (by decide +kernel),
    reaches_of_run _ _ _ (Option.some_get _).symm, (0 : Fin 2), 0, by decide +kernel,
    by decide +kernel, (0 : Fin 2), by decide +kernel⟩
  change 1024 * i + 1 < 1024 * k + 1
  omega

end Publication

end GemmAr

end MKernel
