import MKernel.Core.Ballot
import MKernel.Core.Custody
import MKernel.Core.SmallNumbers
import MKernel.Core.System
import MKernel.GemmRs.ComputeTile
import MKernel.GemmRs.Tasks

/-!
# Ready and Accumulated

When a chunk of `gemm_rs` is announced to the CTA that sends it, and whether all
that is to be sent has been added up by then.

Each GPU counts the tiles of a chunk it has computed. The CTA that counts the last
one adds one to the chunk's count on its owner, and the CTA that makes this the
number of GPUs sets the chunk's bit there. So the bit is set once all tiles of all
GPUs are counted, in any order of the steps (`Inv`).

What is counted is that thread 0 has returned from a tile. The writes into staging
are the store warp's, and thread 0 does not wait for it. So the bit may be set
before a tile is added, or even before the addition is begun (`ready_ahead`). It
is not if no tile is counted before its writes are complete (`ready_accumulated`).

## Main definitions

* `Setup`: The shape and how the CTAs are divided.
* `World`, `step`: The GPUs of a node.
* `World.Ready`: The bit of a chunk is set.
* `World.Accumulated`: All tiles of a chunk are written, by all GPUs.
* `Timely`: A tile is counted when its writes are complete.

## Theorems

* `inv_step`: What holds of counts and bits in such a run.
* `ready_accumulated`: A chunk that is ready is accumulated.
* `ready_ahead`: Without the condition it may not be.
-/

namespace MKernel

namespace GemmRs

namespace Accumulate

open MKernel.Core MKernel.GemmAr

/-- The shape, and the CTAs that compute and that send. `NUM_DEVICES` fits in an
    `int`. -/
structure Setup where
  shape : Shape
  numCompSms : Nat
  numSendSms : Nat
  numIters : Nat
  numDevices_lt : shape.numDevices < 2 ^ 31

/-- The loop of the compute CTAs. -/
def Setup.loop (setup : Setup) : Loop where
  numCompSms := setup.numCompSms
  numBlocks := setup.shape.numBlocks
  numIters := setup.numIters

/-- A compute CTA of a GPU. -/
abbrev CtaId (setup : Setup) := Fin setup.shape.numDevices × Fin setup.numCompSms

/-- The GPUs. The tasks each has counted, and which GPU has signalled which chunk,
    are kept besides. -/
structure World (setup : Setup) where
  cta : CtaId setup → Cta
  compGemmDone : Fin setup.shape.numDevices → Nat → Nat
  readyChunk : Fin setup.shape.numDevices → Nat → BitVec 32
  counted : Fin setup.shape.numDevices → List Nat
  signalled : List (Fin setup.shape.numDevices × (Nat × Nat))

/-- The GPUs at launch. -/
def init (setup : Setup) : World setup where
  cta := fun k => Cta.init k.2
  compGemmDone := fun _ _ => 0
  readyChunk := fun _ _ => 0
  counted := fun _ => []
  signalled := []

/-- What can happen next. -/
inductive Action (setup : Setup) where
  /-- The warps of a CTA, on their tiles. -/
  | cta (k : CtaId setup) (a : Cta.Action)
  /-- Thread 0 counts the tile it has returned from. -/
  | count (k : CtaId setup)
  /-- It counts its GPU for a chunk, on the owner. -/
  | signal (k : CtaId setup)
  /-- It sets the bit of a chunk. -/
  | announce (k : CtaId setup)
  /-- A sending CTA takes a bit off its queue. -/
  | claim (d : Fin setup.shape.numDevices) (sendId idx : Nat)

variable {setup : Setup}

/-- Thread 0 of a CTA goes on. -/
def World.setHead (w : World setup) (k : CtaId setup) (t : Warp ConsumerPc) : World setup :=
  { w with cta := Function.update w.cta k ((w.cta k).setConsumer 0 t) }

def World.setWord (w : World setup) (d : Fin setup.shape.numDevices) (i : Nat) (x : BitVec 32) :
    World setup :=
  { w with readyChunk := Function.update w.readyChunk d (Function.update (w.readyChunk d) i x) }

/-- One step. -/
def step (w : World setup) : Action setup → Option (World setup)
  | .cta k a =>
      ((w.cta k).step setup.loop a).map fun c => { w with cta := Function.update w.cta k c }
  | .count k =>
      let t := (w.cta k).head
      if t.pc = .returned ∧ t.taskId < setup.shape.numBlocks then
        if 0 < setup.numSendSms then
          let x := chunkOfTask setup.shape k.1 t.taskId
          let flatChunk := setup.shape.flatChunk x.1 x.2
          let prev := w.compGemmDone k.1 flatChunk
          some { w.setHead k
              (if prev + 1 = setup.shape.tilesThisChunk x.2 then t.goto (.signalling x.1 x.2)
                else t.nextTask setup.loop (.inputs 0)) with
            compGemmDone := Function.update w.compGemmDone k.1
              (Function.update (w.compGemmDone k.1) flatChunk (prev + 1))
            counted := Function.update w.counted k.1 (w.counted k.1 ++ [t.taskId]) }
        else some (w.setHead k (t.nextTask setup.loop (.inputs 0)))
      else none
  | .signal k =>
      let t := (w.cta k).head
      match t.pc with
      | .signalling row chunkCol =>
          if h : row / setup.shape.rowBlocksPerSlice < setup.shape.numDevices then
            let owner : Fin setup.shape.numDevices := ⟨_, h⟩
            let flatChunk := setup.shape.flatChunk row chunkCol
            let readyPrev := w.readyChunk owner flatChunk
            some { (w.setHead k
                (if readyPrev = BitVec.ofNat 32 (setup.shape.numDevices - 1) then
                  t.goto (.announcing row chunkCol)
                else t.nextTask setup.loop (.inputs 0))).setWord
                owner flatChunk (readyPrev + 1) with
              signalled := w.signalled ++ [(k.1, (row, chunkCol))] }
          else none
      | _ => none
  | .announce k =>
      let t := (w.cta k).head
      match t.pc with
      | .announcing row chunkCol =>
          if h : row / setup.shape.rowBlocksPerSlice < setup.shape.numDevices then
            let owner : Fin setup.shape.numDevices := ⟨_, h⟩
            let rbInSlice := row - owner * setup.shape.rowBlocksPerSlice
            let word := bitmapWord setup.shape setup.numSendSms rbInSlice chunkCol
            let bit := 1#32 <<< bitmapBit setup.shape setup.numSendSms rbInSlice chunkCol
            some ((w.setHead k (t.nextTask setup.loop (.inputs 0))).setWord owner word
              (w.readyChunk owner word ||| bit))
          else none
      | _ => none
  | .claim d sendId idx =>
      let queueWords := sendReadyBitmapWordsPerQueue setup.shape.rowBlocksPerSlice
        setup.numSendSms setup.shape.chunksPerRow
      let word := queueWord setup.shape setup.numSendSms sendId (idx / 32)
      let old := w.readyChunk d word
      if sendId < setup.numSendSms ∧ idx / 32 < queueWords ∧ old.getLsbD (idx % 32) = true then
        some (w.setWord d word (old &&& ~~~(1#32 <<< (idx % 32))))
      else none

/-- The bit of a chunk is set, at its owner. -/
def World.Ready (w : World setup) (x : Chunk setup.shape) : Prop :=
  (w.readyChunk x.owner (bitmapWord setup.shape setup.numSendSms x.rbInSlice x.chunkCol)).getLsbD
    (bitmapBit setup.shape setup.numSendSms x.rbInSlice x.chunkCol) = true

instance (w : World setup) (x : Chunk setup.shape) : Decidable (w.Ready x) :=
  inferInstanceAs (Decidable (_ = _))

/-- A GPU's writes of a tile into staging are complete. -/
def World.Landed (w : World setup) (d : Fin setup.shape.numDevices) (t : Nat) : Prop :=
  ∃ c, (w.cta (d, c)).Accumulated t

/-- The writes into staging are complete, of all tiles of a chunk by all GPUs. -/
def World.Accumulated (w : World setup) (x : Chunk setup.shape) : Prop :=
  ∀ d : Fin setup.shape.numDevices, ∀ t < setup.shape.numBlocks,
    chunkOfTask setup.shape d t = place x → w.Landed d t

/-- A tile is counted when its writes into staging are complete. -/
def Timely (w : World setup) : Action setup → Prop
  | .count k => (w.cta k).Accumulated (w.cta k).head.taskId
  | _ => True

instance (w : World setup) : ∀ a, Decidable (Timely w a)
  | .cta _ _ => .isTrue trivial
  | .count _ => inferInstanceAs (Decidable (Cta.Accumulated _ _))
  | .signal _ => .isTrue trivial
  | .announce _ => .isTrue trivial
  | .claim _ _ _ => .isTrue trivial

/-! ## Counting -/

variable {l : List Nat}

/-- A list has all tasks of a chunk if it has as many as the chunk has tiles. -/
theorem countP_eq_tiles_iff (ha : setup.shape.Aligned) (hl : l.Nodup)
    (hlt : ∀ t ∈ l, t < setup.shape.numBlocks) (d : Fin setup.shape.numDevices)
    (x : Chunk setup.shape) :
    l.countP (fun t => chunkOfTask setup.shape d t = place x) = x.tiles ↔
      ∀ t < setup.shape.numBlocks, chunkOfTask setup.shape d t = place x → t ∈ l := by
  rw [← card_tasks ha d x, countP_eq_card_iff hl]
  · simp only [Finset.mem_filter, Finset.mem_range, and_imp, place]
  · intro t ht hx
    exact Finset.mem_filter.mpr ⟨Finset.mem_range.mpr (hlt t ht), hx⟩
  · intro t ht
    exact (Finset.mem_filter.mp ht).2

/-- The entries for a chunk, one for each GPU. -/
def entries (D : Nat) (p : Nat × Nat) : Finset (Fin D × (Nat × Nat)) :=
  Finset.univ.map ⟨fun d => (d, p), fun _ _ h => (Prod.mk.inj h).1⟩

theorem mem_entries {D : Nat} {p : Nat × Nat} {y : Fin D × (Nat × Nat)} :
    y ∈ entries D p ↔ y.2 = p := by
  simp only [entries, Finset.mem_map, Finset.mem_univ, true_and]
  constructor
  · rintro ⟨d, rfl⟩
    rfl
  · rintro rfl
    exact ⟨y.1, rfl⟩

@[simp] theorem card_entries (D : Nat) (p : Nat × Nat) : (entries D p).card = D := by
  rw [entries, Finset.card_map, Finset.card_univ, Fintype.card_fin]

/-! ## The invariant -/

/-- The chunk a CTA still has to count its GPU for, with the GPU. -/
def World.owes (w : World setup) (k : CtaId setup) :
    Option (Fin setup.shape.numDevices × (Nat × Nat)) :=
  match (w.cta k).head.pc with
  | .signalling row chunkCol => some (k.1, (row, chunkCol))
  | _ => none

/-- A GPU has counted all tiles of a chunk. -/
def World.Taken (w : World setup) (y : Fin setup.shape.numDevices × (Nat × Nat)) : Prop :=
  (∃ x : Chunk setup.shape, y.2 = place x) ∧
    ∀ t < setup.shape.numBlocks, chunkOfTask setup.shape y.1 t = y.2 → t ∈ w.counted y.1

/-- What holds of the counts and bits in a run in which tiles are counted in
    time. -/
structure Inv (w : World setup) : Prop where
  /-- A CTA is at a task of its own, and has counted earlier ones only, or this one
      if it still owes a signal for it. -/
  task : ∀ k, (w.cta k).head.taskId % setup.numCompSms = k.2
  behind : ∀ k, ∀ t ∈ w.counted k.1, t % setup.numCompSms = k.2 →
    t ≤ (w.cta k).head.taskId ∧ (t = (w.cta k).head.taskId → (w.cta k).head.pc.Owes)
  /-- Signals are for a CTA that sends. -/
  sending : ∀ k, (w.cta k).head.pc.Owes → 0 < setup.numSendSms
  counted_nodup : ∀ d, (w.counted d).Nodup
  counted_lt : ∀ d, ∀ t ∈ w.counted d, t < setup.shape.numBlocks
  landed : ∀ d, ∀ t ∈ w.counted d, w.Landed d t
  done_eq : ∀ d (x : Chunk setup.shape), w.compGemmDone d (setup.shape.flatChunk x.row x.chunkCol) =
    (w.counted d).countP fun t => chunkOfTask setup.shape d t = place x
  signals : Custody w.owes w.Taken w.signalled
  ready_eq : ∀ x : Chunk setup.shape,
    w.readyChunk x.owner (setup.shape.flatChunk x.row x.chunkCol) =
      BitVec.ofNat 32 (w.signalled.countP fun y => y.2 = place x)
  /-- All GPUs are counted for a chunk that is announced, or about to be. -/
  announcing : ∀ k row chunkCol, (w.cta k).head.pc = .announcing row chunkCol →
    ∃ x : Chunk setup.shape, (row, chunkCol) = place x ∧ ∀ y ∈ entries _ (place x), y ∈ w.signalled
  ready : ∀ x : Chunk setup.shape, w.Ready x → ∀ y ∈ entries _ (place x), y ∈ w.signalled

theorem inv_init : Inv (init setup) where
  task k := Nat.mod_eq_of_lt k.2.isLt
  behind _ _ ht := absurd ht List.not_mem_nil
  sending _ h := absurd h id
  counted_nodup _ := List.nodup_nil
  counted_lt _ _ ht := absurd ht List.not_mem_nil
  landed _ _ ht := absurd ht List.not_mem_nil
  done_eq _ _ := rfl
  signals := Custody.init fun _ => rfl
  ready_eq _ := rfl
  announcing _ _ _ h := absurd h (by simp only [init, Cta.head, Cta.init, Warp.start, reduceCtorEq,
    not_false_eq_true])
  ready x h := by
    simp only [World.Ready, init, BitVec.ofNat_eq_ofNat, BitVec.getLsbD_zero,
      Bool.false_eq_true] at h

/-- A chunk that is ready is accumulated. -/
theorem Inv.accumulated {w : World setup} (h : Inv w) {x : Chunk setup.shape} (hx : w.Ready x) :
    w.Accumulated x := by
  intro d t ht hchunk
  have hin : (d, place x) ∈ w.signalled := h.ready x hx _ (mem_entries.mpr rfl)
  exact h.landed d t ((h.signals.taken_of_out _ hin).2 t ht hchunk)

section Steps

variable {w : World setup}

/-- The chunk a thread 0 stands at tells what it owes. -/
theorem owes_eq_some {k : CtaId setup} {y : Fin setup.shape.numDevices × (Nat × Nat)}
    (h : w.owes k = some y) : y.1 = k.1 ∧ (w.cta k).head.pc = .signalling y.2.1 y.2.2 := by
  unfold World.owes at h
  split at h
  · rename_i row chunkCol hpc
    cases h
    exact ⟨rfl, hpc⟩
  · exact absurd h (by simp only [reduceCtorEq, not_false_eq_true])

theorem owes_of_not {k : CtaId setup} (h : ¬ (w.cta k).head.pc.Owes) : w.owes k = none := by
  unfold World.owes
  split
  · rename_i row chunkCol hpc
    rw [hpc] at h
    exact absurd trivial h
  · rfl

/-- The warps do their work on the tiles. -/
theorem Inv.cta (h : Inv w) {k : CtaId setup} {c : Cta} (hc : Keeps (w.cta k) c) :
    Inv { w with cta := Function.update w.cta k c } := by
  have hcta : ∀ j, j = k ∧ Function.update w.cta k c j = c ∨
      j ≠ k ∧ Function.update w.cta k c j = w.cta j := by
    intro j
    by_cases hj : j = k
    · exact Or.inl ⟨hj, by rw [hj, Function.update_self]⟩
    · exact Or.inr ⟨hj, Function.update_of_ne hj _ _⟩
  -- A CTA owes a count only while its thread 0 is about to make it.
  have howes : ∀ j, World.owes { w with cta := Function.update w.cta k c } j = w.owes j := by
    intro j
    rcases hcta j with ⟨rfl, hj⟩ | ⟨_, hj⟩
    · rcases hc.pc with hpc | ⟨hold, hnew⟩
      · simp only [World.owes, hj, hpc]
      · rw [owes_of_not hold]
        exact owes_of_not (by simpa only [hj] using hnew)
    · simp only [World.owes, hj]
  exact { h with
    task := fun j => by
      rcases hcta j with ⟨rfl, hj⟩ | ⟨_, hj⟩
      · simp only [hj, hc.taskId]
        exact h.task j
      · simp only [hj]
        exact h.task j
    -- The tasks before the one it is at have been counted.
    behind := fun j t ht hmod => by
      have hold := h.behind j t ht hmod
      rcases hcta j with ⟨rfl, hj⟩ | ⟨_, hj⟩
      · simp only [hj, hc.taskId]
        refine ⟨hold.1, fun heq => ?_⟩
        -- The warps do not move a thread 0 that is about to count.
        rcases hc.pc with hpc | ⟨hno, _⟩
        · rw [hpc]
          exact hold.2 heq
        · exact absurd (hold.2 heq) hno
      · simp only [hj]
        exact hold
    sending := fun j howe => by
      rcases hcta j with ⟨rfl, hj⟩ | ⟨_, hj⟩
      · simp only [hj] at howe
        rcases hc.pc with hpc | ⟨_, hno⟩
        · exact h.sending j (by rwa [← hpc])
        · exact absurd howe hno
      · simp only [hj] at howe
        exact h.sending j howe
    -- What has landed stays, for a warp never takes a store back.
    landed := fun d t ht => by
      rcases h.landed d t ht with ⟨c', hc'⟩
      refine ⟨c', ?_⟩
      rcases hcta (d, c') with ⟨heq, hj⟩ | ⟨_, hj⟩
      · simp only [hj]
        rw [heq] at hc'
        exact hc.accumulated hc'
      · simp only [hj]
        exact hc'
    signals := h.signals.congr howes fun _ => Iff.rfl
    announcing := fun j row chunkCol hpc => by
      rcases hcta j with ⟨rfl, hj⟩ | ⟨_, hj⟩
      · simp only [hj] at hpc
        rcases hc.pc with heq | ⟨_, hno⟩
        · exact h.announcing j row chunkCol (by rw [← heq, hpc])
        · rw [hpc] at hno
          exact absurd trivial hno
      · simp only [hj] at hpc
        exact h.announcing j row chunkCol hpc }

/-! ## Thread 0 -/

theorem head_setHead (k : CtaId setup) (t : Warp ConsumerPc) (j : CtaId setup) :
    ((w.setHead k t).cta j).head = if j = k then t else (w.cta j).head := by
  rw [World.setHead]
  by_cases hj : j = k
  · rw [if_pos hj, hj]
    simp only [Function.update_self, Cta.head, Cta.setConsumer]
  · rw [if_neg hj]
    simp only [Function.update_of_ne hj]

theorem landed_setHead (k : CtaId setup) (t : Warp ConsumerPc) (d : Fin setup.shape.numDevices)
    (x : Nat) : (w.setHead k t).Landed d x ↔ w.Landed d x := by
  have hsame : ∀ j, ((w.setHead k t).cta j).landed = (w.cta j).landed := by
    intro j
    by_cases hj : j = k
    · rw [World.setHead, hj]
      simp only [Function.update_self]
      rfl
    · rw [World.setHead]
      simp only [Function.update_of_ne hj]
  simp only [World.Landed, Cta.Accumulated, hsame]

/-- Thread 0 goes on to its next task, or stays for a signal it owes. -/
def Moves (setup : Setup) (t t' : Warp ConsumerPc) : Prop :=
  t' = t.nextTask setup.loop (.inputs 0) ∨ t'.taskId = t.taskId ∧ t'.pc.Owes

/-- It leaves only tasks behind that are counted, its own perhaps among them. -/
theorem Inv.move (h : Inv w) {k : CtaId setup} {t : Warp ConsumerPc}
    (ht : Moves setup (w.cta k).head t)
    (counted : Fin setup.shape.numDevices → List Nat)
    (hc : ∀ d, ∀ x ∈ counted d, x ∈ w.counted d ∨ d = k.1 ∧ x = (w.cta k).head.taskId) :
    (∀ j, ((w.setHead k t).cta j).head.taskId % setup.numCompSms = j.2) ∧
    ∀ j, ∀ x ∈ counted j.1, x % setup.numCompSms = j.2 →
      x ≤ ((w.setHead k t).cta j).head.taskId ∧
        (x = ((w.setHead k t).cta j).head.taskId → ((w.setHead k t).cta j).head.pc.Owes) := by
  have htask := h.task k
  constructor
  · intro j
    rw [head_setHead]
    by_cases hj : j = k
    · rw [if_pos hj, hj]
      rcases ht with rfl | ⟨heq, _⟩
      · exact (Nat.add_mod_right _ _).trans htask
      · rw [heq]
        exact htask
    · rw [if_neg hj]
      exact h.task j
  · intro j x hx hmod
    rw [head_setHead]
    by_cases hj : j = k
    · rw [if_pos hj]
      subst hj
      have hle : x ≤ (w.cta j).head.taskId := by
        rcases hc j.1 x hx with hold | ⟨_, rfl⟩
        · exact (h.behind j x hold hmod).1
        · exact le_refl _
      rcases ht with rfl | ⟨heq, howes⟩
      · have hpos : 0 < setup.numCompSms := Nat.lt_of_le_of_lt (Nat.zero_le _) j.2.isLt
        have hnext : ((w.cta j).head.nextTask setup.loop (.inputs 0)).taskId =
            (w.cta j).head.taskId + setup.numCompSms := rfl
        rw [hnext]
        exact ⟨by omega, fun heq => absurd heq (by omega)⟩
      · rw [heq]
        exact ⟨hle, fun _ => howes⟩
    · rw [if_neg hj]
      rcases hc j.1 x hx with hold | ⟨hd, rfl⟩
      · exact h.behind j x hold hmod
      · -- The task is another CTA's.
        exact absurd (Prod.ext hd (Fin.ext (hmod.symm.trans htask))) hj

theorem Inv.sending_setHead (h : Inv w) {k : CtaId setup} {t : Warp ConsumerPc}
    (ht : t.pc.Owes → 0 < setup.numSendSms) (j : CtaId setup)
    (hj : ((w.setHead k t).cta j).head.pc.Owes) : 0 < setup.numSendSms := by
  rw [head_setHead] at hj
  by_cases heq : j = k
  · rw [if_pos heq] at hj
    exact ht hj
  · rw [if_neg heq] at hj
    exact h.sending j hj

/-- A thread 0 that announces nothing leaves the others to theirs. -/
theorem Inv.announcing_setHead (h : Inv w) {k : CtaId setup} {t : Warp ConsumerPc}
    (ht : ∀ row chunkCol, t.pc = .announcing row chunkCol →
      ∃ x : Chunk setup.shape, (row, chunkCol) = place x ∧
        ∀ y ∈ entries _ (place x), y ∈ w.signalled)
    (j : CtaId setup) (row chunkCol : Nat)
    (hj : ((w.setHead k t).cta j).head.pc = .announcing row chunkCol) :
    ∃ x : Chunk setup.shape, (row, chunkCol) = place x ∧
      ∀ y ∈ entries _ (place x), y ∈ w.signalled := by
  rw [head_setHead] at hj
  by_cases heq : j = k
  · rw [if_pos heq] at hj
    exact ht row chunkCol hj
  · rw [if_neg heq] at hj
    exact h.announcing j row chunkCol hj

theorem owes_setHead_ne {k j : CtaId setup} (t : Warp ConsumerPc) (hj : j ≠ k) :
    (w.setHead k t).owes j = w.owes j := by
  simp only [World.owes, head_setHead, if_neg hj]

/-! ## Counting a tile -/

/-- Where a tile is counted, its chunk's count is the count of its tasks. -/
theorem count_concat {α : Type*} {l : List α} {p : α → Prop} [DecidablePred p] (t : α) :
    (l ++ [t]).countP (fun x => p x) = l.countP (fun x => p x) + if p t then 1 else 0 := by
  rw [List.countP_append, List.countP_singleton]
  simp only [decide_eq_true_eq]

/-- The world after a tile is counted. -/
def World.countTile (w : World setup) (k : CtaId setup) (x : Chunk setup.shape) : World setup :=
  let t := (w.cta k).head
  let flatChunk := setup.shape.flatChunk x.row x.chunkCol
  let prev := w.compGemmDone k.1 flatChunk
  { w.setHead k
      (if prev + 1 = x.tiles then t.goto (.signalling x.row x.chunkCol)
        else t.nextTask setup.loop (.inputs 0)) with
    compGemmDone := Function.update w.compGemmDone k.1
      (Function.update (w.compGemmDone k.1) flatChunk (prev + 1))
    counted := Function.update w.counted k.1 (w.counted k.1 ++ [t.taskId]) }

/-- Counting a tile whose writes are complete. -/
theorem Inv.counting (ha : setup.shape.Aligned) (h : Inv w) {k : CtaId setup}
    (hsend : 0 < setup.numSendSms)
    (hpc : (w.cta k).head.pc = .returned) (hlt : (w.cta k).head.taskId < setup.shape.numBlocks)
    (hdone : (w.cta k).Accumulated (w.cta k).head.taskId) {x : Chunk setup.shape}
    (hx : chunkOfTask setup.shape k.1 (w.cta k).head.taskId = place x) : Inv (w.countTile k x) := by
  have hnotowes : ¬ (w.cta k).head.pc.Owes := by
    rw [hpc]
    exact id
  have hnew : (w.cta k).head.taskId ∉ w.counted k.1 := fun hin =>
    hnotowes ((h.behind k _ hin (h.task k)).2 rfl)
  have hnodup := Settling.nodup_concat (h.counted_nodup k.1) hnew
  have hltall : ∀ t ∈ w.counted k.1 ++ [(w.cta k).head.taskId], t < setup.shape.numBlocks := by
    intro t ht
    rw [List.mem_append, List.mem_singleton] at ht
    rcases ht with ht | rfl
    · exact h.counted_lt k.1 t ht
    · exact hlt
  -- The count is that of the tasks, with the new one.
  have hcount := h.done_eq k.1 x
  have hfull : w.compGemmDone k.1 (setup.shape.flatChunk x.row x.chunkCol) + 1 = x.tiles ↔
      ∀ t < setup.shape.numBlocks, chunkOfTask setup.shape k.1 t = place x →
        t ∈ w.counted k.1 ++ [(w.cta k).head.taskId] := by
    rw [← countP_eq_tiles_iff ha hnodup hltall, count_concat, if_pos hx, hcount]
  have hmem : ∀ d t, t ∈ Function.update w.counted k.1
      (w.counted k.1 ++ [(w.cta k).head.taskId]) d ↔
        t ∈ w.counted d ∨ d = k.1 ∧ t = (w.cta k).head.taskId := by
    intro d t
    by_cases hd : d = k.1
    · rw [hd, Function.update_self, List.mem_append, List.mem_singleton]
      simp only [true_and]
    · rw [Function.update_of_ne hd]
      simp only [hd, false_and, or_false]
  -- Only this chunk of this GPU may have become complete.
  have hfresh : ¬ w.Taken (k.1, place x) := fun htaken => hnew (htaken.2 _ hlt hx)
  have htaken : ∀ y, (w.countTile k x).Taken y ↔ w.Taken y ∨ y = (k.1, place x) ∧
      w.compGemmDone k.1 (setup.shape.flatChunk x.row x.chunkCol) + 1 = x.tiles := by
    intro y
    by_cases hy : y = (k.1, place x)
    · rw [hy, hfull, or_iff_right hfresh]
      simp only [World.Taken, World.countTile, Function.update_self, true_and]
      exact and_iff_right ⟨x, rfl⟩
    · simp only [hy, false_and, or_false]
      refine and_congr_right fun _ => forall_congr' fun t => forall_congr' fun _ =>
        forall_congr' fun hchunk => ?_
      refine (hmem y.1 t).trans (or_iff_left ?_)
      rintro ⟨hd, rfl⟩
      refine hy (Prod.ext hd ?_)
      rw [← hchunk, hd, hx]
  have hmove : Moves setup (w.cta k).head
      (if w.compGemmDone k.1 (setup.shape.flatChunk x.row x.chunkCol) + 1 = x.tiles then
        (w.cta k).head.goto (.signalling x.row x.chunkCol)
      else (w.cta k).head.nextTask setup.loop (.inputs 0)) := by
    split
    · exact Or.inr ⟨rfl, trivial⟩
    · exact Or.inl rfl
  rcases h.move hmove _ (fun d t ht => (hmem d t).mp ht) with ⟨htask, hbehind⟩
  exact { h with
    task := htask
    behind := hbehind
    sending := h.sending_setHead fun _ => hsend
    counted_nodup := fun d => by
      simp only [World.countTile]
      by_cases hd : d = k.1
      · rw [hd, Function.update_self]
        exact hnodup
      · rw [Function.update_of_ne hd]
        exact h.counted_nodup d
    counted_lt := fun d t ht => by
      rcases (hmem d t).mp ht with hold | ⟨_, rfl⟩
      · exact h.counted_lt d t hold
      · exact hlt
    landed := fun d t ht => by
      refine (landed_setHead k _ d t).mpr ?_
      rcases (hmem d t).mp ht with hold | ⟨rfl, rfl⟩
      · exact h.landed d t hold
      · exact ⟨k.2, hdone⟩
    done_eq := fun d y => by
      simp only [World.countTile]
      by_cases hd : d = k.1
      · rw [hd, Function.update_self, Function.update_self, count_concat, hx]
        by_cases hxy : place x = place y
        · rw [if_pos hxy, ← hxy, ← hcount, ← (flat_eq_iff x y).mpr hxy, Function.update_self]
        · rw [if_neg hxy, Function.update_of_ne, h.done_eq k.1 y]
          · rfl
          · exact fun heq => hxy ((flat_eq_iff y x).mp heq).symm
      · rw [Function.update_of_ne hd, Function.update_of_ne hd]
        exact h.done_eq d y
    signals := by
      by_cases hfin : w.compGemmDone k.1 (setup.shape.flatChunk x.row x.chunkCol) + 1 = x.tiles
      · refine h.signals.claim (h := k) hfresh (fun j hj => owes_setHead_ne _ hj) ?_
          fun y => (htaken y).trans (or_congr_right (and_iff_left hfin))
        simp only [World.countTile, World.owes, head_setHead, if_true, if_pos hfin, Warp.goto]
        rfl
      · refine h.signals.congr (fun j => ?_) fun y => (htaken y).trans
          (or_iff_left fun hy => hfin hy.2)
        by_cases hj : j = k
        · rw [hj, owes_of_not hnotowes]
          refine owes_of_not ?_
          simp only [World.countTile, head_setHead, if_true, if_neg hfin, Warp.nextTask]
          exact id
        · exact owes_setHead_ne _ hj
    announcing := fun j row chunkCol hj => by
      refine h.announcing_setHead (fun row' chunkCol' hno => ?_) j row chunkCol hj
      split at hno
      · exact absurd hno (by simp only [Warp.goto, reduceCtorEq, not_false_eq_true])
      · exact absurd hno (by simp only [Warp.nextTask, reduceCtorEq, not_false_eq_true]) }

/-! ## Counting a GPU, and the bit -/

theorem readyChunk_setWord (d e : Fin setup.shape.numDevices) (i j : Nat) (v : BitVec 32) :
    (w.setWord d i v).readyChunk e j = if e = d ∧ j = i then v else w.readyChunk e j :=
  update_word ..

/-- The counts say nothing about the bits, -/
theorem ready_setWord_flat (d : Fin setup.shape.numDevices) (x y : Chunk setup.shape)
    (v : BitVec 32) :
    (w.setWord d (setup.shape.flatChunk x.row x.chunkCol) v).Ready y ↔ w.Ready y := by
  have hne : bitmapWord setup.shape setup.numSendSms y.rbInSlice y.chunkCol ≠
      setup.shape.flatChunk x.row x.chunkCol := Nat.ne_of_gt (flatChunk_lt x _ _)
  simp only [World.Ready, readyChunk_setWord, hne, and_false, if_false]

/-- nor the bits about the counts. -/
theorem flat_setWord (d e : Fin setup.shape.numDevices) (sendId wordIdx : Nat)
    (x : Chunk setup.shape) (v : BitVec 32) :
    (w.setWord d (queueWord setup.shape setup.numSendSms sendId wordIdx) v).readyChunk e
      (setup.shape.flatChunk x.row x.chunkCol) =
        w.readyChunk e (setup.shape.flatChunk x.row x.chunkCol) := by
  have hne : setup.shape.flatChunk x.row x.chunkCol ≠
      queueWord setup.shape setup.numSendSms sendId wordIdx := Nat.ne_of_lt (flatChunk_lt x _ _)
  rw [readyChunk_setWord, if_neg fun h => hne h.2]

/-- The chunk for which a CTA still has to count its GPU. -/
theorem Inv.signalling (h : Inv w) {k : CtaId setup} {row chunkCol : Nat}
    (hpc : (w.cta k).head.pc = .signalling row chunkCol) :
    ∃ x : Chunk setup.shape, (row, chunkCol) = place x ∧ w.owes k = some (k.1, place x) := by
  have howes : w.owes k = some (k.1, (row, chunkCol)) := by
    simp only [World.owes, hpc]
  rcases (h.signals.taken_of_held k _ howes).1 with ⟨x, hx⟩
  refine ⟨x, hx, ?_⟩
  rw [howes, ← hx]

/-- The world after a GPU is counted. -/
def World.countGpu (w : World setup) (k : CtaId setup) (x : Chunk setup.shape) : World setup :=
  let t := (w.cta k).head
  let flatChunk := setup.shape.flatChunk x.row x.chunkCol
  let readyPrev := w.readyChunk x.owner flatChunk
  { (w.setHead k
      (if readyPrev = BitVec.ofNat 32 (setup.shape.numDevices - 1) then
        t.goto (.announcing x.row x.chunkCol)
      else t.nextTask setup.loop (.inputs 0))).setWord x.owner flatChunk (readyPrev + 1) with
    signalled := w.signalled ++ [(k.1, place x)] }

/-- Counting a GPU for a chunk, all tiles of which it has counted. -/
theorem Inv.signal (h : Inv w) {k : CtaId setup} {x : Chunk setup.shape}
    (howes : w.owes k = some (k.1, place x)) : Inv (w.countGpu k x) := by
  have hsend : 0 < setup.numSendSms := by
    refine h.sending k ?_
    rw [(owes_eq_some howes).2]
    exact trivial
  have hready := h.ready_eq x
  have hin : ∀ y : Fin setup.shape.numDevices × (Nat × Nat), y ∈ w.signalled ++ [(k.1, place x)] ↔
      y ∈ w.signalled ∨ y = (k.1, place x) := fun y => by
    rw [List.mem_append, List.mem_singleton]
  have hnotOwes : ∀ t : Warp ConsumerPc, (∀ row chunkCol, t.pc ≠ .signalling row chunkCol) →
      (w.setHead k t).owes k = none := by
    intro t ht
    unfold World.owes
    split
    · rename_i row chunkCol hpc
      rw [head_setHead, if_pos rfl] at hpc
      exact absurd hpc (ht row chunkCol)
    · rfl
  have hsignals : Custody (w.countGpu k x).owes (w.countGpu k x).Taken
      (w.countGpu k x).signalled := by
    refine h.signals.release howes (fun j hj => owes_setHead_ne _ hj) (hnotOwes _ ?_)
    intro row chunkCol
    split
    · simp only [Warp.goto, ne_eq, reduceCtorEq, not_false_eq_true]
    · simp only [Warp.nextTask, ne_eq, reduceCtorEq, not_false_eq_true]
  -- The last of the GPUs finds all the others counted.
  have hall : w.readyChunk x.owner (setup.shape.flatChunk x.row x.chunkCol) =
      BitVec.ofNat 32 (setup.shape.numDevices - 1) →
        ∀ y ∈ entries _ (place x), y ∈ w.signalled ++ [(k.1, place x)] := by
    intro hlast
    have hle := countP_le_card (p := fun y => y.2 = place x) (S := entries _ (place x))
      hsignals.nodup fun y _ hy => mem_entries.mpr hy
    rw [card_entries] at hle
    have hcount := count_concat (l := w.signalled) (p := fun y => y.2 = place x) (k.1, place x)
    rw [if_pos rfl] at hcount
    refine (countP_eq_card_iff hsignals.nodup (fun y _ hy => mem_entries.mpr hy)
      fun y hy => mem_entries.mp hy).mp ?_
    have hD := setup.numDevices_lt
    have hpos : 0 < setup.shape.numDevices := Nat.lt_of_le_of_lt (Nat.zero_le _) k.1.isLt
    have hwords := congrArg BitVec.toNat (hready.symm.trans hlast)
    rw [BitVec.toNat_ofNat, BitVec.toNat_ofNat] at hwords
    simp only [World.countGpu] at hle ⊢
    rw [card_entries]
    omega
  have hmove : Moves setup (w.cta k).head
      (if w.readyChunk x.owner (setup.shape.flatChunk x.row x.chunkCol) =
          BitVec.ofNat 32 (setup.shape.numDevices - 1) then
        (w.cta k).head.goto (.announcing x.row x.chunkCol)
      else (w.cta k).head.nextTask setup.loop (.inputs 0)) := by
    split
    · exact Or.inr ⟨rfl, trivial⟩
    · exact Or.inl rfl
  rcases h.move hmove w.counted (fun d t ht => Or.inl ht) with ⟨htask, hbehind⟩
  exact { h with
    task := htask
    behind := hbehind
    sending := h.sending_setHead fun _ => hsend
    landed := fun d t ht => (landed_setHead k _ d t).mpr (h.landed d t ht)
    signals := hsignals
    ready_eq := fun y => by
      simp only [World.countGpu, readyChunk_setWord]
      rw [count_concat, World.setHead]
      by_cases hxy : place x = place y
      · have heq : x = y := Chunk.eq_of_row (Prod.mk.inj hxy).1 (Fin.ext (Prod.mk.inj hxy).2)
        rw [← heq, if_pos ⟨rfl, rfl⟩, if_pos rfl, hready, BitVec.ofNat_add]
        rfl
      · rw [if_neg hxy, if_neg fun hyx => hxy ((flat_eq_iff y x).mp hyx.2).symm, Nat.add_zero]
        exact h.ready_eq y
    announcing := fun j row chunkCol hj => by
      by_cases hjk : j = k
      · -- The CTA itself, if it found the others counted.
        simp only [World.countGpu, World.setWord, head_setHead, if_pos hjk] at hj
        split at hj
        · rename_i hlast
          cases hj
          exact ⟨x, rfl, hall hlast⟩
        · exact absurd hj (by simp only [Warp.nextTask, reduceCtorEq, not_false_eq_true])
      · simp only [World.countGpu, World.setWord, head_setHead, if_neg hjk] at hj
        rcases h.announcing j row chunkCol hj with ⟨y, hy, hmem⟩
        exact ⟨y, hy, fun z hz => (hin z).mpr (Or.inl (hmem z hz))⟩
    ready := fun y hy z hz => by
      refine (hin z).mpr (Or.inl (h.ready y ?_ z hz))
      exact (ready_setWord_flat (w := w.setHead k _) x.owner x y _).mp hy }

/-- Thread 0 goes on to its next task. -/
theorem Inv.next (h : Inv w) {k : CtaId setup}
    (hpc : ∀ row chunkCol, (w.cta k).head.pc ≠ .signalling row chunkCol) :
    Inv (w.setHead k ((w.cta k).head.nextTask setup.loop (.inputs 0))) := by
  -- Where it stands now, nothing is owed.
  have hnone : w.owes k = none := by
    unfold World.owes
    split
    · rename_i row chunkCol hsig
      exact absurd hsig (hpc row chunkCol)
    · rfl
  rcases h.move (Or.inl rfl) w.counted (fun d t ht => Or.inl ht) with
    ⟨htask, hbehind⟩
  exact { h with
    task := htask
    behind := hbehind
    sending := h.sending_setHead fun ht => absurd ht id
    landed := fun d t ht => (landed_setHead k _ d t).mpr (h.landed d t ht)
    signals := by
      refine h.signals.congr (fun j => ?_) fun _ => Iff.rfl
      -- The next task is not yet signalled.
      by_cases hj : j = k
      · rw [hj, hnone]
        refine owes_of_not ?_
        simp only [head_setHead, if_true, Warp.nextTask]
        exact id
      · exact owes_setHead_ne _ hj
    announcing := h.announcing_setHead fun row chunkCol hno =>
      absurd hno (by simp only [Warp.nextTask, reduceCtorEq, not_false_eq_true]) }

/-- A word of the queues changes, and has no new bit but of chunks that all GPUs
    are counted for. -/
theorem Inv.word (h : Inv w) (d : Fin setup.shape.numDevices) {i sendId wordIdx : Nat}
    (hi : i = queueWord setup.shape setup.numSendSms sendId wordIdx) {v : BitVec 32}
    (hv : ∀ x, (w.setWord d i v).Ready x →
      w.Ready x ∨ ∀ y ∈ entries _ (place x), y ∈ w.signalled) : Inv (w.setWord d i v) :=
  { h with
    ready_eq := fun x => by
      rw [hi, flat_setWord]
      exact h.ready_eq x
    ready := fun x hx => by
      rcases hv x hx with hold | hall
      · exact h.ready x hold
      · exact hall }

/-- A bit is set, of a chunk that all GPUs are counted for. -/
theorem Inv.setBit (h : Inv w) (hsend : 0 < setup.numSendSms) {x : Chunk setup.shape}
    (hx : ∀ y ∈ entries _ (place x), y ∈ w.signalled) :
    Inv (w.setWord x.owner (bitmapWord setup.shape setup.numSendSms x.rbInSlice x.chunkCol)
      (w.readyChunk x.owner (bitmapWord setup.shape setup.numSendSms x.rbInSlice x.chunkCol) |||
        1#32 <<< bitmapBit setup.shape setup.numSendSms x.rbInSlice x.chunkCol)) := by
  refine h.word x.owner
    (i := bitmapWord setup.shape setup.numSendSms x.rbInSlice x.chunkCol) rfl fun y hy => ?_
  rw [World.Ready, readyChunk_setWord] at hy
  -- Only the bits of that word change.
  by_cases hword : y.owner = x.owner ∧
      bitmapWord setup.shape setup.numSendSms y.rbInSlice y.chunkCol =
        bitmapWord setup.shape setup.numSendSms x.rbInSlice x.chunkCol
  · have hbit : bitmapBit setup.shape setup.numSendSms x.rbInSlice x.chunkCol < 32 :=
      Nat.mod_lt _ (by decide)
    rw [if_pos hword, ← mem_voters, voters_or, voters_bit hbit, Finset.mem_union,
      Finset.mem_singleton, mem_voters] at hy
    -- It is this bit.
    rcases hy with hy | hy
    · left
      rw [World.Ready, hword.1, hword.2]
      exact hy
    · right
      rw [bit_inj hsend hword.1 hword.2 hy]
      exact hx
  · rw [if_neg hword] at hy
    exact Or.inl hy

/-- A bit is cleared. -/
theorem Inv.clearBit (h : Inv w) (d : Fin setup.shape.numDevices) (sendId wordIdx : Nat)
    (bit : BitVec 32) :
    Inv (w.setWord d (queueWord setup.shape setup.numSendSms sendId wordIdx)
      (w.readyChunk d (queueWord setup.shape setup.numSendSms sendId wordIdx) &&& bit)) := by
  refine h.word d rfl fun y hy => Or.inl ?_
  rw [World.Ready, readyChunk_setWord] at hy
  split at hy
  · rename_i hword
    rw [BitVec.getLsbD_and, Bool.and_eq_true] at hy
    rw [World.Ready, hword.1, hword.2]
    exact hy.1
  · exact hy

end Steps

/-- In an aligned shape, every step keeps the invariant as long as tiles are counted
    in time. -/
theorem inv_step (ha : setup.shape.Aligned) {w w' : World setup} (h : Inv w)
    {a : Action setup} (hok : Timely w a) (hstep : step w a = some w') : Inv w' := by
  cases a with
  | cta k a =>
      rw [step] at hstep
      rcases Option.map_eq_some_iff.mp hstep with ⟨c, hc, rfl⟩
      exact h.cta (keeps_step hc)
  | count k =>
      simp only [step] at hstep
      split at hstep
      · rename_i hpc
        split at hstep
        · rename_i hsend
          cases hstep
          -- The shape is aligned, so that every task is in a chunk.
          rcases exists_chunk ha k.1 hpc.2 with ⟨x, hx⟩
          have hafter := h.counting ha hsend hpc.1 hpc.2 hok hx
          rw [World.countTile] at hafter
          simp only [hx]
          exact hafter
        · cases hstep
          -- Without sending CTAs nothing is counted.
          refine h.next fun row chunkCol => ?_
          rw [hpc.1]
          simp only [ne_eq, reduceCtorEq, not_false_eq_true]
      · exact absurd hstep (by simp only [reduceCtorEq, not_false_eq_true])
  | signal k =>
      simp only [step] at hstep
      split at hstep
      · rename_i row chunkCol hpc
        rcases h.signalling hpc with ⟨x, hx, howes⟩
        cases hx
        have hrow := x.row_div
        split at hstep
        · rename_i howner
          cases hstep
          have hafter := h.signal howes
          -- The owner that is computed from the row is that of the chunk.
          have hfin : (⟨_, howner⟩ : Fin setup.shape.numDevices) = x.owner := Fin.ext hrow
          rw [hfin]
          exact hafter
        · exact absurd hstep (by simp only [reduceCtorEq, not_false_eq_true])
      · exact absurd hstep (by simp only [reduceCtorEq, not_false_eq_true])
  | announce k =>
      simp only [step] at hstep
      split at hstep
      · rename_i row chunkCol hpc
        rcases h.announcing k row chunkCol hpc with ⟨x, hx, hall⟩
        cases hx
        have hrow := x.row_div
        have hrb : x.row - x.row / setup.shape.rowBlocksPerSlice *
            setup.shape.rowBlocksPerSlice = x.rbInSlice := by
          rw [hrow]
          exact Nat.add_sub_cancel_left _ _
        have hsend : 0 < setup.numSendSms := by
          refine h.sending k ?_
          rw [hpc]
          exact trivial
        split at hstep
        · rename_i howner
          cases hstep
          have hafter := (h.next (k := k) fun row chunkCol => by
            rw [hpc]
            -- The CTA goes on to its next tile as it sets the bit.
            simp only [ne_eq, reduceCtorEq, not_false_eq_true]).setBit hsend hall
          have hfin : (⟨_, howner⟩ : Fin setup.shape.numDevices) = x.owner := Fin.ext hrow
          rw [hfin, hrb]
          exact hafter
        · exact absurd hstep (by simp only [reduceCtorEq, not_false_eq_true])
      · exact absurd hstep (by simp only [reduceCtorEq, not_false_eq_true])
  | claim d sendId idx =>
      simp only [step] at hstep
      split at hstep
      · cases hstep
        exact h.clearBit d sendId (idx / 32) _
      · exact absurd hstep (by simp only [reduceCtorEq, not_false_eq_true])

/-- Where the row blocks are divided evenly and each tile is counted when its writes
    into staging are complete, a chunk whose bit is set is accumulated, in every
    state of every run. -/
theorem ready_accumulated (ha : setup.shape.Aligned) {w : World setup}
    (hrun : Reaches step Timely (init setup) w) {x : Chunk setup.shape} (hx : w.Ready x) :
    w.Accumulated x :=
  (invariant_of_reaches Inv (fun _ _ _ h hok hstep => inv_step ha h hok hstep) hrun
    inv_init).accumulated hx

section Sample

/-- Two GPUs with a row block each and one chunk in it, two compute CTAs on each
    and a common dimension of one step. -/
def twoGpus : Setup where
  shape := ⟨256, 256, 2, 0⟩
  numCompSms := 2
  numSendSms := 1
  numIters := 1
  numDevices_lt := two_lt_two_pow

/-- The chunk of the first GPU. -/
def firstChunk : Chunk twoGpus.shape := ⟨⟨0, by decide⟩, ⟨0, by decide⟩, ⟨0, by decide⟩⟩

/-- The CTA of a GPU that has the tile of the first chunk. -/
def firstCta (d : Fin 2) : CtaId twoGpus := (d, d)

/-- The loads of a CTA's tile, and its consumer warps until thread 0 returns. The
    store warp is not among them. -/
def returns (k : CtaId twoGpus) : List (Action twoGpus) :=
  [Action.cta k .loader, .cta k .loader, .cta k (.loaded 0), .cta k (.loaded 0),
      .cta k (.loaded 0)] ++
  (List.finRange 8).flatMap (fun i => List.replicate 3 (Action.cta k (.consumer i))) ++
  ([0, 1, 2, 3].flatMap fun i => List.replicate 2 (Action.cta k (.consumer i))) ++
  List.replicate 2 (Action.cta k (.consumer 0))

/-- The other warpgroup, the store warp and the writes it starts. -/
def stores (k : CtaId twoGpus) : List (Action twoGpus) :=
  ([4, 5, 6, 7].flatMap fun i => List.replicate 2 (Action.cta k (.consumer i))) ++
  List.replicate 2 (Action.cta k (.consumer 4)) ++
  List.replicate 5 (Action.cta k .storer) ++
  (targets.flatMap fun x => [Action.cta k (.read (k.2, x)), .cta k (.land (k.2, x))])

/-- Both GPUs count the tile and themselves, and the second sets the bit. -/
def aheadRun : List (Action twoGpus) :=
  returns (firstCta 0) ++ [Action.count (firstCta 0), .signal (firstCta 0)] ++
  returns (firstCta 1) ++ [Action.count (firstCta 1), .signal (firstCta 1), .announce (firstCta 1)]

/-- Where this leads to. -/
def ahead : World twoGpus := (run step always aheadRun (init twoGpus)).get (by decide +kernel)

/-- A chunk is ready before any write of its tiles has been started. -/
theorem ready_ahead : Reaches step always (init twoGpus) ahead ∧ ahead.Ready firstChunk ∧
    (∀ k, (ahead.cta k).issued = []) ∧ ¬ ahead.Accumulated firstChunk := by
  refine ⟨reaches_of_run aheadRun _ _ (Option.some_get _).symm, by decide +kernel,
    by decide +kernel, ?_⟩
  intro h
  rcases h ⟨0, by decide⟩ 0 (by decide) (by decide) with ⟨c, hc⟩
  have hnone : ∀ k, ¬ (ahead.cta k).Accumulated 0 := by decide +kernel
  exact hnone _ hc

/-- The same with the writes in between. The task of the tile is the second of the
    second GPU. -/
def timelyRun : List (Action twoGpus) :=
  returns (firstCta 0) ++ stores (firstCta 0) ++
    [Action.count (firstCta 0), .signal (firstCta 0)] ++
  returns (firstCta 1) ++ stores (firstCta 1) ++
  [Action.count (firstCta 1), .signal (firstCta 1), .announce (firstCta 1)]

def timely : World twoGpus := (run step Timely timelyRun (init twoGpus)).get (by decide +kernel)

theorem ready_accumulated_twoGpus : timely.Ready firstChunk ∧ timely.Accumulated firstChunk := by
  have hready : timely.Ready firstChunk := by decide +kernel
  exact ⟨hready, ready_accumulated (by decide)
    (reaches_of_run timelyRun _ _ (Option.some_get _).symm) hready⟩

end Sample

end Accumulate

end GemmRs

end MKernel
