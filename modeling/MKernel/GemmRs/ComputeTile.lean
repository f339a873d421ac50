import Mathlib.Logic.Function.Basic
import MKernel.Core.SmallNumbers

/-!
# The Warps of a Compute CTA

`compute_tile_impl` and the loop around it, as the warps of one CTA run it.

A loader fills the stages of a pipeline, eight consumer warps multiply what is in
them and leave the result in shared memory, and a store warp has it written to
the workspace and added into the staging buffer of the owner. They wait for each
other through semaphores, the consumers also through named barriers, and each
keeps for itself which phase of a semaphore it waits for next.

What the store warp starts is carried out later, first the reads from shared
memory and then the writes, and all it waits for are the reads. The first warp
of the first consumer warpgroup returns from the tile as soon as it has arrived
at `outputs_arrived`; nothing here makes it wait for the store warp. The other
warps go on with the next tile.

## Main definitions

* `Semaphore`: A semaphore in shared memory, or a named barrier.
* `Cta`, `Cta.step`: The warps of a CTA.
* `Cta.Accumulated`: The writes of a tile into staging are complete.
* `Keeps`: What any step of a CTA leaves alone.

## Theorems

* `keeps_step`: Every step of a CTA is such a step.
* `Keeps.accumulated`: A tile that is written stays written.
-/

namespace MKernel

namespace GemmRs

/-! ## Semaphores -/

/-- A semaphore: how many arrivals complete a phase, how many there were in this
    one, and the phases completed. `bar.sync` is an arrival at a barrier that is
    followed by a wait for the end of the phase. -/
structure Semaphore where
  count : Nat
  arrived : Nat
  phase : Nat

namespace Semaphore

/-- `init_semaphore`. -/
def init (threadCount : Nat) : Semaphore := ⟨threadCount, 0, 0⟩

def arrive (s : Semaphore) : Semaphore :=
  if s.arrived + 1 = s.count then { s with arrived := 0, phase := s.phase + 1 }
  else { s with arrived := s.arrived + 1 }

/-- `mbarrier.try_wait.parity`: the last phase of this parity is complete. -/
def Complete (s : Semaphore) (kPhaseBit : Bool) : Prop := decide (s.phase % 2 = 1) ≠ kPhaseBit

instance (s : Semaphore) (b : Bool) : Decidable (s.Complete b) :=
  inferInstanceAs (Decidable (_ ≠ _))

end Semaphore

/-- `get_phasebit`. -/
def getPhasebit (half : Nat) (bitfield : BitVec 32) (ringId : Nat) : Bool :=
  bitfield.getLsbD (ringId + 16 * half)

/-- `update_phasebit`. -/
def updatePhasebit (half : Nat) (bitfield : BitVec 32) (ringId : Nat) : BitVec 32 :=
  bitfield ^^^ (1#32 <<< (ringId + 16 * half))

/-- `PIPELINE_STAGES`. -/
def pipelineStages : Nat := 4

/-! ## Warps -/

/-- The loop of a compute CTA: it takes every `numCompSms`-th of the tiles, and
    goes `num_iters` times along the common dimension for each. -/
structure Loop where
  numCompSms : Nat
  numBlocks : Nat
  numIters : Nat

/-- What a warp keeps for itself. -/
structure Warp (Pc : Type) where
  taskId : Nat
  stage : Nat
  phasebits : BitVec 32
  pc : Pc

namespace Warp

variable {Pc : Type}

def start (taskId : Nat) (pc : Pc) : Warp Pc := ⟨taskId, 0, 0xFFFF0000#32, pc⟩

/-- Past a wait: the next one is for the next phase. -/
def waited (w : Warp Pc) (half ringId : Nat) (pc : Pc) : Warp Pc :=
  { w with phasebits := updatePhasebit half w.phasebits ringId, pc := pc }

def nextStage (w : Warp Pc) (pc : Pc) : Warp Pc :=
  { w with stage := (w.stage + 1) % pipelineStages, pc := pc }

def nextTask (w : Warp Pc) (l : Loop) (pc : Pc) : Warp Pc :=
  { w with taskId := w.taskId + l.numCompSms, pc := pc }

def goto (w : Warp Pc) (pc : Pc) : Warp Pc := { w with pc := pc }

end Warp

/-- Where the loader stands. -/
inductive LoaderPc where
  /-- Before the wait for `outputs_finished`. -/
  | outputs
  /-- Before the wait for `inputs_finished` of its stage. -/
  | inputs (redIdx : Nat)
deriving DecidableEq

/-- Where the store warp stands. -/
inductive StorePc where
  /-- Before the wait for `outputs_arrived`. -/
  | outputs
  /-- Before the start of a write. -/
  | issuing (k : Nat)
  /-- In `store_async_read_wait`. -/
  | reading
  /-- Before the arrival at `outputs_finished`. -/
  | finishing
deriving DecidableEq

/-- Where a consumer warp stands. -/
inductive ConsumerPc where
  /-- Before the wait for `inputs_arrived` of its stage, or done with all. -/
  | inputs (redIdx : Nat)
  /-- It multiplies, and is before the arrival at `inputs_finished`. -/
  | mma (redIdx : Nat)
  /-- It has arrived at the barrier of all consumers, in this phase. -/
  | group8 (phase : Nat)
  /-- It leaves its part of the result in shared memory. -/
  | storing
  /-- It has arrived at the barrier of its warpgroup. -/
  | warpgroup (phase : Nat)
  /-- Before the arrival at `outputs_arrived`. -/
  | arriving
  /-- The first warp has returned from the tile. -/
  | returned
  /-- It has counted the last tile of this chunk. -/
  | signalling (row chunkCol : Nat)
  /-- It has counted the last GPU for this chunk. -/
  | announcing (row chunkCol : Nat)
deriving DecidableEq

/-- Where a half of a tile is written to. -/
inductive Target where
  | workspace (i : Fin 2)
  | staging (i : Fin 2)
deriving DecidableEq

/-- The writes of a tile, in the order they are started in. -/
def targets : List Target := [.workspace 0, .workspace 1, .staging 0, .staging 1]

/-- One CTA. The writes that were started, that have read their source and that
    are complete are kept by task and target. -/
structure Cta where
  inputsArrived : Nat → Semaphore
  /-- The loads that `expect_bytes` still expects in a stage. -/
  loads : Nat → Nat
  inputsFinished : Nat → Semaphore
  outputsArrived : Semaphore
  outputsFinished : Semaphore
  /-- Named barrier 3. -/
  group8 : Semaphore
  /-- Named barriers 1 and 2. -/
  warpgroup : Nat → Semaphore
  loader : Warp LoaderPc
  storer : Warp StorePc
  consumer : Fin 8 → Warp ConsumerPc
  issued : List (Nat × Target)
  read : List (Nat × Target)
  landed : List (Nat × Target)

/-- The CTA with a number, at launch. -/
def Cta.init (blockIdx : Nat) : Cta where
  inputsArrived := fun _ => Semaphore.init 1
  loads := fun _ => 0
  inputsFinished := fun _ => Semaphore.init 8
  outputsArrived := Semaphore.init 2
  outputsFinished := Semaphore.init 1
  group8 := Semaphore.init 8
  warpgroup := fun _ => Semaphore.init 4
  loader := Warp.start blockIdx .outputs
  storer := Warp.start blockIdx .outputs
  consumer := fun _ => Warp.start blockIdx (.inputs 0)
  issued := []
  read := []
  landed := []

namespace Cta

/-- What can happen next in a CTA. -/
inductive Action where
  | loader
  /-- A load into a stage is complete. -/
  | loaded (stage : Nat)
  | storer
  /-- A write has read its source. -/
  | read (x : Nat × Target)
  /-- A write is complete. -/
  | land (x : Nat × Target)
  | consumer (w : Fin 8)
deriving DecidableEq

/-- The first warp of the first warpgroup, with thread 0. -/
def head (c : Cta) : Warp ConsumerPc := c.consumer 0

def setConsumer (c : Cta) (w : Fin 8) (x : Warp ConsumerPc) : Cta :=
  { c with consumer := Function.update c.consumer w x }

/-- The loader. -/
def loadStep (l : Loop) (c : Cta) : Option Cta :=
  let w := c.loader
  if w.taskId < l.numBlocks then
    match w.pc with
    | .outputs =>
        if c.outputsFinished.Complete (getPhasebit 1 w.phasebits pipelineStages) then
          some { c with loader := w.waited 1 pipelineStages (.inputs 0) }
        else none
    | .inputs redIdx =>
        if redIdx < l.numIters then
          if (c.inputsFinished w.stage).Complete (getPhasebit 1 w.phasebits w.stage) then
            -- Two halves of A and one of B.
            some { c with
              loads := Function.update c.loads w.stage 3
              loader := (w.waited 1 w.stage w.pc).nextStage (.inputs (redIdx + 1)) }
          else none
        else some { c with loader := w.nextTask l .outputs }
  else none

/-- The store warp. -/
def storeStep (l : Loop) (c : Cta) : Option Cta :=
  let w := c.storer
  if w.taskId < l.numBlocks then
    match w.pc with
    | .outputs =>
        if c.outputsArrived.Complete (getPhasebit 0 w.phasebits 0) then
          some { c with storer := w.waited 0 0 (.issuing 0) }
        else none
    | .issuing k =>
        match targets[k]? with
        | some x =>
            some { c with
              issued := c.issued ++ [(w.taskId, x)]
              storer := w.goto (.issuing (k + 1)) }
        | none => some { c with storer := w.goto .reading }
    | .reading =>
        if ∀ x ∈ c.issued, x ∈ c.read then some { c with storer := w.goto .finishing } else none
    | .finishing =>
        some { c with
          outputsFinished := c.outputsFinished.arrive
          storer := w.nextTask l .outputs }
  else none

/-- A consumer warp. -/
def consumeStep (l : Loop) (c : Cta) (i : Fin 8) : Option Cta :=
  let w := c.consumer i
  let wgId := i.val / 4
  if w.taskId < l.numBlocks then
    match w.pc with
    | .inputs redIdx =>
        if redIdx < l.numIters then
          if (c.inputsArrived w.stage).Complete (getPhasebit 0 w.phasebits w.stage) then
            some (c.setConsumer i (w.waited 0 w.stage (.mma redIdx)))
          else none
        else
          some ({ c with group8 := c.group8.arrive }.setConsumer i
            (w.goto (.group8 c.group8.phase)))
    | .mma redIdx =>
        some ({ c with
          inputsFinished := Function.update c.inputsFinished w.stage
            (c.inputsFinished w.stage).arrive }.setConsumer i (w.nextStage (.inputs (redIdx + 1))))
    | .group8 phase =>
        if c.group8.phase = phase then none else some (c.setConsumer i (w.goto .storing))
    | .storing =>
        some ({ c with
          warpgroup := Function.update c.warpgroup wgId (c.warpgroup wgId).arrive }.setConsumer i
            (w.goto (.warpgroup (c.warpgroup wgId).phase)))
    | .warpgroup phase =>
        if (c.warpgroup wgId).phase = phase then none else some (c.setConsumer i (w.goto .arriving))
    | .arriving =>
        -- The first lane of a warpgroup arrives for it.
        let c' := if i.val % 4 = 0 then { c with outputsArrived := c.outputsArrived.arrive } else c
        if i = 0 then some (c'.setConsumer i (w.goto .returned))
        else some (c'.setConsumer i (w.nextTask l (.inputs 0)))
    | .returned => none
    | .signalling _ _ => none
    | .announcing _ _ => none
  else none

/-- One step of any warp, or of the copies it has started. -/
def step (l : Loop) (c : Cta) : Action → Option Cta
  | .loader => c.loadStep l
  | .loaded stage =>
      if 0 < c.loads stage then
        -- The arrival of `expect_bytes` counts once all loads are complete.
        some { c with
          loads := Function.update c.loads stage (c.loads stage - 1)
          inputsArrived :=
            if c.loads stage = 1 then
              Function.update c.inputsArrived stage (c.inputsArrived stage).arrive
            else c.inputsArrived }
      else none
  | .storer => c.storeStep l
  | .read x => if x ∈ c.issued ∧ x ∉ c.read then some { c with read := c.read ++ [x] } else none
  | .land x => if x ∈ c.read ∧ x ∉ c.landed then some { c with landed := c.landed ++ [x] } else none
  | .consumer w => c.consumeStep l w

/-- The writes of a task into staging are complete. -/
def Accumulated (c : Cta) (taskId : Nat) : Prop := ∀ i, (taskId, Target.staging i) ∈ c.landed

instance (c : Cta) (t : Nat) : Decidable (c.Accumulated t) := inferInstanceAs (Decidable (∀ _, _))

end Cta

/-! ## What a step leaves -/

/-- Thread 0 has counted the last tile of a chunk, or the last GPU. -/
def ConsumerPc.Owes : ConsumerPc → Prop
  | .signalling _ _ => True
  | .announcing _ _ => True
  | _ => False

/-- What any step of a CTA leaves alone: the first warp stays at its task, neither
    begins nor ends to owe a signal, and what is complete stays complete. -/
structure Keeps (c c' : Cta) : Prop where
  taskId : c'.head.taskId = c.head.taskId
  pc : c'.head.pc = c.head.pc ∨ ¬ c.head.pc.Owes ∧ ¬ c'.head.pc.Owes
  landed : ∀ x ∈ c.landed, x ∈ c'.landed

section Steps

variable {l : Loop} {c c' : Cta}

theorem Keeps.of_eq (hhead : c'.head = c.head) (hlanded : c'.landed = c.landed) : Keeps c c' where
  taskId := by rw [hhead]
  pc := Or.inl (by rw [hhead])
  landed x hx := by rwa [hlanded]

/-- A step of a consumer warp, with the barriers as they may be. -/
theorem Keeps.of_consumer {i : Fin 8} {w : Warp ConsumerPc} {p : ConsumerPc}
    (hcons : c'.consumer = Function.update c.consumer i w) (hlanded : c'.landed = c.landed)
    (hpc : (c.consumer i).pc = p) (hold : ¬ p.Owes) (hnew : ¬ w.pc.Owes)
    (htask : i = 0 → w.taskId = (c.consumer i).taskId) : Keeps c c' where
  taskId := by
    rw [Cta.head, hcons]
    -- Only warp 0 is the head.
    by_cases hi : i = 0
    · rw [hi, Function.update_self, htask hi, hi]
      rfl
    · rw [Function.update_of_ne (Ne.symm hi)]
      rfl
  pc := by
    rw [Cta.head, hcons]
    by_cases hi : i = 0
    · subst hi
      rw [Function.update_self]
      exact Or.inr ⟨by rwa [Cta.head, hpc], hnew⟩
    · rw [Function.update_of_ne (Ne.symm hi)]
      exact Or.inl rfl
  landed x hx := by rwa [hlanded]

theorem keeps_consumeStep {i : Fin 8} (h : c.consumeStep l i = some c') : Keeps c c' := by
  unfold Cta.consumeStep at h
  simp only at h
  split at h
  · cases hpc : (c.consumer i).pc with
    | inputs redIdx =>
        simp only [hpc] at h
        split at h
        · split at h
          · cases h
            exact Keeps.of_consumer rfl rfl hpc id id fun _ => rfl
          · exact absurd h (by simp only [reduceCtorEq, not_false_eq_true])
        · cases h
          exact Keeps.of_consumer rfl rfl hpc id id fun _ => rfl
    | mma redIdx =>
        simp only [hpc] at h
        cases h
        exact Keeps.of_consumer rfl rfl hpc id id fun _ => rfl
    | group8 phase =>
        simp only [hpc] at h
        split at h
        · exact absurd h (by simp only [reduceCtorEq, not_false_eq_true])
        · cases h
          exact Keeps.of_consumer rfl rfl hpc id id fun _ => rfl
    | storing =>
        simp only [hpc] at h
        cases h
        exact Keeps.of_consumer rfl rfl hpc id id fun _ => rfl
    | warpgroup phase =>
        simp only [hpc] at h
        split at h
        · exact absurd h (by simp only [reduceCtorEq, not_false_eq_true])
        · cases h
          exact Keeps.of_consumer rfl rfl hpc id id fun _ => rfl
    | arriving =>
        simp only [hpc] at h
        by_cases hi : i = 0
        · rw [if_pos hi] at h
          cases h
          refine Keeps.of_consumer (i := i)
            (w := (c.consumer i).goto .returned) ?_ ?_ hpc id id fun _ => rfl
          · split <;> rfl
          · split <;> rfl
        · -- The other warps go on to the next tile.
          rw [if_neg hi] at h
          cases h
          refine Keeps.of_consumer (i := i)
            (w := (c.consumer i).nextTask l (.inputs 0)) ?_ ?_ hpc id id fun hz => absurd hz hi
          · split <;> rfl
          · split <;> rfl
    | returned => simp only [hpc, reduceCtorEq] at h
    | signalling row chunkCol => simp only [hpc, reduceCtorEq] at h
    | announcing row chunkCol => simp only [hpc, reduceCtorEq] at h
  · exact absurd h (by simp only [reduceCtorEq, not_false_eq_true])

theorem keeps_loadStep (h : c.loadStep l = some c') : Keeps c c' := by
  unfold Cta.loadStep at h
  simp only at h
  split at h
  · split at h
    · split at h
      · cases h
        exact Keeps.of_eq rfl rfl
      · exact absurd h (by simp only [reduceCtorEq, not_false_eq_true])
    · split at h
      · split at h
        · cases h
          exact Keeps.of_eq rfl rfl
        · exact absurd h (by simp only [reduceCtorEq, not_false_eq_true])
      · cases h
        exact Keeps.of_eq rfl rfl
  · exact absurd h (by simp only [reduceCtorEq, not_false_eq_true])

theorem keeps_storeStep (h : c.storeStep l = some c') : Keeps c c' := by
  unfold Cta.storeStep at h
  simp only at h
  split at h
  · -- The store warp has a task left.
    split at h
    · split at h
      · cases h
        exact Keeps.of_eq rfl rfl
      · exact absurd h (by simp only [reduceCtorEq, not_false_eq_true])
    · split at h
      · cases h
        exact Keeps.of_eq rfl rfl
      · cases h
        exact Keeps.of_eq rfl rfl
    · -- It waits until its stores have read the tile.
      split at h
      · cases h
        exact Keeps.of_eq rfl rfl
      · exact absurd h (by simp only [reduceCtorEq, not_false_eq_true])
    · cases h
      exact Keeps.of_eq rfl rfl
  · -- The store warp is past its tasks.
    exact absurd h (by simp only [reduceCtorEq, not_false_eq_true])

/-- No step of the warps counts a tile, or takes back what is written. -/
theorem keeps_step {a : Cta.Action} (h : c.step l a = some c') : Keeps c c' := by
  cases a with
  | loader => exact keeps_loadStep h
  | loaded stage =>
      rw [Cta.step] at h
      split at h
      · cases h
        exact Keeps.of_eq rfl rfl
      · exact absurd h (by simp only [reduceCtorEq, not_false_eq_true])
  | storer => exact keeps_storeStep h
  | read x =>
      rw [Cta.step] at h
      split at h
      · cases h
        exact Keeps.of_eq rfl rfl
      · exact absurd h (by simp only [reduceCtorEq, not_false_eq_true])
  -- A landed store only adds to what is written.
  | land x =>
      rw [Cta.step] at h
      split at h
      · cases h
        exact ⟨rfl, Or.inl rfl, fun y hy => List.mem_append_left _ hy⟩
      · exact absurd h (by simp only [reduceCtorEq, not_false_eq_true])
  | consumer i => exact keeps_consumeStep h

theorem Keeps.accumulated (h : Keeps c c') {t : Nat} (ht : c.Accumulated t) : c'.Accumulated t :=
  fun i => h.landed _ (ht i)

end Steps

end GemmRs

end MKernel
