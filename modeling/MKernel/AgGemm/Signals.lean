import MKernel.AgGemm.Gather

/-!
# The Signals of an Iteration

Which barrier slots the GPUs of a node signal in an iteration of `ag_gemm`, which the
compute CTAs wait for and which the reset zeroes.

Every task signals a slot on all GPUs: in phase 1 that of its tile in plane 0, in a step
that of its tile or of its row in plane 2. A slot is waited for with as many signals as
tasks have it, and a signal of a slot is told by its `key`, which is below this number
(`key_lt`, `sig_ext`). The compute CTAs go through the tiles of `C`, for which they need all
of `A`, so together they wait for every slot that is signalled (`waits_of_sig`). And the
reset zeroes every one (`exists_index`).

## Main definitions

* `Launch`: A launch, as the compute CTAs and the reset see it.
* `Slot`, `Sig`: A slot of the barrier buffer, and the signal of a task.
* `slotOf`, `expected`: The slot of a signal, and the number that is waited for.
* `decodeCompTask`, `waits`: The tiles of a compute CTA and what it waits for.
* `slotAt0`, `slotAt2`: The slots that are zeroed.

## Theorems

* `sig_ext`: A signal is told by its slot and its key.
* `waits_of_sig`: Every slot that is signalled is waited for.
* `exists_index`: Every slot that is signalled is zeroed.
-/

namespace MKernel

namespace AgGemm

open MKernel.Core

/-- `SUPER_M`. -/
def superM : Nat := 12

/-- A launch on a node, with the columns of `C` in blocks of `COL_BLOCK`. -/
structure Launch extends Setup where
  node : Nat
  outBlocks : Nat
  numComp : Nat
  /-- The threads of a CTA. -/
  blockDim : Nat
  /-- `remote_ready_per_col`. -/
  perCol : Bool
  node_lt : node < numNodes
  outBlocks_pos : 0 < outBlocks
  numComp_pos : 0 < numComp
  blockDim_pos : 0 < blockDim

/-- A slot of the barrier buffer. -/
structure Slot where
  plane : Nat
  row : Nat
  col : Nat
deriving DecidableEq

/-- The signal of a task, in phase 1 or in a step of the ring. -/
structure Sig (D : Nat) where
  dev : Fin D
  step : Option Nat
  task : Nat
deriving DecidableEq

/-- What `decode_comp_task` returns. -/
structure CompTask where
  isRemote : Bool
  rb : Nat
  colIdx : Nat

/-- `decode_comp_task`. -/
def decodeCompTask (taskId superRows finalRows superBlocks colBlocks totalLocalTiles : Nat) :
    CompTask :=
  let isRemote := decide (totalLocalTiles ≤ taskId)
  let flat := if isRemote then taskId - totalLocalTiles else taskId
  let superTileLimit := superRows * colBlocks
  if flat < superTileLimit then
    { isRemote := isRemote
      rb := superM * (flat / superBlocks) + flat % superM
      colIdx := flat % superBlocks / superM }
  else
    let frSafe := if 0 < finalRows then finalRows else 1
    let rem := flat - superTileLimit
    { isRemote := isRemote, rb := superRows + rem % frSafe, colIdx := rem / frSafe }

/-- What `decode_comp_task` makes of a task, with the arguments the kernel calls it with. -/
def decodeShard (nodeRowBlocks colBlocks taskId : Nat) : CompTask :=
  let superRows := nodeRowBlocks / superM * superM
  let finalRows := nodeRowBlocks - superRows
  let superBlocks := superM * colBlocks
  decodeCompTask taskId superRows finalRows superBlocks colBlocks (nodeRowBlocks * colBlocks)

namespace Launch

variable (l : Launch)

/-- The task of a signal. -/
def taskOf (g : Sig l.numDevices) : Task := ⟨l.node, g.dev, g.step.getD 0, g.task⟩

/-- The slot a task signals. -/
def slotOf (g : Sig l.numDevices) : Slot :=
  match g.step with
  | none => ⟨0, l.rowIdx (l.taskOf g), l.colIdx (l.taskOf g)⟩
  | some _ => ⟨2, l.slotRowStore (l.taskOf g), if l.perCol then l.colIdx (l.taskOf g) else 0⟩

/-- The signal is one of an iteration. -/
def IsSig (g : Sig l.numDevices) : Prop :=
  g.task < l.numLocalBlocks ∧ ∀ s ∈ g.step, s < l.numPeers

instance (g : Sig l.numDevices) : Decidable (l.IsSig g) := by
  unfold IsSig
  infer_instance

/-- The number that is waited for. -/
def expected (slot : Slot) : Nat :=
  if slot.plane = 0 then 1 else if l.perCol then 1 else l.colBlocks

/-- What tells the signals of a slot from each other. -/
def key (g : Sig l.numDevices) : Nat :=
  match g.step with
  | none => 0
  | some _ => if l.perCol then 0 else l.colIdx (l.taskOf g)

/-- `node_row_blocks`. -/
def nodeRowBlocks : Nat := l.mNode / rowBlock

/-- `num_iters`. -/
def numIters : Nat := l.cols / redBlock

/-- `num_node_blocks`. -/
def numNodeBlocks : Nat := l.nodeRowBlocks * l.outBlocks

/-- `total_blocks`. -/
def totalBlocks : Nat := l.numNodeBlocks * l.numNodes

/-- The slots of a row in a plane, one for every other `red_idx`. -/
def rowSlots (plane row : Nat) : List Slot :=
  ((List.range l.numIters).filter fun redIdx => redIdx % 2 = 0).map fun redIdx =>
    ⟨plane, row, redIdx / 2⟩

/-- What the load warp waits for, for a row block of a shard. -/
def rbWaits (shardRank rb : Nat) : List Slot :=
  if shardRank = l.node then
    l.rowSlots 0 (rb / 2)
  else
    let rowIdx := l.slot shardRank l.node * l.nodeRowBlocks + rb
    if l.perCol then l.rowSlots 2 (rowIdx / 2) else [⟨2, rowIdx / 2, 0⟩]

/-- What it waits for, for a tile of `C`. -/
def waits (taskId : Nat) : List Slot :=
  let shardStep := taskId / l.numNodeBlocks
  let shardRank := (l.node + shardStep) % l.numNodes
  let t := decodeShard l.nodeRowBlocks l.outBlocks (taskId - shardStep * l.numNodeBlocks)
  l.rbWaits shardRank t.rb

/-- A compute CTA waits for the slot. -/
def Waits (slot : Slot) : Prop :=
  ∃ comp < l.numComp, ∃ taskId ∈ walk comp l.numComp l.totalBlocks, slot ∈ l.waits taskId

/-- `total_p0`. -/
def totalP0 : Nat := l.globalRowBlocks * l.colBlocks

/-- `total_p2`. -/
def totalP2 : Nat := l.globalRowBlocks * (l.numNodes - 1) * if l.perCol then l.colBlocks else 1

/-- The slot of plane 0 with an index. -/
def slotAt0 (i : Nat) : Slot := ⟨0, i / l.colBlocks, i % l.colBlocks⟩

/-- The slot of plane 2 with an index. -/
def slotAt2 (i : Nat) : Slot :=
  if l.perCol then ⟨2, i / l.colBlocks, i % l.colBlocks⟩ else ⟨2, i, 0⟩

end Launch

section Sigs

variable {l : Launch} {g g' : Sig l.numDevices}

theorem isTask_taskOf (hg : l.IsSig g) : l.IsTask (l.taskOf g) := by
  refine ⟨l.node_lt, g.dev.isLt, ?_, hg.1⟩
  rcases g with ⟨dev, step, task⟩
  cases step with
  | none => exact l.numPeers_pos
  | some s => exact hg.2 s rfl

theorem colBlocks_pos_of_isSig (hg : l.IsSig g) : 0 < l.colBlocks := by
  refine Nat.pos_of_ne_zero fun hzero => ?_
  have hlt := hg.1
  rw [Setup.numLocalBlocks, hzero, Nat.mul_zero] at hlt
  exact absurd hlt (Nat.not_lt_zero _)

theorem key_lt (hg : l.IsSig g) : l.key g < l.expected (l.slotOf g) := by
  have hcol : l.colIdx (l.taskOf g) < l.colBlocks := Nat.mod_lt _ (colBlocks_pos_of_isSig hg)
  rcases g with ⟨dev, step, task⟩
  cases step with
  | none => exact Nat.one_pos
  | some s =>
      by_cases hper : l.perCol = true
      · simp only [Launch.key, Launch.expected, Launch.slotOf, hper, if_true]
        decide
      · simp only [Launch.key, Launch.expected, Launch.slotOf, if_neg hper]
        exact hcol

/-- Row and column tell the task and its GPU. -/
theorem task_ext (hg : l.IsSig g) (hg' : l.IsSig g')
    (hrow : l.rowIdx (l.taskOf g) = l.rowIdx (l.taskOf g'))
    (hcol : l.colIdx (l.taskOf g) = l.colIdx (l.taskOf g')) :
    g.dev = g'.dev ∧ g.task = g'.task := by
  have hlocal : ∀ {x : Sig l.numDevices}, l.IsSig x → x.task / l.colBlocks < l.localRowBlocks :=
    fun hx => Nat.div_lt_of_lt_mul (Nat.mul_comm _ _ ▸ hx.1)
  rw [Setup.rowIdx, Setup.rowIdx, Nat.add_comm, Nat.add_comm _ ((l.taskOf g').dev * _)] at hrow
  rcases place_inj (hlocal hg) (hlocal hg') hrow with ⟨hdev, hdiv⟩
  refine ⟨Fin.ext hdev, ?_⟩
  rw [← Nat.div_add_mod g.task l.colBlocks, ← Nat.div_add_mod g'.task l.colBlocks]
  exact congrArg₂ (fun a b => l.colBlocks * a + b) hdiv hcol

/-- A signal is told by its slot and its key. -/
theorem sig_ext (hg : l.IsSig g) (hg' : l.IsSig g') (hslot : l.slotOf g = l.slotOf g')
    (hkey : l.key g = l.key g') : g = g' := by
  have hrow := rowIdx_lt (isTask_taskOf hg)
  have hrow' := rowIdx_lt (isTask_taskOf hg')
  have hext := task_ext hg hg'
  rcases g with ⟨dev, step, task⟩
  rcases g' with ⟨dev', step', task'⟩
  cases step with
  | none =>
      cases step' with
      | none =>
          rcases Slot.mk.inj hslot with ⟨-, hr, hc⟩
          rcases hext hr hc with ⟨hdev, htask⟩
          simp only at hdev htask
          rw [hdev, htask]
      | some s' => exact absurd (Slot.mk.inj hslot).1 (by decide)
  | some s =>
      cases step' with
      | none => exact absurd (Slot.mk.inj hslot).1 (by decide)
      | some s' =>
          rcases Slot.mk.inj hslot with ⟨-, hr, hc⟩
          -- The row tells the step, as the steps have peer slots of their own.
          rcases place_inj hrow hrow' hr with ⟨hpeer, hr⟩
          have hs := hg.2 s rfl
          have hs' := hg'.2 s' rfl
          rw [Launch.taskOf, Launch.taskOf] at hpeer
          simp only [Option.getD_some] at hpeer
          rw [slot_origin l.node_lt hs, slot_origin l.node_lt hs'] at hpeer
          have hstep : s = s' := by omega
          have hcol : l.colIdx (l.taskOf ⟨dev, some s, task⟩) =
              l.colIdx (l.taskOf ⟨dev', some s', task'⟩) := by
            by_cases hper : l.perCol = true
            · rwa [if_pos hper, if_pos hper] at hc
            · simpa only [Launch.key, if_neg hper] using hkey
          rcases hext hr hcol with ⟨hdev, htask⟩
          simp only at hdev htask
          rw [hstep, hdev, htask]

/-- Every slot that is signalled is zeroed. -/
theorem exists_index (hg : l.IsSig g) :
    (∃ i < l.totalP0, l.slotAt0 i = l.slotOf g) ∨ ∃ i < l.totalP2, l.slotAt2 i = l.slotOf g := by
  have hrow := rowIdx_lt (isTask_taskOf hg)
  have hcol : l.colIdx (l.taskOf g) < l.colBlocks := Nat.mod_lt _ (colBlocks_pos_of_isSig hg)
  have htask := isTask_taskOf hg
  rcases g with ⟨dev, step, task⟩
  cases step with
  | none =>
      refine Or.inl ⟨_, place_lt hrow hcol, ?_⟩
      rw [Launch.slotAt0, place_div hcol, Nat.mul_add_mod_self_right, Nat.mod_eq_of_lt hcol]
      rfl
  | some s =>
      have hstore : l.slotRowStore (l.taskOf ⟨dev, some s, task⟩) <
          l.globalRowBlocks * (l.numNodes - 1) := by
        have hs := hg.2 s rfl
        have hpeer := slot_lt l.node_lt (origin_lt l.node_lt hs) (origin_ne l.node_lt hs)
        rw [Nat.mul_comm]
        exact place_lt hpeer hrow
      refine Or.inr ?_
      by_cases hper : l.perCol = true
      · simp only [Launch.totalP2, Launch.slotAt2, Launch.slotOf, if_pos hper]
        refine ⟨_, place_lt hstore hcol, ?_⟩
        rw [place_div hcol, Nat.mul_add_mod_self_right, Nat.mod_eq_of_lt hcol]
      · simp only [Launch.totalP2, Launch.slotAt2, Launch.slotOf, if_neg hper, Nat.mul_one]
        exact ⟨_, hstore, rfl⟩

end Sigs

/-! ## Waits -/

section Waits

variable {l : Launch}

theorem nodeRowBlocks_eq (l : Launch) : l.nodeRowBlocks = 2 * l.globalRowBlocks := by
  have hblock : rowBlock = 128 := rfl
  rw [Launch.nodeRowBlocks, Setup.mNode, hblock]
  omega

/-- Every row block is one of some tile. -/
theorem exists_decode {nodeRowBlocks colBlocks rb : Nat} (hcols : 0 < colBlocks)
    (hrb : rb < nodeRowBlocks) : ∃ flat < nodeRowBlocks * colBlocks,
      (decodeShard nodeRowBlocks colBlocks flat).rb = rb := by
  have hsuper : nodeRowBlocks / superM * superM ≤ nodeRowBlocks := Nat.div_mul_le_self _ _
  have hlocal : ∀ {flat}, flat < nodeRowBlocks * colBlocks →
      (if decide (nodeRowBlocks * colBlocks ≤ flat) = true then flat - nodeRowBlocks * colBlocks
        else flat) = flat :=
    fun hflat => if_neg (by rw [decide_eq_true_eq]; omega)
  by_cases hin : rb < nodeRowBlocks / superM * superM
  · -- The tile of the first column in the super row.
    have hmod : rb % superM < superM := Nat.mod_lt _ (by decide)
    have hplace : rb % superM < superM * colBlocks :=
      Nat.lt_of_lt_of_le hmod (Nat.le_mul_of_pos_right _ hcols)
    have hdiv : rb / superM < nodeRowBlocks / superM :=
      (Nat.div_lt_iff_lt_mul (by decide)).mpr hin
    have hlt : rb / superM * (superM * colBlocks) + rb % superM <
        nodeRowBlocks / superM * superM * colBlocks := by
      rw [Nat.mul_assoc]
      exact place_lt hdiv hplace
    have hflat := Nat.lt_of_lt_of_le hlt (Nat.mul_le_mul_right colBlocks hsuper)
    refine ⟨_, hflat, ?_⟩
    simp only [decodeShard, decodeCompTask]
    rw [hlocal hflat, if_pos hlt]
    simp only
    rw [place_div hplace, Nat.mul_left_comm, Nat.mul_add_mod, Nat.mod_mod, Nat.div_add_mod]
  · -- A tile of the first column in the rows left over.
    have hfinal : rb - nodeRowBlocks / superM * superM <
        nodeRowBlocks - nodeRowBlocks / superM * superM := by omega
    have hlt : nodeRowBlocks / superM * superM * colBlocks +
        (rb - nodeRowBlocks / superM * superM) < nodeRowBlocks * colBlocks := by
      have hmul := Nat.le_mul_of_pos_right (nodeRowBlocks - nodeRowBlocks / superM * superM) hcols
      rw [Nat.sub_mul] at hmul
      have hle := Nat.mul_le_mul_right colBlocks hsuper
      omega
    refine ⟨_, hlt, ?_⟩
    simp only [decodeShard, decodeCompTask]
    rw [hlocal hlt, if_neg (by omega), if_pos (by omega)]
    simp only
    rw [Nat.add_sub_cancel_left, Nat.mod_eq_of_lt hfinal]
    omega

/-- A column of a row is waited for. -/
theorem mem_rowSlots {plane row col : Nat} (hcol : col < l.colBlocks) :
    (⟨plane, row, col⟩ : Slot) ∈ l.rowSlots plane row := by
  have hiters : 2 * col < l.numIters := by
    simp only [Setup.colBlocks, Launch.numIters, redBlock] at hcol ⊢
    omega
  refine List.mem_map.mpr ⟨2 * col, List.mem_filter.mpr ⟨List.mem_range.mpr hiters, ?_⟩, ?_⟩
  · rw [Nat.mul_mod_right, decide_eq_true_eq]
  · rw [Nat.mul_div_cancel_left _ (by decide)]

/-- All row blocks of all shards are waited for. -/
theorem waits_of_rb {k rb : Nat} (hk : k < l.numNodes) (hrb : rb < l.nodeRowBlocks) {slot : Slot}
    (h : slot ∈ l.rbWaits ((l.node + k) % l.numNodes) rb) : l.Waits slot := by
  rcases exists_decode l.outBlocks_pos hrb with ⟨flat, hlt, hdecode⟩
  have hflat : flat < l.numNodeBlocks := hlt
  have hmod := Nat.mod_lt (k * l.numNodeBlocks + flat) l.numComp_pos
  have htotal : k * l.numNodeBlocks + flat < l.totalBlocks := by
    rw [Launch.totalBlocks, Nat.mul_comm l.numNodeBlocks]
    exact place_lt hk hflat
  refine ⟨_, hmod, _, (mem_walk hmod).mpr ⟨htotal, rfl⟩, ?_⟩
  rw [Launch.waits, place_div hflat, Nat.add_sub_cancel_left, hdecode]
  exact h

/-- Every slot that is signalled is waited for. -/
theorem waits_of_sig {g : Sig l.numDevices} (hg : l.IsSig g) : l.Waits (l.slotOf g) := by
  have hrow := rowIdx_lt (isTask_taskOf hg)
  have hcol : l.colIdx (l.taskOf g) < l.colBlocks := Nat.mod_lt _ (colBlocks_pos_of_isSig hg)
  have hrb : 2 * l.rowIdx (l.taskOf g) < l.nodeRowBlocks := by
    rw [nodeRowBlocks_eq]
    omega
  have hnode := l.node_lt
  rcases g with ⟨dev, step, task⟩
  cases step with
  | none =>
      -- In phase 1 the slot is one of the node's own shard.
      refine waits_of_rb (k := 0) (Nat.lt_of_le_of_lt (Nat.zero_le _) hnode) hrb ?_
      rw [Nat.add_zero, Nat.mod_eq_of_lt hnode, Launch.rbWaits, if_pos rfl,
        Nat.mul_div_cancel_left _ Nat.two_pos]
      exact mem_rowSlots hcol
  | some s =>
      have hs := hg.2 s rfl
      have ho := origin_lt hnode hs
      have hne := origin_ne hnode hs
      have hk := Nat.mod_lt (l.origin l.node s + l.numNodes - l.node)
        (Nat.lt_of_le_of_lt (Nat.zero_le _) hnode)
      -- The shard comes to its turn after so many steps.
      have hrank : (l.node + (l.origin l.node s + l.numNodes - l.node) % l.numNodes) % l.numNodes =
          l.origin l.node s := by
        rw [Nat.add_mod_mod, Nat.add_sub_cancel' (by omega), Nat.add_mod_right, Nat.mod_eq_of_lt ho]
      refine waits_of_rb hk hrb ?_
      have hstore : (l.slot (l.origin l.node s) l.node * l.nodeRowBlocks +
          2 * l.rowIdx (l.taskOf ⟨dev, some s, task⟩)) / 2 =
            l.slotRowStore (l.taskOf ⟨dev, some s, task⟩) := by
        rw [nodeRowBlocks_eq, Nat.mul_left_comm, ← Nat.mul_add,
          Nat.mul_div_cancel_left _ Nat.two_pos]
        rfl
      -- In a step it is one of a shard of another node.
      rw [hrank, Launch.rbWaits, if_neg hne]
      simp only [hstore]
      by_cases hper : l.perCol = true
      · simp only [Launch.slotOf, if_pos hper]
        exact mem_rowSlots hcol
      · simp only [Launch.slotOf, if_neg hper]
        exact List.mem_singleton_self _

end Waits

end AgGemm

end MKernel
