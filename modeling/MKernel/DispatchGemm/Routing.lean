import MKernel.DispatchGemm.Walk

/-!
# The Routing Tables

How the host of `dispatch_gemm` turns a routing of tokens to experts into the tables of a
GPU.

Every token chooses some experts. The host collects for each expert where its tokens come
from, and fills their number up to whole row blocks. The index table of a GPU has a
segment for each of its experts, with the tokens of the own node first, then those of the
other nodes, and minus ones in the rows that are filled up. Another table says how many row
blocks at the start of each segment have tokens of the own node only. It is the number of
local tokens divided by the size of a row block, so a row block with the last local tokens
is among them only if it is full.

The tables are made in steps of their own, but agree: the segments are as long as the kernel
takes them to be, and begin where it looks for them (`rows_at`), every choice of an expert is
listed once (`segment_eq`, `ordered_perm`), and the row blocks that are said to be local are
(`local_rows`).

## Main definitions

* `Routing`, `Gpu`: What the tokens choose, and whose tables are made.
* `expertToTokens`, `paddedList`: What the host collects for an expert.
* `buildPullIndices`: The index table.
* `Gpu.tables`: What the kernel is told of the experts.

## Theorems

* `expertToTokens_eq`: The tokens of an expert are those that chose it.
* `segment_eq`: A segment lists the tokens, then minus ones.
* `rows_at`: The rows of an expert are its segment.
* `local_rows`: The local row blocks have tokens of the own node only.
-/

namespace MKernel

namespace DispatchGemm

open MKernel.Core

/-- Where a token is: `(src_node, src_dev, local_tok)`. -/
structure Src where
  node : Nat
  dev : Nat
  tok : Nat
deriving DecidableEq

/-- The nodes and GPUs, their tokens, and the experts each token chooses. -/
structure Routing where
  numNodes : Nat
  worldSizePerNode : Nat
  numLocalTokens : Nat
  topK : Nat
  numExperts : Nat
  chosen : Nat → Nat → Fin numExperts

/-- A row of the index table. -/
abbrev Row := Int × Int × Int

/-- `(-1, -1, -1)`. -/
def padRow : Row := (-1, -1, -1)

/-- A token as a row. -/
def Src.row (s : Src) : Row := (s.node, s.dev, s.tok)

namespace Routing

variable (R : Routing)

def totalGpus : Nat := R.numNodes * R.worldSizePerNode

def numTokensGlobal : Nat := R.totalGpus * R.numLocalTokens

def numExpertsPerDev : Nat := R.numExperts / R.totalGpus

/-- Where a token of all nodes is. -/
def src (t : Nat) : Src :=
  let globalGpu := t / R.numLocalTokens
  { node := globalGpu / R.worldSizePerNode
    dev := globalGpu % R.worldSizePerNode
    tok := t % R.numLocalTokens }

/-- `expert_to_tokens` of `build_routing`: each choice is appended to the list of its
    expert. -/
def expertToTokens : Nat → List Src :=
  (List.range R.numTokensGlobal).foldl (fun table t =>
    (List.range R.topK).foldl (fun table k =>
      let expertId : Nat := R.chosen t k
      Function.update table expertId (table expertId ++ [R.src t])) table) fun _ => []

/-- `padded_list`. -/
def paddedList (e : Nat) : Nat :=
  let actual := (R.expertToTokens e).length
  (actual + 128 - 1) / 128 * 128

/-- The choices of an expert, by token and place among the token's choices. -/
def assignments (e : Nat) : List (Nat × Nat) :=
  (List.range R.numTokensGlobal ×ˢ List.range R.topK).filter fun a => decide (R.chosen a.1 a.2 = e)

end Routing

/-- The GPU whose tables are made. -/
structure Gpu (R : Routing) where
  nodeIdx : Nat
  localRank : Nat
  nodeIdx_lt : nodeIdx < R.numNodes
  localRank_lt : localRank < R.worldSizePerNode

namespace Gpu

variable {R : Routing} (g : Gpu R)

def globalGpuIdx : Nat := g.nodeIdx * R.worldSizePerNode + g.localRank

/-- `expert_start`. -/
def expertStart : Nat := g.globalGpuIdx * R.numExpertsPerDev

/-- `this_node`. -/
def thisNode : Nat := g.globalGpuIdx / R.worldSizePerNode

/-- `ordered`: the tokens of an expert, those of the own node first. -/
def ordered (e : Nat) : List Src :=
  let toks := R.expertToTokens e
  toks.filter (fun s => decide (s.node = g.thisNode)) ++
    toks.filter (fun s => decide (s.node ≠ g.thisNode))

/-- The rows of an expert. -/
def segment (e : Nat) : List Row :=
  (List.range (R.paddedList e)).map fun i =>
    if h : i < (g.ordered e).length then (g.ordered e)[i].row else padRow

/-- `build_pull_indices`. -/
def buildPullIndices : List Row :=
  (List.range' g.expertStart R.numExpertsPerDev).flatMap g.segment

/-- `local_rb_per_expert`. -/
def localRb (e : Nat) : Nat :=
  let localCount := (R.expertToTokens e).countP fun s => decide (s.node = g.thisNode)
  localCount / 128

end Gpu

/-! ## Lists -/

section Lists

variable {α β κ : Type*}

/-- Elements that are appended to the list of their key. -/
theorem foldl_append_update [DecidableEq κ] (key : α → κ) (val : α → β) (l : List α)
    (table : κ → List β) (k : κ) :
    l.foldl (fun table a => Function.update table (key a) (table (key a) ++ [val a])) table k =
      table k ++ (l.filter fun a => decide (key a = k)).map val := by
  induction l generalizing table with
  | nil => rw [List.foldl_nil, List.filter_nil, List.map_nil, List.append_nil]
  | cons a l ih =>
      rw [List.foldl_cons, ih]
      by_cases hk : key a = k
      · simp only [hk, Function.update_self, List.filter_cons, decide_true, if_true, List.map_cons,
          List.append_assoc, List.singleton_append]
      · simp only [Function.update_of_ne (Ne.symm hk), List.filter_cons, hk, decide_false,
          Bool.false_eq_true, if_false]

/-- The elements of a list and what it is filled up with. -/
theorem map_range_fill (l : List α) (f : α → β) (b : β) {n : Nat} (h : l.length ≤ n) :
    (List.range n).map (fun i => if h : i < l.length then f l[i] else b) =
      l.map f ++ List.replicate (n - l.length) b := by
  refine List.ext_getElem ?_ fun i hi _ => ?_
  · rw [List.length_map, List.length_range, List.length_append, List.length_map,
      List.length_replicate]
    omega
  · rw [List.getElem_map, List.getElem_range]
    by_cases hlt : i < l.length
    · rw [List.getElem_append_left (by rw [List.length_map]; exact hlt), List.getElem_map,
        dif_pos hlt]
    · rw [List.getElem_append_right (by rw [List.length_map]; omega), List.getElem_replicate,
        dif_neg hlt]

theorem length_flatMap_range (f : Nat → List α) (n : Nat) :
    ((List.range n).flatMap f).length = ∑ i ∈ Finset.range n, (f i).length := by
  induction n with
  | zero => rfl
  | succ n ih =>
      rw [List.range_succ, List.flatMap_append, List.length_append, ih, List.flatMap_singleton,
        Finset.sum_range_succ]

/-- The lists before one are as long as its place in all of them says. -/
theorem getElem?_flatMap_range (f : Nat → List α) {n e j : Nat} (he : e < n)
    (hj : j < (f e).length) :
    ((List.range n).flatMap f)[(∑ i ∈ Finset.range e, (f i).length) + j]? = (f e)[j]? := by
  induction n with
  | zero => exact absurd he (Nat.not_lt_zero e)
  | succ n ih =>
      rw [List.range_succ, List.flatMap_append, List.flatMap_singleton]
      rcases Nat.lt_succ_iff_lt_or_eq.mp he with hlt | rfl
      · have hle : (∑ i ∈ Finset.range e, (f i).length) + (f e).length ≤
            ∑ i ∈ Finset.range n, (f i).length := by
          rw [← Finset.sum_range_succ]
          exact Finset.sum_le_sum_of_subset (Finset.range_subset_range.mpr hlt)
        rw [List.getElem?_append_left (by rw [length_flatMap_range]; omega)]
        exact ih hlt
      · rw [List.getElem?_append_right (by rw [length_flatMap_range]; omega), length_flatMap_range,
          Nat.add_sub_cancel_left]

end Lists

/-! ## The tables -/

section Tables

variable {R : Routing} {g : Gpu R}

/-- The tokens of an expert are those that chose it. -/
theorem expertToTokens_eq (e : Nat) :
    R.expertToTokens e = (R.assignments e).map fun a => R.src a.1 := by
  have hpairs : R.expertToTokens = (List.range R.numTokensGlobal ×ˢ List.range R.topK).foldl
      (fun table a => Function.update table (R.chosen a.1 a.2 : Nat)
        (table (R.chosen a.1 a.2) ++ [R.src a.1])) fun _ => [] := by
    rw [Routing.expertToTokens]
    refine Eq.trans ?_ List.foldl_flatMap.symm
    simp only [List.foldl_map]
  rw [hpairs,
      foldl_append_update (fun a : Nat × Nat => (R.chosen a.1 a.2 : Nat)) fun a => R.src a.1]
  rfl

/-- No two tokens are at the same place. -/
theorem src_inj {t t' : Nat} (h : R.src t = R.src t') : t = t' := by
  rcases Src.mk.inj h with ⟨hnode, hdev, htok⟩
  have hgpu : t / R.numLocalTokens = t' / R.numLocalTokens := by
    rw [← Nat.div_add_mod (t / R.numLocalTokens) R.worldSizePerNode, hnode, hdev,
      Nat.div_add_mod]
  rw [← Nat.div_add_mod t R.numLocalTokens, hgpu, htok, Nat.div_add_mod]

/-- The own node, counted from the GPU. -/
theorem thisNode_eq (g : Gpu R) : g.thisNode = g.nodeIdx := place_div g.localRank_lt

theorem dvd_paddedList (e : Nat) : 128 ∣ R.paddedList e := Nat.dvd_mul_left _ _

/-- There is room for all tokens, and for less than a row block more. -/
theorem le_paddedList (e : Nat) : (R.expertToTokens e).length ≤ R.paddedList e ∧
    R.paddedList e < (R.expertToTokens e).length + 128 := by
  simp only [Routing.paddedList]
  omega

/-- The tokens are only ordered anew. -/
theorem ordered_perm (g : Gpu R) (e : Nat) : (g.ordered e).Perm (R.expertToTokens e) := by
  have hnot : ∀ s : Src, decide (s.node ≠ g.thisNode) = !decide (s.node = g.thisNode) :=
    fun s => decide_not
  simp only [Gpu.ordered, hnot]
  exact List.filter_append_perm _ _

/-- The rows of an expert list its tokens, then minus ones. -/
theorem segment_eq (g : Gpu R) (e : Nat) : g.segment e = (g.ordered e).map Src.row ++
    List.replicate (R.paddedList e - (R.expertToTokens e).length) padRow := by
  have hlen := (ordered_perm g e).length_eq
  rw [Gpu.segment, map_range_fill _ _ _ (hlen ▸ (le_paddedList e).1), hlen]

theorem length_segment (g : Gpu R) (e : Nat) : (g.segment e).length = R.paddedList e := by
  rw [Gpu.segment, List.length_map, List.length_range]

/-- Where local row blocks are said to be, there are tokens of the own node. -/
theorem segment_local (g : Gpu R) {e i : Nat} (hi : i < g.localRb e * 128) :
    ∃ s : Src, (g.segment e)[i]? = some s.row ∧ s.node = g.nodeIdx := by
  have hcount : i < ((R.expertToTokens e).filter fun s => decide (s.node = g.thisNode)).length := by
    rw [← List.countP_eq_length_filter]
    simp only [Gpu.localRb] at hi
    omega
  -- The tokens of the own node come first.
  refine ⟨((R.expertToTokens e).filter fun s => decide (s.node = g.thisNode))[i], ?_, ?_⟩
  · have hlt : i < (g.ordered e).length := by
      rw [Gpu.ordered, List.length_append]
      omega
    rw [segment_eq, List.getElem?_append_left (by rw [List.length_map]; exact hlt),
      List.getElem?_map, Gpu.ordered, List.getElem?_append_left hcount,
      List.getElem?_eq_getElem hcount, Option.map_some]
  · have hmem := (List.mem_filter.mp (List.getElem_mem hcount)).2
    rw [decide_eq_true_eq] at hmem
    exact hmem.trans (thisNode_eq g)

/-- What the kernel is told of the experts of a GPU. -/
def Gpu.tables (g : Gpu R) : Walk.Tables where
  numExpertsPerDev := R.numExpertsPerDev
  paddedTokensPerExpert := fun e => R.paddedList (g.expertStart + e)
  localRbPerExpert := fun e => g.localRb (g.expertStart + e)
  padded_dvd := fun e => dvd_paddedList _
  local_le := fun e => by
    have hle := (le_paddedList (R := R) (g.expertStart + e)).1
    have hcount := List.countP_le_length (p := fun s : Src => decide (s.node = g.thisNode))
      (l := R.expertToTokens (g.expertStart + e))
    simp only [Gpu.localRb]
    omega

theorem buildPullIndices_eq (g : Gpu R) : g.buildPullIndices =
    (List.range R.numExpertsPerDev).flatMap fun e => g.segment (g.expertStart + e) := by
  rw [Gpu.buildPullIndices, List.range'_eq_map_range, List.flatMap_map]

/-- The kernel takes the table to be as long as it is. -/
theorem length_buildPullIndices (g : Gpu R) :
    g.buildPullIndices.length = g.tables.numPaddedLocalTokens := by
  rw [buildPullIndices_eq, length_flatMap_range]
  simp only [length_segment]
  rfl

/-- The rows of an expert are its segment. -/
theorem rows_at (g : Gpu R) {e i : Nat} (he : e < R.numExpertsPerDev)
    (hi : i < R.paddedList (g.expertStart + e)) :
    g.buildPullIndices[g.tables.tokensBefore e + i]? = (g.segment (g.expertStart + e))[i]? := by
  have hat := getElem?_flatMap_range (fun e => g.segment (g.expertStart + e)) he
    (lt_of_lt_of_eq hi (length_segment g _).symm)
  simp only [length_segment] at hat
  rw [buildPullIndices_eq]
  exact hat

/-- A row of a local row block has a token of the own node. -/
theorem local_rows (g : Gpu R) {e i : Nat} (he : e < R.numExpertsPerDev)
    (hi : i < g.tables.localRbPerExpert e * 128) :
    ∃ s : Src, g.buildPullIndices[g.tables.tokensBefore e + i]? = some s.row ∧
      s.node = g.nodeIdx := by
  have hle := g.tables.local_le e
  have hdvd := g.tables.padded_dvd e
  rw [rows_at g he (show i < g.tables.paddedTokensPerExpert e by omega)]
  exact segment_local g hi

end Tables

end DispatchGemm

end MKernel
