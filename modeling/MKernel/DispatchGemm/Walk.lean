import MKernel.Core.Carried
import MKernel.Core.System
import MKernel.Core.Tally

/-!
# The Two Passes

Which CTA of `dispatch_gemm` dispatches which tokens and computes which blocks.

The tokens of a GPU are those of its experts, one expert after the other, each filled
up to whole row blocks. The dispatch CTAs go through them in slices of sixteen tokens,
the compute CTAs in blocks of a row block and a column. Both go through the experts
twice, first through those row blocks at the start of each expert that have local tokens
only, then through the others. Within a pass the task index is carried from one expert to
the next: what is left of it after the tasks of an expert is where the CTA begins with
those of the next.

So a pass is one walk in strides through the tasks of all experts (`Core.Carried`), and
both passes together have every slice and every block once (`perm_dispatch`,
`perm_compute`), with the expert whose tokens they are.

A slice that is dispatched adds its tokens to the counter of its row block, and a compute
CTA waits for a counter to be that of a full row block. It is compared for equality, and
is never more (`inv_step`). No CTA waits for ever (`two_pass`).

## Main definitions

* `Tables`: The experts of a GPU.
* `dispatchTwoPassWalk`, `groupGemmFused`: The tasks of a CTA of either kind.
* `Launch`: The experts and the CTAs.
* `World`, `step`: The CTAs at work.
* `TwoPass`: What is promised.

## Theorems

* `perm_twoPassWalk`: All CTAs together have every unit of every row block once.
* `perm_dispatch`, `perm_compute`: So it is for slices and for blocks.
* `inv_step`: A counter has the tokens of the slices that are dispatched.
* `two_pass`: The promise holds.
-/

namespace MKernel

namespace DispatchGemm

namespace Walk

open MKernel.Core

/-- The experts of a GPU: their tokens, filled up to whole row blocks, and how many of the
    row blocks at the start of each have local tokens only. -/
structure Tables where
  numExpertsPerDev : Nat
  paddedTokensPerExpert : Nat → Nat
  localRbPerExpert : Nat → Nat
  padded_dvd : ∀ e, 128 ∣ paddedTokensPerExpert e
  local_le : ∀ e, localRbPerExpert e ≤ paddedTokensPerExpert e / 128

namespace Tables

variable (T : Tables)

/-- The first row block of a pass over an expert, and how many there are. -/
def part (pass e cum : Nat) : Nat × Nat :=
  let rbStart := cum / 128
  let rbEnd := (cum + T.paddedTokensPerExpert e + 128 - 1) / 128
  let totalRb := rbEnd - rbStart
  let localRb := T.localRbPerExpert e
  if pass = 0 then (rbStart, localRb) else (rbStart + localRb, totalRb - localRb)

/-- The tasks of a pass, with so many units to a row block: the expert, the row block and
    the unit. -/
def segments (pass perRb : Nat) : List Nat → Nat → List (Segment (Nat × Nat × Nat))
  | [], _ => []
  | e :: es, cum =>
      let p := T.part pass e cum
      { length := p.2 * perRb
        item := fun taskId => (e, p.1 + taskId / perRb, taskId % perRb) } ::
        segments pass perRb es (cum + T.paddedTokensPerExpert e)

/-- The tasks of a CTA, in both passes. -/
def twoPassWalk (perRb smIdx stride : Nat) : List (Nat × Nat × Nat) :=
  [0, 1].flatMap fun pass =>
    carriedWalk stride (T.segments pass perRb (List.range T.numExpertsPerDev) 0) smIdx

/-- `dispatch_two_pass_walk`: the expert and `sm_idx_real` of each slice, of which a row
    block has eight. -/
def dispatchTwoPassWalk (smIdx stride : Nat) : List (Nat × Nat) :=
  (T.twoPassWalk 8 smIdx stride).map fun v => (v.1, v.2.1 * 8 + v.2.2)

/-- The loops of `group_gemm_fused`: the expert, the row block and the column of each
    block. -/
def groupGemmFused (colBlocks smIdx numSms : Nat) : List (Nat × Nat × Nat) :=
  T.twoPassWalk colBlocks smIdx numSms

/-- The tokens of the experts before one. -/
def tokensBefore (e : Nat) : Nat := ∑ i ∈ Finset.range e, T.paddedTokensPerExpert i

/-- `num_padded_local_tokens`: the number of rows the host has made. -/
def numPaddedLocalTokens : Nat := T.tokensBefore T.numExpertsPerDev

end Tables

/-- The experts of a GPU, the columns of the output and the CTAs. The host makes the numbers
    of CTAs positive. -/
structure Launch where
  tables : Tables
  colBlocks : Nat
  numDispatchSms : Nat
  numCompSms : Nat
  numDispatchSms_pos : 0 < numDispatchSms
  numCompSms_pos : 0 < numCompSms

/-- What the CTAs have still to do, and the counters of the row blocks. -/
structure World (L : Launch) where
  toDispatch : Fin L.numDispatchSms → List (Nat × Nat)
  toCompute : Fin L.numCompSms → List (Nat × Nat × Nat)
  barrier : Nat → Nat

/-- The launch. -/
def init (L : Launch) : World L where
  toDispatch := fun d => L.tables.dispatchTwoPassWalk d L.numDispatchSms
  toCompute := fun c => L.tables.groupGemmFused L.colBlocks c L.numCompSms
  barrier := fun _ => 0

/-- `__popc(valid_mask)`: the tokens of a slice that exist. -/
def validTokens (L : Launch) (smIdx : Nat) : Nat :=
  (List.range 16).countP fun laneId =>
    decide (smIdx * 16 + laneId < L.tables.numPaddedLocalTokens)

/-- What can happen next. -/
inductive Action (L : Launch) where
  /-- A dispatch CTA has the tokens of its next slice in place, and counts them. -/
  | dispatch (d : Fin L.numDispatchSms)
  /-- A compute CTA finds the row block of its next task full, and computes. -/
  | compute (c : Fin L.numCompSms)

/-- One step. -/
def step {L : Launch} (w : World L) : Action L → Option (World L)
  | .dispatch d =>
      match w.toDispatch d with
      | [] => none
      | (_, smIdx) :: rest =>
          some { w with
            toDispatch := Function.update w.toDispatch d rest
            barrier := Function.update w.barrier (smIdx / 8)
              (w.barrier (smIdx / 8) + validTokens L smIdx) }
  | .compute c =>
      match w.toCompute c with
      | [] => none
      | (_, rowIdx, _) :: rest =>
          if w.barrier rowIdx = 128 then
            some { w with toCompute := Function.update w.toCompute c rest }
          else none

/-! ## Grids -/

section Grid

variable {α : Type*}

/-- The places of a grid, row by row. -/
theorem map_range_grid (f : Nat → Nat → α) (n K : Nat) :
    (List.range (n * K)).map (fun t => f (t / K) (t % K)) =
      (List.range n).flatMap fun i => (List.range K).map (f i) := by
  induction n with
  | zero => rw [Nat.zero_mul, List.range_zero, List.map_nil, List.flatMap_nil]
  | succ n ih =>
      rw [Nat.succ_mul, List.range_add, List.map_append, ih, List.range_succ, List.flatMap_append,
        List.flatMap_singleton, List.map_map]
      congr 1
      refine List.map_congr_left fun k hk => ?_
      have hlt := List.mem_range.mp hk
      rw [Function.comp_apply, place_div hlt, Nat.mul_add_mod_self_right, Nat.mod_eq_of_lt hlt]

/-- The same with a first row that is not zero. -/
theorem map_range_grid_from (f : Nat → Nat → α) (a n K : Nat) :
    (List.range (n * K)).map (fun t => f (a + t / K) (t % K)) =
      (List.range' a n).flatMap fun i => (List.range K).map (f i) := by
  rw [map_range_grid fun i => f (a + i), List.range'_eq_map_range, List.flatMap_map]

/-- All indices are the places of a grid. -/
theorem range_grid (n K : Nat) :
    List.range (n * K) = (List.range n).flatMap fun i => (List.range K).map (i * K + ·) := by
  have hself : (fun t => t / K * K + t % K) = id := funext fun t => Nat.div_add_mod' t K
  rw [← map_range_grid fun i k => i * K + k, hself, List.map_id]

/-- A row of it has as many places as there are columns. -/
theorem countP_row {n K row : Nat} (hrow : row < n) :
    (List.range (n * K)).countP (fun t => decide (t / K = row)) = K := by
  rw [range_grid, countP_flatMap_range, Finset.sum_eq_single_of_mem row (Finset.mem_range.mpr hrow)]
  · refine (List.countP_eq_length.mpr fun t ht => ?_).trans (by
      rw [List.length_map, List.length_range])
    rcases List.mem_map.mp ht with ⟨k, hk, rfl⟩
    rw [place_div (List.mem_range.mp hk), decide_eq_true_eq]
  · intro i _ hne
    refine List.countP_eq_zero.mpr fun t ht => ?_
    rcases List.mem_map.mp ht with ⟨k, hk, rfl⟩
    rw [place_div (List.mem_range.mp hk), decide_eq_true_eq]
    exact hne

end Grid

/-! ## The units of both passes -/

namespace Tables

variable (T : Tables)

/-- The units of all row blocks: the expert, the row block and the unit. -/
def units (perRb : Nat) : List (Nat × Nat × Nat) :=
  (List.range T.numExpertsPerDev).flatMap fun e =>
    (List.range' (T.tokensBefore e / 128) (T.paddedTokensPerExpert e / 128)).flatMap fun rb =>
      (List.range perRb).map fun k => (e, rb, k)

end Tables

section Units

variable {T : Tables}

theorem tokensBefore_succ (e : Nat) :
    T.tokensBefore (e + 1) = T.tokensBefore e + T.paddedTokensPerExpert e :=
  Finset.sum_range_succ _ _

theorem dvd_tokensBefore (e : Nat) : 128 ∣ T.tokensBefore e :=
  Finset.dvd_sum fun i _ => T.padded_dvd i

/-- The tokens before are more for later experts. -/
theorem tokensBefore_mono {e e' : Nat} (h : e ≤ e') : T.tokensBefore e ≤ T.tokensBefore e' :=
  Finset.sum_le_sum_of_subset (Finset.range_subset_range.mpr h)

/-- The row blocks of an expert in the two passes are all its row blocks. -/
theorem part_append (e : Nat) :
    List.range' (T.part 0 e (T.tokensBefore e)).1 (T.part 0 e (T.tokensBefore e)).2 ++
      List.range' (T.part 1 e (T.tokensBefore e)).1 (T.part 1 e (T.tokensBefore e)).2 =
      List.range' (T.tokensBefore e / 128) (T.paddedTokensPerExpert e / 128) := by
  have hdvd := dvd_tokensBefore (T := T) e
  have hpadded := T.padded_dvd e
  have hlocal := T.local_le e
  simp only [Tables.part, if_true, Nat.one_ne_zero, if_false]
  rw [List.range'_append_1]
  congr 1
  omega

/-- The tasks of a pass, from one expert on. -/
theorem allItems_segments (pass perRb : Nat) (n e : Nat) :
    allItems (T.segments pass perRb (List.range' e n) (T.tokensBefore e)) =
      (List.range' e n).flatMap fun i =>
        (List.range' (T.part pass i (T.tokensBefore i)).1
          (T.part pass i (T.tokensBefore i)).2).flatMap fun rb =>
            (List.range perRb).map fun k => (i, rb, k) := by
  induction n generalizing e with
  | zero => rfl
  | succ n ih =>
      rw [List.range'_succ, Tables.segments, allItems, List.flatMap_cons, List.flatMap_cons,
        ← tokensBefore_succ]
      congr 1
      · exact map_range_grid_from (fun rb k => (e, rb, k)) _ _ _
      · exact ih (e + 1)

/-- The tasks of a pass. -/
theorem allItems_pass (pass perRb : Nat) :
    allItems (T.segments pass perRb (List.range T.numExpertsPerDev) 0) =
      (List.range T.numExpertsPerDev).flatMap fun e =>
        (List.range' (T.part pass e (T.tokensBefore e)).1
          (T.part pass e (T.tokensBefore e)).2).flatMap fun rb =>
            (List.range perRb).map fun k => (e, rb, k) := by
  rw [List.range_eq_range']
  exact allItems_segments pass perRb T.numExpertsPerDev 0

/-- All CTAs together have every unit of every row block once. -/
theorem perm_twoPassWalk (perRb : Nat) {S : Nat} (hS : 0 < S) :
    ((List.range S).flatMap fun smIdx => T.twoPassWalk perRb smIdx S).Perm (T.units perRb) := by
  have hpass : ∀ pass, ((List.range S).flatMap
      (carriedWalk S (T.segments pass perRb (List.range T.numExpertsPerDev) 0))).Perm
      ((List.range T.numExpertsPerDev).flatMap fun e =>
        (List.range' (T.part pass e (T.tokensBefore e)).1
          (T.part pass e (T.tokensBefore e)).2).flatMap fun rb =>
            (List.range perRb).map fun k => (e, rb, k)) := by
    intro pass
    exact (perm_carriedWalks hS _).trans (List.Perm.of_eq (allItems_pass pass perRb))
  have hunits : T.units perRb = (List.range T.numExpertsPerDev).flatMap fun e =>
      ((List.range' (T.part 0 e (T.tokensBefore e)).1
        (T.part 0 e (T.tokensBefore e)).2).flatMap fun rb =>
          (List.range perRb).map fun k => (e, rb, k)) ++
      ((List.range' (T.part 1 e (T.tokensBefore e)).1
        (T.part 1 e (T.tokensBefore e)).2).flatMap fun rb =>
          (List.range perRb).map fun k => (e, rb, k)) := by
    refine congrArg (List.flatMap · _) (funext fun e => ?_)
    rw [← List.flatMap_append, part_append]
  rw [hunits]
  refine List.Perm.trans ?_ (List.flatMap_append_perm _ _ _)
  refine List.Perm.trans ?_ ((hpass 0).append (hpass 1))
  -- The passes of all CTAs, and the CTAs in each pass.
  refine List.Perm.trans (List.Perm.of_eq ?_) (List.flatMap_append_perm _ _ _).symm
  refine congrArg (List.flatMap · _) (funext fun smIdx => ?_)
  rw [Tables.twoPassWalk, List.flatMap_cons, List.flatMap_singleton]

/-- The row blocks of all experts are all row blocks. -/
theorem flatMap_rows (n : Nat) :
    ((List.range n).flatMap fun e =>
      List.range' (T.tokensBefore e / 128) (T.paddedTokensPerExpert e / 128)) =
      List.range (T.tokensBefore n / 128) := by
  induction n with
  | zero =>
      rw [List.range_zero, List.flatMap_nil, Tables.tokensBefore, Finset.sum_range_zero]
      rfl
  | succ n ih =>
      have hdvd := dvd_tokensBefore (T := T) n
      rw [List.range_succ, List.flatMap_append, ih, List.flatMap_singleton, tokensBefore_succ,
        Nat.add_div_of_dvd_right hdvd, List.range_eq_range', List.range_eq_range',
        ← List.range'_append_1, Nat.zero_add]

/-- Each unit of each row block is there once. -/
theorem map_units (perRb : Nat) : (T.units perRb).map Prod.snd =
    List.range (T.numPaddedLocalTokens / 128) ×ˢ List.range perRb := by
  rw [Tables.numPaddedLocalTokens, ← flatMap_rows, Tables.units, List.map_flatMap]
  simp only [List.map_flatMap, List.map_map]
  exact (List.flatMap_assoc (g := fun rb => (List.range perRb).map (Prod.mk rb))).symm

/-- It comes with the expert whose tokens it has. -/
theorem mem_units {perRb : Nat} {v : Nat × Nat × Nat} (h : v ∈ T.units perRb) :
    v.1 < T.numExpertsPerDev ∧ T.tokensBefore v.1 ≤ 128 * v.2.1 ∧
      128 * v.2.1 + 128 ≤ T.tokensBefore (v.1 + 1) ∧ v.2.2 < perRb := by
  simp only [Tables.units, List.mem_flatMap, List.mem_range, List.mem_map] at h
  rcases h with ⟨e, he, rb, hrb, k, hk, rfl⟩
  rw [List.mem_range'_1] at hrb
  have hdvd := dvd_tokensBefore (T := T) e
  have hpadded := T.padded_dvd e
  rw [tokensBefore_succ]
  refine ⟨he, ?_, ?_, hk⟩
  · dsimp only
    omega
  · dsimp only
    omega

/-- No row block has tokens of two experts. -/
theorem expert_unique {e e' row : Nat} (h : T.tokensBefore e ≤ 128 * row)
    (hlt : 128 * row + 128 ≤ T.tokensBefore (e + 1)) (h' : T.tokensBefore e' ≤ 128 * row)
    (hlt' : 128 * row + 128 ≤ T.tokensBefore (e' + 1)) : e = e' := by
  rcases Nat.lt_trichotomy e e' with hee | hee | hee
  · have hmono := tokensBefore_mono (T := T) (Nat.succ_le_of_lt hee)
    rw [Nat.succ_eq_add_one] at hmono
    omega
  · exact hee
  · have hmono := tokensBefore_mono (T := T) (Nat.succ_le_of_lt hee)
    rw [Nat.succ_eq_add_one] at hmono
    omega

/-- All dispatch CTAs together have every slice once. -/
theorem perm_dispatch {S : Nat} (hS : 0 < S) :
    ((List.range S).flatMap fun smIdx => (T.dispatchTwoPassWalk smIdx S).map Prod.snd).Perm
      (List.range (T.numPaddedLocalTokens / 16)) := by
  have hall := ((perm_twoPassWalk (T := T) 8 hS).map Prod.snd).map fun u => u.1 * 8 + u.2
  rw [map_units, List.map_map, List.map_flatMap] at hall
  refine List.Perm.trans (List.Perm.of_eq ?_) (hall.trans (List.Perm.of_eq ?_))
  · simp only [Tables.dispatchTwoPassWalk, List.map_map]
    rfl
  · -- Row by row, the slices of the row blocks are all slices.
    have hsplit : T.numPaddedLocalTokens / 16 = T.numPaddedLocalTokens / 128 * 8 := by
      have hdvd := dvd_tokensBefore (T := T) T.numExpertsPerDev
      rw [Tables.numPaddedLocalTokens]
      omega
    rw [hsplit, range_grid]
    exact List.map_flatMap

/-- All compute CTAs together have every block once. -/
theorem perm_compute (colBlocks : Nat) {S : Nat} (hS : 0 < S) :
    ((List.range S).flatMap fun smIdx =>
      (T.groupGemmFused colBlocks smIdx S).map Prod.snd).Perm
      (List.range (T.numPaddedLocalTokens / 128) ×ˢ List.range colBlocks) := by
  have hall := (perm_twoPassWalk (T := T) colBlocks hS).map Prod.snd
  rw [map_units, List.map_flatMap] at hall
  exact hall

/-- What a CTA has to do are units of row blocks. -/
theorem mem_twoPassWalk {perRb smIdx S : Nat} (hlt : smIdx < S) {v : Nat × Nat × Nat}
    (h : v ∈ T.twoPassWalk perRb smIdx S) : v ∈ T.units perRb := by
  refine (perm_twoPassWalk perRb (Nat.zero_lt_of_lt hlt)).mem_iff.mp ?_
  exact List.mem_flatMap.mpr ⟨smIdx, List.mem_range.mpr hlt, h⟩

/-- A slice comes with the expert whose tokens it has. -/
theorem mem_dispatch {smIdx S : Nat} (hlt : smIdx < S) {v : Nat × Nat}
    (h : v ∈ T.dispatchTwoPassWalk smIdx S) :
    v.1 < T.numExpertsPerDev ∧ T.tokensBefore v.1 ≤ 128 * (v.2 / 8) ∧
      128 * (v.2 / 8) + 128 ≤ T.tokensBefore (v.1 + 1) := by
  rcases List.mem_map.mp h with ⟨u, hu, rfl⟩
  rcases mem_units (mem_twoPassWalk hlt hu) with ⟨he, hge, hle, hk⟩
  rw [place_div hk]
  exact ⟨he, hge, hle⟩

end Units

/-! ## The counters -/

section Counters

variable {L : Launch} {w w' : World L}

/-- The slices of a row block that are still to be dispatched. -/
def remaining (w : World L) (row : Nat) : Nat :=
  ∑ d, (w.toDispatch d).countP fun v => decide (v.2 / 8 = row)

/-- What holds in every reachable state. -/
structure Inv (w : World L) : Prop where
  slices : ∀ d, ∀ v ∈ w.toDispatch d, v.2 / 8 < L.tables.numPaddedLocalTokens / 128
  blocks : ∀ c, ∀ v ∈ w.toCompute c, v.2.1 < L.tables.numPaddedLocalTokens / 128
  counted : ∀ row < L.tables.numPaddedLocalTokens / 128,
    w.barrier row + 16 * remaining w row = 128
  others : ∀ row, L.tables.numPaddedLocalTokens / 128 ≤ row → w.barrier row = 0

/-- All tokens of a slice exist. -/
theorem validTokens_eq {smIdx : Nat} (h : smIdx / 8 < L.tables.numPaddedLocalTokens / 128) :
    validTokens L smIdx = 16 := by
  have hdvd := dvd_tokensBefore (T := L.tables) L.tables.numExpertsPerDev
  rw [Tables.numPaddedLocalTokens] at h
  rw [validTokens]
  refine List.countP_eq_length.mpr fun laneId hlane => ?_
  have hlt := List.mem_range.mp hlane
  rw [decide_eq_true_eq, Tables.numPaddedLocalTokens]
  omega

/-- The tokens of the experts up to one are among those of all. -/
theorem row_lt {T : Tables} {e row : Nat} (he : e < T.numExpertsPerDev)
    (h : 128 * row + 128 ≤ T.tokensBefore (e + 1)) : row < T.numPaddedLocalTokens / 128 := by
  have hmono := tokensBefore_mono (T := T) (Nat.succ_le_of_lt he)
  rw [Nat.succ_eq_add_one] at hmono
  rw [Tables.numPaddedLocalTokens]
  omega

theorem inv_init (L : Launch) : Inv (init L) where
  slices d v hv := by
    rcases mem_dispatch d.isLt hv with ⟨he, _, hle⟩
    exact row_lt he hle
  blocks c v hv := by
    rcases mem_units (mem_twoPassWalk c.isLt hv) with ⟨he, _, hle, _⟩
    exact row_lt he hle
  counted row hrow := by
    -- Each row block has eight slices, and each is somebody's.
    have hcount := (perm_dispatch (T := L.tables) L.numDispatchSms_pos).countP_eq
      fun x => decide (x / 8 = row)
    have hsplit : L.tables.numPaddedLocalTokens / 16 = L.tables.numPaddedLocalTokens / 128 * 8 := by
      have hdvd := dvd_tokensBefore (T := L.tables) L.tables.numExpertsPerDev
      rw [Tables.numPaddedLocalTokens]
      omega
    rw [hsplit, countP_row hrow, countP_flatMap_range, Finset.sum_range] at hcount
    simp only [List.countP_map] at hcount
    have hall : remaining (init L) row = 8 := hcount
    rw [hall]
    rfl
  others _ _ := rfl

/-- A dispatch CTA takes a slice off those that remain. -/
theorem remaining_dispatch {d : Fin L.numDispatchSms} {v : Nat × Nat} {rest : List (Nat × Nat)}
    (hnext : w.toDispatch d = v :: rest) (barrier : Nat → Nat) (row : Nat) :
    remaining w row = remaining { w with
      toDispatch := Function.update w.toDispatch d rest
      barrier := barrier } row + if v.2 / 8 = row then 1 else 0 := by
  have hone : (if v.2 / 8 = row then 1 else 0) =
      ∑ d', if d' = d then (if v.2 / 8 = row then 1 else 0) else 0 := by
    rw [Finset.sum_ite_eq' Finset.univ d, if_pos (Finset.mem_univ d)]
  rw [remaining, remaining, hone, ← Finset.sum_add_distrib]
  refine Finset.sum_congr rfl fun d' _ => ?_
  by_cases hd : d' = d
  · simp only [hd, Function.update_self, if_true, hnext, List.countP_cons, decide_eq_true_eq]
  · simp only [Function.update_of_ne hd, if_neg hd, Nat.add_zero]

/-- A counter has the tokens of the slices that are dispatched. -/
theorem inv_step (h : Inv w) {a : Action L} (hstep : step w a = some w') : Inv w' := by
  cases a with
  | dispatch d =>
      cases hnext : w.toDispatch d with
      | nil => simp only [step, hnext, reduceCtorEq] at hstep
      | cons v rest =>
          simp only [step, hnext, Option.some.injEq] at hstep
          rcases hstep with rfl
          have hv := h.slices d v (hnext ▸ List.mem_cons_self)
          have hcount := remaining_dispatch (w := w) hnext (Function.update w.barrier (v.2 / 8)
            (w.barrier (v.2 / 8) + validTokens L v.2))
          refine ⟨fun d' v' hv' => ?_, h.blocks, fun row hrow => ?_, fun row hrow => ?_⟩
          · by_cases hd : d' = d
            · simp only [hd, Function.update_self] at hv'
              exact h.slices d v' (hnext ▸ List.mem_cons_of_mem v hv')
            · simp only [Function.update_of_ne hd] at hv'
              exact h.slices d' v' hv'
          · -- The slice is counted for its own row of blocks, and is no longer to come.
            have hold := h.counted row hrow
            rw [hcount row] at hold
            dsimp only
            by_cases hr : row = v.2 / 8
            · rw [if_pos hr.symm, hr] at hold
              have hvalid := validTokens_eq hv
              rw [hr, Function.update_self]
              omega
            · rw [if_neg (Ne.symm hr)] at hold
              rw [Function.update_of_ne hr]
              omega
          · dsimp only
            rw [Function.update_of_ne (by omega)]
            exact h.others row hrow
  | compute c =>
      cases hnext : w.toCompute c with
      | nil => simp only [step, hnext, reduceCtorEq] at hstep
      | cons v rest =>
          simp only [step, hnext, Option.ite_none_right_eq_some, Option.some.injEq] at hstep
          rcases hstep with ⟨_, rfl⟩
          -- A computation counts nothing.
          refine ⟨h.slices, fun c' v' hv' => ?_, h.counted, h.others⟩
          by_cases hc : c' = c
          · simp only [hc, Function.update_self] at hv'
            exact h.blocks c v' (hnext ▸ List.mem_cons_of_mem v hv')
          · simp only [Function.update_of_ne hc] at hv'
            exact h.blocks c' v' hv'

theorem inv_of_reaches (h : Reaches step always (init L) w) : Inv w :=
  invariant_of_reaches Inv (fun _ _ _ hinv _ hstep => inv_step hinv hstep) h (inv_init L)

/-- When all slices are dispatched, every row block is full. -/
theorem barrier_full (h : Inv w) (hdone : ∀ d, w.toDispatch d = []) {row : Nat}
    (hrow : row < L.tables.numPaddedLocalTokens / 128) : w.barrier row = 128 := by
  have hnone : remaining w row = 0 :=
    Finset.sum_eq_zero fun d _ => by rw [hdone d, List.countP_nil]
  have hcount := h.counted row hrow
  omega

/-- Some CTA can always go on, until all have ended. -/
theorem exists_end (h : Reaches step always (init L) w) :
    ∃ u, Reaches step always w u ∧ (∀ d, u.toDispatch d = []) ∧ ∀ c, u.toCompute c = [] := by
  refine exists_goal (fun u => ∑ d, (u.toDispatch d).length + ∑ c, (u.toCompute c).length)
    fun u hu hnot => ?_
  have hinv := inv_of_reaches (reaches_trans h hu)
  -- A CTA that dispatches waits for nobody, and one that computes only for the barrier.
  by_cases hdone : ∀ d, u.toDispatch d = []
  · have hleft : ¬ ∀ c, u.toCompute c = [] := fun hall => hnot ⟨hdone, hall⟩
    rw [not_forall] at hleft
    rcases hleft with ⟨c, hc⟩
    rcases List.exists_cons_of_ne_nil hc with ⟨v, rest, hnext⟩
    have hfull := barrier_full hinv hdone (hinv.blocks c v (hnext ▸ List.mem_cons_self))
    refine ⟨.compute c, { u with toCompute := Function.update u.toCompute c rest }, trivial, ?_, ?_⟩
    · simp only [step, hnext, if_pos hfull]
    · refine Nat.add_lt_add_left (sum_lt_of_one c ?_ fun c' hc' => ?_) _
      · simp only [Function.update_self, hnext, List.length_cons, Nat.lt_succ_self]
      · simp only [Function.update_of_ne hc']
  · rw [not_forall] at hdone
    rcases hdone with ⟨d, hd⟩
    rcases List.exists_cons_of_ne_nil hd with ⟨v, rest, hnext⟩
    refine ⟨.dispatch d, { u with
      toDispatch := Function.update u.toDispatch d rest
      barrier := Function.update u.barrier (v.2 / 8)
        (u.barrier (v.2 / 8) + validTokens L v.2) }, trivial, ?_, ?_⟩
    · simp only [step, hnext]
    · refine Nat.add_lt_add_right (sum_lt_of_one d ?_ fun d' hd' => ?_) _
      · simp only [Function.update_self, hnext, List.length_cons, Nat.lt_succ_self]
      · simp only [Function.update_of_ne hd']

end Counters

/-! ## The promise -/

/-- The dispatch CTAs together have every slice once, and the compute CTAs every block, with
    one expert for all that is in a row block. The counter of a row block never exceeds the
    size of a full one, and has it once all slices are dispatched. And all CTAs can always
    come to their end. -/
structure TwoPass (L : Launch) : Prop where
  slices : ((List.range L.numDispatchSms).flatMap fun d =>
      (L.tables.dispatchTwoPassWalk d L.numDispatchSms).map Prod.snd).Perm
    (List.range (L.tables.numPaddedLocalTokens / 16))
  blocks : ((List.range L.numCompSms).flatMap fun c =>
      (L.tables.groupGemmFused L.colBlocks c L.numCompSms).map Prod.snd).Perm
    (List.range (L.tables.numPaddedLocalTokens / 128) ×ˢ List.range L.colBlocks)
  slice_expert : ∀ d < L.numDispatchSms, ∀ v ∈ L.tables.dispatchTwoPassWalk d L.numDispatchSms,
    v.1 < L.tables.numExpertsPerDev ∧ L.tables.tokensBefore v.1 ≤ 16 * v.2 ∧
      16 * v.2 + 16 ≤ L.tables.tokensBefore (v.1 + 1)
  same_expert : ∀ d < L.numDispatchSms, ∀ v ∈ L.tables.dispatchTwoPassWalk d L.numDispatchSms,
    ∀ c < L.numCompSms, ∀ u ∈ L.tables.groupGemmFused L.colBlocks c L.numCompSms,
      v.2 / 8 = u.2.1 → v.1 = u.1
  barrier_le : ∀ w, Reaches step always (init L) w → ∀ row, w.barrier row ≤ 128
  barrier_eq : ∀ w, Reaches step always (init L) w → (∀ d, w.toDispatch d = []) →
    ∀ row < L.tables.numPaddedLocalTokens / 128, w.barrier row = 128
  ends : ∀ w, Reaches step always (init L) w → ∃ u, Reaches step always w u ∧
    (∀ d, u.toDispatch d = []) ∧ ∀ c, u.toCompute c = []

/-- For all tokens of the experts in whole row blocks, all local row blocks among them and
    all numbers of CTAs, the walk in two passes keeps the promise. -/
theorem two_pass (L : Launch) : TwoPass L where
  slices := perm_dispatch L.numDispatchSms_pos
  blocks := perm_compute L.colBlocks L.numCompSms_pos
  slice_expert d hd v hv := by
    rcases mem_dispatch hd hv with ⟨he, hge, hle⟩
    exact ⟨he, by omega, by omega⟩
  same_expert d hd v hv c hc u hu hrow := by
    rcases mem_dispatch hd hv with ⟨_, hge, hle⟩
    rcases mem_units (mem_twoPassWalk hc hu) with ⟨_, hge', hle', _⟩
    rw [hrow] at hge hle
    exact expert_unique hge hle hge' hle'
  barrier_le w hw row := by
    have hinv := inv_of_reaches hw
    -- What is counted and what remains make up the row's tokens.
    by_cases hrow : row < L.tables.numPaddedLocalTokens / 128
    · have hcount := hinv.counted row hrow
      omega
    · rw [hinv.others row (Nat.le_of_not_lt hrow)]
      omega
  barrier_eq w hw hdone row hrow := barrier_full (inv_of_reaches hw) hdone hrow
  ends w hw := exists_end hw

end Walk

end DispatchGemm

end MKernel
