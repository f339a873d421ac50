import Mathlib.Analysis.Complex.ExponentialBounds
import Mathlib.Analysis.SpecialFunctions.Pow.Real
import MKernel.Core.LogWeights
import MKernel.Core.SmallNumbers

/-!
# The Online Softmax of Ring Attention

What `attn_partial` and `attn_reduction` compute for a query, over exact reals.

A stage of the ring goes through its keys and values in tiles. Its registers hold
the largest score so far, and the sums of the weights and of the weighted values,
scaled down by that score. With each tile the sums go over to the new largest
score (`good_kvBlock`). At the end the stage divides, and goes from base two to
the natural logarithm. From the second stage on its output is merged into `(O, L)`,
by a kernel of its own or in registers, and so what is in `(O, L)` stands for the
keys of all stages so far (`mean_runStage`).

All registers are rows, one to a query, so this is about one query and one head.
The literals `1.44269504089f`, `0.08838834764f` and `0.69314718056f` are taken for
the reals they are written for (`literals_close`), and the rounding of the sums to
`float` and of the tiles to `bf16` is left out.

## Main definitions

* `Regs`, `kvBlock`: The registers of a row, and one tile.
* `attnStage`: All tiles of a stage.
* `Rows`: The rows of `O`, `L`, `O_block` and `L_block`.
* `attnPartial`, `attnReduction`: The kernels.
* `attention`, `logSumExp`: The softmax attention, and its denominator.

## Theorems

* `good_kvBlock`: The registers stand for one more tile.
* `attnStage_mean`: The output of a stage.
* `mean_runStage`: The rows stand for one more stage.
* `run_eq_attention`: All stages together are the softmax attention.
-/

namespace MKernel

namespace RingAttention

namespace OnlineSoftmax

open Real
open MKernel.Core

/-- `globals::D` -/
def D : Nat := 128

/-- A row of the keys with its row of the values. -/
structure Key where
  k : Fin D → ℝ
  v : Fin D → ℝ

/-- The rows of a tile, of which there is one at least. -/
structure Block where
  first : Key
  rest : List Key

def Block.keys (b : Block) : List Key := b.first :: b.rest

/-- The tiles of a stage, of which there is one at least. -/
structure Stage where
  first : Block
  rest : List Block

def Stage.keys (st : Stage) : List Key := (st.first :: st.rest).flatMap Block.keys

theorem Stage.keys_ne_nil (st : Stage) : st.keys ≠ [] :=
  List.cons_ne_nil _ _

/-! ## The constants -/

/-- `1.44269504089f` -/
noncomputable def log2e : ℝ := (log 2)⁻¹

/-- `0.08838834764f` -/
noncomputable def rsqrtD : ℝ := (√D)⁻¹

/-- `0.69314718056f` -/
noncomputable def ln2 : ℝ := log 2

/-- What the literals are written for. -/
theorem literals_close : |1.44269504089 - log2e| < 1e-8 ∧ |0.08838834764 - rsqrtD| < 1e-10 ∧
    |0.69314718056 - ln2| < 1e-9 := by
  have hlt := log_two_lt_d9
  have hgt := log_two_gt_d9
  have hpos : (0 : ℝ) < log 2 := log_pos one_lt_two
  refine ⟨?_, ?_, ?_⟩
  · -- From the known digits of `log 2`.
    have hup : log2e < 1.44269505 := by
      rw [log2e, inv_lt_comm₀ hpos (by norm_num)]
      exact lt_of_le_of_lt (by norm_num) hgt
    have hlow : 1.44269504 < log2e := by
      rw [log2e, lt_inv_comm₀ (by norm_num) hpos]
      exact lt_of_lt_of_le hlt (by norm_num)
    rw [abs_lt]
    constructor <;> linarith
  · -- The bounds on `√D` are shown by squaring.
    have hroot : (0 : ℝ) < √D := sqrt_pos.mpr (by norm_num [D])
    have hup : rsqrtD < 0.08838834769 := by
      rw [rsqrtD, inv_lt_comm₀ hroot (by norm_num)]
      exact lt_sqrt_of_sq_lt (by norm_num [D])
    have hlow : 0.08838834759 < rsqrtD := by
      rw [rsqrtD, lt_inv_comm₀ (by norm_num) hroot]
      exact (sqrt_lt' (by norm_num)).mpr (by norm_num [D])
    rw [abs_lt]
    constructor <;> linarith
  · rw [ln2, abs_lt]
    constructor <;> linarith

/-! ## A stage -/

/-- A row of `Q * K^T`. -/
noncomputable def dot (q : Fin D → ℝ) (x : Key) : ℝ := ∑ d, q d * x.k d

/-- The registers of a row. The largest score is minus infinity before the first tile. -/
structure Regs where
  maxVec : Option ℝ
  maxVecScaled : ℝ
  normVec : ℝ
  oReg : Fin D → ℝ

/-- `zero(norm_vec)`, `zero(o_reg)`, `neg_infty(max_vec)`. Nothing is in `max_vec_scaled`. -/
def Regs.start : Regs := ⟨none, 0, 0, 0⟩

/-- `row_max` -/
noncomputable def rowMax (maxVec : Option ℝ) (first : ℝ) (rest : List ℝ) : ℝ :=
  rest.foldl max (maxVec.elim first (max · first))

/-- `exp2`, where minus infinity gives zero. -/
noncomputable def exp2 : Option ℝ → ℝ
  | none => 0
  | some x => 2 ^ x

/-- One tile of keys and values. -/
noncomputable def kvBlock (q : Fin D → ℝ) (r : Regs) (b : Block) : Regs :=
  let maxVec := rowMax r.maxVec (dot q b.first) (b.rest.map (dot q))
  let maxVecScaled := maxVec * (log2e * rsqrtD)
  let lastScaled := exp2 (r.maxVec.map fun m => m * (log2e * rsqrtD) - maxVecScaled)
  let attBlock (x : Key) : ℝ := exp2 (some (dot q x * (log2e * rsqrtD) - maxVecScaled))
  { maxVec := some maxVec
    maxVecScaled := maxVecScaled
    normVec := r.normVec * lastScaled + (b.keys.map attBlock).sum
    oReg := lastScaled • r.oReg + (b.keys.map fun x => attBlock x • x.v).sum }

/-- What a stage leaves for a query: the row of its output, and its `L_stage`. -/
noncomputable def attnStage (q : Fin D → ℝ) (st : Stage) : (Fin D → ℝ) × ℝ :=
  let r := (st.first :: st.rest).foldl (kvBlock q) Regs.start
  (r.normVec⁻¹ • r.oReg, log r.normVec + r.maxVecScaled * ln2)

/-! ## The merge -/

/-- The rows of a query in `G`. -/
structure Rows where
  O : Fin D → ℝ
  L : ℝ
  OBlock : Fin D → ℝ
  LBlock : ℝ

/-- `attn_partial`, by whether it is to fuse the reduction. -/
noncomputable def attnPartial (q : Fin D → ℝ) (fuseReduce : Bool) (ringStage : Nat) (st : Stage)
    (g : Rows) : Rows :=
  let oReg := (attnStage q st).1
  let normVec := (attnStage q st).2
  if fuseReduce then
    if 0 < ringStage then
      let lNew := log (exp (normVec - g.L) + 1) + g.L
      { g with
        O := exp (normVec - lNew) • oReg + exp (g.L - lNew) • g.O
        L := lNew }
    else
      { g with
        O := oReg
        L := normVec }
  else if ringStage = 0 then
    { g with
      O := oReg
      L := normVec }
  else
    { g with
      OBlock := oReg
      LBlock := normVec }

/-- `attn_reduction` -/
noncomputable def attnReduction (g : Rows) : Rows :=
  let lNew := log (exp (g.LBlock - g.L) + 1) + g.L
  { g with
    O := exp (g.L - lNew) • g.O + exp (g.LBlock - lNew) • g.OBlock
    L := lNew }

/-- A stage, with the kernel for the reduction if it is not fused. -/
noncomputable def runStage (q : Fin D → ℝ) (fuseReduce : Bool) (ringStage : Nat) (st : Stage)
    (g : Rows) : Rows :=
  let g := attnPartial q fuseReduce ringStage st g
  if fuseReduce = false ∧ 0 < ringStage then attnReduction g else g

/-- The stages from one on. -/
noncomputable def runFrom (q : Fin D → ℝ) : Nat → List (Bool × Stage) → Rows → Rows
  | _, [], g => g
  | ringStage, (fuseReduce, st) :: stages, g =>
      runFrom q (ringStage + 1) stages (runStage q fuseReduce ringStage st g)

/-- All stages. -/
noncomputable def run (q : Fin D → ℝ) (stages : List (Bool × Stage)) (g : Rows) : Rows :=
  runFrom q 0 stages g

/-! ## What it is for -/

/-- The score of a key, as softmax attention scales it. -/
noncomputable def score (q : Fin D → ℝ) (x : Key) : ℝ := (∑ d, q d * x.k d) / √D

/-- Softmax attention over some keys. -/
noncomputable def attention (q : Fin D → ℝ) (keys : List Key) : Fin D → ℝ := fun d =>
  (keys.map fun x => exp (score q x) * x.v d).sum / (keys.map fun x => exp (score q x)).sum

/-- The logarithm of the sum of the exponentials of the scores. -/
noncomputable def logSumExp (q : Fin D → ℝ) (keys : List Key) : ℝ :=
  log (keys.map fun x => exp (score q x)).sum

/-- The values, by the logarithms of their weights. -/
noncomputable def points (q : Fin D → ℝ) (keys : List Key) : List (ℝ × (Fin D → ℝ)) :=
  keys.map fun x => (score q x, x.v)

theorem mass_points (q : Fin D → ℝ) (keys : List Key) :
    mass (points q keys) = (keys.map fun x => exp (score q x)).sum := by
  rw [mass, points, List.map_map]
  rfl

theorem weighted_points (q : Fin D → ℝ) (keys : List Key) (d : Fin D) :
    weighted (points q keys) d = (keys.map fun x => exp (score q x) * x.v d).sum := by
  induction keys with
  | nil => rfl
  | cons x keys ih =>
    rw [points, List.map_cons, weighted_cons, ← points, Pi.add_apply, ih, List.map_cons,
      List.sum_cons, Pi.smul_apply, smul_eq_mul]

/-- The mean of the values is the softmax attention. -/
theorem eq_attention {q : Fin D → ℝ} {keys : List Key} {L : ℝ} {O : Fin D → ℝ}
    (h : Mean (points q keys) L O) : O = attention q keys ∧ L = logSumExp q keys := by
  refine ⟨?_, by rw [h.log_eq, mass_points, logSumExp]⟩
  funext d
  rw [h.mean_eq, Pi.smul_apply, mass_points, weighted_points, smul_eq_mul, attention,
    inv_mul_eq_div]

/-! ## The registers -/

/-- What `exp2` gets is a difference of scores, in base two. -/
theorem exp2_scaled (s m : ℝ) :
    exp2 (some (s * (log2e * rsqrtD) - m)) = exp (s / √D - m * ln2) := by
  have hlog : log (2 : ℝ) ≠ 0 := (log_pos one_lt_two).ne'
  rw [exp2, rpow_def_of_pos two_pos, log2e, rsqrtD, ln2]
  congr 1
  field_simp

/-- The registers stand for the keys so far. -/
structure Good (q : Fin D → ℝ) (keys : List Key) (r : Regs) : Prop where
  scaled : Scaled (points q keys) (r.maxVecScaled * ln2) r.normVec r.oReg
  last : ∀ m, r.maxVec = some m → r.maxVecScaled = m * (log2e * rsqrtD)
  fresh : r.maxVec = none → keys = []

theorem good_start (q : Fin D → ℝ) : Good q [] Regs.start where
  scaled := Scaled.nil _
  last _ h := nomatch h
  fresh _ := rfl

/-- The correction takes the sums from the last largest score to the new one. -/
theorem good_corrected {q : Fin D → ℝ} {keys : List Key} {r : Regs} (h : Good q keys r) (m : ℝ) :
    r.normVec * exp2 (r.maxVec.map fun x => x * (log2e * rsqrtD) - m) =
        r.normVec * exp (r.maxVecScaled * ln2 - m * ln2) ∧
      exp2 (r.maxVec.map fun x => x * (log2e * rsqrtD) - m) • r.oReg =
        exp (r.maxVecScaled * ln2 - m * ln2) • r.oReg := by
  cases hmax : r.maxVec with
  | none =>
    -- Before the first tile the factor is zero, but so are the sums.
    have hn := h.scaled.mass_eq
    have ho := h.scaled.weighted_eq
    rw [h.fresh hmax] at hn ho
    rw [hn, ho, points, List.map_nil, mass_nil, weighted_nil]
    simp only [mul_zero, zero_mul, smul_zero, and_self]
  | some x =>
    have hexp : exp2 (some (x * (log2e * rsqrtD) - m)) =
        exp (r.maxVecScaled * ln2 - m * ln2) := by
      have hlog : log (2 : ℝ) ≠ 0 := (log_pos one_lt_two).ne'
      rw [exp2_scaled, h.last x hmax, log2e, rsqrtD, ln2]
      congr 2
      field_simp
    rw [Option.map_some, hexp]
    exact ⟨rfl, rfl⟩

/-- The registers stand for one more tile. -/
theorem good_kvBlock {q : Fin D → ℝ} {keys : List Key} {r : Regs} (h : Good q keys r) (b : Block) :
    Good q (keys ++ b.keys) (kvBlock q r b) where
  scaled := by
    have hnew := h.scaled.append ((kvBlock q r b).maxVecScaled * ln2) (points q b.keys)
    have hcorr := good_corrected h (kvBlock q r b).maxVecScaled
    have hterm (x : Key) : exp2 (some (dot q x * (log2e * rsqrtD) - (kvBlock q r b).maxVecScaled)) =
        -- Base two with scaled scores is base `e` with scores.
        exp (score q x - (kvBlock q r b).maxVecScaled * ln2) := exp2_scaled _ _
    have hn : (kvBlock q r b).normVec = r.normVec *
        exp (r.maxVecScaled * ln2 - (kvBlock q r b).maxVecScaled * ln2) + (b.keys.map fun x =>
          exp (score q x - (kvBlock q r b).maxVecScaled * ln2)).sum := by
      -- The rescaling factor is the one that the points ask for.
      rw [← hcorr.1]
      simp only [← hterm]
      rfl
    have ho : (kvBlock q r b).oReg =
        exp (r.maxVecScaled * ln2 - (kvBlock q r b).maxVecScaled * ln2) • r.oReg +
          (b.keys.map fun x =>
            exp (score q x - (kvBlock q r b).maxVecScaled * ln2) • x.v).sum := by
      rw [← hcorr.2]
      simp only [← hterm]
      rfl
    rw [points, List.map_append, hn, ho]
    rw [points, points, List.map_map, List.map_map] at hnew
    exact hnew
  last m hm := by
    rw [← Option.some.inj hm]
    rfl
  fresh hm := nomatch hm

theorem good_blocks {q : Fin D → ℝ} (bs : List Block) {keys : List Key} {r : Regs}
    (h : Good q keys r) : Good q (keys ++ bs.flatMap Block.keys) (bs.foldl (kvBlock q) r) := by
  induction bs generalizing keys r with
  | nil =>
    rw [List.flatMap_nil, List.append_nil]
    exact h
  | cons b bs ih =>
    rw [List.flatMap_cons, ← List.append_assoc]
    exact ih (good_kvBlock h b)

/-- The output of a stage. -/
theorem attnStage_mean (q : Fin D → ℝ) (st : Stage) :
    Mean (points q st.keys) (attnStage q st).2 (attnStage q st).1 := by
  have hgood := good_blocks (st.first :: st.rest) (good_start q)
  exact hgood.scaled.mean fun h => st.keys_ne_nil (List.map_eq_nil_iff.mp h)

/-! ## The stages -/

/-- The first stage writes. -/
theorem mean_first (q : Fin D → ℝ) (fuseReduce : Bool) (st : Stage) (g : Rows) :
    Mean (points q st.keys) (runStage q fuseReduce 0 st g).L (runStage q fuseReduce 0 st g).O := by
  cases fuseReduce with
  | false => exact attnStage_mean q st
  | true => exact attnStage_mean q st

/-- Each stage after it merges. -/
theorem mean_runStage {q : Fin D → ℝ} {keys : List Key} {g : Rows} (fuseReduce : Bool)
    {ringStage : Nat} (st : Stage) (hpos : 0 < ringStage) (hkeys : keys ≠ [])
    (h : Mean (points q keys) g.L g.O) :
    Mean (points q (keys ++ st.keys)) (runStage q fuseReduce ringStage st g).L
      (runStage q fuseReduce ringStage st g).O := by
  have hne : points q keys ≠ [] := fun hnil => hkeys (List.map_eq_nil_iff.mp hnil)
  have hne' : points q st.keys ≠ [] := fun hnil => st.keys_ne_nil (List.map_eq_nil_iff.mp hnil)
  have hmerge := h.merge (attnStage_mean q st) hne hne'
  rw [points, List.map_append]
  cases fuseReduce with
  | false =>
    rw [runStage, attnPartial, if_pos ⟨rfl, hpos⟩, if_neg Bool.false_ne_true, if_neg hpos.ne']
    exact hmerge
  | true =>
    -- In registers the two are added the other way round.
    rw [runStage, attnPartial, if_neg (fun hand => nomatch hand.1), if_pos rfl, if_pos hpos]
    rw [add_comm (_ • g.O)] at hmerge
    exact hmerge

theorem mean_runFrom {q : Fin D → ℝ} (stages : List (Bool × Stage)) {ringStage : Nat}
    {keys : List Key} {g : Rows} (hpos : 0 < ringStage) (hkeys : keys ≠ [])
    (h : Mean (points q keys) g.L g.O) :
    Mean (points q (keys ++ stages.flatMap fun p => p.2.keys)) (runFrom q ringStage stages g).L
      (runFrom q ringStage stages g).O := by
  induction stages generalizing ringStage keys g with
  | nil =>
    rw [List.flatMap_nil, List.append_nil]
    exact h
  | cons p stages ih =>
    rw [List.flatMap_cons, ← List.append_assoc]
    exact ih (Nat.succ_pos _) (List.append_ne_nil_of_left_ne_nil hkeys _)
      (mean_runStage p.1 p.2 hpos hkeys h)

/-- However some keys are split into stages, and in whatever order, and however each stage
    is merged, what is in `O` and `L` at the end is the softmax attention over all keys. -/
theorem run_eq_attention (q : Fin D → ℝ) (stages : List (Bool × Stage)) (g : Rows)
    (keys : List Key) (hne : stages ≠ [])
    (hsplit : (stages.flatMap fun p => p.2.keys).Perm keys) :
    (run q stages g).O = attention q keys ∧ (run q stages g).L = logSumExp q keys := by
  cases stages with
  | nil => exact absurd rfl hne
  | cons p stages =>
    have hall := mean_runFrom stages Nat.one_pos p.2.keys_ne_nil (mean_first q p.1 p.2 g)
    exact eq_attention (hall.perm (hsplit.map _))

/-- The keys of two stages of one key each, for a query that scores them the same: the first
    stage is the one of the second key, and the other one is merged in registers. -/
theorem run_eq_attention_two :
    (run 0 [(true, ⟨⟨⟨0, fun _ => 4⟩, []⟩, []⟩), (true, ⟨⟨⟨0, 0⟩, []⟩, []⟩)] ⟨0, 0, 0, 0⟩).O =
        (fun _ => 2) ∧
      (run 0 [(true, ⟨⟨⟨0, fun _ => 4⟩, []⟩, []⟩), (true, ⟨⟨⟨0, 0⟩, []⟩, []⟩)] ⟨0, 0, 0, 0⟩).L =
        log 2 := by
  have hrun := run_eq_attention 0
    [(true, ⟨⟨⟨0, fun _ => 4⟩, []⟩, []⟩), (true, ⟨⟨⟨0, 0⟩, []⟩, []⟩)] ⟨0, 0, 0, 0⟩
    [⟨0, 0⟩, ⟨0, fun _ => 4⟩] (List.cons_ne_nil _ _) (List.Perm.swap _ _ _)
  have hscore (x : Key) : score 0 x = 0 := by
    simp [score]
  rw [hrun.1, hrun.2]
  refine ⟨?_, ?_⟩
  · funext d
    simp [attention, hscore]
    norm_num
  · simp [logSumExp, hscore]
    norm_num

end OnlineSoftmax

end RingAttention

end MKernel
