import Mathlib.Data.EReal.Inv
import MKernel.Kittens.RegisterVector
import MKernel.RingAttention.OnlineSoftmax

/-!
# The Registers of a Warpgroup

`attn_partial` as the warps of a consumer warpgroup run it.

A warpgroup has 64 queries, and keeps their scores, sums and outputs spread over the registers
of its 128 lanes. Each tile of keys and values goes through the same register
operations, which say nothing of rows: `row_max`, `row_sum` and `mul_row` know where
the lanes have them. Here the registers are shown to hold, for each query, what
`OnlineSoftmax` says of its row, tile by tile (`stands_kvTile`), after the division
(`holds_finish`) and after the merge (`holds_merge`). In the end they are stored for the TMA
to take them away, and what lies in shared memory then is, row by row, what
`OnlineSoftmax.attnPartial` stores (`attnPartial_stored`).

The registers have floats that may be minus infinity, which are extended reals here. Rounding
is left out as it is there. The products of `wgmma` are taken for those of the matrices
that the registers hold.

## Main definitions

* `WarpRegs`: The registers that are kept from tile to tile.
* `kvTile`: One tile of keys and values.
* `finish`, `merge`: What is made of the registers after the last tile.
* `attnPartialRegs`, `attnReductionRegs`: `attn_partial` and `attn_reduction` up to their stores.
* `Stands`: The registers hold the rows.

## Theorems

* `stands_kvTile`: One tile more.
* `holds_attnPartialRegs`: What the registers hold when they are stored.
* `attnPartial_stored`, `attnReduction_stored`: What is in shared memory at the end.
-/

namespace MKernel

namespace RingAttention

namespace WarpSoftmax

open MKernel.Kittens MKernel.Core
open OnlineSoftmax (Key Block Stage Regs Rows D log2e rsqrtD ln2 dot)

/-- `rt_fl<16, KV_BLOCK>` and `rt_fl<16, D>`, which have the same shape -/
def tileRt : Rt where
  elemBytes := 4
  height := 1
  width := 8
  layout := .row

/-- `globals::KV_BLOCK` -/
def kvBlockRows : Nat := 128

/-- The literals are taken for what they are written for. -/
noncomputable def scale : EReal := ((log2e * rsqrtD : ℝ) : EReal)

/-- `exp2`, where minus infinity gives zero -/
noncomputable def exp2 (x : EReal) : EReal :=
  if x = ⊥ then 0 else if x = ⊤ then ⊤ else ((OnlineSoftmax.exp2 (some x.toReal) : ℝ) : EReal)

/-- `exp`, where minus infinity gives zero -/
noncomputable def exp (x : EReal) : EReal :=
  if x = ⊥ then 0 else if x = ⊤ then ⊤ else ((Real.exp x.toReal : ℝ) : EReal)

/-- `log`, of a float that is not negative -/
noncomputable def log (x : EReal) : EReal :=
  if x = 0 then ⊥ else if x = ⊤ then ⊤ else ((Real.log x.toReal : ℝ) : EReal)

/-- The key of a row of a tile. -/
def keyAt (b : Block) (c : Nat) : Key := b.keys.getD c b.first

/-- An entry of a row of `D`. -/
noncomputable def entry (f : Fin D → ℝ) (d : Nat) : ℝ := if h : d < D then f ⟨d, h⟩ else 0

/-- The matrix that the registers of the warpgroup hold. -/
noncomputable def element (t : Slot → EReal) (r c : Nat) : EReal :=
  t (Function.invFunOn (coord tileRt 4) {s | s.Valid tileRt 4} (r, c))

/-- `mm_ABt(att_block, Q_smem, K_smem)` -/
noncomputable def mmABt (q : Nat → Fin D → ℝ) (b : Block) (s : Slot) : EReal :=
  ((dot (q (coord tileRt 4 s).1) (keyAt b (coord tileRt 4 s).2) : ℝ) : EReal)

/-- `mma_AB(o_reg, att_block_mma, V_smem)` -/
noncomputable def mmaAB (oReg attBlock : Slot → EReal) (b : Block) (s : Slot) : EReal :=
  oReg s + ((List.range kvBlockRows).map fun c =>
    element attBlock (coord tileRt 4 s).1 c * ((entry (keyAt b c).v (coord tileRt 4 s).2 : ℝ) :
      EReal)).sum

/-- The registers that are kept from tile to tile. -/
structure WarpRegs where
  oReg : Slot → EReal
  normVec : VecSlot → EReal
  maxVec : VecSlot → EReal
  maxVecScaled : VecSlot → EReal

/-- `zero(norm_vec)`, `zero(o_reg)`, `neg_infty(max_vec)`. Nothing has been put into
    `max_vec_scaled`. -/
noncomputable def WarpRegs.start (maxVecScaled : VecSlot → EReal) : WarpRegs where
  oReg _ := 0
  normVec _ := 0
  maxVec _ := ⊥
  maxVecScaled := maxVecScaled

/-- One tile of keys and values. -/
noncomputable def kvTile (q : Nat → Fin D → ℝ) (r : WarpRegs) (b : Block) : WarpRegs :=
  let attBlock := mmABt q b
  let maxVecLastScaled s := r.maxVec s * scale
  let maxVec := rowReduce tileRt max attBlock r.maxVec
  let attBlock s := attBlock s * scale
  let maxVecScaled s := maxVec s * scale
  let attBlock := rowMap tileRt (· - ·) attBlock maxVecScaled
  let attBlock s := exp2 (attBlock s)
  let maxVecLastScaled s := maxVecLastScaled s - maxVecScaled s
  let maxVecLastScaled s := exp2 (maxVecLastScaled s)
  let normVec s := r.normVec s * maxVecLastScaled s
  let normVec := rowReduce tileRt (· + ·) attBlock normVec
  let attBlock s := attBlock s + 0
  let oReg := rowMap tileRt (· * ·) r.oReg maxVecLastScaled
  { oReg := mmaAB oReg attBlock b
    normVec := normVec
    maxVec := maxVec
    maxVecScaled := maxVecScaled }

/-- The tiles of a stage. -/
noncomputable def kvTiles (q : Nat → Fin D → ℝ) (st : Stage) (r : WarpRegs) : WarpRegs :=
  (st.first :: st.rest).foldl (kvTile q) r

/-- `div_row`, and what is put into `norm_vec` after it -/
noncomputable def finish (r : WarpRegs) : (Slot → EReal) × (VecSlot → EReal) :=
  let oReg := rowMap tileRt (· / ·) r.oReg r.normVec
  let maxVecScaled s := r.maxVecScaled s * (ln2 : EReal)
  let normVec s := log (r.normVec s)
  let normVec s := normVec s + maxVecScaled s
  (oReg, normVec)

/-- The fused reduction, with what was in `L` and `O`. -/
noncomputable def merge (rt : Rt) (r : (Slot → EReal) × (VecSlot → EReal)) (oPrev : Slot → EReal)
    (lPrev : VecSlot → EReal) : (Slot → EReal) × (VecSlot → EReal) :=
  let lNew s := r.2 s - lPrev s
  let lNew s := exp (lNew s)
  let lNew s := lNew s + 1
  let lNew s := log (lNew s)
  let lNew s := lNew s + lPrev s
  let lPrev s := lPrev s - lNew s
  let lPrev s := exp (lPrev s)
  let normVec s := r.2 s - lNew s
  let normVec s := exp (normVec s)
  let oPrev := rowMap rt (· * ·) oPrev lPrev
  let oReg := rowMap rt (· * ·) r.1 normVec
  let oReg s := oReg s + oPrev s
  (oReg, lNew)

/-- `attn_reduction` up to its stores, which has tiles of twice the rows. -/
noncomputable def attnReductionRegs (rt : Rt) (oReg oBlockReg : Slot → EReal)
    (lReg lBlockReg : VecSlot → EReal) : (Slot → EReal) × (VecSlot → EReal) :=
  let lNewReg s := lBlockReg s - lReg s
  let lNewReg s := exp (lNewReg s)
  let lNewReg s := lNewReg s + 1
  let lNewReg s := log (lNewReg s)
  let lNewReg s := lNewReg s + lReg s
  let lReg s := lReg s - lNewReg s
  let lReg s := exp (lReg s)
  let lBlockReg s := lBlockReg s - lNewReg s
  let lBlockReg s := exp (lBlockReg s)
  let oReg := rowMap rt (· * ·) oReg lReg
  let oBlockReg := rowMap rt (· * ·) oBlockReg lBlockReg
  let oReg s := oReg s + oBlockReg s
  (oReg, lNewReg)

/-- `attn_partial` up to its stores. -/
noncomputable def attnPartialRegs (q : Nat → Fin D → ℝ) (fuseReduce : Bool) (ringStage : Nat)
    (st : Stage) (maxVecScaled : VecSlot → EReal) (oPrev : Slot → EReal)
    (lPrev : VecSlot → EReal) : (Slot → EReal) × (VecSlot → EReal) :=
  let r := finish (kvTiles q st (WarpRegs.start maxVecScaled))
  if fuseReduce then
    if 0 < ringStage then merge tileRt r oPrev lPrev else r
  else r

/-! ## Holding rows -/

theorem tileRt_num : tileRt.num = 2 := rfl

/-- The registers hold the matrix that is read from them. -/
theorem element_eq {t : Slot → EReal} {A : Nat → Nat → EReal} (h : HoldsTile tileRt 4 t A)
    {r c : Nat} (hr : r < 64) (hc : c < 128) : element t r c = A r c := by
  have hsurj := (@bijOn_coord tileRt (fun _ => rfl) 4).surjOn
    (show (r, c) ∈ Set.Iio (4 * tileRt.rows) ×ˢ Set.Iio tileRt.cols from ⟨hr, hc⟩)
  have hmem : Slot.Valid tileRt 4
      (Function.invFunOn (coord tileRt 4) {s | s.Valid tileRt 4} (r, c)) :=
    Function.invFunOn_mem hsurj
  rw [element, h _ hmem, Function.invFunOn_eq hsurj]

/-! ## Floats that are reals -/

theorem exp2_coe (x : ℝ) : exp2 x = ((OnlineSoftmax.exp2 (some x) : ℝ) : EReal) := by
  rw [exp2, if_neg (EReal.coe_ne_bot x), if_neg (EReal.coe_ne_top x), EReal.toReal_coe]

theorem exp_coe (x : ℝ) : exp x = ((Real.exp x : ℝ) : EReal) := by
  rw [exp, if_neg (EReal.coe_ne_bot x), if_neg (EReal.coe_ne_top x), EReal.toReal_coe]

theorem log_coe {x : ℝ} (hx : x ≠ 0) : log x = ((Real.log x : ℝ) : EReal) := by
  rw [log, if_neg (EReal.coe_ne_zero.mpr hx), if_neg (EReal.coe_ne_top x), EReal.toReal_coe]

theorem scale_pos : 0 < log2e * rsqrtD := by
  have hlog : 0 < Real.log 2 := Real.log_pos one_lt_two
  have hroot : 0 < √(D : ℝ) := Real.sqrt_pos.mpr (by norm_num [D])
  exact mul_pos (inv_pos.mpr hlog) (inv_pos.mpr hroot)

/-- The largest score so far, as a float. -/
noncomputable def toFloat : Option ℝ → EReal
  | none => ⊥
  | some x => x

/-- The correction of the sums, which is zero before the first tile. -/
theorem exp2_last (m : Option ℝ) (x : ℝ) :
    exp2 (toFloat m * scale - (x : EReal)) =
      ((OnlineSoftmax.exp2 (m.map fun y => y * (log2e * rsqrtD) - x) : ℝ) : EReal) := by
  cases m with
  | none =>
      -- Minus infinity stays so, whatever is taken away from it.
      rw [toFloat, scale, EReal.bot_mul_coe_of_pos scale_pos, EReal.bot_sub, exp2, if_pos rfl]
      rfl
  | some y =>
      rw [toFloat, scale, ← EReal.coe_mul, ← EReal.coe_sub, exp2_coe]
      rfl

theorem max_coe (x y : ℝ) : max (x : EReal) (y : EReal) = ((max x y : ℝ) : EReal) :=
  (EReal.coe_strictMono.monotone.map_max).symm

theorem foldl_max_coe (l : List ℝ) (a : ℝ) :
    (l.map Real.toEReal).foldl max (a : EReal) = ((l.foldl max a : ℝ) : EReal) := by
  induction l generalizing a with
  | nil => rfl
  | cons x l ih => rw [List.map_cons, List.foldl_cons, max_coe, ih, List.foldl_cons]

theorem foldl_add_coe (l : List ℝ) (a : ℝ) :
    (l.map Real.toEReal).foldl (· + ·) (a : EReal) = ((a + l.sum : ℝ) : EReal) := by
  induction l generalizing a with
  | nil => simp only [List.map_nil, List.foldl_nil, List.sum_nil, add_zero]
  | cons x l ih =>
      rw [List.map_cons, List.foldl_cons, ← EReal.coe_add, ih, List.sum_cons, add_assoc]

theorem sum_coe (l : List ℝ) : (l.map Real.toEReal).sum = ((l.sum : ℝ) : EReal) := by
  induction l with
  | nil => rfl
  | cons x l ih => rw [List.map_cons, List.sum_cons, ih, List.sum_cons, EReal.coe_add]

/-- The keys of a tile, by their rows. -/
theorem map_keyAt {α : Type*} {b : Block} (hlen : b.keys.length = kvBlockRows) (g : Key → α) :
    ((List.range kvBlockRows).map fun c => g (keyAt b c)) = b.keys.map g := by
  apply List.ext_getElem
  · rw [List.length_map, List.length_range, List.length_map, hlen]
  · intro c hc hc'
    rw [List.length_map] at hc'
    rw [List.getElem_map, List.getElem_map, List.getElem_range, keyAt, List.getD_eq_getElem _ _ hc']

/-- `row_max` gives the largest score so far. -/
theorem foldl_rowMax {b : Block} (hlen : b.keys.length = kvBlockRows) (q : Fin D → ℝ)
    (m : Option ℝ) :
    ((List.range kvBlockRows).map fun c =>
        ((dot q (keyAt b c) : ℝ) : EReal)).foldl max (toFloat m) =
      ((OnlineSoftmax.rowMax m (dot q b.first) (b.rest.map (dot q)) : ℝ) : EReal) := by
  have hkeys := map_keyAt hlen fun x => ((dot q x : ℝ) : EReal)
  have hcoe : b.keys.map (fun x => ((dot q x : ℝ) : EReal)) =
      (dot q b.first : EReal) :: (b.rest.map (dot q)).map Real.toEReal := by
    rw [Block.keys, List.map_cons, List.map_map]
    rfl
  rw [hkeys, hcoe, List.foldl_cons]
  cases m with
  | none =>
      rw [toFloat, max_eq_right bot_le, foldl_max_coe]
      rfl
  | some y =>
      rw [toFloat, max_coe, foldl_max_coe]
      rfl

/-! ## One tile -/

/-- The registers hold the rows of `OnlineSoftmax`, a query each. -/
structure Stands (w : WarpRegs) (regs : Nat → Regs) : Prop where
  oReg : HoldsTile tileRt 4 w.oReg fun r d => ((entry (regs r).oReg d : ℝ) : EReal)
  normVec : HoldsVec tileRt 4 w.normVec fun r => (((regs r).normVec : ℝ) : EReal)
  maxVec : HoldsVec tileRt 4 w.maxVec fun r => toFloat (regs r).maxVec
  maxVecScaled : ∀ s : VecSlot, s.Valid tileRt 4 → (regs (vecRow tileRt 4 s)).maxVec ≠ none →
    w.maxVecScaled s = (((regs (vecRow tileRt 4 s)).maxVecScaled : ℝ) : EReal)

theorem stands_start (maxVecScaled : VecSlot → EReal) :
    Stands (WarpRegs.start maxVecScaled) fun _ => Regs.start where
  oReg s _ := by
    have hzero (d : Nat) : entry (Regs.start).oReg d = 0 := by
      unfold entry
      split_ifs <;> rfl
    simp only [hzero]
    rfl
  normVec _ _ := rfl
  maxVec _ _ := rfl
  -- Nothing is said of `max_vec_scaled` before the first tile.
  maxVecScaled _ _ h := absurd rfl h

/-- The sum of the values, by the entries of a row. -/
theorem entry_sum (l : List Key) (a : Key → ℝ) (d : Nat) :
    entry (l.map fun x => a x • x.v).sum d = (l.map fun x => a x * entry x.v d).sum := by
  unfold entry
  split_ifs with h
  · induction l with
    | nil => rfl
    | cons x l ih =>
        rw [List.map_cons, List.sum_cons, Pi.add_apply, ih, List.map_cons, List.sum_cons,
          Pi.smul_apply, smul_eq_mul]
  · simp only [mul_zero, List.map_const', List.sum_replicate, smul_zero]

theorem entry_add (f g : Fin D → ℝ) (d : Nat) : entry (f + g) d = entry f d + entry g d := by
  unfold entry
  split_ifs with h
  · rfl
  · rw [add_zero]

theorem entry_smul (c : ℝ) (f : Fin D → ℝ) (d : Nat) : entry (c • f) d = c * entry f d := by
  unfold entry
  split_ifs with h
  · rfl
  · rw [mul_zero]

/-- The product with the values, row by row. -/
theorem holds_mmaAB {oReg attBlock : Slot → EReal} {A P : Nat → Nat → ℝ}
    (ho : HoldsTile tileRt 4 oReg fun r d => ((A r d : ℝ) : EReal))
    (hp : HoldsTile tileRt 4 attBlock fun r c => ((P r c : ℝ) : EReal)) (b : Block) :
    HoldsTile tileRt 4 (mmaAB oReg attBlock b) fun r d =>
      ((A r d + ((List.range kvBlockRows).map fun c => P r c * entry (keyAt b c).v d).sum : ℝ) :
        EReal) := by
  intro s hs
  have hcoord := (@bijOn_coord tileRt (fun _ => rfl) 4).mapsTo hs
  have hterms : ((List.range kvBlockRows).map fun c => element attBlock (coord tileRt 4 s).1 c *
        ((entry (keyAt b c).v (coord tileRt 4 s).2 : ℝ) : EReal)) =
      ((List.range kvBlockRows).map fun c => P (coord tileRt 4 s).1 c *
        entry (keyAt b c).v (coord tileRt 4 s).2).map Real.toEReal := by
    rw [List.map_map]
    refine List.map_congr_left fun c hc => ?_
    rw [element_eq hp hcoord.1 (List.mem_range.mp hc), ← EReal.coe_mul]
    rfl
  rw [mmaAB, ho s hs, hterms, sum_coe, ← EReal.coe_add]

section Tile

variable {q : Nat → Fin D → ℝ} {w : WarpRegs} {regs : Nat → Regs} {b : Block}

/-- The factor that takes the sums of a row to its new largest score. -/
noncomputable def correction (r : Regs) (q : Fin D → ℝ) (b : Block) : ℝ :=
  OnlineSoftmax.exp2 (r.maxVec.map fun m =>
    m * (log2e * rsqrtD) - (OnlineSoftmax.kvBlock q r b).maxVecScaled)

/-- The weight of a key in a row. -/
noncomputable def weight (r : Regs) (q : Fin D → ℝ) (b : Block) (x : Key) : ℝ :=
  OnlineSoftmax.exp2 (some (dot q x * (log2e * rsqrtD) -
    (OnlineSoftmax.kvBlock q r b).maxVecScaled))

/-- `max_vec` after a tile -/
theorem holds_maxVec (h : Stands w regs) (hlen : b.keys.length = kvBlockRows) :
    HoldsVec tileRt 4 (kvTile q w b).maxVec fun r =>
      ((OnlineSoftmax.rowMax (regs r).maxVec (dot (q r) b.first) (b.rest.map (dot (q r))) : ℝ) :
        EReal) := by
  have hatt : HoldsTile tileRt 4 (mmABt q b) fun r c => ((dot (q r) (keyAt b c) : ℝ) : EReal) :=
    fun _ _ => rfl
  have hfold : HoldsVec tileRt 4 (rowReduce tileRt max (mmABt q b) w.maxVec) _ :=
    holds_rowReduce tileRt_num (by decide) hatt h.maxVec
  exact fun s hs => (hfold s hs).trans (foldl_rowMax hlen _ _)

/-- `max_vec_scaled` after a tile -/
theorem holds_maxVecScaled (h : Stands w regs) (hlen : b.keys.length = kvBlockRows) :
    HoldsVec tileRt 4 (kvTile q w b).maxVecScaled fun r =>
      (((OnlineSoftmax.kvBlock (q r) (regs r) b).maxVecScaled : ℝ) : EReal) := by
  intro s hs
  have hmax := holds_maxVec (q := q) h hlen s hs
  have hscaled : (kvTile q w b).maxVecScaled s = (kvTile q w b).maxVec s * scale := rfl
  rw [hscaled, hmax, scale, ← EReal.coe_mul]
  rfl

/-- `max_vec_last_scaled` when the sums are corrected -/
theorem holds_correction (h : Stands w regs) (hlen : b.keys.length = kvBlockRows) :
    HoldsVec tileRt 4 (fun s => exp2 (w.maxVec s * scale - (kvTile q w b).maxVecScaled s))
      fun r => ((correction (regs r) (q r) b : ℝ) : EReal) := by
  intro s hs
  have hmax := h.maxVec s hs
  have hscaled := holds_maxVecScaled (q := q) h hlen s hs
  simp only [hmax, hscaled]
  exact exp2_last _ _

/-- `att_block` after `exp2` -/
theorem holds_attBlock (h : Stands w regs) (hlen : b.keys.length = kvBlockRows) :
    HoldsTile tileRt 4
      (fun s => exp2 (rowMap tileRt (· - ·) (fun s => mmABt q b s * scale)
        (kvTile q w b).maxVecScaled s)) fun r c =>
      ((weight (regs r) (q r) b (keyAt b c) : ℝ) : EReal) := by
  have hscores : HoldsTile tileRt 4 (fun s => mmABt q b s * scale) fun r c =>
      ((dot (q r) (keyAt b c) * (log2e * rsqrtD) : ℝ) : EReal) :=
    fun _ _ => (EReal.coe_mul _ _).symm
  have hsub : HoldsTile tileRt 4 (rowMap tileRt (· - ·) (fun s => mmABt q b s * scale)
      (kvTile q w b).maxVecScaled) fun r c =>
        ((dot (q r) (keyAt b c) * (log2e * rsqrtD) : ℝ) : EReal) -
          (((OnlineSoftmax.kvBlock (q r) (regs r) b).maxVecScaled : ℝ) : EReal) :=
    holds_rowMap tileRt_num hscores (holds_maxVecScaled (q := q) h hlen)
  intro s hs
  have hat := hsub s hs
  simp only [hat, ← EReal.coe_sub]
  exact exp2_coe _

/-- `o_reg` after a tile -/
theorem holds_oReg (h : Stands w regs) (hlen : b.keys.length = kvBlockRows) :
    HoldsTile tileRt 4 (kvTile q w b).oReg fun r d =>
      ((entry (OnlineSoftmax.kvBlock (q r) (regs r) b).oReg d : ℝ) : EReal) := by
  have hcorrected : HoldsTile tileRt 4 (rowMap tileRt (· * ·) w.oReg
      fun s => exp2 (w.maxVec s * scale - (kvTile q w b).maxVecScaled s)) fun r d =>
        ((entry (regs r).oReg d * correction (regs r) (q r) b : ℝ) : EReal) := by
    simp only [EReal.coe_mul]
    exact holds_rowMap tileRt_num h.oReg (holds_correction (q := q) h hlen)
  -- `add(att_block, att_block, 0.f)`
  have hatt : HoldsTile tileRt 4 (fun s => exp2 (rowMap tileRt (· - ·)
      (fun s => mmABt q b s * scale) (kvTile q w b).maxVecScaled s) + 0) fun r c =>
        ((weight (regs r) (q r) b (keyAt b c) : ℝ) : EReal) :=
    fun s hs => (add_zero _).trans (holds_attBlock h hlen s hs)
  have hentry (r d : Nat) : entry (regs r).oReg d * correction (regs r) (q r) b +
        ((List.range kvBlockRows).map fun c =>
          weight (regs r) (q r) b (keyAt b c) * entry (keyAt b c).v d).sum =
      entry (OnlineSoftmax.kvBlock (q r) (regs r) b).oReg d := by
    rw [map_keyAt hlen fun x => weight (regs r) (q r) b x * entry x.v d, ← entry_sum, mul_comm,
      ← entry_smul, ← entry_add]
    rfl
  exact fun s hs => (holds_mmaAB hcorrected hatt b s hs).trans (congrArg Real.toEReal (hentry _ _))

/-- `norm_vec` after a tile -/
theorem holds_normVec (h : Stands w regs) (hlen : b.keys.length = kvBlockRows) :
    HoldsVec tileRt 4 (kvTile q w b).normVec fun r =>
      (((OnlineSoftmax.kvBlock (q r) (regs r) b).normVec : ℝ) : EReal) := by
  -- The sum is corrected before the weights of the tile are added to it.
  have hcorrected : HoldsVec tileRt 4
      (fun s => w.normVec s * exp2 (w.maxVec s * scale - (kvTile q w b).maxVecScaled s))
      fun r => (((regs r).normVec * correction (regs r) (q r) b : ℝ) : EReal) := by
    intro s hs
    have hnorm := h.normVec s hs
    have hcorr := holds_correction (q := q) h hlen s hs
    simp only [hnorm, hcorr, EReal.coe_mul]
  have hsum : HoldsVec tileRt 4 (rowReduce tileRt (· + ·) (fun s => exp2 (rowMap tileRt (· - ·)
      (fun s => mmABt q b s * scale) (kvTile q w b).maxVecScaled s))
      fun s => w.normVec s * exp2 (w.maxVec s * scale - (kvTile q w b).maxVecScaled s)) _ :=
    holds_rowReduce tileRt_num (by decide) (holds_attBlock h hlen) hcorrected
  have hkeys (r : Nat) :
      ((List.range kvBlockRows).map fun c =>
        ((weight (regs r) (q r) b (keyAt b c) : ℝ) : EReal)) =
      (b.keys.map (weight (regs r) (q r) b)).map Real.toEReal := by
    rw [map_keyAt hlen fun x => ((weight (regs r) (q r) b x : ℝ) : EReal), List.map_map]
    rfl
  intro s hs
  refine (hsum s hs).trans ?_
  rw [show tileRt.cols = kvBlockRows from rfl, hkeys, foldl_add_coe]
  rfl

/-- The registers hold the rows after one more tile. -/
theorem stands_kvTile (h : Stands w regs) (hlen : b.keys.length = kvBlockRows) :
    Stands (kvTile q w b) fun r => OnlineSoftmax.kvBlock (q r) (regs r) b where
  oReg := holds_oReg h hlen
  normVec := holds_normVec h hlen
  maxVec := holds_maxVec h hlen
  maxVecScaled s hs _ := holds_maxVecScaled h hlen s hs

end Tile

/-! ## A stage -/

theorem stands_foldl {q : Nat → Fin D → ℝ} (bs : List Block)
    (hlen : ∀ b ∈ bs, b.keys.length = kvBlockRows) {w : WarpRegs} {regs : Nat → Regs}
    (h : Stands w regs) :
    Stands (bs.foldl (kvTile q) w) fun r => bs.foldl (OnlineSoftmax.kvBlock (q r)) (regs r) := by
  induction bs generalizing w regs with
  | nil => exact h
  | cons b bs ih =>
      exact ih (fun b' hb' => hlen b' (List.mem_cons_of_mem _ hb'))
        (stands_kvTile h (hlen b List.mem_cons_self))

/-- The tiles have `KV_BLOCK` rows. -/
def Tiled (st : Stage) : Prop :=
  ∀ b ∈ st.first :: st.rest, b.keys.length = kvBlockRows

/-- The registers hold the rows after the tiles of a stage. -/
theorem stands_kvTiles {st : Stage} (ht : Tiled st) (q : Nat → Fin D → ℝ)
    (maxVecScaled : VecSlot → EReal) :
    Stands (kvTiles q st (WarpRegs.start maxVecScaled)) fun r =>
      (st.first :: st.rest).foldl (OnlineSoftmax.kvBlock (q r)) Regs.start :=
  stands_foldl _ ht (stands_start maxVecScaled)

/-- There is a largest score after a stage, and the sum of the weights is not zero. -/
theorem stage_regs (q : Fin D → ℝ) (st : Stage) :
    ((st.first :: st.rest).foldl (OnlineSoftmax.kvBlock q) Regs.start).maxVec ≠ none ∧
      ((st.first :: st.rest).foldl (OnlineSoftmax.kvBlock q) Regs.start).normVec ≠ 0 := by
  have hgood := OnlineSoftmax.good_blocks (st.first :: st.rest) (OnlineSoftmax.good_start q)
  rw [List.nil_append] at hgood
  refine ⟨fun hnone => st.keys_ne_nil (hgood.fresh hnone), ?_⟩
  rw [hgood.scaled.mass_eq]
  have hne : OnlineSoftmax.points q st.keys ≠ [] :=
    fun hnil => st.keys_ne_nil (List.map_eq_nil_iff.mp hnil)
  exact (mul_pos (Real.exp_pos _) (mass_pos hne)).ne'

/-- Before they are stored or merged, the registers hold the rows of the stage. -/
theorem holds_finish {st : Stage} (ht : Tiled st) (q : Nat → Fin D → ℝ)
    (maxVecScaled : VecSlot → EReal) :
    HoldsTile tileRt 4 (finish (kvTiles q st (WarpRegs.start maxVecScaled))).1
        (fun r d => ((entry (OnlineSoftmax.attnStage (q r) st).1 d : ℝ) : EReal)) ∧
      HoldsVec tileRt 4 (finish (kvTiles q st (WarpRegs.start maxVecScaled))).2
        fun r => (((OnlineSoftmax.attnStage (q r) st).2 : ℝ) : EReal) := by
  have hstands := stands_kvTiles ht q maxVecScaled
  constructor
  · -- The output is the accumulator over the norm.
    have hdiv : HoldsTile tileRt 4 (rowMap tileRt (· / ·)
        (kvTiles q st (WarpRegs.start maxVecScaled)).oReg
        (kvTiles q st (WarpRegs.start maxVecScaled)).normVec) _ :=
      holds_rowMap tileRt_num hstands.oReg hstands.normVec
    refine fun s hs => (hdiv s hs).trans ?_
    simp only [← EReal.coe_div]
    rw [OnlineSoftmax.attnStage, entry_smul, div_eq_inv_mul]
  · -- The log-sum-exp is the scaled maximum and the norm's logarithm.
    intro s hs
    have hregs := stage_regs (q (vecRow tileRt 4 s)) st
    have hscaled := hstands.maxVecScaled s hs hregs.1
    have hnorm := hstands.normVec s hs
    simp only [finish, hscaled, hnorm, log_coe hregs.2, ← EReal.coe_mul, ← EReal.coe_add]
    rfl

/-- A reduction merges the rows. -/
theorem holds_merge {rt : Rt} {n : Nat} (hnum : rt.num = 2)
    {r : (Slot → EReal) × (VecSlot → EReal)} {oPrev : Slot → EReal}
    {lPrev : VecSlot → EReal} {A P : Nat → Fin D → ℝ} {L M : Nat → ℝ}
    (ho : HoldsTile rt n r.1 fun x d => ((entry (A x) d : ℝ) : EReal))
    (hl : HoldsVec rt n r.2 fun x => ((L x : ℝ) : EReal))
    (hop : HoldsTile rt n oPrev fun x d => ((entry (P x) d : ℝ) : EReal))
    (hlp : HoldsVec rt n lPrev fun x => ((M x : ℝ) : EReal)) :
    HoldsTile rt n (merge rt r oPrev lPrev).1 (fun x d =>
        ((entry (Real.exp (L x - (Real.log (Real.exp (L x - M x) + 1) + M x)) • A x +
          Real.exp (M x - (Real.log (Real.exp (L x - M x) + 1) + M x)) • P x) d : ℝ) : EReal)) ∧
      HoldsVec rt n (merge rt r oPrev lPrev).2 fun x =>
        ((Real.log (Real.exp (L x - M x) + 1) + M x : ℝ) : EReal) := by
  have hnew : HoldsVec rt n (merge rt r oPrev lPrev).2 fun x =>
      ((Real.log (Real.exp (L x - M x) + 1) + M x : ℝ) : EReal) := by
    intro s hs
    have hnorm := hl s hs
    have hprev := hlp s hs
    have hpos (x : ℝ) : Real.exp x + 1 ≠ 0 := (add_pos (Real.exp_pos x) one_pos).ne'
    simp only [merge, hnorm, hprev, ← EReal.coe_sub, exp_coe, ← EReal.coe_one, ← EReal.coe_add,
      log_coe (hpos _)]
  -- The two factors, once the new logarithm is there.
  have hfactor {x : VecSlot → EReal} {f : Nat → ℝ}
      (hx : HoldsVec rt n x fun r => ((f r : ℝ) : EReal)) :
      HoldsVec rt n (fun s => exp (x s - (merge rt r oPrev lPrev).2 s)) fun y =>
        ((Real.exp (f y - (Real.log (Real.exp (L y - M y) + 1) + M y)) : ℝ) : EReal) := by
    intro s hs
    have hold := hx s hs
    have hat := hnew s hs
    simp only [hold, hat, ← EReal.coe_sub, exp_coe]
  have hleft := @holds_rowMap _ _ _ _ (fun x y : EReal => x * y) _ _ _ _ hnum ho
    (hfactor hl)
  have hright := @holds_rowMap _ _ _ _ (fun x y : EReal => x * y) _ _ _ _ hnum hop
    (hfactor hlp)
  refine ⟨fun s hs => ?_, hnew⟩
  have hsum : (merge rt r oPrev lPrev).1 s = _ + _ := congrArg₂ (· + ·) (hleft s hs) (hright s hs)
  refine hsum.trans ?_
  simp only [← EReal.coe_mul, ← EReal.coe_add]
  rw [entry_add, entry_smul, entry_smul, mul_comm (Real.exp _), mul_comm (Real.exp _)]

/-- The rows that `attn_partial` stores. -/
def stored (fuseReduce : Bool) (ringStage : Nat) (g : Rows) : (Fin D → ℝ) × ℝ :=
  if fuseReduce then (g.O, g.L) else if ringStage = 0 then (g.O, g.L) else (g.OBlock, g.LBlock)

/-- What the registers hold when they are stored. -/
theorem holds_attnPartialRegs {st : Stage} (ht : Tiled st) (q : Nat → Fin D → ℝ) (fuseReduce : Bool)
    (ringStage : Nat) (maxVecScaled : VecSlot → EReal) (g : Nat → Rows) {oPrev : Slot → EReal}
    {lPrev : VecSlot → EReal} (hprev : fuseReduce = true → 0 < ringStage →
      HoldsTile tileRt 4 oPrev (fun r d => ((entry (g r).O d : ℝ) : EReal)) ∧
        HoldsVec tileRt 4 lPrev fun r => (((g r).L : ℝ) : EReal)) :
    HoldsTile tileRt 4 (attnPartialRegs q fuseReduce ringStage st maxVecScaled oPrev lPrev).1
        (fun r d => ((entry (stored fuseReduce ringStage
          (OnlineSoftmax.attnPartial (q r) fuseReduce ringStage st (g r))).1 d : ℝ) : EReal)) ∧
      HoldsVec tileRt 4 (attnPartialRegs q fuseReduce ringStage st maxVecScaled oPrev lPrev).2
        fun r => (((stored fuseReduce ringStage
          (OnlineSoftmax.attnPartial (q r) fuseReduce ringStage st (g r))).2 : ℝ) : EReal) := by
  have hfinish := holds_finish ht q maxVecScaled
  unfold attnPartialRegs stored OnlineSoftmax.attnPartial
  cases fuseReduce with
  | true =>
      -- The first stage finds nothing to be merged with.
      by_cases hstage : 0 < ringStage
      · simp only [if_true, if_pos hstage]
        have hrows := hprev rfl hstage
        exact holds_merge tileRt_num hfinish.1 hfinish.2 hrows.1 hrows.2
      · simp only [if_true, if_neg hstage]
        exact hfinish
  | false =>
      by_cases hstage : ringStage = 0
      · simp only [Bool.false_eq_true, if_false, if_pos hstage]
        exact hfinish
      · simp only [Bool.false_eq_true, if_false, if_neg hstage]
        exact hfinish

/-- `attn_reduction` merges the rows too, and only adds them the other way round. -/
theorem holds_attnReductionRegs {rt : Rt} {n : Nat} (hnum : rt.num = 2) (g : Nat → Rows)
    {oReg oBlockReg : Slot → EReal} {lReg lBlockReg : VecSlot → EReal}
    (ho : HoldsTile rt n oReg fun r d => ((entry (g r).O d : ℝ) : EReal))
    (hob : HoldsTile rt n oBlockReg fun r d => ((entry (g r).OBlock d : ℝ) : EReal))
    (hl : HoldsVec rt n lReg fun r => (((g r).L : ℝ) : EReal))
    (hlb : HoldsVec rt n lBlockReg fun r => (((g r).LBlock : ℝ) : EReal)) :
    HoldsTile rt n (attnReductionRegs rt oReg oBlockReg lReg lBlockReg).1
        (fun r d => ((entry (OnlineSoftmax.attnReduction (g r)).O d : ℝ) : EReal)) ∧
      HoldsVec rt n (attnReductionRegs rt oReg oBlockReg lReg lBlockReg).2
        fun r => (((OnlineSoftmax.attnReduction (g r)).L : ℝ) : EReal) := by
  have hmerge := @holds_merge rt n hnum (oBlockReg, lBlockReg) oReg lReg (fun r => (g r).OBlock)
    (fun r => (g r).O) (fun r => (g r).LBlock) (fun r => (g r).L) hob hlb ho hl
  refine ⟨fun s hs => ?_, hmerge.2⟩
  have hsum : (attnReductionRegs rt oReg oBlockReg lReg lBlockReg).1 s =
      (merge rt (oBlockReg, lBlockReg) oReg lReg).1 s := add_comm _ _
  have hrow := hmerge.1 s hs
  simp only at hrow
  rw [hsum, hrow, add_comm (Real.exp _ • _)]
  rfl

/-! ## What is stored -/

theorem queryTile_dims : 0 < 64 ∧ 0 < 128 ∧ tileRowDim ∣ 64 ∧ tileColDim 2 ∣ 128 := by decide

/-- `Q_tile` and `O_tile`, a `st_bf<QO_BLOCK, D>` -/
def queryTile : St := St.bf 64 128 queryTile_dims

/-- The whole of an `O_tile`. -/
def queryView : View := queryTile.whole (by decide) (by decide)

theorem fits_queryView : Fits queryView tileRt 4 where
  rows := rfl
  cols := rfl
  bytes := by decide
  layout h := absurd h (by decide)
  places := .inl rfl
  whole _ := St.swizzleBytes_dvd _ rfl rfl
  pairs h := absurd h (by decide)

/-- A warpgroup has its output tile and its vector in shared memory when it is done. The writes of
    its lanes come in any order. Where it merges, the rows of `O` and `L` from before have
    been brought to shared memory, to `Q_smem` and `L_smem`. What is in `O_smem` and `L_smem`
    then is, query by query, what `attn_partial` is to store. -/
theorem attnPartial_stored {st : Stage} (ht : Tiled st) (q : Nat → Fin D → ℝ) (fuseReduce : Bool)
    (ringStage : Nat) (maxVecScaled : VecSlot → EReal) (g : Nat → Rows) {qSmem oSmem lSmem : Nat}
    (hq : 128 ∣ qSmem) (ho : 128 ∣ oSmem) {qMem lMem : Nat → EReal}
    (hmem : fuseReduce = true → 0 < ringStage →
      (∀ r < 64, ∀ d < D, qMem (queryView.idx qSmem r d) = ((entry (g r).O d : ℝ) : EReal)) ∧
        ∀ r < 64, lMem (lSmem + 4 * r) = (((g r).L : ℝ) : EReal))
    (lPrev : VecSlot → EReal) (oMem : Nat → EReal) {ows lws : List (Nat × EReal)}
    (hows : ows.Perm (storeWrites queryView oSmem tileRt 4 id
      (attnPartialRegs q fuseReduce ringStage st maxVecScaled
        (load queryView qSmem tileRt 4 id qMem) (loadVec lSmem 4 tileRt id lMem lPrev)).1))
    (hlws : lws.Perm (storeVecWrites lSmem 4 tileRt 4 id
      (attnPartialRegs q fuseReduce ringStage st maxVecScaled
        (load queryView qSmem tileRt 4 id qMem) (loadVec lSmem 4 tileRt id lMem lPrev)).2)) :
    (∀ r < 64, ∀ d < D, scatter oMem ows (queryView.idx oSmem r d) =
      ((entry (stored fuseReduce ringStage
        (OnlineSoftmax.attnPartial (q r) fuseReduce ringStage st (g r))).1 d : ℝ) : EReal)) ∧
    ∀ r < 64, scatter lMem lws (lSmem + 4 * r) =
      (((stored fuseReduce ringStage
        (OnlineSoftmax.attnPartial (q r) fuseReduce ringStage st (g r))).2 : ℝ) : EReal) := by
  have hwarps : ∀ w < 4, localWarpid 4 w = w := (localWarpid_eq_iff 4).mpr (.inr le_rfl)
  -- What has been loaded is in registers before `L_smem` is written.
  have hregs := holds_attnPartialRegs ht q fuseReduce ringStage maxVecScaled g fun hfuse hstage =>
    ⟨holds_load fits_queryView hq id (hmem hfuse hstage).1,
      @holds_loadVec _ _ lSmem 4 tileRt 4 rfl hwarps id lMem (fun r => (((g r).L : ℝ) : EReal))
        (hmem hfuse hstage).2 lPrev⟩
  exact ⟨scatter_holds fits_queryView ho id hregs.1 oMem hows,
    (store_loadVec (by decide) rfl hwarps id hregs.2 lMem hlws).1⟩

/-- The keys of a tile that are all the same for the queries. -/
def evenStage : Stage := ⟨⟨⟨0, fun _ => 4⟩, List.replicate 127 ⟨0, fun _ => 4⟩⟩, []⟩

/-- The last entry of the last query of a first stage, where all values are four. -/
theorem attnPartial_stored_evenStage :
    scatter (fun _ => 0) (storeWrites queryView 1024 tileRt 4 id
      (attnPartialRegs 0 true 0 evenStage (fun _ => ⊤) (load queryView 2048 tileRt 4 id fun _ => 0)
        (loadVec 4096 4 tileRt id (fun _ => 0) fun _ => ⊤)).1) (queryView.idx 1024 63 127) =
      ((4 : ℝ) : EReal) := by
  have htiled : Tiled evenStage := by
    intro b hb
    rw [List.mem_singleton.mp hb]
    rfl
  have hzero (d : Nat) : ((entry 0 d : ℝ) : EReal) = 0 := by
    unfold entry
    split_ifs <;> rfl
  have hstored := @attnPartial_stored evenStage htiled 0 true 0 (fun _ => ⊤)
    (fun _ => ⟨0, 0, 0, 0⟩) 2048 1024 4096 (by decide) (by decide) (fun _ => 0) (fun _ => 0)
    (fun _ _ => ⟨fun _ _ d _ => (hzero d).symm, fun _ _ => rfl⟩) (fun _ => ⊤) (fun _ => 0) _ _
    (List.Perm.refl _) (List.Perm.refl _)
  rw [hstored.1 63 (by decide) 127 (by decide)]
  -- A zero query scores all keys alike, so attention is the mean of the values.
  have hattention := (OnlineSoftmax.eq_attention (OnlineSoftmax.attnStage_mean 0 evenStage)).1
  have hscore (x : Key) : OnlineSoftmax.score 0 x = 0 := by
    simp [OnlineSoftmax.score]
  have hkeys : evenStage.keys = List.replicate 128 ⟨0, fun _ => 4⟩ := rfl
  simp only [stored, OnlineSoftmax.attnPartial, if_true, if_neg (lt_irrefl 0), Pi.zero_apply]
  rw [hattention, entry, dif_pos (by decide), OnlineSoftmax.attention, hkeys, List.map_replicate,
    List.map_replicate, List.sum_replicate, List.sum_replicate, hscore, Real.exp_zero]
  norm_num

/-- `rt_fl<32, D>` -/
def reduceRt : Rt where
  elemBytes := 4
  height := 2
  width := 8
  layout := .row

theorem reduceTile_dims : 0 < 128 ∧ 0 < 128 ∧ tileRowDim ∣ 128 ∧ tileColDim 2 ∣ 128 := by
  decide

/-- `O_tile_2x`, a `st_bf<2 * QO_BLOCK, D>` -/
def reduceTile : St := St.bf 128 128 reduceTile_dims

/-- The whole of an `O_tile_2x`. -/
def reduceView : View := reduceTile.whole (by decide) (by decide)

theorem fits_reduceView : Fits reduceView reduceRt 4 where
  rows := rfl
  cols := rfl
  bytes := by decide
  layout h := absurd h (by decide)
  places := .inl rfl
  whole _ := St.swizzleBytes_dvd _ rfl rfl
  pairs h := absurd h (by decide)

/-- A warpgroup of the kernel for the reduction has brought its rows of `O`, `L`, `O_block` and
    `L_block` to shared memory. What is in `O_smem` and `L_smem` when it is done is, query by
    query, what `attn_reduction` is to store. -/
theorem attnReduction_stored (g : Nat → Rows) {oSmem obSmem lSmem lbSmem : Nat} (ho : 128 ∣ oSmem)
    (hob : 128 ∣ obSmem) {oMem obMem lMem lbMem : Nat → EReal}
    (hom : ∀ r < 128, ∀ d < D, oMem (reduceView.idx oSmem r d) = ((entry (g r).O d : ℝ) : EReal))
    (hobm : ∀ r < 128, ∀ d < D,
      obMem (reduceView.idx obSmem r d) = ((entry (g r).OBlock d : ℝ) : EReal))
    (hlm : ∀ r < 128, lMem (lSmem + 4 * r) = (((g r).L : ℝ) : EReal))
    (hlbm : ∀ r < 128, lbMem (lbSmem + 4 * r) = (((g r).LBlock : ℝ) : EReal))
    (lReg lBlockReg : VecSlot → EReal) {ows lws : List (Nat × EReal)}
    (hows : ows.Perm (storeWrites reduceView oSmem reduceRt 4 id
      (attnReductionRegs reduceRt (load reduceView oSmem reduceRt 4 id oMem)
        (load reduceView obSmem reduceRt 4 id obMem) (loadVec lSmem 4 reduceRt id lMem lReg)
        (loadVec lbSmem 4 reduceRt id lbMem lBlockReg)).1))
    (hlws : lws.Perm (storeVecWrites lSmem 4 reduceRt 4 id
      (attnReductionRegs reduceRt (load reduceView oSmem reduceRt 4 id oMem)
        (load reduceView obSmem reduceRt 4 id obMem) (loadVec lSmem 4 reduceRt id lMem lReg)
        (loadVec lbSmem 4 reduceRt id lbMem lBlockReg)).2)) :
    (∀ r < 128, ∀ d < D, scatter oMem ows (reduceView.idx oSmem r d) =
      ((entry (OnlineSoftmax.attnReduction (g r)).O d : ℝ) : EReal)) ∧
    ∀ r < 128, scatter lMem lws (lSmem + 4 * r) =
      (((OnlineSoftmax.attnReduction (g r)).L : ℝ) : EReal) := by
  -- In a group of four warps the rows of the vectors are those of the tiles.
  have hwarps : ∀ w < 4, localWarpid 4 w = w := (localWarpid_eq_iff 4).mpr (.inr le_rfl)
  have hvec (p : Nat) (m : Nat → EReal) (f : Nat → EReal) (x : VecSlot → EReal)
      (hm : ∀ r < 128, m (p + 4 * r) = f r) :
      HoldsVec reduceRt 4 (loadVec p 4 reduceRt id m x) f :=
    @holds_loadVec _ _ p 4 reduceRt 4 rfl hwarps id m f hm x
  -- The registers hold the two results, which are stored.
  have hregs := holds_attnReductionRegs rfl g (holds_load fits_reduceView ho id hom)
    (holds_load fits_reduceView hob id hobm) (hvec lSmem lMem _ lReg hlm)
    (hvec lbSmem lbMem _ lBlockReg hlbm)
  exact ⟨scatter_holds fits_reduceView ho id hregs.1 oMem hows,
    (store_loadVec (by decide) rfl hwarps id hregs.2 lMem hlws).1⟩

/-- The mean of two and four, for a query that scores the keys of both stages the same. -/
theorem attnReduction_stored_even :
    scatter (fun _ => 2) (storeWrites reduceView 1024 reduceRt 4 id
      (attnReductionRegs reduceRt (load reduceView 1024 reduceRt 4 id fun _ => 2)
        (load reduceView 65536 reduceRt 4 id fun _ => 4)
        (loadVec 131072 4 reduceRt id (fun _ => 0) fun _ => ⊤)
        (loadVec 132096 4 reduceRt id (fun _ => 0) fun _ => ⊤)).1)
      (reduceView.idx 1024 127 127) = ((3 : ℝ) : EReal) := by
  have hentry (x : ℝ) : ∀ d < D, ((entry (fun _ => x) d : ℝ) : EReal) = x := by
    intro d hd
    rw [entry, dif_pos hd]
  have hstored := @attnReduction_stored (fun _ => ⟨fun _ => 2, 0, fun _ => 4, 0⟩) 1024 65536
    131072 132096 (by decide) (by decide) (fun _ => 2) (fun _ => 4) (fun _ => 0) (fun _ => 0)
    (fun _ _ d hd => (hentry 2 d hd).symm) (fun _ _ d hd => (hentry 4 d hd).symm)
    (fun _ _ => rfl) (fun _ _ => rfl) (fun _ => ⊤) (fun _ => ⊤) _ _ (List.Perm.refl _)
    (List.Perm.refl _)
  rw [hstored.1 127 (by decide) 127 (by decide)]
  -- The second stage weighs as much as the first.
  have hlog : Real.exp (0 - Real.log 2) = 2⁻¹ := by
    rw [zero_sub, Real.exp_neg, Real.exp_log two_pos]
  rw [OnlineSoftmax.attnReduction, entry, dif_pos (by decide)]
  simp only [sub_self, Real.exp_zero, one_add_one_eq_two, add_zero, hlog, Pi.add_apply,
    Pi.smul_apply, smul_eq_mul]
  norm_num

end WarpSoftmax

end RingAttention

end MKernel
