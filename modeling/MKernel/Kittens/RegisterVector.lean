import MKernel.Core.WarpFold
import MKernel.Kittens.RegisterTile

/-!
# Register Vectors

Vectors over the rows of a register tile.

A lane holds the values of the rows that it has elements of, so that four lanes hold the
same values where the tile is by rows, and eight where it is by columns. `row_reduce`
makes such a vector: Each lane puts together what it has of its rows, the lanes that share a row
put theirs together by shuffles, and the first of them tells the others. Whatever the
order, it is the fold over the row (`holds_rowReduce`). `row_map` takes the value of the row
to each element (`holds_rowMap`).

A vector is stored by one of the lanes that hold a value, and when it is loaded that lane
tells the others (`store_loadVec`). Warp `w` of a group has part `w` of the vector. Of the tile it
has part `local_warpid`, which is `w` too in a warpgroup, and in a group that is no multiple of four
warps (`localWarpid_eq_iff`). In others the rows of the vector are not those of the tile.

## Main definitions

* `VecSlot`, `vecRow`: A register of a vector, and the row it stands for.
* `HoldsTile`, `HoldsVec`: What the registers hold.
* `rowReduce`, `rowMap`: `row_reduce` and `row_map`.
* `storeVecWrites`, `loadVec`: `store` and `load` for vectors.

## Theorems

* `holds_rowReduce`: `row_reduce` folds over the rows.
* `holds_rowMap`: `row_map` takes the value of the row.
* `store_loadVec`: What is stored is loaded.
* `holds_load`, `scatter_holds`: The same for the tiles, by what they hold.
-/

namespace MKernel

namespace Kittens

open MKernel.Core Set

/-- A register of a `col_vec`: `data[outer][inner].x` or `.y` of a lane of a warp -/
structure VecSlot where
  warp : Nat
  lane : Nat
  outer : Nat
  inner : Nat
  half : Nat

/-- `layout::inner_dim`, of `ortho` and `align` -/
def Rt.innerDim (rt : Rt) : Nat :=
  match rt.layout with
  | .row => 1
  | .col => 2

/-- The registers that the warps of a group have. -/
structure VecSlot.Valid (rt : Rt) (groupWarps : Nat) (s : VecSlot) : Prop where
  warp : s.warp < groupWarps
  lane : s.lane < 32
  outer : s.outer < rt.height
  inner : s.inner < rt.innerDim
  half : s.half < 2

/-- The row that a register stands for. -/
def vecRow (rt : Rt) (groupWarps : Nat) (s : VecSlot) : Nat :=
  tileRow rt groupWarps s.warp s.outer +
    match rt.layout with
    | .row => s.lane / 4 + 8 * s.half
    | .col => 2 * (s.lane % 4) + s.half + 8 * s.inner

section Hold

variable {V W : Type*} (rt : Rt) (groupWarps : Nat)

/-- The registers hold a matrix. -/
def HoldsTile (t : Slot → V) (A : Nat → Nat → V) : Prop :=
  ∀ s : Slot, s.Valid rt groupWarps → t s = A (coord rt groupWarps s).1 (coord rt groupWarps s).2

/-- The registers hold a vector over the rows. -/
def HoldsVec (x : VecSlot → V) (f : Nat → V) : Prop :=
  ∀ s : VecSlot, s.Valid rt groupWarps → x s = f (vecRow rt groupWarps s)

/-! ## Reductions -/

/-- What a lane puts together of two registers `k` and `l` of each base tile. -/
def laneFold (op : V → V → V) (f : Nat → Nat → V) (k l : Nat) : V :=
  (List.range' 1 (rt.width - 1)).foldl (fun acc j => op (op acc (f j k)) (f j l))
    (op (f 0 k) (f 0 l))

/-- `row_reduce`, with `reset` false as in all calls. -/
def rowReduce (op : V → V → V) (t : Slot → V) (srcAccum : VecSlot → V) (s : VecSlot) : V :=
  match rt.layout with
  | .row =>
      let accum (lane half : Nat) :=
        laneFold rt op (fun j k => t ⟨s.warp, lane, s.outer, j, k, half⟩) s.half (s.half + 2)
      let packed (lane : Nat) := op (accum lane 0) (accum lane 1)
      op (srcAccum s) (shfl (shuffleDown op packed [2, 1]) (s.lane &&& 0x1C))
  | .col =>
      let accum (lane : Nat) := laneFold rt op (fun j k => t ⟨s.warp, lane, s.outer, j, k, s.half⟩)
        (2 * s.inner) (2 * s.inner + 1)
      op (srcAccum s) (shfl (shuffleDown op accum [16, 8, 4]) (s.lane &&& 0x3))

/-- `row_map` -/
def rowMap (op : V → W → V) (t : Slot → V) (rowValues : VecSlot → W) (s : Slot) : V :=
  match rt.layout with
  | .row => op (t s) (rowValues ⟨s.warp, s.lane, s.i, 0, s.k % 2⟩)
  | .col => op (t s) (rowValues ⟨s.warp, s.lane, s.i, s.k / 2, s.half⟩)

end Hold

section Reduce

variable {V W : Type*} {rt : Rt} {n : Nat}

/-- What a lane puts together stands for its registers of all base tiles. -/
theorem folds_laneFold {op : V → V → V} [Std.Associative op] (hwidth : 0 < rt.width)
    (f : Nat → Nat → V) (k l : Nat) :
    Folds op (laneFold rt op f k l) ((List.range rt.width).flatMap fun j => [f j k, f j l]) := by
  have hassoc : ∀ a b c, op (op a b) c = op a (op b c) := Std.Associative.assoc
  have hpair (j : Nat) : Folds op (op (f j k) (f j l)) [f j k, f j l] :=
    (Folds.single _).append (Folds.single _)
  obtain ⟨m, hm⟩ : ∃ m, rt.width = m + 1 := ⟨rt.width - 1, by omega⟩
  unfold laneFold
  simp only [hassoc, hm, Nat.add_sub_cancel]
  rw [List.range_eq_range', List.range'_succ, List.flatMap_cons]
  exact (hpair 0).foldl fun j _ => hpair j

/-- A list of the numbers below its length is an order of them. -/
theorem perm_range {l : List Nat} {m : Nat} (hlength : l.length = m)
    (hmem : ∀ x, x ∈ l ↔ x < m) : l.Perm (List.range m) := by
  have hset : l.toFinset = Finset.range m := by
    ext x
    rw [List.mem_toFinset, hmem, Finset.mem_range]
  have hcard : (l : Multiset Nat).toFinset.card = (l : Multiset Nat).card := by
    rw [Multiset.coe_card, hlength, ← Finset.card_range m, ← hset]
    rfl
  have hnodup := Multiset.coe_nodup.mp (Multiset.toFinset_card_eq_card_iff_nodup.mp hcard)
  refine (List.perm_ext_iff_of_nodup hnodup List.nodup_range).mpr fun x => ?_
  rw [hmem, List.mem_range]

/-- The columns that are `c` after a multiple of eight. -/
def unitCols (width c : Nat) : List Nat :=
  (List.range width).flatMap fun j => [16 * j + c, 16 * j + 8 + c]

/-- All columns, by their places in a unit of eight. -/
theorem perm_unitCols (width : Nat) {l : List Nat} (hl : l.Perm (List.range 8)) :
    (l.flatMap (unitCols width)).Perm (List.range (16 * width)) := by
  refine (hl.flatMap_right _).trans (perm_range ?_ fun x => ?_)
  · simp only [unitCols, List.length_flatMap, List.length_cons, List.length_nil, List.map_const',
      List.length_range, List.sum_replicate_nat]
    omega
  · simp only [unitCols, List.mem_flatMap, List.mem_range, List.mem_cons, List.not_mem_nil,
      or_false]
    constructor
    · rintro ⟨c, hc, j, hj, rfl | rfl⟩ <;> omega
    · intro hx
      refine ⟨x % 8, Nat.mod_lt _ (by decide), x / 16, by omega, ?_⟩
      omega

/-- Four lanes have the same row, and two units of its columns each. -/
theorem perm_rowLanes (width q : Nat) (f : Nat → Nat → V) :
    ((reach [2, 1]).flatMap fun o =>
      (unitCols width (2 * ((4 * q + o) % 4)) ++ unitCols width (2 * ((4 * q + o) % 4) + 1)).map
        (f ((4 * q + o) / 4))).Perm ((List.range (16 * width)).map (f q)) := by
  have hlanes : ∀ o ∈ reach [2, 1],
      (unitCols width (2 * ((4 * q + o) % 4)) ++ unitCols width (2 * ((4 * q + o) % 4) + 1)).map
          (f ((4 * q + o) / 4)) =
        (unitCols width (2 * o) ++ unitCols width (2 * o + 1)).map (f q) := by
    intro o ho
    have hle : o ≤ 3 := le_of_mem_reach ho
    have hmod : (4 * q + o) % 4 = o := by omega
    have hdiv : (4 * q + o) / 4 = q := by omega
    rw [hmod, hdiv]
  have hperm : ([0, 1, 4, 5, 2, 3, 6, 7] : List Nat).Perm (List.range 8) := by decide
  have hall := (perm_unitCols width hperm).map (f q)
  rw [List.flatMap_congr hlanes, ← List.map_flatMap]
  simpa only [reach, List.flatMap_cons, List.flatMap_nil, List.append_nil, List.append_assoc,
    List.cons_append, List.nil_append] using hall

/-- Eight lanes have the same rows, and one unit of their columns each. -/
theorem perm_colLanes (width : Nat) {p : Nat} (hp : p < 4) (f : Nat → Nat → V) :
    ((reach [16, 8, 4]).flatMap fun o =>
      (unitCols width ((p + o) / 4)).map (f ((p + o) % 4))).Perm
        ((List.range (16 * width)).map (f p)) := by
  have hlanes : ∀ o ∈ reach [16, 8, 4], (unitCols width ((p + o) / 4)).map (f ((p + o) % 4)) =
      (unitCols width (o / 4)).map (f p) := by
    intro o ho
    -- The distances are whole multiples of four, which is the number of lanes for a column.
    have hfour : ∀ o ∈ reach [16, 8, 4], o % 4 = 0 := by decide
    have := hfour o ho
    have hmod : (p + o) % 4 = p := by omega
    have hdiv : (p + o) / 4 = o / 4 := by omega
    rw [hmod, hdiv]
  have hperm : ([0, 4, 2, 6, 1, 5, 3, 7] : List Nat).Perm (List.range 8) := by decide
  have hall := (perm_unitCols width hperm).map (f p)
  rw [List.flatMap_congr hlanes, ← List.map_flatMap]
  simpa only [reach, List.flatMap_cons, List.flatMap_nil, List.append_nil, List.append_assoc,
    List.cons_append, List.nil_append] using hall

/-- A tile whose registers have two elements is made of two units of eight columns. -/
theorem cols_eq (hnum : rt.num = 2) : rt.cols = 16 * rt.width := by
  rw [Rt.cols, Rt.tileSizeCol_eq, hnum, Nat.mul_comm]

/-- The first of the lanes that share a row of a tile by rows. -/
theorem leader_row : ∀ lane < 32, lane &&& 0x1C = 4 * (lane / 4) := by decide

/-- The first of the lanes that share a row of a tile by columns. -/
theorem leader_col : ∀ lane < 32, lane &&& 0x3 = lane % 4 := by decide

section Fold

variable {op : V → V → V} [Std.Associative op] {t : Slot → V} {A : Nat → Nat → V}

/-- What a lane puts together of two registers of each base tile, which are eight columns from
    each other in a row. -/
theorem folds_unit (hnum : rt.num = 2) (hwidth : 0 < rt.width) (ht : HoldsTile rt n t A)
    {w lane i k l half row col : Nat} (hw : w < n) (hlane : lane < 32) (hi : i < rt.height)
    (hk : k < 4 ∧ l < 4) (hhalf : half < 2)
    (hrow : baseRow rt lane k half = row ∧ baseRow rt lane l half = row)
    (hcol : baseCol rt lane k half = col ∧ baseCol rt lane l half = 8 + col) :
    Folds op (laneFold rt op (fun j k => t ⟨w, lane, i, j, k, half⟩) k l)
      ((unitCols rt.width col).map (A (tileRow rt n w i + row))) := by
  -- Base tile by base tile, the two registers are the unit's two columns.
  have hlist : ((List.range rt.width).flatMap fun j =>
      [t ⟨w, lane, i, j, k, half⟩, t ⟨w, lane, i, j, l, half⟩]) =
        (unitCols rt.width col).map (A (tileRow rt n w i + row)) := by
    rw [unitCols, List.map_flatMap]
    apply List.flatMap_congr
    intro j hj
    rw [List.mem_range] at hj
    have htile : tileCol rt j = 16 * j := by
      rw [tileCol, Rt.tileSizeCol_eq, hnum, Nat.mul_comm]
    rw [ht _ ⟨hw, hlane, hi, hj, hk.1, by rw [hnum]; exact hhalf⟩,
      ht _ ⟨hw, hlane, hi, hj, hk.2, by rw [hnum]; exact hhalf⟩]
    simp only [coord, hrow.1, hrow.2, hcol.1, hcol.2, htile, Nat.add_assoc, List.map_cons,
      List.map_nil]
  rw [← hlist]
  exact folds_laneFold hwidth _ _ _

/-- What a lane puts together of a row of a tile by rows. -/
theorem folds_row (hnum : rt.num = 2) (hwidth : 0 < rt.width) (ht : HoldsTile rt n t A)
    (hl : rt.layout = .row) {w lane i half : Nat} (hw : w < n) (hlane : lane < 32)
    (hi : i < rt.height) (hhalf : half < 2) :
    Folds op
      (op (laneFold rt op (fun j k => t ⟨w, lane, i, j, k, 0⟩) half (half + 2))
        (laneFold rt op (fun j k => t ⟨w, lane, i, j, k, 1⟩) half (half + 2)))
      ((unitCols rt.width (2 * (lane % 4)) ++ unitCols rt.width (2 * (lane % 4) + 1)).map
        (A (tileRow rt n w i + (lane / 4 + 8 * half)))) := by
  have hslots {h : Nat} (hh : h < 2) : Folds op
      (laneFold rt op (fun j k => t ⟨w, lane, i, j, k, h⟩) half (half + 2))
      ((unitCols rt.width (2 * (lane % 4) + h)).map
        (A (tileRow rt n w i + (lane / 4 + 8 * half)))) := by
    refine folds_unit hnum hwidth ht hw hlane hi ⟨by omega, by omega⟩ hh ?_ ?_
    · simp only [baseRow, hl]
      omega
    · simp only [baseCol, hl, hnum]
      omega
  rw [List.map_append]
  exact (hslots (by decide)).append (hslots (by decide))

/-- What a lane puts together of a row of a tile by columns. -/
theorem folds_col (hnum : rt.num = 2) (hwidth : 0 < rt.width) (ht : HoldsTile rt n t A)
    (hl : rt.layout = .col) {w lane i inner half : Nat} (hw : w < n) (hlane : lane < 32)
    (hi : i < rt.height) (hinner : inner < 2) (hhalf : half < 2) :
    Folds op
      (laneFold rt op (fun j k => t ⟨w, lane, i, j, k, half⟩) (2 * inner) (2 * inner + 1))
      ((unitCols rt.width (lane / 4)).map
        (A (tileRow rt n w i + (2 * (lane % 4) + half + 8 * inner)))) := by
  refine folds_unit hnum hwidth ht hw hlane hi ⟨by omega, by omega⟩ hhalf ?_ ?_
  · simp only [baseRow, hl]
    omega
  · simp only [baseCol, hl]
    omega

end Fold

/-- `row_reduce` folds over the rows, whatever the order in which the registers and the lanes
    are put together. -/
theorem holds_rowReduce {op : V → V → V} [Std.Commutative op] [Std.Associative op] {t : Slot → V}
    {A : Nat → Nat → V} {acc : VecSlot → V} {f : Nat → V} (hnum : rt.num = 2)
    (hwidth : 0 < rt.width) (ht : HoldsTile rt n t A) (hacc : HoldsVec rt n acc f) :
    HoldsVec rt n (rowReduce rt op t acc) fun r =>
      ((List.range rt.cols).map (A r)).foldl op (f r) := by
  intro s hs
  have hlane := hs.lane
  have hinner := hs.inner
  show rowReduce rt op t acc s =
    ((List.range rt.cols).map (A (vecRow rt n s))).foldl op (f (vecRow rt n s))
  unfold rowReduce
  rw [← hacc s hs, cols_eq hnum]
  -- Each layout has its own lanes for a row, which are next to each other or four apart.
  cases hl : rt.layout with
  | row =>
      have hrow : vecRow rt n s = tileRow rt n s.warp s.outer + (s.lane / 4 + 8 * s.half) := by
        simp only [vecRow, hl]
      have hall := perm_rowLanes rt.width (s.lane / 4)
        fun x => A (tileRow rt n s.warp s.outer + (x + 8 * s.half))
      -- The leader has its lanes within the warp, so every shuffle finds its source.
      have hlast : 4 * (s.lane / 4) + [2, 1].sum < 32 := by
        simp only [List.sum_cons, List.sum_nil]
        omega
      simp only [shfl]
      rw [leader_row s.lane hlane, Nat.mod_eq_of_lt (by omega), hrow]
      exact (folds_shuffleDown hlast fun l h =>
        folds_row hnum hwidth ht hl hs.warp h hs.outer hs.half).perm hall (acc s)
  | col =>
      have hrow : vecRow rt n s =
          tileRow rt n s.warp s.outer + (2 * (s.lane % 4) + s.half + 8 * s.inner) := by
        simp only [vecRow, hl]
      have hall := perm_colLanes rt.width (Nat.mod_lt s.lane (by decide))
        fun x => A (tileRow rt n s.warp s.outer + (2 * x + s.half + 8 * s.inner))
      have hlast : s.lane % 4 + [16, 8, 4].sum < 32 := by
        simp only [List.sum_cons, List.sum_nil]
        omega
      have hinner' : s.inner < 2 := by simpa only [Rt.innerDim, hl] using hinner
      simp only [shfl]
      rw [leader_col s.lane hlane, Nat.mod_eq_of_lt (by omega), hrow]
      exact (folds_shuffleDown hlast fun l h =>
        folds_col hnum hwidth ht hl hs.warp h hs.outer hinner' hs.half).perm hall (acc s)

/-- `row_map` takes the value of the row to each element. -/
theorem holds_rowMap {op : V → W → V} {t : Slot → V} {A : Nat → Nat → V} {x : VecSlot → W}
    {f : Nat → W} (hnum : rt.num = 2) (ht : HoldsTile rt n t A) (hx : HoldsVec rt n x f) :
    HoldsTile rt n (rowMap rt op t x) fun r c => op (A r c) (f r) := by
  intro s hs
  have hhalf := hs.half
  have hk := hs.k
  rw [hnum] at hhalf
  unfold rowMap
  rw [ht s hs]
  cases hl : rt.layout with
  | row =>
      simp only
      rw [hx _ ⟨hs.warp, hs.lane, hs.i, by simp only [Rt.innerDim, hl]; decide,
        Nat.mod_lt _ (by decide)⟩]
      simp only [vecRow, coord, baseRow, hl]
  | col =>
      simp only
      rw [hx _ ⟨hs.warp, hs.lane, hs.i, by simp only [Rt.innerDim, hl]; omega, hhalf⟩]
      simp only [vecRow, coord, baseRow, hl]

end Reduce

/-! ## Loads and stores -/

section Vec

variable {V U : Type*} (ptr elemBytes : Nat) (rt : Rt) (groupWarps : Nat)

/-- `idx`, the element that a lane moves in a pass over two base tiles -/
def vecIdx (lane pass : Nat) : Nat := pass * 32 + lane % 4 * 8 + lane / 4

/-- `o_dim` -/
def vecOuter (lane pass : Nat) : Nat := pass * 2 + lane % 4 / 2

/-- The address of an element of `subvec<RV::length>(warpid())`. -/
def vecPlace (w idx : Nat) : Nat := ptr + elemBytes * (w * rt.rows + idx)

/-- `group::store` for a vector over the rows of a tile by rows -/
def storeVecWrites (convert : V → U) (src : VecSlot → V) : List (Nat × U) :=
  (List.range groupWarps).flatMap fun w => (List.range ((rt.height + 1) / 2)).flatMap fun pass =>
    ((List.range 32).filter fun lane => vecIdx lane pass < rt.height * 16).map fun lane =>
      (vecPlace ptr elemBytes rt w (vecIdx lane pass),
        convert (src ⟨w, lane, vecOuter lane pass, 0, lane % 2⟩))

/-- What a lane has before the shuffles. -/
def readVec (convert : U → V) (mem : Nat → U) (dst : VecSlot → V) (s : VecSlot) : V :=
  if s.half = s.lane % 2 ∧ s.outer = vecOuter s.lane (s.outer / 2) ∧
      vecIdx s.lane (s.outer / 2) < rt.height * 16 then
    convert (mem (vecPlace ptr elemBytes rt s.warp (vecIdx s.lane (s.outer / 2))))
  else
    dst s

/-- `group::load` for a vector over the rows of a tile by rows -/
def loadVec (convert : U → V) (mem : Nat → U) (dst : VecSlot → V) (s : VecSlot) : V :=
  let leader := s.lane / 4 * 4 + 2 * (s.outer % 2)
  shfl (fun lane => readVec ptr elemBytes rt convert mem dst { s with lane := lane })
    (leader + s.half)

end Vec

/-- A warp has the same part of a vector as of a tile, if the group is no multiple of four
    warps, or a warpgroup. -/
theorem localWarpid_eq_iff (n : Nat) :
    (∀ w < n, localWarpid n w = w) ↔ n % 4 ≠ 0 ∨ n ≤ 4 := by
  unfold localWarpid
  constructor
  · intro h
    by_contra hnot
    have hmod : n % 4 = 0 := by omega
    -- The second warp has the second quarter of the tile.
    have hone := h 1 (by omega)
    rw [if_pos hmod] at hone
    omega
  · intro h w hw
    split_ifs with hmod
    · have hone : n / 4 = 1 := by omega
      rw [hone]
      omega
    · rfl

section VecTransfer

variable {V U : Type*} {ptr e : Nat} {rt : Rt} {n : Nat}

/-- The row that a lane moves. -/
theorem vecRow_eq (hl : rt.layout = .row) (hwarps : ∀ w < n, localWarpid n w = w) {w lane : Nat}
    (hw : w < n) (pass : Nat) :
    vecRow rt n ⟨w, lane, vecOuter lane pass, 0, lane % 2⟩ = w * rt.rows + vecIdx lane pass := by
  simp only [vecRow, hl, tileRow, hwarps w hw, Rt.rows, Rt.tileSizeRow, tileRowDim, baseTileDim,
    vecOuter, vecIdx]
  rw [← Nat.mul_assoc]
  omega

/-- Each element is moved by a lane. -/
theorem exists_lane {h idx : Nat} (hidx : idx < h * 16) :
    ∃ lane < 32, idx / 32 < (h + 1) / 2 ∧ vecIdx lane (idx / 32) = idx := by
  have hmod : (4 * (idx % 8) + idx % 32 / 8) % 4 = idx % 32 / 8 := by omega
  have hdiv : (4 * (idx % 8) + idx % 32 / 8) / 4 = idx % 8 := by omega
  refine ⟨4 * (idx % 8) + idx % 32 / 8, by omega, by omega, ?_⟩
  rw [vecIdx, hmod, hdiv]
  omega

/-- The lanes that tell the four of a row its two values. -/
theorem leader_spec {q o half : Nat} (ho : o < 2) (hhalf : half < 2) :
    (q * 4 + 2 * o + half) % 4 = 2 * o + half ∧ (q * 4 + 2 * o + half) / 4 = q ∧
      (q * 4 + 2 * o + half) % 2 = half := by
  omega

/-- The writes are those of the elements of the vector. -/
theorem mem_storeVecWrites (hl : rt.layout = .row) (hwarps : ∀ w < n, localWarpid n w = w)
    (convert : V → U) {src : VecSlot → V} {f : Nat → V} (hsrc : HoldsVec rt n src f)
    {x : Nat × U} :
    x ∈ storeVecWrites ptr e rt n convert src ↔
      ∃ r < n * rt.rows, x = (ptr + e * r, convert (f r)) := by
  -- A lane takes part where its row is in the tile.
  have hvalid {w lane pass : Nat} (hw : w < n) (hlane : lane < 32)
      (hidx : vecIdx lane pass < rt.height * 16) :
      VecSlot.Valid rt n ⟨w, lane, vecOuter lane pass, 0, lane % 2⟩ := by
    refine ⟨hw, hlane, ?_, by simp only [Rt.innerDim, hl]; decide, Nat.mod_lt _ (by decide)⟩
    unfold vecIdx at hidx
    simp only [vecOuter]
    omega
  unfold storeVecWrites vecPlace
  simp only [List.mem_flatMap, List.mem_range, List.mem_map, List.mem_filter, decide_eq_true_eq]
  constructor
  · rintro ⟨w, hw, pass, -, lane, ⟨hlane, hidx⟩, rfl⟩
    refine ⟨w * rt.rows + vecIdx lane pass, place_lt hw hidx, ?_⟩
    rw [hsrc _ (hvalid hw hlane hidx), vecRow_eq hl hwarps hw]
  · -- A row is of warp `r / rt.rows`.
    rintro ⟨r, hr, rfl⟩
    have hrows : 0 < rt.rows := Nat.pos_of_mul_pos_left (Nat.lt_of_le_of_lt (Nat.zero_le r) hr)
    have hidx : r % rt.rows < rt.height * 16 := Nat.mod_lt _ hrows
    have hw : r / rt.rows < n := (Nat.div_lt_iff_lt_mul hrows).mpr hr
    obtain ⟨lane, hlane, hpass, heq⟩ := exists_lane hidx
    refine ⟨r / rt.rows, hw, r % rt.rows / 32, hpass, lane, ⟨hlane, by rw [heq]; exact hidx⟩, ?_⟩
    rw [hsrc _ (hvalid hw hlane (by rw [heq]; exact hidx)), vecRow_eq hl hwarps hw, heq,
      Nat.div_add_mod']

/-- All lanes have the vector when it is loaded. -/
theorem holds_loadVec (hl : rt.layout = .row) (hwarps : ∀ w < n, localWarpid n w = w)
    (convert : U → V) {mem : Nat → U} {f : Nat → U}
    (hmem : ∀ r < n * rt.rows, mem (ptr + e * r) = f r) (dst : VecSlot → V) :
    HoldsVec rt n (loadVec ptr e rt convert mem dst) fun r => convert (f r) := by
  intro s hs
  -- The leader of the four lanes has loaded the value of the row.
  have hlane := hs.lane
  have hhalf := hs.half
  have houter := hs.outer
  obtain ⟨hmod, hdiv, hbit⟩ :=
    leader_spec (q := s.lane / 4) (o := s.outer % 2) (Nat.mod_lt _ (by decide)) hhalf
  have hidx : vecIdx (s.lane / 4 * 4 + 2 * (s.outer % 2) + s.half) (s.outer / 2) =
      16 * s.outer + (s.lane / 4 + 8 * s.half) := by
    rw [vecIdx, hmod, hdiv]
    omega
  have hlt : 16 * s.outer + (s.lane / 4 + 8 * s.half) < rt.height * 16 := by omega
  have hrow : vecRow rt n s =
      s.warp * rt.rows + (16 * s.outer + (s.lane / 4 + 8 * s.half)) := by
    simp only [vecRow, hl, tileRow, hwarps s.warp hs.warp, Rt.rows, Rt.tileSizeRow, tileRowDim,
      baseTileDim]
    rw [← Nat.mul_assoc]
    omega
  have hloads : s.half = (s.lane / 4 * 4 + 2 * (s.outer % 2) + s.half) % 2 ∧
      s.outer = vecOuter (s.lane / 4 * 4 + 2 * (s.outer % 2) + s.half) (s.outer / 2) := by
    rw [vecOuter, hmod, hbit]
    omega
  have hleader : s.lane / 4 * 4 + 2 * (s.outer % 2) + s.half < 32 := by omega
  simp only [loadVec, shfl, readVec]
  rw [Nat.mod_eq_of_lt hleader, hidx, if_pos ⟨hloads.1, hloads.2, hlt⟩, vecPlace, hrow,
    hmem _ (place_lt hs.warp hlt)]

/-- A group stores a vector, and its writes arrive in any order. Each element is in its place,
    nothing else has been written, and when the vector is loaded all lanes have it. -/
theorem store_loadVec (he : 0 < e) (hl : rt.layout = .row)
    (hwarps : ∀ w < n, localWarpid n w = w) (convert : V → U) {src : VecSlot → V} {f : Nat → V}
    (hsrc : HoldsVec rt n src f) (mem : Nat → U) {ws : List (Nat × U)}
    (hws : ws.Perm (storeVecWrites ptr e rt n convert src)) :
    (∀ r < n * rt.rows, scatter mem ws (ptr + e * r) = convert (f r)) ∧
    (∀ a, (∀ r < n * rt.rows, a ≠ ptr + e * r) → scatter mem ws a = mem a) ∧
    ∀ (back : U → V) (dst : VecSlot → V),
      HoldsVec rt n (loadVec ptr e rt back (scatter mem ws) dst) fun r => back (convert (f r)) := by
  have hmem {x : Nat × U} := @mem_storeVecWrites _ _ ptr e _ _ hl hwarps convert _ _ hsrc x
  -- Two writes to one place are of one row.
  have hagree : Agree (storeVecWrites ptr e rt n convert src) := by
    intro a v v' hv hv'
    obtain ⟨r, -, hr⟩ := hmem.mp hv
    obtain ⟨r', -, hr'⟩ := hmem.mp hv'
    simp only [Prod.mk.injEq] at hr hr'
    have hsame : r = r' := by
      have heq := hr.1.symm.trans hr'.1
      exact Nat.eq_of_mul_eq_mul_left he (Nat.add_left_cancel heq)
    rw [hr.2, hr'.2, hsame]
  have hwritten : ∀ r < n * rt.rows, scatter mem ws (ptr + e * r) = convert (f r) := by
    intro r hr
    rw [scatter_perm hagree hws]
    exact scatter_of_mem hagree (hmem.mpr ⟨r, hr, rfl⟩)
  refine ⟨hwritten, fun a ha => ?_, fun back dst => holds_loadVec hl hwarps back hwritten dst⟩
  apply scatter_of_notMem
  intro v hv
  obtain ⟨r, hr, heq⟩ := hmem.mp (hws.mem_iff.mp hv)
  exact ha r hr (congrArg Prod.fst heq)

end VecTransfer

/-! ## Tiles and what they hold -/

section TileTransfer

variable {U V : Type*} {v : View} {rt : Rt} {n ptr : Nat}

/-- Registers that are loaded hold the matrix that is in the tile. -/
theorem holds_load (h : Fits v rt n) (haligned : 128 ∣ ptr) (convert : U → V) {mem : Nat → U}
    {A : Nat → Nat → U} (hmem : ∀ r < v.rows, ∀ c < v.cols, mem (v.idx ptr r c) = A r c) :
    HoldsTile rt n (load v ptr rt n convert mem) fun r c => convert (A r c) := by
  intro s hs
  have hcoord := (bijOn_coord h.num n).mapsTo hs
  rw [← h.rows, ← h.cols] at hcoord
  rw [load_eq h haligned convert mem hs]
  exact congrArg convert (hmem _ hcoord.1 _ hcoord.2)

/-- A tile has the matrix that the registers hold when they are stored. -/
theorem scatter_holds (h : Fits v rt n) (haligned : 128 ∣ ptr) (convert : V → U) {src : Slot → V}
    {A : Nat → Nat → V} (hsrc : HoldsTile rt n src A) (mem : Nat → U) {ws : List (Nat × U)}
    (hws : ws.Perm (storeWrites v ptr rt n convert src)) :
    ∀ r < v.rows, ∀ c < v.cols, scatter mem ws (v.idx ptr r c) = convert (A r c) := by
  intro r hr c hc
  rw [h.rows] at hr
  rw [h.cols] at hc
  obtain ⟨s, hs, hcoord⟩ := (bijOn_coord h.num n).surjOn
    (show (r, c) ∈ Iio (n * rt.rows) ×ˢ Iio rt.cols from ⟨hr, hc⟩)
  have hwritten := scatter_store h haligned convert src mem hws hs
  rw [hcoord, hsrc s hs, hcoord] at hwritten
  exact hwritten

end TileTransfer

end Kittens

end MKernel
