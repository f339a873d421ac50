import Mathlib.Data.Finset.Prod
import MKernel.Core.Scatter
import MKernel.Core.Spread
import MKernel.Kittens.SharedTile

/-!
# Register Tiles

How the warps of a group move a tile between their registers and shared memory.

A register tile is made of base tiles of 16 rows, and a lane holds four packed registers
of each. Which elements these are is said by `coord`. For elements of two bytes, and
for those of one, the lanes give the addresses of rows of 16 bytes to `stmatrix` and
`ldmatrix`, which move four matrices of eight such rows at once. Elements of four bytes are
moved one by one, and half of the lanes move the two of a pair in the other order, so that
the lanes of a warp reach different banks. Registers by columns are moved one by one too.

The warps and lanes do all this at the same time. No two of them write to the same place, and so the
order does not matter, and a group that loads the tile, in any layout, gets at each place what
was stored for it (`store_load`).

The path for four bytes does not ask `idx` for its addresses. It takes the tile for a
swizzled one, with 64 bytes at least to a row of a column, which is what `Fits` asks for.

## Main definitions

* `Rt`, `Slot`: A register tile, and one element of a register.
* `coord`: The element of the tile that is in a register.
* `storeWrites`: The writes of `group::store`.
* `load`: What `group::load` puts into a register.

## Theorems

* `bijOn_coord`: Each element is in one register of one lane.
* `mem_storeWrites`: Each register is written to the place of its element.
* `load_eq`: Each register is read from the place of its element.
* `store_load`: What is stored is loaded.
-/

namespace MKernel

namespace Kittens

open MKernel.Core Set

/-- `ducks::rt_layout` -/
inductive RtLayout where
  | row
  | col
  deriving DecidableEq

/-- `kittens::rt` -/
structure Rt where
  /-- `sizeof(T)` -/
  elemBytes : Nat
  height : Nat
  width : Nat
  layout : RtLayout

namespace Rt

/-- `base_types::packing<dtype>::num()` -/
def num (rt : Rt) : Nat := if rt.elemBytes = 1 then 4 else 2

/-- `rt::tile_size_row` -/
def tileSizeRow (_rt : Rt) : Nat := tileRowDim

/-- `rt::tile_size_col` -/
def tileSizeCol (rt : Rt) : Nat := tileColDim rt.elemBytes

/-- `rt::rows` -/
def rows (rt : Rt) : Nat := rt.height * rt.tileSizeRow

/-- `rt::cols` -/
def cols (rt : Rt) : Nat := rt.width * rt.tileSizeCol

/-- A base tile is as wide as the registers of four lanes, twice. -/
theorem tileSizeCol_eq (rt : Rt) : rt.tileSizeCol = 8 * rt.num := by
  unfold tileSizeCol tileColDim num
  split_ifs <;> rfl

theorem num_cases (rt : Rt) : rt.num = 2 ∨ rt.num = 4 := by
  unfold num
  split_ifs
  · exact .inr rfl
  · exact .inl rfl

theorem num_pos (rt : Rt) : 0 < rt.num := by
  rcases rt.num_cases with h | h <;> rw [h] <;> decide

end Rt

/-- An element of a register: `tiles[i][j].data[k]` of a lane of a warp, and which of the packed
    ones it is -/
structure Slot where
  warp : Nat
  lane : Nat
  i : Nat
  j : Nat
  k : Nat
  half : Nat
  deriving Inhabited

/-- The registers that the warps of a group have. -/
structure Slot.Valid (rt : Rt) (groupWarps : Nat) (s : Slot) : Prop where
  warp : s.warp < groupWarps
  lane : s.lane < 32
  i : s.i < rt.height
  j : s.j < rt.width
  k : s.k < 4
  half : s.half < rt.num

/-- `local_warpid` -/
def localWarpid (groupWarps warpid : Nat) : Nat :=
  if groupWarps % 4 = 0 then warpid / 4 + warpid % 4 * (groupWarps / 4) else warpid

/-- The row of a base tile that a register holds an element of. -/
def baseRow (rt : Rt) (lane k half : Nat) : Nat :=
  match rt.layout with
  | .row => lane / 4 + 8 * (k % 2)
  | .col => 2 * (lane % 4) + half + 8 * (k / 2)

/-- The column of a base tile that a register holds an element of. -/
def baseCol (rt : Rt) (lane k half : Nat) : Nat :=
  match rt.layout with
  | .row => 4 * rt.num * (k / 2) + (rt.num * (lane % 4) + half)
  | .col => lane / 4 + 8 * (k % 2)

/-- The first row of a base tile. -/
def tileRow (rt : Rt) (groupWarps warp i : Nat) : Nat :=
  (localWarpid groupWarps warp * rt.height + i) * rt.tileSizeRow

/-- The first column of a base tile. -/
def tileCol (rt : Rt) (j : Nat) : Nat := j * rt.tileSizeCol

/-- The element of the tile that is in a register. -/
def coord (rt : Rt) (groupWarps : Nat) (s : Slot) : Nat × Nat :=
  (tileRow rt groupWarps s.warp s.i + baseRow rt s.lane s.k s.half,
    tileCol rt s.j + baseCol rt s.lane s.k s.half)

/-! ## Elements and registers -/

/-- The warps take the rows of the tile in another order, each its own. -/
theorem bijOn_localWarpid (n : Nat) : BijOn (localWarpid n) (Iio n) (Iio n) := by
  unfold localWarpid
  split_ifs with h
  · obtain ⟨q, rfl⟩ := Nat.dvd_of_mod_eq_zero h
    rw [Nat.mul_div_cancel_left q (by decide : 0 < 4)]
    have hsplit := (IsTileOrder.columns 4 q).comp (bijOn_id (Iio (4 * q)))
    have hjoin := IsTileOrder.bijOn_join 4 q
    refine (hjoin.comp hsplit).congr fun w _ => ?_
    exact Nat.add_comm _ _
  · exact bijOn_id _

/-- The elements of a base tile are in one register each. -/
theorem base_unique {rt : Rt} (hlayout : rt.layout = .col → rt.num = 2) {rr cc : Nat}
    (hr : rr < 16) (hc : cc < 8 * rt.num) :
    ∃! x : Nat × Nat × Nat, (x.1 < 32 ∧ x.2.1 < 4 ∧ x.2.2 < rt.num) ∧
      baseRow rt x.1 x.2.1 x.2.2 = rr ∧ baseCol rt x.1 x.2.1 x.2.2 = cc := by
  cases hl : rt.layout with
  | row =>
      simp only [baseRow, baseCol, hl]
      -- The lane is read off the element by the same formula, but for the width of a register.
      rcases rt.num_cases with hn | hn <;> rw [hn] at hc ⊢
      · refine ⟨(4 * (rr % 8) + cc % 8 / 2, rr / 8 + 2 * (cc / 8), cc % 2), ⟨⟨?_, ?_, ?_⟩, ?_, ?_⟩,
          ?_⟩
        all_goals try (simp only; omega)
        rintro ⟨l, k, x⟩ ⟨⟨hl, hk, hx⟩, h1, h2⟩
        simp only [Prod.mk.injEq] at *
        omega
      · refine ⟨(4 * (rr % 8) + cc % 16 / 4, rr / 8 + 2 * (cc / 16), cc % 4),
          ⟨⟨?_, ?_, ?_⟩, ?_, ?_⟩, ?_⟩
        all_goals try (simp only; omega)
        rintro ⟨l, k, x⟩ ⟨⟨hl, hk, hx⟩, h1, h2⟩
        simp only [Prod.mk.injEq] at *
        omega
  | col =>
      have hn := hlayout hl
      rw [hn] at hc ⊢
      simp only [baseRow, baseCol, hl]
      refine ⟨(4 * (cc % 8) + rr % 8 / 2, 2 * (rr / 8) + cc / 8, rr % 2),
        ⟨⟨?_, ?_, ?_⟩, ?_, ?_⟩, ?_⟩
      all_goals try (simp only; omega)
      rintro ⟨l, k, x⟩ ⟨⟨hl, hk, hx⟩, h1, h2⟩
      simp only [Prod.mk.injEq] at *
      omega

/-- Three numbers below their bounds name an element of the base tile. -/
theorem base_lt {rt : Rt} (hlayout : rt.layout = .col → rt.num = 2) {lane k half : Nat}
    (hlane : lane < 32) (hk : k < 4) (hhalf : half < rt.num) :
    baseRow rt lane k half < rt.tileSizeRow ∧ baseCol rt lane k half < rt.tileSizeCol := by
  rw [Rt.tileSizeCol_eq, Rt.tileSizeRow, tileRowDim, baseTileDim]
  cases hl : rt.layout with
  | row =>
      simp only [baseRow, baseCol, hl]
      rcases rt.num_cases with hn | hn <;> rw [hn] at hhalf ⊢ <;> omega
  | col =>
      rw [hlayout hl] at hhalf ⊢
      simp only [baseRow, baseCol, hl]
      omega

/-- Each element of the tile is in one register of one lane. -/
theorem bijOn_coord {rt : Rt} (hlayout : rt.layout = .col → rt.num = 2) (n : Nat) :
    BijOn (coord rt n) {s | s.Valid rt n} (Iio (n * rt.rows) ×ˢ Iio rt.cols) := by
  have hrows : n * rt.rows = n * rt.height * rt.tileSizeRow := (Nat.mul_assoc _ _ _).symm
  have hrow_pos : 0 < rt.tileSizeRow := Nat.succ_pos 15
  have hcol_pos : 0 < rt.tileSizeCol := by
    rw [Rt.tileSizeCol_eq]
    exact Nat.mul_pos (by decide) rt.num_pos
  rw [hrows]
  refine ⟨fun s hs => ?_, fun s hs s' hs' heq => ?_, fun rc hrc => ?_⟩
  -- A row is a warp, a base tile of it and a row of that, and a column likewise.
  · have hbase := base_lt hlayout hs.lane hs.k hs.half
    exact ⟨place_lt (place_lt ((bijOn_localWarpid n).mapsTo hs.warp) hs.i) hbase.1,
      place_lt hs.j hbase.2⟩
  · have hbase := base_lt hlayout hs.lane hs.k hs.half
    have hbase' := base_lt hlayout hs'.lane hs'.k hs'.half
    have hrow := place_inj hbase.1 hbase'.1 (congrArg Prod.fst heq)
    have hcol := place_inj hbase.2 hbase'.2 (congrArg Prod.snd heq)
    have hwarp := place_inj hs.i hs'.i hrow.1
    have hinj := (bijOn_localWarpid n).injOn hs.warp hs'.warp hwarp.1
    rw [Rt.tileSizeCol_eq] at hbase
    have hsame : (s.lane, s.k, s.half) = (s'.lane, s'.k, s'.half) :=
      (base_unique hlayout hbase.1 hbase.2).unique ⟨⟨hs.lane, hs.k, hs.half⟩, rfl, rfl⟩
        ⟨⟨hs'.lane, hs'.k, hs'.half⟩, hrow.2.symm, hcol.2.symm⟩
    simp only [Prod.mk.injEq] at hsame
    cases s
    cases s'
    simp only [Slot.mk.injEq]
    exact ⟨hinj, hsame.1, hwarp.2, hcol.1, hsame.2.1, hsame.2.2⟩
  -- The register of an element is found digit by digit.
  · obtain ⟨r, c⟩ := rc
    have hr : r / rt.tileSizeRow < n * rt.height := (Nat.div_lt_iff_lt_mul hrow_pos).mpr hrc.1
    have hc : c / rt.tileSizeCol < rt.width := (Nat.div_lt_iff_lt_mul hcol_pos).mpr hrc.2
    have hheight : 0 < rt.height :=
      Nat.pos_of_mul_pos_left (Nat.lt_of_le_of_lt (Nat.zero_le _) hr)
    have hlw : r / rt.tileSizeRow / rt.height < n := (Nat.div_lt_iff_lt_mul hheight).mpr hr
    obtain ⟨w, hw, hwarp⟩ := (bijOn_localWarpid n).surjOn hlw
    have hcc : c % rt.tileSizeCol < 8 * rt.num := by
      rw [← Rt.tileSizeCol_eq]
      exact Nat.mod_lt _ hcol_pos
    obtain ⟨⟨lane, k, half⟩, ⟨⟨hlane, hk, hhalf⟩, hrow, hcol⟩, -⟩ :=
      base_unique hlayout (Nat.mod_lt r hrow_pos) hcc
    refine ⟨⟨w, lane, r / rt.tileSizeRow % rt.height, c / rt.tileSizeCol, k, half⟩,
      ⟨hw, hlane, Nat.mod_lt _ hheight, hc, hk, hhalf⟩, ?_⟩
    refine Prod.ext ?_ ?_
    · simp only [coord, tileRow]
      rw [hwarp, Nat.div_add_mod', hrow]
      exact Nat.div_add_mod' r _
    · simp only [coord, tileCol]
      rw [hcol]
      exact Nat.div_add_mod' c _

/-! ## Instructions -/

section Instructions

variable {U : Type*}

/-- `stmatrix.m8n8.x4`: Lane `8 m + i` gives the address of row `i` of matrix `m`, and each
    lane has four bytes of a row of each matrix. -/
def stsm4 (elemBytes : Nat) (addr : Nat → Nat) (src : Nat → Nat → Nat → U) : List (Nat × U) :=
  (List.range 4).flatMap fun m => (List.range 8).flatMap fun i =>
    (List.range (16 / elemBytes)).map fun q =>
      (addr (8 * m + i) + elemBytes * q,
        src m (4 * i + q / (4 / elemBytes)) (q % (4 / elemBytes)))

/-- `stmatrix.m8n8.x4.trans`: Each lane has two elements of a column of each matrix. -/
def stsm4t (addr : Nat → Nat) (src : Nat → Nat → Nat → U) : List (Nat × U) :=
  (List.range 4).flatMap fun m => (List.range 8).flatMap fun i =>
    (List.range 8).map fun q =>
      (addr (8 * m + i) + 2 * q, src m (4 * q + i / 2) (i % 2))

/-- `ldmatrix.m8n8.x4` -/
def ldsm4 (elemBytes : Nat) (addr : Nat → Nat) (mem : Nat → U) (m lane half : Nat) : U :=
  mem (addr (8 * m + lane / 4) + elemBytes * (4 / elemBytes * (lane % 4) + half))

/-- `ldmatrix.m8n8.x4.trans` -/
def ldsm4t (addr : Nat → Nat) (mem : Nat → U) (m lane half : Nat) : U :=
  mem (addr (8 * m + (2 * (lane % 4) + half)) + 2 * (lane / 4))

/-- A lane stores its part of each matrix. -/
theorem mem_stsm4 {e : Nat} (he : e = 1 ∨ e = 2) {addr : Nat → Nat} {src : Nat → Nat → Nat → U}
    {w : Nat × U} :
    w ∈ stsm4 e addr src ↔ ∃ k lane half, k < 4 ∧ lane < 32 ∧ half < 4 / e ∧
      w = (addr (8 * k + lane / 4) + e * (4 / e * (lane % 4) + half), src k lane half) := by
  unfold stsm4
  simp only [List.mem_flatMap, List.mem_map, List.mem_range]
  constructor
  -- Row `i` of a matrix is with the lanes from `4 i` on.
  · rintro ⟨m, hm, i, hi, q, hq, rfl⟩
    refine ⟨m, 4 * i + q / (4 / e), q % (4 / e), hm, ?_, ?_, ?_⟩
    · rcases he with rfl | rfl <;> omega
    · rcases he with rfl | rfl <;> omega
    · have hrow : (4 * i + q / (4 / e)) / 4 = i := by rcases he with rfl | rfl <;> omega
      have hplace : 4 / e * ((4 * i + q / (4 / e)) % 4) + q % (4 / e) = q := by
        rcases he with rfl | rfl <;> omega
      rw [hrow, hplace]
  · rintro ⟨k, lane, half, hk, hlane, hhalf, rfl⟩
    refine ⟨k, hk, lane / 4, by omega, 4 / e * (lane % 4) + half, ?_, ?_⟩
    · rcases he with rfl | rfl <;> omega
    · have hlane' : 4 * (lane / 4) + (4 / e * (lane % 4) + half) / (4 / e) = lane := by
        rcases he with rfl | rfl <;> omega
      have hhalf' : (4 / e * (lane % 4) + half) % (4 / e) = half := by
        rcases he with rfl | rfl <;> omega
      rw [hlane', hhalf']

/-- A lane stores its part of each column. -/
theorem mem_stsm4t {addr : Nat → Nat} {src : Nat → Nat → Nat → U} {w : Nat × U} :
    w ∈ stsm4t addr src ↔ ∃ k lane half, k < 4 ∧ lane < 32 ∧ half < 2 ∧
      w = (addr (8 * k + (2 * (lane % 4) + half)) + 2 * (lane / 4), src k lane half) := by
  unfold stsm4t
  simp only [List.mem_flatMap, List.mem_map, List.mem_range]
  constructor
  -- Column `q` is with them where the matrices are transposed.
  · rintro ⟨m, hm, i, hi, q, hq, rfl⟩
    refine ⟨m, 4 * q + i / 2, i % 2, hm, by omega, by omega, ?_⟩
    have hrow : 2 * ((4 * q + i / 2) % 4) + i % 2 = i := by omega
    have hplace : (4 * q + i / 2) / 4 = q := by omega
    rw [hrow, hplace]
  · rintro ⟨k, lane, half, hk, hlane, hhalf, rfl⟩
    refine ⟨k, hk, 2 * (lane % 4) + half, by omega, lane / 4, by omega, ?_⟩
    have hlane' : 4 * (lane / 4) + (2 * (lane % 4) + half) / 2 = lane := by omega
    have hhalf' : (2 * (lane % 4) + half) % 2 = half := by omega
    rw [hlane', hhalf']

end Instructions

/-! ## Loads and stores -/

/-- The matrix of `ldsm4t(tmp[0], tmp[2], tmp[1], tmp[3], ..)` that a register is. -/
def transOrder (k : Nat) : Nat := if k = 1 then 2 else if k = 2 then 1 else k

theorem transOrder_transOrder (k : Nat) : transOrder (transOrder k) = k := by
  unfold transOrder
  split_ifs <;> omega

theorem transOrder_lt {k : Nat} (hk : k < 4) : transOrder k < 4 := by
  unfold transOrder
  split_ifs <;> omega

/-- The matrices are counted down the columns first. -/
theorem transOrder_digits {k : Nat} (hk : k < 4) :
    transOrder k % 2 = k / 2 ∧ transOrder k / 2 = k % 2 := by
  unfold transOrder
  split_ifs <;> omega

/-- `ST::rows != ST::underlying_rows || ST::cols != ST::underlying_cols` -/
def View.isSubtile (v : View) : Bool := v.rows ≠ v.tile.rows ∨ v.cols ≠ v.tile.cols

/-- `blit` -/
def blit (lane : Nat) : Nat := 4 * (lane % 4 / 2)

section Move

variable {V U : Type*} (v : View) (ptr : Nat) (rt : Rt) (groupWarps : Nat)

/-- The address of 16 bytes that a lane gives. -/
def rowAddr (w i j lane : Nat) : Nat :=
  v.idx ptr (tileRow rt groupWarps w i + lane % 16)
    (tileCol rt j + lane / 16 * (16 / v.tile.elemBytes))

/-- `row` of the path for four bytes -/
def pairRow (w i lane : Nat) : Nat :=
  tileRow rt groupWarps w i + lane / 4 + if v.isSubtile then v.rowOffset else 0

/-- `col` of the path for four bytes -/
def pairCol (j lane : Nat) : Nat :=
  tileCol rt j + 2 * (lane % 4) + if v.isSubtile then v.colOffset else 0

/-- `addr_1`, and `addr_2`, which is eight rows below -/
def pairAddr (w i j lane below : Nat) : Nat :=
  let row := pairRow v rt groupWarps w i lane
  let col := pairCol v rt j lane
  ptr + v.tile.elemBytes * (col / v.tile.columnCols * v.tile.rows * v.tile.columnCols +
    (row + below) * v.tile.columnCols + col % v.tile.columnCols)

/-- The address of `tmp[k].x` or `tmp[k].y` of the path for four bytes. -/
def pairPlace (w i j lane k half : Nat) : Nat :=
  let addr := pairAddr v ptr rt groupWarps w i j lane (8 * (k % 2))
  let swizzle := blit lane ^^^ ((addr % (v.tile.swizzleBytes * 8)) >>> 7) <<< 4
  (addr + (32 * (k / 2) + 4 * half)) ^^^ swizzle

/-- The address of `tmp[k].x` or `tmp[k].y` of the path for columns. -/
def columnPlace (w i j lane k half : Nat) : Nat :=
  v.idx ptr (tileRow rt groupWarps w i + 2 * (lane % 4) + (half + 8 * (k / 2)))
    (tileCol rt j + lane / 4 + 8 * (k % 2))

/-- The numbers of a lane, a register and an element in it. -/
def laneSlots : List (Nat × Nat × Nat) :=
  (List.range 32).flatMap fun lane => (List.range 4).flatMap fun k =>
    (List.range 2).map fun half => (lane, k, half)

/-- The writes of a warp for a base tile, in `group::store`. -/
def storeTile (src : Nat → Nat → Nat → U) (w i j : Nat) : List (Nat × U) :=
  if v.tile.elemBytes = 2 then
    match rt.layout with
    | .row => stsm4 2 (rowAddr v ptr rt groupWarps w i j) src
    | .col => stsm4t (rowAddr v ptr rt groupWarps w i j) fun m => src (transOrder m)
  else if rt.layout = .row ∧ v.tile.elemBytes = 1 then
    stsm4 1 (rowAddr v ptr rt groupWarps w i j) src
  else if rt.layout = .row ∧ v.tile.elemBytes = 4 then
    -- `reg_tmp` has the two elements the other way round in half of the lanes.
    laneSlots.map fun (lane, k, half) => (pairPlace v ptr rt groupWarps w i j lane k half,
      if blit lane ≠ 0 then src k lane (1 - half) else src k lane half)
  else
    laneSlots.map fun (lane, k, half) =>
      (columnPlace v ptr rt groupWarps w i j lane k half, src k lane half)

/-- `group::store` -/
def storeWrites (convert : V → U) (src : Slot → V) : List (Nat × U) :=
  (List.range groupWarps).flatMap fun w => (List.range rt.height).flatMap fun i =>
    (List.range rt.width).flatMap fun j =>
      storeTile v ptr rt groupWarps (fun k lane half => convert (src ⟨w, lane, i, j, k, half⟩))
        w i j

/-- `group::load` -/
def load (convert : U → V) (mem : Nat → U) (s : Slot) : V :=
  if v.tile.elemBytes = 2 then
    match rt.layout with
    | .row =>
        convert (ldsm4 2 (rowAddr v ptr rt groupWarps s.warp s.i s.j) mem s.k s.lane s.half)
    | .col =>
        convert (ldsm4t (rowAddr v ptr rt groupWarps s.warp s.i s.j) mem (transOrder s.k) s.lane
          s.half)
  else if rt.layout = .row ∧ v.tile.elemBytes = 1 then
    convert (ldsm4 1 (rowAddr v ptr rt groupWarps s.warp s.i s.j) mem s.k s.lane s.half)
  else if rt.layout = .row ∧ v.tile.elemBytes = 4 then
    let tmp half := convert (mem (pairPlace v ptr rt groupWarps s.warp s.i s.j s.lane s.k half))
    if blit s.lane ≠ 0 then tmp (1 - s.half) else tmp s.half
  else
    convert (mem (columnPlace v ptr rt groupWarps s.warp s.i s.j s.lane s.k s.half))

/-- What the `static_assert`s and the types ask of a tile that is moved, and what the path for
    four bytes takes for granted. -/
structure Fits : Prop where
  rows : v.rows = groupWarps * rt.rows
  cols : v.cols = rt.cols
  bytes : v.tile.elemBytes = 1 ↔ rt.elemBytes = 1
  layout : rt.elemBytes = 1 → rt.layout = .row
  places : v.tile.swizzle = true ∨ v.cols = v.tile.cols
  whole : v.tile.swizzle = true → v.tile.swizzleBytes ∣ v.tile.cols * v.tile.elemBytes
  pairs : v.tile.elemBytes = 4 → rt.layout = .row → v.tile.swizzle = true ∧ v.tile.swizzleBytes ≠ 32

end Move

/-! ## Places of the paths -/

section Places

variable {v : View} {rt : Rt} {n ptr : Nat}

theorem Fits.num (h : Fits v rt n) (hl : rt.layout = .col) : rt.num = 2 := by
  rw [Rt.num, if_neg]
  intro he
  rw [h.layout he] at hl
  exact RtLayout.noConfusion hl

/-- A register has four bytes of a tile whose elements have one or two. -/
theorem Fits.num_mul (h : Fits v rt n) (he : v.tile.elemBytes = 1 ∨ v.tile.elemBytes = 2) :
    v.tile.elemBytes * rt.num = 4 := by
  rcases he with he | he
  · rw [he, Rt.num, if_pos (h.bytes.mp he)]
  · rw [he, Rt.num, if_neg fun h' => by rw [h.bytes.mpr h'] at he; exact absurd he (by decide)]

/-- A register of another tile has two elements. -/
theorem Fits.num_two (h : Fits v rt n) (he : v.tile.elemBytes ≠ 1) : rt.num = 2 := by
  rw [Rt.num, if_neg fun h' => he (h.bytes.mpr h')]

/-- The base tiles of a row begin at whole units. -/
theorem Fits.unit_dvd (h : Fits v rt n) (he : v.tile.elemBytes = 1 ∨ v.tile.elemBytes = 2)
    (j x : Nat) : 16 ∣ v.tile.elemBytes * (tileCol rt j + x * (16 / v.tile.elemBytes)) := by
  have hmul := h.num_mul he
  have hunit : v.tile.elemBytes * (16 / v.tile.elemBytes) = 16 := by
    rcases he with he | he <;> rw [he]
  refine ⟨2 * j + x, ?_⟩
  calc v.tile.elemBytes * (tileCol rt j + x * (16 / v.tile.elemBytes))
      = j * 8 * (v.tile.elemBytes * rt.num) +
          x * (v.tile.elemBytes * (16 / v.tile.elemBytes)) := by
        rw [tileCol, Rt.tileSizeCol_eq]
        ring
    _ = 16 * (2 * j + x) := by
        rw [hmul, hunit]
        ring

/-- The four bytes of a lane are where `idx` has their elements. -/
theorem rowAddr_row (h : Fits v rt n) (haligned : 128 ∣ ptr)
    (he : v.tile.elemBytes = 1 ∨ v.tile.elemBytes = 2) (hl : rt.layout = .row)
    {lane k half : Nat} (hlane : lane < 32) (hhalf : half < rt.num) (w i j : Nat) :
    rowAddr v ptr rt n w i j (8 * k + lane / 4) +
        v.tile.elemBytes * (4 / v.tile.elemBytes * (lane % 4) + half) =
      v.idx ptr (tileRow rt n w i + baseRow rt lane k half)
        (tileCol rt j + baseCol rt lane k half) := by
  have hmul := h.num_mul he
  -- With two elements to a register or four, the four bytes are one register.
  have hnum : 4 / v.tile.elemBytes = rt.num := by
    rw [← hmul, Nat.mul_div_cancel_left _ v.tile.elemBytes_pos]
  have hunit : 16 / v.tile.elemBytes = 4 * rt.num := by
    rw [← hnum]
    rcases he with he | he <;> rw [he]
  have hrow : (8 * k + lane / 4) % 16 = lane / 4 + 8 * (k % 2) := by omega
  have hcol : (8 * k + lane / 4) / 16 = k / 2 := by omega
  -- The bytes stay within the unit of 16 that the swizzle moves as a whole.
  have hlt : v.tile.elemBytes * (rt.num * (lane % 4) + half) < 16 := by
    have hmod : lane % 4 < 4 := Nat.mod_lt _ (by decide)
    have hplace : half + rt.num * (lane % 4) < rt.num * 4 := by
      have := place_lt hmod hhalf
      rw [Nat.mul_comm rt.num, Nat.add_comm, Nat.mul_comm rt.num]
      exact this
    calc v.tile.elemBytes * (rt.num * (lane % 4) + half)
        < v.tile.elemBytes * (rt.num * 4) := by
          rw [Nat.add_comm]
          exact Nat.mul_lt_mul_of_pos_left hplace v.tile.elemBytes_pos
      _ = 16 := by rw [← Nat.mul_assoc, hmul]
  rw [rowAddr, hrow, hcol, hnum, ← v.idx_add h.places haligned (h.unit_dvd he j _) hlt]
  simp only [baseRow, baseCol, hl, hunit, Nat.mul_comm (k / 2), Nat.add_assoc]

/-- The two elements of a lane are where `idx` has them, also by columns. -/
theorem rowAddr_col (h : Fits v rt n) (haligned : 128 ∣ ptr) (he : v.tile.elemBytes = 2)
    (hl : rt.layout = .col) {lane k half : Nat} (hlane : lane < 32) (hk : k < 4) (hhalf : half < 2)
    (w i j : Nat) :
    rowAddr v ptr rt n w i j (8 * transOrder k + (2 * (lane % 4) + half)) + 2 * (lane / 4) =
      v.idx ptr (tileRow rt n w i + baseRow rt lane k half)
        (tileCol rt j + baseCol rt lane k half) := by
  have horder := transOrder_digits hk
  -- The row that the lane gives to the instruction, in its two digits.
  have hrow : (8 * transOrder k + (2 * (lane % 4) + half)) % 16 =
      2 * (lane % 4) + half + 8 * (k / 2) := by omega
  have hcol : (8 * transOrder k + (2 * (lane % 4) + half)) / 16 = k % 2 := by omega
  have hlt : v.tile.elemBytes * (lane / 4) < 16 := by
    rw [he]
    omega
  -- A lane's element lies in the 16 bytes that begin there.
  have hadd := v.idx_add h.places haligned (r := tileRow rt n w i + baseRow rt lane k half)
    (h.unit_dvd (.inr he) j (k % 2)) hlt
  have hbytes : 2 * (lane / 4) = v.tile.elemBytes * (lane / 4) := by rw [he]
  have hwide : k % 2 * (16 / v.tile.elemBytes) + lane / 4 = lane / 4 + 8 * (k % 2) := by
    rw [he]
    omega
  rw [rowAddr, hrow, hcol, hbytes]
  simp only [baseRow, baseCol, hl] at hadd ⊢
  rw [← hadd, Nat.add_assoc (tileCol rt j), hwide]

/-- With `blit` the two places of a pair are exchanged. -/
theorem xor_blit {x half : Nat} (hx : 8 ∣ x) (hhalf : half < 2) :
    (x + 4 * half) ^^^ 4 = x + 4 * (1 - half) := by
  obtain ⟨u, rfl⟩ := hx
  apply eq_of_unit 3
  · rw [Nat.xor_div_two_pow]
    have h1 : (8 * u + 4 * half) / 2 ^ 3 = u := by omega
    have h2 : (8 * u + 4 * (1 - half)) / 2 ^ 3 = u := by omega
    rw [h1, h2]
    exact Nat.xor_zero u
  · rw [Nat.xor_mod_two_pow]
    have h1 : (8 * u + 4 * half) % 2 ^ 3 = 4 * half := by omega
    have h2 : (8 * u + 4 * (1 - half)) % 2 ^ 3 = 4 * (1 - half) := by omega
    rw [h1, h2]
    have : half = 0 ∨ half = 1 := by omega
    rcases this with rfl | rfl <;> decide

theorem View.rowOffset_eq (v : View) : (if v.isSubtile then v.rowOffset else 0) = v.rowOffset := by
  split_ifs with h
  · rfl
  · -- The view is the whole tile, so that it begins at the first row.
    simp only [isSubtile, decide_eq_true_eq, not_or, not_not] at h
    have hle := v.row_le
    have hrow : v.row * v.rows = 0 := by omega
    rw [rowOffset, hrow]

theorem View.colOffset_eq (v : View) : (if v.isSubtile then v.colOffset else 0) = v.colOffset := by
  split_ifs with h
  · rfl
  · simp only [isSubtile, decide_eq_true_eq, not_or, not_not] at h
    have hle := v.col_le
    have hcol : v.col * v.cols = 0 := by omega
    rw [colOffset, hcol]

/-- The pairs of a base tile are in one column of the tile, where four of them begin every
    16 elements. -/
theorem pairCol_mod (h : Fits v rt n) (he : v.tile.elemBytes = 4) (j lane : Nat) :
    pairCol v rt j lane % 16 = 2 * (lane % 4) := by
  have hnum := h.num_two (by rw [he]; decide)
  obtain ⟨m, hm⟩ := v.cols_dvd
  rw [he] at hm
  have hoffset : v.colOffset = 16 * (v.col * m) := by
    rw [View.colOffset, hm]
    exact Nat.mul_left_comm _ _ _
  rw [pairCol, v.colOffset_eq, tileCol, Rt.tileSizeCol_eq, hnum, hoffset]
  omega

/-- The 64 bytes of a base tile in a row begin at such a boundary. -/
theorem pairAddr_mod (h : Fits v rt n) (haligned : 128 ∣ ptr) (he : v.tile.elemBytes = 4)
    (hbytes : 64 ∣ v.tile.swizzleBytes) (w i j lane below : Nat) :
    pairAddr v ptr rt n w i j lane below % 64 = 8 * (lane % 4) := by
  have hmul := v.tile.columnCols_mul
  have hcol := pairCol_mod h he j lane
  have hplace : v.tile.elemBytes * (pairCol v rt j lane % v.tile.columnCols) % 64 =
      8 * (lane % 4) := by
    -- A column of a swizzled tile is a whole number of 64 byte runs.
    have hcc : 16 ∣ v.tile.columnCols := by
      obtain ⟨m, hm⟩ := hbytes
      exact ⟨m, by rw [he, hm] at hmul; omega⟩
    have := Nat.mod_mod_of_dvd (pairCol v rt j lane) hcc
    rw [he]
    omega
  have hstart : 64 ∣ ptr + v.tile.elemBytes * (pairCol v rt j lane / v.tile.columnCols *
      v.tile.rows * v.tile.columnCols + (pairRow v rt n w i lane + below) * v.tile.columnCols) := by
    rw [← Nat.add_mul, Nat.mul_comm _ v.tile.columnCols, ← Nat.mul_assoc, hmul]
    exact Nat.dvd_add (Nat.dvd_trans (by decide) haligned) (Nat.dvd_mul_right_of_dvd hbytes _)
  unfold pairAddr
  -- The start of the row is at a boundary, so the place in it decides.
  simp only
  rw [Nat.mul_add v.tile.elemBytes _ (pairCol v rt j lane % v.tile.columnCols), ← Nat.add_assoc,
    Nat.add_mod, Nat.mod_eq_zero_of_dvd hstart, Nat.zero_add, Nat.mod_mod, hplace]

/-- The elements of a base tile after the first ones of a pair are in the same column. -/
theorem pair_offset (h : Fits v rt n) (he : v.tile.elemBytes = 4)
    (hbytes : 64 ∣ v.tile.swizzleBytes) {d : Nat} (hd : d < 10) (r j lane : Nat) :
    v.tile.offset r (pairCol v rt j lane + d) = v.tile.offset r (pairCol v rt j lane) + d := by
  have hmul := v.tile.columnCols_mul
  have hcol := pairCol_mod h he j lane
  obtain ⟨m, hm⟩ : 16 ∣ v.tile.columnCols := by
    obtain ⟨m, hm⟩ := hbytes
    exact ⟨m, by rw [he, hm] at hmul; omega⟩
  have hmod := Nat.mod_mod_of_dvd (pairCol v rt j lane) ⟨m, hm⟩
  have hlt := Nat.mod_lt (pairCol v rt j lane) v.tile.columnCols_pos
  apply v.tile.offset_add
  rw [hm] at hlt hmod ⊢
  omega

/-- The swizzle of the first address of a base tile is that of the others in its row. -/
theorem xor_swizzle (t : St) {a d : Nat} (hd : (a + d) / 2 ^ 7 = a / 2 ^ 7) (x : Nat) :
    (a + d) ^^^ (x ^^^ ((a % (t.swizzleBytes * 8)) >>> 7) <<< 4) =
      swizzle 4 7 t.swizzleBits (a + d) ^^^ x := by
  have hfield : ((a % (t.swizzleBytes * 8)) >>> 7) <<< 4 =
      (a + d) % 2 ^ (7 + t.swizzleBits) / 2 ^ 7 * 2 ^ 4 := by
    rw [t.swizzleRepeat_eq, Nat.shiftRight_eq_div_pow, Nat.shiftLeft_eq, field_eq, field_eq, hd]
  rw [hfield, swizzle, Nat.xor_comm x, Nat.xor_assoc]

/-- The addresses that `idx` gives in a base tile, as swizzled ones. -/
theorem idx_pair (h : Fits v rt n) (he : v.tile.elemBytes = 4) (hl : rt.layout = .row)
    (hswizzle : v.tile.swizzle = true) (hbytes : 64 ∣ v.tile.swizzleBytes) {k half x : Nat}
    (hk : k < 4) (hx : x < 2) (w i j lane : Nat) :
    v.idx ptr (tileRow rt n w i + baseRow rt lane k half) (tileCol rt j + baseCol rt lane k x) =
      swizzle 4 7 v.tile.swizzleBits
        (pairAddr v ptr rt n w i j lane (8 * (k % 2)) + 32 * (k / 2) + 4 * x) := by
  have hrow : tileRow rt n w i + baseRow rt lane k half + v.rowOffset =
      pairRow v rt n w i lane + 8 * (k % 2) := by
    rw [pairRow, v.rowOffset_eq]
    simp only [baseRow, hl]
    omega
  have hcol : tileCol rt j + baseCol rt lane k x + v.colOffset =
      pairCol v rt j lane + (8 * (k / 2) + x) := by
    rw [pairCol, v.colOffset_eq]
    simp only [baseCol, hl, h.num_two (by rw [he]; decide)]
    omega
  -- The lane's own row and column, with the two digits of the element.
  have hpair : pairAddr v ptr rt n w i j lane (8 * (k % 2)) = ptr + v.tile.elemBytes *
      v.tile.offset (pairRow v rt n w i lane + 8 * (k % 2)) (pairCol v rt j lane) := rfl
  rw [v.idx_eq (.inl hswizzle), St.idx_eq _ hswizzle, hrow, hcol,
    pair_offset h he hbytes (by omega), hpair, he]
  congr 1
  omega

/-- The element of a pair is where `idx` has it, with the two exchanged in half of the lanes. -/
theorem pairPlace_eq (h : Fits v rt n) (haligned : 128 ∣ ptr) (he : v.tile.elemBytes = 4)
    (hl : rt.layout = .row) {lane k half : Nat} (hk : k < 4) (hhalf : half < 2) (w i j : Nat) :
    pairPlace v ptr rt n w i j lane k half =
      v.idx ptr (tileRow rt n w i + baseRow rt lane k half)
        (tileCol rt j + baseCol rt lane k (if blit lane ≠ 0 then 1 - half else half)) := by
  obtain ⟨hswizzle, hthirtyTwo⟩ := h.pairs he hl
  have hbytes : 64 ∣ v.tile.swizzleBytes := by
    rcases v.tile.swizzleBytes_cases with hb | hb | hb
    · exact absurd hb hthirtyTwo
    · rw [hb]
    · rw [hb]
      decide
  have hmod := pairAddr_mod h haligned he hbytes w i j lane (8 * (k % 2))
  have hcell {x : Nat} (hx : x < 2) :=
    @idx_pair v rt n ptr h he hl hswizzle hbytes k half x hk hx w i j lane
  unfold pairPlace
  generalize pairAddr v ptr rt n w i j lane (8 * (k % 2)) = A at hmod hcell ⊢
  -- A pair is in one unit, which the swizzle moves as a whole.
  have hpair {x : Nat} (hx : x < 2) :
      swizzle 4 7 v.tile.swizzleBits (A + 32 * (k / 2) + 4 * x) =
        swizzle 4 7 v.tile.swizzleBits (A + 32 * (k / 2)) + 4 * x :=
    swizzle_add (by decide) (by omega)
  have hdvd : 8 ∣ swizzle 4 7 v.tile.swizzleBits (A + 32 * (k / 2)) := by
    have := @swizzle_mod 4 7 v.tile.swizzleBits (A + 32 * (k / 2))
    omega
  have hblock : (A + (32 * (k / 2) + 4 * half)) / 2 ^ 7 = A / 2 ^ 7 := by omega
  simp only
  rw [xor_swizzle v.tile hblock, ← Nat.add_assoc, hpair hhalf]
  split_ifs with hblit
  · have hfour : blit lane = 4 := by
      unfold blit at hblit ⊢
      omega
    rw [hcell (by omega), hpair (by omega), hfour, xor_blit hdvd hhalf]
  · rw [hcell hhalf, hpair hhalf, not_not.mp hblit, Nat.xor_zero]

/-- The element of a lane is where `idx` has it. -/
theorem columnPlace_eq (hl : rt.layout = .col) (w i j lane k half : Nat) :
    columnPlace v ptr rt n w i j lane k half =
      v.idx ptr (tileRow rt n w i + baseRow rt lane k half)
        (tileCol rt j + baseCol rt lane k half) := by
  unfold columnPlace
  simp only [baseRow, baseCol, hl, Nat.add_assoc]

end Places

/-! ## The tile in memory -/

section Transfer

variable {V U : Type*} {v : View} {rt : Rt} {n ptr : Nat}

/-- The place of the element of a register. -/
def place (v : View) (ptr : Nat) (rt : Rt) (groupWarps : Nat) (s : Slot) : Nat :=
  v.idx ptr (coord rt groupWarps s).1 (coord rt groupWarps s).2

theorem mem_laneSlots {lane k half : Nat} :
    (lane, k, half) ∈ laneSlots ↔ lane < 32 ∧ k < 4 ∧ half < 2 := by
  unfold laneSlots
  simp only [List.mem_flatMap, List.mem_map, List.mem_range, Prod.mk.injEq]
  constructor
  · rintro ⟨_, hl, _, hk, _, hh, rfl, rfl, rfl⟩
    exact ⟨hl, hk, hh⟩
  · rintro ⟨hl, hk, hh⟩
    exact ⟨lane, hl, k, hk, half, hh, rfl, rfl, rfl⟩

theorem length_laneSlots : laneSlots.length = 256 := by
  unfold laneSlots
  simp only [List.length_flatMap, List.length_map, List.length_range, List.map_const',
    List.sum_replicate_nat]

/-- The path of the last branch is for tiles by columns. -/
theorem columns_of_not (htwo : v.tile.elemBytes ≠ 2)
    (hone : ¬(rt.layout = .row ∧ v.tile.elemBytes = 1))
    (hfour : ¬(rt.layout = .row ∧ v.tile.elemBytes = 4)) : rt.layout = .col := by
  cases hl : rt.layout with
  | col => rfl
  | row =>
      rcases v.tile.sized with he | he | he
      · exact absurd ⟨hl, he⟩ hone
      · exact absurd he htwo
      · exact absurd ⟨hl, he⟩ hfour

/-- Each register is read from the place of its element. -/
theorem load_eq (h : Fits v rt n) (haligned : 128 ∣ ptr) (convert : U → V) (mem : Nat → U)
    {s : Slot} (hs : s.Valid rt n) :
    load v ptr rt n convert mem s = convert (mem (place v ptr rt n s)) := by
  unfold load place coord
  split_ifs with htwo hone hfour hblit
  · cases hl : rt.layout with
    | row =>
        have hrow := rowAddr_row (k := s.k) h haligned (.inr htwo) hl hs.lane hs.half s.warp s.i s.j
        simp only [ldsm4]
        rw [← hrow, htwo]
    | col =>
        have hcol := rowAddr_col h haligned htwo hl hs.lane hs.k (h.num hl ▸ hs.half)
          s.warp s.i s.j
        simp only [ldsm4t]
        rw [← hcol]
  · have hrow := rowAddr_row (k := s.k) h haligned (.inl hone.2) hone.1 hs.lane hs.half s.warp s.i
      s.j
    simp only [ldsm4]
    rw [← hrow, hone.2]
  · -- The lane reads the two of a pair in the other order, and exchanges them.
    have hhalf : s.half < 2 := h.num_two (by rw [hfour.2]; decide) ▸ hs.half
    have hback : 1 - (1 - s.half) = s.half := by omega
    have hsame : baseRow rt s.lane s.k (1 - s.half) = baseRow rt s.lane s.k s.half := by
      simp only [baseRow, hfour.1]
    simp only
    rw [pairPlace_eq h haligned hfour.2 hfour.1 hs.k (by omega), if_pos hblit, hback, hsame]
  · have hhalf : s.half < 2 := h.num_two (by rw [hfour.2]; decide) ▸ hs.half
    simp only
    rw [pairPlace_eq h haligned hfour.2 hfour.1 hs.k hhalf, if_neg hblit]
  · rw [columnPlace_eq (columns_of_not htwo hone hfour)]

/-- Both elements of a pair are exchanged in the register and in their places. -/
theorem pair_write (h : Fits v rt n) (haligned : 128 ∣ ptr) (he : v.tile.elemBytes = 4)
    (hl : rt.layout = .row) (src : Nat → Nat → Nat → U) {lane k half : Nat} (hk : k < 4)
    (hhalf : half < 2) (w i j : Nat) :
    (pairPlace v ptr rt n w i j lane k half,
        if blit lane ≠ 0 then src k lane (1 - half) else src k lane half) =
      (v.idx ptr
          (tileRow rt n w i + baseRow rt lane k (if blit lane ≠ 0 then 1 - half else half))
          (tileCol rt j + baseCol rt lane k (if blit lane ≠ 0 then 1 - half else half)),
        src k lane (if blit lane ≠ 0 then 1 - half else half)) := by
  have hsame (x y : Nat) : baseRow rt lane k x = baseRow rt lane k y := by
    simp only [baseRow, hl]
  rw [pairPlace_eq h haligned he hl hk hhalf, hsame half, apply_ite (src k lane)]

/-- The rows that are stored by matrices. -/
theorem mem_rowTile (h : Fits v rt n) (haligned : 128 ∣ ptr)
    (he : v.tile.elemBytes = 1 ∨ v.tile.elemBytes = 2) (hl : rt.layout = .row)
    (src : Nat → Nat → Nat → U) {w i j : Nat} {x : Nat × U} :
    x ∈ stsm4 v.tile.elemBytes (rowAddr v ptr rt n w i j) src ↔
      ∃ lane k half, lane < 32 ∧ k < 4 ∧ half < rt.num ∧
        x = (place v ptr rt n ⟨w, lane, i, j, k, half⟩, src k lane half) := by
  have hnum : 4 / v.tile.elemBytes = rt.num := by
    rw [← h.num_mul he, Nat.mul_div_cancel_left _ v.tile.elemBytes_pos]
  unfold place coord
  rw [mem_stsm4 he, hnum]
  constructor
  · rintro ⟨k, lane, half, hk, hlane, hhalf, rfl⟩
    refine ⟨lane, k, half, hlane, hk, hhalf, ?_⟩
    rw [← rowAddr_row h haligned he hl hlane hhalf, hnum]
  · rintro ⟨lane, k, half, hlane, hk, hhalf, rfl⟩
    refine ⟨k, lane, half, hk, hlane, hhalf, ?_⟩
    rw [← rowAddr_row h haligned he hl hlane hhalf, hnum]

/-- The columns that are stored by matrices. The matrix of the instruction is that of another
    register. -/
theorem mem_colTile (h : Fits v rt n) (haligned : 128 ∣ ptr) (he : v.tile.elemBytes = 2)
    (hl : rt.layout = .col) (src : Nat → Nat → Nat → U) {w i j : Nat} {x : Nat × U} :
    x ∈ stsm4t (rowAddr v ptr rt n w i j) (fun m => src (transOrder m)) ↔
      ∃ lane k half, lane < 32 ∧ k < 4 ∧ half < rt.num ∧
        x = (place v ptr rt n ⟨w, lane, i, j, k, half⟩, src k lane half) := by
  have hnum := h.num hl
  unfold place coord
  rw [mem_stsm4t, hnum]
  constructor
  · rintro ⟨m, lane, half, hm, hlane, hhalf, rfl⟩
    refine ⟨lane, transOrder m, half, hlane, transOrder_lt hm, hhalf, ?_⟩
    rw [← rowAddr_col h haligned he hl hlane (transOrder_lt hm) hhalf, transOrder_transOrder]
  · rintro ⟨lane, k, half, hlane, hk, hhalf, rfl⟩
    refine ⟨transOrder k, lane, half, transOrder_lt hk, hlane, hhalf, ?_⟩
    rw [← rowAddr_col h haligned he hl hlane hk hhalf, transOrder_transOrder]

/-- A warp writes each of its registers of a base tile to the place of the element. -/
theorem mem_storeTile (h : Fits v rt n) (haligned : 128 ∣ ptr) (src : Nat → Nat → Nat → U)
    {w i j : Nat} {x : Nat × U} :
    x ∈ storeTile v ptr rt n src w i j ↔ ∃ lane k half, lane < 32 ∧ k < 4 ∧ half < rt.num ∧
      x = (place v ptr rt n ⟨w, lane, i, j, k, half⟩, src k lane half) := by
  unfold storeTile
  -- One case for each path, as in the source.
  split_ifs with htwo hone hfour
  · cases hl : rt.layout with
    | row =>
        have hmem := @mem_rowTile _ v rt n ptr h haligned (.inr htwo) hl src w i j x
        rw [htwo] at hmem
        exact hmem
    | col => exact mem_colTile h haligned htwo hl src
  · have hmem := @mem_rowTile _ v rt n ptr h haligned (.inl hone.2) hone.1 src w i j x
    rw [hone.2] at hmem
    exact hmem
  · rw [h.num_two (by rw [hfour.2]; decide)]
    simp only [List.mem_map, Prod.exists]
    constructor
    · rintro ⟨lane, k, half, hmem, rfl⟩
      obtain ⟨hlane, hk, hhalf⟩ := mem_laneSlots.mp hmem
      refine ⟨lane, k, if blit lane ≠ 0 then 1 - half else half, hlane, hk, ?_,
        pair_write h haligned hfour.2 hfour.1 src hk hhalf w i j⟩
      split_ifs <;> omega
    · rintro ⟨lane, k, half, hlane, hk, hhalf, rfl⟩
      refine ⟨lane, k, if blit lane ≠ 0 then 1 - half else half,
        mem_laneSlots.mpr ⟨hlane, hk, ?_⟩, ?_⟩
      · split_ifs <;> omega
      · -- To exchange a pair twice is to leave it.
        have hback : (if blit lane ≠ 0 then 1 - (if blit lane ≠ 0 then 1 - half else half)
            else if blit lane ≠ 0 then 1 - half else half) = half := by
          split_ifs <;> omega
        rw [pair_write h haligned hfour.2 hfour.1 src hk (by split_ifs <;> omega), hback]
        rfl
  · have hl := columns_of_not htwo hone hfour
    rw [h.num hl]
    simp only [List.mem_map, Prod.exists]
    constructor
    · rintro ⟨lane, k, half, hmem, rfl⟩
      obtain ⟨hlane, hk, hhalf⟩ := mem_laneSlots.mp hmem
      refine ⟨lane, k, half, hlane, hk, hhalf, ?_⟩
      rw [columnPlace_eq hl]
      rfl
    · rintro ⟨lane, k, half, hlane, hk, hhalf, rfl⟩
      refine ⟨lane, k, half, mem_laneSlots.mpr ⟨hlane, hk, hhalf⟩, ?_⟩
      rw [columnPlace_eq hl]
      rfl

/-- Each register is written to the place of its element. -/
theorem mem_storeWrites (h : Fits v rt n) (haligned : 128 ∣ ptr) (convert : V → U) (src : Slot → V)
    {x : Nat × U} :
    x ∈ storeWrites v ptr rt n convert src ↔
      ∃ s : Slot, s.Valid rt n ∧ x = (place v ptr rt n s, convert (src s)) := by
  unfold storeWrites
  simp only [List.mem_flatMap, List.mem_range, mem_storeTile h haligned]
  constructor
  · rintro ⟨w, hw, i, hi, j, hj, lane, k, half, hlane, hk, hhalf, rfl⟩
    exact ⟨⟨w, lane, i, j, k, half⟩, ⟨hw, hlane, hi, hj, hk, hhalf⟩, rfl⟩
  · rintro ⟨s, hs, rfl⟩
    exact ⟨s.warp, hs.warp, s.i, hs.i, s.j, hs.j, s.lane, s.k, s.half, hs.lane, hs.k, hs.half, rfl⟩

/-- The places of the registers are those of the elements of the view. -/
theorem bijOn_place (h : Fits v rt n) (haligned : 128 ∣ ptr) :
    BijOn (place v ptr rt n) {s | s.Valid rt n}
      ((fun rc : Nat × Nat => v.idx ptr rc.1 rc.2) '' Iio v.rows ×ˢ Iio v.cols) := by
  have hcoord := @bijOn_coord rt h.num n
  rw [← h.rows, ← h.cols] at hcoord
  have hidx : InjOn (fun rc : Nat × Nat => v.idx ptr rc.1 rc.2) (Iio v.rows ×ˢ Iio v.cols) := by
    intro rc hrc rc' hrc' heq
    obtain ⟨hr, hc⟩ := v.idx_inj h.places h.whole haligned hrc.1 hrc'.1 hrc.2 hrc'.2 heq
    exact Prod.ext hr hc
  exact hidx.bijOn_image.comp hcoord

/-- No two writes disagree about a place. -/
theorem agree_storeWrites (h : Fits v rt n) (haligned : 128 ∣ ptr) (convert : V → U)
    (src : Slot → V) : Agree (storeWrites v ptr rt n convert src) := by
  intro a x x' hx hx'
  obtain ⟨s, hs, heq⟩ := (mem_storeWrites h haligned convert src).mp hx
  obtain ⟨s', hs', heq'⟩ := (mem_storeWrites h haligned convert src).mp hx'
  simp only [Prod.mk.injEq] at heq heq'
  have hsame := (bijOn_place h haligned).injOn hs hs' (heq.1.symm.trans heq'.1)
  rw [heq.2, heq'.2, hsame]

/-- The writes of a warp for a base tile are as many as its registers. -/
theorem length_storeTile (h : Fits v rt n) (src : Nat → Nat → Nat → U) (w i j : Nat) :
    (storeTile v ptr rt n src w i j).length = 128 * rt.num := by
  unfold storeTile
  split_ifs with htwo hone hfour
  · rw [h.num_two (by rw [htwo]; decide)]
    split <;>
      simp only [stsm4, stsm4t, List.length_flatMap, List.length_map, List.length_range,
        List.map_const', List.sum_replicate_nat]
  · rw [Rt.num, if_pos (h.bytes.mp hone.2)]
    simp only [stsm4, List.length_flatMap, List.length_map, List.length_range, List.map_const',
      List.sum_replicate_nat]
  · rw [h.num_two (by rw [hfour.2]; decide), List.length_map, length_laneSlots]
  · rw [h.num (columns_of_not htwo hone hfour), List.length_map, length_laneSlots]

/-- The writes are as many as the elements. -/
theorem length_storeWrites (h : Fits v rt n) (convert : V → U) (src : Slot → V) :
    (storeWrites v ptr rt n convert src).length = v.rows * v.cols := by
  unfold storeWrites
  simp only [List.length_flatMap, length_storeTile h, List.map_const', List.length_range,
    List.sum_replicate_nat]
  rw [h.rows, h.cols, Rt.rows, Rt.cols, Rt.tileSizeCol_eq, Rt.tileSizeRow, tileRowDim, baseTileDim]
  ring

/-- Each place is written once. -/
theorem nodup_storeWrites (h : Fits v rt n) (haligned : 128 ∣ ptr) (convert : V → U)
    (src : Slot → V) : ((storeWrites v ptr rt n convert src).map Prod.fst).Nodup := by
  -- The places written are those of the view.
  have hplaces : ((storeWrites v ptr rt n convert src).map Prod.fst).toFinset =
      (Finset.range v.rows ×ˢ Finset.range v.cols).image fun rc => v.idx ptr rc.1 rc.2 := by
    ext a
    have hset := (bijOn_place h haligned).image_eq
    have himage : a ∈ (fun rc : Nat × Nat => v.idx ptr rc.1 rc.2) '' Iio v.rows ×ˢ Iio v.cols ↔
        a ∈ place v ptr rt n '' {s | s.Valid rt n} := by rw [hset]
    simp only [List.mem_toFinset, List.mem_map, mem_storeWrites h haligned, Finset.mem_image,
      Finset.mem_product, Finset.mem_range]
    simp only [mem_image, mem_prod, mem_Iio, mem_ofPred_eq] at himage
    rw [himage]
    constructor
    · rintro ⟨_, ⟨s, hs, rfl⟩, rfl⟩
      exact ⟨s, hs, rfl⟩
    · rintro ⟨s, hs, rfl⟩
      exact ⟨_, ⟨s, hs, rfl⟩, rfl⟩
  -- As many places as writes, so no two are one.
  have hcard : ((storeWrites v ptr rt n convert src).map Prod.fst).toFinset.card =
      ((storeWrites v ptr rt n convert src).map Prod.fst).length := by
    rw [hplaces, Finset.card_image_of_injOn, Finset.card_product, Finset.card_range,
      Finset.card_range, List.length_map, length_storeWrites h]
    -- The view has no two elements in one place.
    intro rc hrc rc' hrc' heq
    simp only [Finset.coe_product, Finset.coe_range] at hrc hrc'
    obtain ⟨hr, hc⟩ := v.idx_inj h.places h.whole haligned hrc.1 hrc'.1 hrc.2 hrc'.2 heq
    exact Prod.ext hr hc
  exact Multiset.coe_nodup.mp (Multiset.toFinset_card_eq_card_iff_nodup.mp hcard)

/-- However the writes of a group arrive, each register is in its place after them. -/
theorem scatter_store (h : Fits v rt n) (haligned : 128 ∣ ptr) (convert : V → U) (src : Slot → V)
    (mem : Nat → U) {ws : List (Nat × U)} (hws : ws.Perm (storeWrites v ptr rt n convert src))
    {s : Slot} (hs : s.Valid rt n) :
    scatter mem ws (v.idx ptr (coord rt n s).1 (coord rt n s).2) = convert (src s) := by
  have hagree := agree_storeWrites h haligned convert src
  rw [scatter_perm hagree hws]
  exact scatter_of_mem hagree ((mem_storeWrites h haligned convert src).mpr ⟨s, hs, rfl⟩)

/-- A group stores its registers, and its writes arrive in any order. Each place of the view is
    written once, with the element that `coord` puts there, and nothing else is
    written. A group of any size that loads the view, into registers of any layout, then has in
    each register the element that was stored for that place. -/
theorem store_load (h : Fits v rt n) (haligned : 128 ∣ ptr) (convert : V → U) (src : Slot → V)
    (mem : Nat → U) {ws : List (Nat × U)} (hws : ws.Perm (storeWrites v ptr rt n convert src)) :
    BijOn (coord rt n) {s | s.Valid rt n} (Iio v.rows ×ˢ Iio v.cols) ∧
    (ws.map Prod.fst).Nodup ∧
    (∀ s : Slot, s.Valid rt n →
      scatter mem ws (v.idx ptr (coord rt n s).1 (coord rt n s).2) = convert (src s)) ∧
    (∀ a, (∀ r < v.rows, ∀ c < v.cols, a ≠ v.idx ptr r c) → scatter mem ws a = mem a) ∧
    ∀ {rt' : Rt} {n' : Nat} {W : Type*} (back : U → W), Fits v rt' n' →
      ∀ s s' : Slot, s.Valid rt n → s'.Valid rt' n' → coord rt n s = coord rt' n' s' →
        load v ptr rt' n' back (scatter mem ws) s' = back (convert (src s)) := by
  refine ⟨?_, ?_, fun s hs => scatter_store h haligned convert src mem hws hs, fun a ha => ?_,
    fun {rt' n' _} back h' s s' hs hs' heq => ?_⟩
  · rw [h.rows, h.cols]
    exact bijOn_coord h.num n
  · exact (hws.map Prod.fst).nodup_iff.mpr (nodup_storeWrites h haligned convert src)
  · -- A write goes to a place of the view.
    apply scatter_of_notMem
    intro x hx
    obtain ⟨s, hs, hplace⟩ := (mem_storeWrites h haligned convert src).mp (hws.mem_iff.mp hx)
    have hcoord := (bijOn_coord h.num n).mapsTo hs
    rw [← h.rows, ← h.cols] at hcoord
    exact ha _ hcoord.1 _ hcoord.2 (congrArg Prod.fst hplace)
  · -- The load reads the place that the store wrote.
    rw [load_eq h' haligned back _ hs']
    have hsame : place v ptr rt' n' s' = place v ptr rt n s := by rw [place, place, heq]
    rw [hsame, place, scatter_store h haligned convert src mem hws hs]

/-- The accumulators of a warp of a warpgroup, a `rt_fl<16, 256>`. -/
def accumTile : Rt where
  elemBytes := 4
  height := 1
  width := 16
  layout := .row

theorem fits_outputTile :
    Fits (St.outputTile.whole (by decide) (by decide)) accumTile 4 where
  rows := rfl
  cols := rfl
  bytes := by decide
  layout h := absurd h (by decide)
  places := .inl rfl
  whole _ := St.swizzleBytes_dvd _ rfl rfl
  pairs h := absurd h (by decide)

/-- The last element of the last lane of a warpgroup is stored, and another group of the same
    shape loads it. -/
theorem store_load_outputTile :
    load (St.outputTile.whole (by decide) (by decide)) 1024 accumTile 4 id
      (scatter (fun _ => 0) (storeWrites (St.outputTile.whole (by decide) (by decide)) 1024
        accumTile 4 id fun s => 32 * s.warp + s.lane)) ⟨3, 31, 0, 15, 3, 1⟩ = 127 :=
  have hvalid : Slot.Valid accumTile 4 ⟨3, 31, 0, 15, 3, 1⟩ :=
    ⟨by decide, by decide, by decide, by decide, by decide, by decide⟩
  (store_load fits_outputTile (by decide) id (fun s => 32 * s.warp + s.lane) (fun _ => 0)
    (List.Perm.refl _)).2.2.2.2 id fits_outputTile _ _ hvalid hvalid rfl

end Transfer

end Kittens

end MKernel
