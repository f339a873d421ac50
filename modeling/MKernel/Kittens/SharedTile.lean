import Mathlib.Tactic.Ring
import MKernel.Core.Swizzle
import MKernel.Core.TileOrder

/-!
# Shared Tiles

Where the elements of a tile lie in shared memory.

A swizzled tile is stored in columns of `swizzle_bytes` bytes, one column after the
other, and each of them row by row. Then 16 bytes stay together, and which of the
places for 16 bytes in a block of `swizzle_bytes` they take depends on the row, so that
the rows of a column are spread over the banks. A tile that is not swizzled is stored
row by row.

`idx` is called for each element, by many lanes and warps, and it has to give each its
own place in the tile. It does if `swizzle_bytes` divides the bytes of a row, which
the source asks for in a comment (`idx_bijOn_iff`). The choice it makes by itself always
divides (`swizzleBytes_dvd`), and the `static_assert` below the comment lets a choice of
the user pass that does not.

A tile can be taken apart in two ways. The columns of a swizzled tile are tiles of their
own (`subtile_idx_iff`), and any rectangle has a view that adds its offsets (`View.idx_iff`).
Of a tile that is not swizzled, neither has the places of the tile.

## Main definitions

* `St`: A tile, with what the `static_assert`s say of it.
* `swizzleBytes`: The bytes of a row of a column.
* `idx`: The address of an element.
* `subtile`, `subtilePtr`: A true subtile.
* `View`: A `st_subtile`.

## Theorems

* `idx_bijOn_iff`: When each element has its own place in the tile.
* `subtile_idx_iff`: A true subtile has the places of the tile.
* `View.idx_iff`: When a view has the places of the tile.
-/

namespace MKernel

namespace Kittens

open MKernel.Core Set

/-- `kittens::BASE_TILE_DIM` -/
def baseTileDim : Nat := 16

/-- `kittens::TILE_ROW_DIM` -/
def tileRowDim : Nat := baseTileDim

/-- `kittens::TILE_COL_DIM` -/
def tileColDim (elemBytes : Nat) : Nat :=
  if elemBytes = 1 then baseTileDim * 2 else baseTileDim

/-- `kittens::st` -/
structure St where
  /-- `sizeof(T)` -/
  elemBytes : Nat
  rows : Nat
  cols : Nat
  swizzle : Bool
  /-- `_swizzle_bytes`, which is zero where the tile is to choose. -/
  chosenBytes : Nat
  sized : elemBytes = 1 ∨ elemBytes = 2 ∨ elemBytes = 4
  rows_pos : 0 < rows
  cols_pos : 0 < cols
  rows_dvd : swizzle = true → tileRowDim ∣ rows
  cols_dvd : (if swizzle then tileColDim elemBytes else baseTileDim) ∣ cols
  chosen : chosenBytes = 0 ∨ chosenBytes = 32 ∨ chosenBytes = 64 ∨ chosenBytes = 128

namespace St

/-- `st::swizzle_bytes` -/
def swizzleBytes (t : St) : Nat :=
  if 0 < t.chosenBytes then t.chosenBytes
  else if t.elemBytes = 1 ∨ t.elemBytes = 2 then
    if t.cols / tileColDim t.elemBytes % 4 = 0 then 128
    else if t.cols / tileColDim t.elemBytes % 2 = 0 then 64
    else 32
  else if t.cols / tileColDim t.elemBytes % 2 = 0 then 128
  else 64

/-- `subtile_cols` of `st::idx`, the elements of a row of a column. -/
def columnCols (t : St) : Nat := t.swizzleBytes / t.elemBytes

/-- `st::idx` -/
def idx (t : St) (ptr r c : Nat) : Nat :=
  if t.swizzle then
    let swizzleRepeat := t.swizzleBytes * 8
    let outerIdx := c / t.columnCols
    let addr := ptr + t.elemBytes *
      (outerIdx * t.rows * t.columnCols + r * t.columnCols + c % t.columnCols)
    addr ^^^ ((addr % swizzleRepeat) >>> 7) <<< 4
  else
    ptr + t.elemBytes * (r * t.cols + c)

/-! ## Sizes -/

variable (t : St)

theorem elemBytes_pos : 0 < t.elemBytes := by
  rcases t.sized with h | h | h <;> rw [h] <;> decide

/-- An element fits into a unit of the swizzle. -/
theorem elemBytes_dvd : t.elemBytes ∣ 2 ^ 4 := by
  rcases t.sized with h | h | h <;> rw [h] <;> decide

/-- The bytes of a row of a column are 32, 64 or 128. -/
theorem swizzleBytes_cases :
    t.swizzleBytes = 32 ∨ t.swizzleBytes = 64 ∨ t.swizzleBytes = 128 := by
  have := t.chosen
  unfold swizzleBytes
  split_ifs <;> omega

/-- The bits a swizzle adds. -/
def swizzleBits : Nat :=
  if t.swizzleBytes = 32 then 1 else if t.swizzleBytes = 64 then 2 else 3

theorem swizzleBits_le : t.swizzleBits ≤ 3 := by
  unfold swizzleBits
  split_ifs <;> decide

theorem swizzleBytes_eq : t.swizzleBytes = 2 ^ (4 + t.swizzleBits) := by
  unfold swizzleBits
  rcases t.swizzleBytes_cases with h | h | h <;> rw [h] <;> decide

theorem swizzleBytes_pos : 0 < t.swizzleBytes := by
  rw [swizzleBytes_eq]
  exact Nat.two_pow_pos _

/-- A row of a column has whole elements. -/
theorem columnCols_mul : t.elemBytes * t.columnCols = t.swizzleBytes := by
  have hdvd : t.elemBytes ∣ t.swizzleBytes := by
    rw [swizzleBytes_eq, Nat.pow_add]
    exact Nat.dvd_mul_right_of_dvd t.elemBytes_dvd _
  exact Nat.mul_div_cancel' hdvd

theorem columnCols_pos : 0 < t.columnCols :=
  Nat.pos_of_mul_pos_left (t.columnCols_mul ▸ t.swizzleBytes_pos)

/-- The choice for base tiles of 32 bytes. -/
theorem choice_dvd (w : Nat) :
    (if w % 4 = 0 then 128 else if w % 2 = 0 then 64 else 32) ∣ 32 * w := by
  split_ifs <;> omega

/-- The choice for base tiles of 64 bytes. -/
theorem choice_dvd_wide (w : Nat) : (if w % 2 = 0 then 128 else 64) ∣ 64 * w := by
  split_ifs <;> omega

/-- A base tile is 32 bytes wide, and 64 for elements of four bytes. -/
theorem tileColDim_mul :
    tileColDim t.elemBytes * t.elemBytes =
      if t.elemBytes = 1 ∨ t.elemBytes = 2 then 32 else 64 := by
  rcases t.sized with h | h | h <;> rw [h] <;> decide

/-- The choice a tile makes by itself divides the bytes of a row. -/
theorem swizzleBytes_dvd (hswizzle : t.swizzle = true) (hchosen : t.chosenBytes = 0) :
    t.swizzleBytes ∣ t.cols * t.elemBytes := by
  have hcols := t.cols_dvd
  rw [hswizzle, if_pos rfl] at hcols
  obtain ⟨w, hw⟩ := hcols
  have hpos : 0 < tileColDim t.elemBytes := by
    unfold tileColDim
    split_ifs <;> decide
  have hdiv : t.cols / tileColDim t.elemBytes = w := by
    rw [hw, Nat.mul_div_cancel_left _ hpos]
  have hwide : t.cols * t.elemBytes = tileColDim t.elemBytes * t.elemBytes * w := by
    rw [hw, Nat.mul_right_comm]
  -- The choice is made by the base tiles of a row, and each has as many bytes.
  unfold swizzleBytes
  rw [hdiv, if_neg (by rw [hchosen]; exact Nat.lt_irrefl 0), hwide, tileColDim_mul]
  by_cases h : t.elemBytes = 1 ∨ t.elemBytes = 2
  · rw [if_pos h, if_pos h]
    exact choice_dvd w
  · rw [if_neg h, if_neg h]
    exact choice_dvd_wide w

/-! ## Places -/

/-- The place of an element before it is swizzled. -/
def offset (r c : Nat) : Nat :=
  c / t.columnCols * t.rows * t.columnCols + r * t.columnCols + c % t.columnCols

theorem swizzleRepeat_eq : t.swizzleBytes * 8 = 2 ^ (7 + t.swizzleBits) := by
  rw [swizzleBytes_eq, Nat.pow_add, Nat.pow_add, Nat.mul_right_comm]

/-- The address of an element is a swizzled one. -/
theorem idx_eq (hswizzle : t.swizzle = true) (ptr r c : Nat) :
    t.idx ptr r c =
      Core.swizzle 4 7 t.swizzleBits (ptr + t.elemBytes * t.offset r c) := by
  unfold idx Core.swizzle
  rw [if_pos hswizzle]
  simp only [swizzleRepeat_eq, Nat.shiftRight_eq_div_pow, Nat.shiftLeft_eq, offset]

theorem idx_of_not_swizzle (hswizzle : t.swizzle = false) (ptr r c : Nat) :
    t.idx ptr r c = ptr + t.elemBytes * (r * t.cols + c) := by
  unfold idx
  rw [if_neg (by rw [hswizzle]; exact Bool.false_ne_true)]

/-- The place of an element in its column, whose rows follow one another. -/
theorem offset_eq (r c : Nat) :
    t.offset r c = (c / t.columnCols * t.rows + r) * t.columnCols + c % t.columnCols := by
  rw [offset, Nat.add_mul]

/-- The elements of a tile of whole columns are numbered without gaps. -/
theorem bijOn_offset (hdvd : t.columnCols ∣ t.cols) :
    BijOn (fun rc : Nat × Nat => t.offset rc.1 rc.2) (Iio t.rows ×ˢ Iio t.cols)
      (Iio (t.rows * t.cols)) := by
  obtain ⟨n, hn⟩ := hdvd
  have hpos := t.columnCols_pos
  refine ⟨fun rc hrc => ?_, fun rc hrc rc' hrc' heq => ?_, fun m hm => ?_⟩
  -- A place has three digits: the column, the row of it, and the element of that.
  · have hr : rc.1 < t.rows := hrc.1
    have hc : rc.2 < n * t.columnCols := by
      rw [Nat.mul_comm, ← hn]
      exact hrc.2
    have hcol : rc.2 / t.columnCols < n := (Nat.div_lt_iff_lt_mul hpos).mpr hc
    have hplace := place_lt (place_lt hcol hr) (Nat.mod_lt rc.2 hpos)
    have htotal : n * t.rows * t.columnCols = t.rows * t.cols := by
      rw [hn]
      ring
    simp only [mem_Iio, offset_eq]
    exact htotal ▸ hplace
  · simp only [offset_eq] at heq
    have hinner := place_inj (Nat.mod_lt _ hpos) (Nat.mod_lt _ hpos) heq
    have houter := place_inj hrc.1 hrc'.1 hinner.1
    refine Prod.ext houter.2 ?_
    rw [← Nat.div_add_mod rc.2 t.columnCols, ← Nat.div_add_mod rc'.2 t.columnCols, houter.1,
      hinner.2]
  · have hm' : m < n * t.rows * t.columnCols := by
      rw [Nat.mul_comm n, Nat.mul_assoc, Nat.mul_comm n, ← hn]
      exact hm
    have hdiv : m / t.columnCols < n * t.rows := (Nat.div_lt_iff_lt_mul hpos).mpr hm'
    have hcol : m / t.columnCols / t.rows < n := (Nat.div_lt_iff_lt_mul t.rows_pos).mpr hdiv
    refine ⟨(m / t.columnCols % t.rows,
      m / t.columnCols / t.rows * t.columnCols + m % t.columnCols), ⟨?_, ?_⟩, ?_⟩
    · exact Nat.mod_lt _ t.rows_pos
    · have hlt := place_lt hcol (Nat.mod_lt m hpos)
      rw [mem_Iio, hn, Nat.mul_comm t.columnCols]
      exact hlt
    · simp only [offset_eq]
      rw [place_div (Nat.mod_lt _ hpos), Nat.mul_add_mod', Nat.mod_mod, Nat.div_add_mod',
        Nat.div_add_mod']

/-- The numbered elements lie in the array one after the other. -/
theorem bijOn_cells (ptr n : Nat) :
    BijOn (fun m => ptr + t.elemBytes * m) (Iio n) (cells ptr t.elemBytes n) := by
  refine ⟨fun m hm => ⟨m, hm, rfl⟩, fun m _ m' _ heq => ?_, fun a ha => ?_⟩
  · exact Nat.eq_of_mul_eq_mul_left t.elemBytes_pos (Nat.add_left_cancel heq)
  · obtain ⟨m, hm, rfl⟩ := ha
    exact ⟨m, hm, rfl⟩

/-- A swizzled tile has whole blocks of 128 bytes. -/
theorem block_dvd (hswizzle : t.swizzle = true) :
    128 ∣ t.elemBytes * (t.rows * t.cols) := by
  have hcols := t.cols_dvd
  rw [hswizzle, if_pos rfl] at hcols
  obtain ⟨h, hh⟩ := t.rows_dvd hswizzle
  obtain ⟨w, hw⟩ := hcols
  have hbase : 128 ∣ tileRowDim * (t.elemBytes * tileColDim t.elemBytes) := by
    rcases t.sized with he | he | he <;> rw [he] <;> decide
  rw [hh, hw]
  obtain ⟨u, hu⟩ := hbase
  refine ⟨u * (h * w), ?_⟩
  calc t.elemBytes * (tileRowDim * h * (tileColDim t.elemBytes * w))
      = tileRowDim * (t.elemBytes * tileColDim t.elemBytes) * (h * w) := by ring
    _ = 128 * (u * (h * w)) := by rw [hu, Nat.mul_assoc]

/-- Where `swizzle_bytes` does not divide the bytes of a row, the last column is taken for
    one of whole width, and its last row lies behind the tile. -/
theorem exists_outside (hswizzle : t.swizzle = true) (hdvd : ¬t.columnCols ∣ t.cols) :
    ∃ r < t.rows, ∃ c < t.cols, t.rows * t.cols ≤ t.offset r c := by
  have hpos := t.columnCols_pos
  have hrest : t.cols % t.columnCols ≠ 0 := fun h => hdvd (Nat.dvd_of_mod_eq_zero h)
  have hlt : t.cols % t.columnCols < t.columnCols := Nat.mod_lt _ hpos
  -- The last element of a row is in the column that is not whole.
  obtain ⟨q, s, hcols, hs⟩ : ∃ q s, t.cols = t.columnCols * q + (s + 1) ∧ s + 1 < t.columnCols :=
    ⟨t.cols / t.columnCols, t.cols % t.columnCols - 1, by
      have := Nat.div_add_mod t.cols t.columnCols
      omega, by omega⟩
  -- There are rows enough for the last one to be pushed out.
  obtain ⟨R, hrows⟩ : ∃ R, t.rows = R + 2 := by
    obtain ⟨h, hh⟩ := t.rows_dvd hswizzle
    have hrows_pos := t.rows_pos
    refine ⟨t.rows - 2, ?_⟩
    simp only [tileRowDim, baseTileDim] at hh
    omega
  refine ⟨R + 1, by omega, t.columnCols * q + s, by omega, ?_⟩
  rw [offset_eq, Nat.mul_add_div hpos, Nat.div_eq_of_lt (by omega), Nat.add_zero,
    Nat.mul_add_mod, Nat.mod_eq_of_lt (by omega), hcols, hrows]
  have hrow : (R + 1) * (s + 1) + (R + 1) ≤ (R + 1) * t.columnCols :=
    Nat.mul_le_mul_left (R + 1) hs
  calc (R + 2) * (t.columnCols * q + (s + 1))
      = q * (R + 2) * t.columnCols + ((R + 1) * (s + 1) + s + 1) := by ring
    _ ≤ q * (R + 2) * t.columnCols + ((R + 1) * t.columnCols + s) := by omega
    _ = (q * (R + 2) + (R + 1)) * t.columnCols + s := by ring

theorem dvd_iff : t.swizzleBytes ∣ t.cols * t.elemBytes ↔ t.columnCols ∣ t.cols := by
  rw [← columnCols_mul, Nat.mul_comm t.cols, Nat.mul_dvd_mul_iff_left t.elemBytes_pos]

/-- The addresses of a swizzled tile go round among themselves. -/
theorem bijOn_span (hswizzle : t.swizzle = true) {ptr : Nat} (haligned : 128 ∣ ptr) :
    BijOn (Core.swizzle 4 7 t.swizzleBits) (cells ptr t.elemBytes (t.rows * t.cols))
      (cells ptr t.elemBytes (t.rows * t.cols)) := by
  have hblock : 2 ^ (4 + t.swizzleBits) ∣ 128 :=
    Nat.pow_dvd_pow 2 (Nat.add_le_add_left t.swizzleBits_le 4)
  exact bijOn_swizzle (Nat.add_le_add_left t.swizzleBits_le 4) t.elemBytes_dvd
    (hblock.trans haligned) (hblock.trans (t.block_dvd hswizzle))

/-- Each element of a tile has its own place in it, if the tile is not swizzled or the bytes
    of a row are whole columns. -/
theorem bijOn_idx {ptr : Nat} (haligned : 128 ∣ ptr)
    (hdvd : t.swizzle = true → t.swizzleBytes ∣ t.cols * t.elemBytes) :
    BijOn (fun rc : Nat × Nat => t.idx ptr rc.1 rc.2) (Iio t.rows ×ˢ Iio t.cols)
        (cells ptr t.elemBytes (t.rows * t.cols)) := by
  cases hswizzle : t.swizzle with
  | false =>
      have hrows := (IsTileOrder.bijOn_join t.rows t.cols)
      refine ((t.bijOn_cells ptr _).comp hrows).congr fun rc _ => ?_
      rw [idx_of_not_swizzle t hswizzle]
      rfl
  | true =>
      -- First the elements are numbered, then they are laid out, then they are swizzled.
      have hspan := t.bijOn_span hswizzle haligned
      refine ((hspan.comp (t.bijOn_cells ptr _)).comp
        (t.bijOn_offset ((t.dvd_iff).mp (hdvd hswizzle)))).congr fun rc _ => ?_
      rw [idx_eq t hswizzle]
      rfl

/-- Each element of a tile has its own place in it, if and only if the tile is not swizzled
    or the bytes of a row are whole columns. -/
theorem idx_bijOn_iff {ptr : Nat} (haligned : 128 ∣ ptr) :
    BijOn (fun rc : Nat × Nat => t.idx ptr rc.1 rc.2) (Iio t.rows ×ˢ Iio t.cols)
        (cells ptr t.elemBytes (t.rows * t.cols)) ↔
      (t.swizzle = true → t.swizzleBytes ∣ t.cols * t.elemBytes) := by
  refine ⟨fun h hswizzle => ?_, t.bijOn_idx haligned⟩
  have hbits : 4 + t.swizzleBits ≤ 7 := Nat.add_le_add_left t.swizzleBits_le 4
  have hspan := t.bijOn_span hswizzle haligned
  rw [t.dvd_iff]
  by_contra hdvd
  obtain ⟨r, hr, c, hc, hout⟩ := t.exists_outside hswizzle hdvd
  -- The address of that element would be in the tile before it is swizzled.
  have hmem := h.mapsTo (show (r, c) ∈ Iio t.rows ×ˢ Iio t.cols from ⟨hr, hc⟩)
  have hback := hspan.mapsTo hmem
  simp only [idx_eq t hswizzle] at hback
  rw [swizzle_swizzle hbits] at hback
  obtain ⟨m, hm, heq⟩ := hback
  have := Nat.eq_of_mul_eq_mul_left t.elemBytes_pos (Nat.add_left_cancel heq)
  omega

/-- `st_bf<rows, cols>` -/
def bf (rows cols : Nat)
    (h : 0 < rows ∧ 0 < cols ∧ tileRowDim ∣ rows ∧ tileColDim 2 ∣ cols) : St where
  elemBytes := 2
  rows := rows
  cols := cols
  swizzle := true
  chosenBytes := 0
  sized := .inr (.inl rfl)
  rows_pos := h.1
  cols_pos := h.2.1
  rows_dvd _ := h.2.2.1
  cols_dvd := h.2.2.2
  chosen := .inl rfl

theorem outputTile_dims : 0 < 64 ∧ 0 < 256 ∧ tileRowDim ∣ 64 ∧ tileColDim 2 ∣ 256 := by decide

/-- `outputs.C[wg_id]`, a `st_bf<64, 256>`. -/
def outputTile : St := bf 64 256 outputTile_dims

/-- Each element of the output tile has its own place in it. -/
theorem idx_bijOn_outputTile :
    BijOn (fun rc : Nat × Nat => outputTile.idx 1024 rc.1 rc.2) (Iio 64 ×ˢ Iio 256)
      (cells 1024 2 (64 * 256)) :=
  (@idx_bijOn_iff outputTile 1024 (by decide)).mpr fun _ =>
    outputTile.swizzleBytes_dvd rfl rfl

/-- An element and a later one in its row of a column. -/
theorem offset_add {r c d : Nat} (hfits : c % t.columnCols + d < t.columnCols) :
    t.offset r (c + d) = t.offset r c + d := by
  have hpos := t.columnCols_pos
  have hsum : c + d = t.columnCols * (c / t.columnCols) + (c % t.columnCols + d) := by
    rw [← Nat.add_assoc, Nat.div_add_mod]
  have hdiv : (c + d) / t.columnCols = c / t.columnCols := by
    rw [hsum, Nat.mul_add_div hpos, Nat.div_eq_of_lt hfits, Nat.add_zero]
  have hrest : (c + d) % t.columnCols = c % t.columnCols + d := by
    rw [hsum, Nat.mul_add_mod, Nat.mod_eq_of_lt hfits]
  rw [offset, offset, hdiv, hrest, ← Nat.add_assoc]

/-- The elements of 16 bytes stay together. -/
theorem idx_add {ptr r c d : Nat} (haligned : 128 ∣ ptr) (hc : 16 ∣ t.elemBytes * c)
    (hd : t.elemBytes * d < 16) : t.idx ptr r (c + d) = t.idx ptr r c + t.elemBytes * d := by
  cases hswizzle : t.swizzle with
  | false =>
      rw [idx_of_not_swizzle t hswizzle, idx_of_not_swizzle t hswizzle, ← Nat.add_assoc,
        Nat.mul_add t.elemBytes _ d, Nat.add_assoc]
  | true =>
      have hbytes := t.columnCols_mul
      have hunit : 16 ∣ t.swizzleBytes := by
        rcases t.swizzleBytes_cases with h | h | h <;> rw [h] <;> decide
      -- The bytes before the element in its row of a column.
      have hplace : t.elemBytes * (c % t.columnCols) = t.elemBytes * c % t.swizzleBytes := by
        rw [← hbytes, Nat.mul_mod_mul_left]
      have hmod : 16 ∣ t.elemBytes * (c % t.columnCols) := by
        rw [hplace]
        exact (Nat.dvd_mod_iff hunit).mpr hc
      have hfits : c % t.columnCols + d < t.columnCols := by
        have hlt : t.elemBytes * (c % t.columnCols) < t.swizzleBytes := by
          rw [← hbytes]
          exact Nat.mul_lt_mul_of_pos_left (Nat.mod_lt c t.columnCols_pos) t.elemBytes_pos
        refine Nat.lt_of_mul_lt_mul_left (a := t.elemBytes) ?_
        rw [hbytes, Nat.mul_add]
        omega
      have hbase : 2 ^ 4 ∣ ptr + t.elemBytes * t.offset r c := by
        rw [offset_eq, Nat.mul_add, ← Nat.mul_assoc, Nat.mul_comm t.elemBytes, Nat.mul_assoc,
          hbytes]
        exact Nat.dvd_add (Nat.dvd_trans (by decide) haligned)
          (Nat.dvd_add (Nat.dvd_mul_left_of_dvd hunit _) hmod)
      have hsame : (ptr + t.elemBytes * t.offset r c) % 2 ^ 4 + t.elemBytes * d < 2 ^ 4 := by
        rw [Nat.mod_eq_zero_of_dvd hbase, Nat.zero_add]
        exact hd
      rw [idx_eq t hswizzle, idx_eq t hswizzle, t.offset_add hfits, Nat.mul_add, ← Nat.add_assoc,
        swizzle_add (by decide) hsame]

/-! ## True subtiles -/

/-- The type of `st::subtile<subtile_cols>(idx)`, whose columns are those of the tile. -/
def subtile (n : Nat) (hpos : 0 < n)
    (hdvd : (if t.swizzle then tileColDim t.elemBytes else baseTileDim) ∣ n) : St where
  elemBytes := t.elemBytes
  rows := t.rows
  cols := n
  swizzle := t.swizzle
  chosenBytes := t.swizzleBytes
  sized := t.sized
  rows_pos := t.rows_pos
  cols_pos := hpos
  rows_dvd := t.rows_dvd
  cols_dvd := hdvd
  chosen := .inr t.swizzleBytes_cases

/-- The address of `st::subtile<subtile_cols>(idx)`. -/
def subtilePtr (ptr n i : Nat) : Nat :=
  ptr + t.elemBytes * (t.rows * t.columnCols * (n / t.columnCols) * i)

section Subtile

variable {n : Nat} {hpos : 0 < n}
  {hdvd : (if t.swizzle then tileColDim t.elemBytes else baseTileDim) ∣ n}

@[simp] theorem subtile_swizzleBytes :
    (t.subtile n hpos hdvd).swizzleBytes = t.swizzleBytes := by
  have hchosen : (t.subtile n hpos hdvd).chosenBytes = t.swizzleBytes := rfl
  rw [swizzleBytes, hchosen, if_pos t.swizzleBytes_pos]

@[simp] theorem subtile_columnCols : (t.subtile n hpos hdvd).columnCols = t.columnCols := by
  rw [columnCols, subtile_swizzleBytes]
  rfl

/-- The elements of a true subtile are in the columns of the tile. -/
theorem subtile_offset (hpos : 0 < n)
    (hdvd : (if t.swizzle then tileColDim t.elemBytes else baseTileDim) ∣ n)
    (hn : t.columnCols ∣ n) (i r c : Nat) :
    t.rows * t.columnCols * (n / t.columnCols) * i + (t.subtile n hpos hdvd).offset r c =
      t.offset r (i * n + c) := by
  obtain ⟨q, rfl⟩ := hn
  have hcc := t.columnCols_pos
  have hrows : (t.subtile (t.columnCols * q) hpos hdvd).rows = t.rows := rfl
  have hplace : i * (t.columnCols * q) + c = t.columnCols * (i * q) + c := by ring
  rw [offset, offset, subtile_columnCols, hrows, hplace, Nat.mul_add_div hcc, Nat.mul_add_mod,
    Nat.mul_div_cancel_left q hcc]
  ring

/-- A true subtile of a swizzled tile has the places of the tile. One of another tile has
    not, unless there is only one row or it is the whole tile. -/
theorem subtile_idx_iff (hn : t.columnCols ∣ n) (ptr i : Nat) :
    (∀ r < t.rows, ∀ c < n, (t.subtile n hpos hdvd).idx (t.subtilePtr ptr n i) r c =
        t.idx ptr r (i * n + c)) ↔
      t.swizzle = true ∨ t.rows = 1 ∨ (i = 0 ∧ n = t.cols) := by
  have hfull : t.columnCols * (n / t.columnCols) = n := Nat.mul_div_cancel' hn
  cases hswizzle : t.swizzle with
  | true =>
      refine ⟨fun _ => .inl rfl, fun _ r _ c _ => ?_⟩
      rw [idx_eq t hswizzle, idx_eq _ (show (t.subtile n hpos hdvd).swizzle = true from hswizzle)]
      have hbits : (t.subtile n hpos hdvd).swizzleBits = t.swizzleBits := by
        rw [swizzleBits, subtile_swizzleBytes]
        rfl
      have helem : (t.subtile n hpos hdvd).elemBytes = t.elemBytes := rfl
      have hoffset := t.subtile_offset hpos hdvd hn i r c
      rw [hbits, helem, ← hoffset, subtilePtr, Nat.mul_add, Nat.add_assoc]
  | false =>
      have hidx (r c : Nat) : (t.subtile n hpos hdvd).idx (t.subtilePtr ptr n i) r c =
          ptr + t.elemBytes * (t.rows * n * i + (r * n + c)) := by
        rw [idx_of_not_swizzle _ (show (t.subtile n hpos hdvd).swizzle = false from hswizzle),
          subtilePtr, Nat.mul_assoc t.rows, hfull, Nat.mul_add t.elemBytes, ← Nat.add_assoc]
        rfl
      have hiff (r c : Nat) : (t.subtile n hpos hdvd).idx (t.subtilePtr ptr n i) r c =
          t.idx ptr r (i * n + c) ↔ t.rows * n * i + r * n = r * t.cols + i * n := by
        rw [hidx, idx_of_not_swizzle t hswizzle, Nat.add_left_cancel_iff,
          Nat.mul_right_inj (Nat.pos_iff_ne_zero.mp t.elemBytes_pos)]
        omega
      simp only [hiff]
      constructor
      · intro h
        refine .inr ?_
        by_cases hone : t.rows = 1
        · exact .inl hone
        have hrows : 1 < t.rows := by have := t.rows_pos; omega
        -- The first row gives the number of the subtile, and the second one its width.
        have hfirst := h 0 t.rows_pos 0 hpos
        have hsecond := h 1 hrows 0 hpos
        have hzero : i = 0 := by
          by_contra hi
          have hlt : 1 * (n * i) < t.rows * (n * i) :=
            Nat.mul_lt_mul_of_pos_right hrows (Nat.mul_pos hpos (Nat.pos_of_ne_zero hi))
          rw [← Nat.mul_assoc t.rows, Nat.mul_comm n i] at hlt
          omega
        subst hzero
        exact .inr ⟨rfl, by omega⟩
      · rintro (h | h | ⟨rfl, rfl⟩) r hr c _
        · exact absurd h Bool.false_ne_true
        · have : r = 0 := by omega
          rw [h, this]
          ring
        · ring

end Subtile

end St

/-! ## Views -/

/-- `kittens::st_subtile`, and a tile itself as the view of all of it -/
structure View where
  tile : St
  rows : Nat
  cols : Nat
  /-- `rowcol.x` -/
  row : Nat
  /-- `rowcol.y` -/
  col : Nat
  rows_pos : 0 < rows
  cols_pos : 0 < cols
  rows_dvd : tileRowDim ∣ rows
  cols_dvd : tileColDim tile.elemBytes ∣ cols
  row_le : row * rows + rows ≤ tile.rows
  col_le : col * cols + cols ≤ tile.cols

/-- A tile as a view. -/
def St.whole (t : St) (hrows : tileRowDim ∣ t.rows) (hcols : tileColDim t.elemBytes ∣ t.cols) :
    View where
  tile := t
  rows := t.rows
  cols := t.cols
  row := 0
  col := 0
  rows_pos := t.rows_pos
  cols_pos := t.cols_pos
  rows_dvd := hrows
  cols_dvd := hcols
  row_le := by rw [Nat.zero_mul, Nat.zero_add]
  col_le := by rw [Nat.zero_mul, Nat.zero_add]

namespace View

/-- `st_subtile::row_offset` -/
def rowOffset (v : View) : Nat := v.row * v.rows

/-- `st_subtile::col_offset` -/
def colOffset (v : View) : Nat := v.col * v.cols

/-- `st_subtile::idx` -/
def idx (v : View) (ptr r c : Nat) : Nat :=
  if v.tile.swizzle then
    let swizzleRepeat := v.tile.swizzleBytes * 8
    let outerIdx := (c + v.colOffset) / v.tile.columnCols
    let addr := ptr + v.tile.elemBytes * (outerIdx * v.tile.rows * v.tile.columnCols +
      (r + v.rowOffset) * v.tile.columnCols + (c + v.colOffset) % v.tile.columnCols)
    addr ^^^ ((addr % swizzleRepeat) >>> 7) <<< 4
  else
    ptr + v.tile.elemBytes * ((r + v.rowOffset) * v.cols + (c + v.colOffset))

variable (v : View)

theorem idx_eq (h : v.tile.swizzle = true ∨ v.cols = v.tile.cols) (ptr r c : Nat) :
    v.idx ptr r c = v.tile.idx ptr (r + v.rowOffset) (c + v.colOffset) := by
  unfold idx St.idx
  split_ifs with hswizzle
  · rfl
  · rw [h.resolve_left hswizzle]

/-- A view of a swizzled tile has the places of the tile. One of another tile has them only
    if it is as wide as the tile. -/
theorem idx_iff (ptr : Nat) :
    (∀ r < v.rows, ∀ c < v.cols,
        v.idx ptr r c = v.tile.idx ptr (r + v.rowOffset) (c + v.colOffset)) ↔
      v.tile.swizzle = true ∨ v.cols = v.tile.cols := by
  refine ⟨fun h => ?_, fun h r _ c _ => v.idx_eq h ptr r c⟩
  cases hswizzle : v.tile.swizzle with
  | true => exact .inl rfl
  | false =>
      refine .inr ?_
      have hone : 1 < v.rows := by
        obtain ⟨m, hm⟩ := v.rows_dvd
        have := v.rows_pos
        simp only [tileRowDim, baseTileDim] at hm
        omega
      -- The second row of the view is too early by the difference of the widths.
      have hrow := h 1 hone 0 v.cols_pos
      rw [v.tile.idx_of_not_swizzle hswizzle, idx, if_neg (by rw [hswizzle]; decide),
        Nat.add_left_cancel_iff,
        Nat.mul_right_inj (Nat.pos_iff_ne_zero.mp v.tile.elemBytes_pos),
        Nat.add_right_cancel_iff] at hrow
      exact Nat.eq_of_mul_eq_mul_left (by omega) hrow

/-- The places of a view are different. -/
theorem idx_inj (h : v.tile.swizzle = true ∨ v.cols = v.tile.cols)
    (hdvd : v.tile.swizzle = true → v.tile.swizzleBytes ∣ v.tile.cols * v.tile.elemBytes)
    {ptr : Nat} (haligned : 128 ∣ ptr) {r r' c c' : Nat} (hr : r < v.rows) (hr' : r' < v.rows)
    (hc : c < v.cols) (hc' : c' < v.cols) (heq : v.idx ptr r c = v.idx ptr r' c') :
    r = r' ∧ c = c' := by
  rw [v.idx_eq h, v.idx_eq h] at heq
  have hrow := v.row_le
  have hcol := v.col_le
  have hmem {r c : Nat} (hr : r < v.rows) (hc : c < v.cols) :
      (r + v.rowOffset, c + v.colOffset) ∈ Iio v.tile.rows ×ˢ Iio v.tile.cols := by
    refine ⟨?_, ?_⟩
    · simp only [mem_Iio, rowOffset]
      omega
    · simp only [mem_Iio, colOffset]
      omega
  have hpair := (v.tile.bijOn_idx haligned hdvd).injOn (hmem hr hc) (hmem hr' hc') heq
  exact ⟨Nat.add_right_cancel (congrArg Prod.fst hpair),
    Nat.add_right_cancel (congrArg Prod.snd hpair)⟩

/-- The elements of 16 bytes stay together. -/
theorem idx_add (h : v.tile.swizzle = true ∨ v.cols = v.tile.cols) {ptr r c d : Nat}
    (haligned : 128 ∣ ptr) (hc : 16 ∣ v.tile.elemBytes * c) (hd : v.tile.elemBytes * d < 16) :
    v.idx ptr r (c + d) = v.idx ptr r c + v.tile.elemBytes * d := by
  have hoffset : 16 ∣ v.tile.elemBytes * v.colOffset := by
    obtain ⟨m, hm⟩ := v.cols_dvd
    have hbase : 16 ∣ v.tile.elemBytes * tileColDim v.tile.elemBytes := by
      rcases v.tile.sized with he | he | he <;> rw [he] <;> decide
    rw [colOffset, hm, Nat.mul_left_comm, ← Nat.mul_assoc v.tile.elemBytes]
    exact Nat.dvd_mul_left_of_dvd (Nat.dvd_mul_right_of_dvd hbase m) v.col
  rw [v.idx_eq h, v.idx_eq h, Nat.add_right_comm,
    v.tile.idx_add haligned (by rw [Nat.mul_add]; exact Nat.dvd_add hc hoffset) hd]

end View

end Kittens

end MKernel
