import TritonCpu.BlockTensor
import Mathlib.Data.Set.Function
import Mathlib.Order.Interval.Set.Defs

/-!
# The swizzled order of a tile grid

`swizzle2d` walks each group of rows column by column. Inside a group the tile
keeps its rank: the row-major rank of the index it is given is the column-major
rank of the one it returns, also where the last group is short.
-/

set_option autoImplicit false

namespace TritonCpu.Swizzle2d
open BlockTensor

section Program

variable (ty : IntType) (i j size_i size_j size_g : BitVec ty.bits)

/-- `x // y`; the machine division of the type. -/
def floordiv (x y : BitVec ty.bits) : BitVec ty.bits := if ty.isSigned then x.sdiv y else x.udiv y

def mod (x y : BitVec ty.bits) : BitVec ty.bits := if ty.isSigned then x.srem y else x.umod y

def minimum (x y : BitVec ty.bits) : BitVec ty.bits := if greaterThan ty x y then y else x

def swizzle2d : BitVec ty.bits × BitVec ty.bits :=
  let ij := i * size_j + j
  let size_gj := size_g * size_j
  let group_id := floordiv ty ij size_gj
  let off_i := group_id * size_g
  -- the last group may have fewer rows
  let size_g := minimum ty (size_i - off_i) size_g
  let ij := mod ty ij size_gj
  (off_i + mod ty ij size_g, floordiv ty ij size_g)

def limit : ℕ := 2 ^ (if ty.isSigned then ty.bits - 1 else ty.bits)

end Program

/-! Arithmetic below the limit. -/

section Words

variable {ty : IntType} {m n : ℕ}

theorem limit_le (ty : IntType) : limit ty ≤ 2 ^ ty.bits := by
  cases ty <;> decide

theorem toNat_ofNat (h : m < limit ty) : (BitVec.ofNat ty.bits m).toNat = m := by
  rw [BitVec.toNat_ofNat, Nat.mod_eq_of_lt (h.trans_le (limit_le ty))]

theorem toInt_ofNat (hsigned : ty.isSigned = true) (h : m < limit ty) :
    (BitVec.ofNat ty.bits m).toInt = m := by
  have hlimit : 2 * limit ty = 2 ^ ty.bits := by
    revert hsigned
    cases ty <;> decide
  rw [BitVec.toInt_eq_toNat_of_lt (by rw [toNat_ofNat h]; omega), toNat_ofNat h]

theorem msb_ofNat (hsigned : ty.isSigned = true) (h : m < limit ty) :
    (BitVec.ofNat ty.bits m).msb = false := by
  rw [BitVec.msb_eq_toInt, toInt_ofNat hsigned h]
  simp

theorem floordiv_ofNat (hm : m < limit ty) (hn : n < limit ty) :
    floordiv ty (BitVec.ofNat _ m) (BitVec.ofNat _ n) = BitVec.ofNat _ (m / n) := by
  have hudiv : (BitVec.ofNat ty.bits m).udiv (BitVec.ofNat _ n) = BitVec.ofNat _ (m / n) := by
    apply BitVec.eq_of_toNat_eq
    rw [BitVec.udiv_eq, BitVec.toNat_udiv, toNat_ofNat hm, toNat_ofNat hn,
      toNat_ofNat ((Nat.div_le_self m n).trans_lt hm)]
  rw [floordiv]
  split
  next hsigned =>
    rw [BitVec.sdiv_eq, msb_ofNat hsigned hm, msb_ofNat hsigned hn]
    exact hudiv
  next => exact hudiv

theorem mod_ofNat (hm : m < limit ty) (hn : n < limit ty) :
    mod ty (BitVec.ofNat _ m) (BitVec.ofNat _ n) = BitVec.ofNat _ (m % n) := by
  have humod : (BitVec.ofNat ty.bits m).umod (BitVec.ofNat _ n) = BitVec.ofNat _ (m % n) := by
    apply BitVec.eq_of_toNat_eq
    rw [BitVec.umod_eq, BitVec.toNat_umod, toNat_ofNat hm, toNat_ofNat hn,
      toNat_ofNat ((Nat.mod_le m n).trans_lt hm)]
  rw [mod]
  split
  next hsigned =>
    rw [BitVec.srem_eq, msb_ofNat hsigned hm, msb_ofNat hsigned hn]
    exact humod
  next => exact humod

theorem minimum_ofNat (hm : m < limit ty) (hn : n < limit ty) :
    minimum ty (BitVec.ofNat _ m) (BitVec.ofNat _ n) = BitVec.ofNat _ (min m n) := by
  have hgreater : greaterThan ty (BitVec.ofNat _ m) (BitVec.ofNat _ n) = decide (n < m) := by
    rw [greaterThan]
    split
    next hsigned => simp [BitVec.slt, toInt_ofNat hsigned hm, toInt_ofNat hsigned hn]
    next => simp [BitVec.ult, toNat_ofNat hm, toNat_ofNat hn]
  rw [minimum, hgreater, min_def]
  by_cases h : m ≤ n
  · simp [h]
  · simp [h, Nat.lt_of_not_le h]

end Words

/-! The order on natural numbers. -/

section Groups

variable {rows cols g i j : ℕ}

def groupRows (rows g i : ℕ) : ℕ := min (rows - i / g * g) g

def rowRank (cols g i j : ℕ) : ℕ := i % g * cols + j

def columnRank (rows g i j : ℕ) : ℕ := i % g + j * groupRows rows g i

def swizzle (rows cols g : ℕ) (tile : ℕ × ℕ) : ℕ × ℕ :=
  let rank := rowRank cols g tile.1 tile.2
  (tile.1 / g * g + rank % groupRows rows g tile.1, rank / groupRows rows g tile.1)

def unswizzle (rows cols g : ℕ) (tile : ℕ × ℕ) : ℕ × ℕ :=
  let rank := columnRank rows g tile.1 tile.2
  (tile.1 / g * g + rank / cols, rank % cols)

theorem mod_lt_groupRows (hg : 0 < g) (hi : i < rows) : i % g < groupRows rows g i := by
  have hrow := Nat.div_add_mod' i g
  have hmod := Nat.mod_lt i hg
  rw [groupRows, Nat.lt_min]
  omega

theorem group_row {r : ℕ} (hr : r < groupRows rows g i) :
    (i / g * g + r) / g = i / g ∧ (i / g * g + r) % g = r ∧ i / g * g + r < rows ∧
      groupRows rows g (i / g * g + r) = groupRows rows g i := by
  have hlt := Nat.lt_min.mp hr
  have hdiv : (i / g * g + r) / g = i / g := by
    rw [Nat.mul_comm, Nat.mul_add_div (by omega), Nat.div_eq_of_lt hlt.2, Nat.add_zero]
  refine ⟨hdiv, ?_, by omega, ?_⟩
  · rw [Nat.mul_add_mod_self_right, Nat.mod_eq_of_lt hlt.2]
  · rw [groupRows, groupRows, hdiv]

theorem rowRank_lt (hg : 0 < g) (hi : i < rows) (hj : j < cols) :
    rowRank cols g i j < groupRows rows g i * cols := by
  have hmul : (i % g + 1) * cols ≤ groupRows rows g i * cols :=
    Nat.mul_le_mul_right cols (mod_lt_groupRows hg hi)
  rw [Nat.succ_mul] at hmul
  rw [rowRank]
  omega

theorem columnRank_lt (hg : 0 < g) (hi : i < rows) (hj : j < cols) :
    columnRank rows g i j < groupRows rows g i * cols := by
  have hmul : (j + 1) * groupRows rows g i ≤ cols * groupRows rows g i := Nat.mul_le_mul_right _ hj
  have hmod := mod_lt_groupRows hg hi
  rw [Nat.succ_mul, Nat.mul_comm cols] at hmul
  rw [columnRank]
  omega

theorem rank_row {rank : ℕ} (hrank : rank < groupRows rows g i * cols) :
    rank % groupRows rows g i < groupRows rows g i ∧ rank / groupRows rows g i < cols := by
  have hpos : 0 < groupRows rows g i := Nat.pos_of_ne_zero fun hz => by simp [hz] at hrank
  exact ⟨Nat.mod_lt _ hpos, Nat.div_lt_of_lt_mul hrank⟩

theorem rank_column {rank : ℕ} (hrank : rank < groupRows rows g i * cols) :
    rank / cols < groupRows rows g i ∧ rank % cols < cols := by
  have hpos : 0 < cols := Nat.pos_of_ne_zero fun hz => by simp [hz] at hrank
  exact ⟨Nat.div_lt_of_lt_mul (by rwa [Nat.mul_comm] at hrank), Nat.mod_lt _ hpos⟩

/-- The tile `swizzle` returns lies in the group and has the rank by columns
that the given one has by rows. -/
theorem swizzle_rank (hg : 0 < g) (hi : i < rows) (hj : j < cols) :
    (swizzle rows cols g (i, j)).1 / g = i / g ∧
      columnRank rows g (swizzle rows cols g (i, j)).1 (swizzle rows cols g (i, j)).2 =
        rowRank cols g i j := by
  obtain ⟨hrow, -⟩ := rank_row (rowRank_lt hg hi hj)
  obtain ⟨hgroup, hmod, -, hrows⟩ := group_row hrow
  refine ⟨hgroup, ?_⟩
  rw [columnRank, swizzle, hmod, hrows, Nat.mod_add_div']

theorem swizzle_mapsTo (hg : 0 < g) :
    Set.MapsTo (swizzle rows cols g) (Set.Iio rows ×ˢ Set.Iio cols) (Set.Iio rows ×ˢ Set.Iio cols) := by
  rintro ⟨i, j⟩ ⟨hi, hj⟩
  obtain ⟨hrow, hcol⟩ := rank_row (rowRank_lt hg hi hj)
  exact ⟨(group_row hrow).2.2.1, hcol⟩

theorem unswizzle_mapsTo (hg : 0 < g) :
    Set.MapsTo (unswizzle rows cols g) (Set.Iio rows ×ˢ Set.Iio cols)
      (Set.Iio rows ×ˢ Set.Iio cols) := by
  rintro ⟨i, j⟩ ⟨hi, hj⟩
  obtain ⟨hrow, hcol⟩ := rank_column (columnRank_lt hg hi hj)
  exact ⟨(group_row hrow).2.2.1, hcol⟩

theorem unswizzle_swizzle (hg : 0 < g) (hi : i < rows) (hj : j < cols) :
    unswizzle rows cols g (swizzle rows cols g (i, j)) = (i, j) := by
  obtain ⟨hgroup, hrank⟩ := swizzle_rank hg hi hj
  have hcols : 0 < cols := by omega
  rw [unswizzle, hgroup, hrank, rowRank, Nat.mul_comm (i % g), Nat.mul_add_div hcols,
    Nat.mul_add_mod, Nat.div_eq_of_lt hj, Nat.mod_eq_of_lt hj, Nat.add_zero, Nat.div_add_mod']

theorem swizzle_unswizzle (hg : 0 < g) (hi : i < rows) (hj : j < cols) :
    swizzle rows cols g (unswizzle rows cols g (i, j)) = (i, j) := by
  obtain ⟨hrow, -⟩ := rank_column (columnRank_lt hg hi hj)
  obtain ⟨hgroup, hmod, -, hrows⟩ := group_row hrow
  have hrank : rowRank cols g (unswizzle rows cols g (i, j)).1 (unswizzle rows cols g (i, j)).2 =
      columnRank rows g i j := by
    rw [rowRank, unswizzle, hmod, Nat.div_add_mod']
  have hpos : 0 < groupRows rows g i := (Nat.zero_le _).trans_lt (mod_lt_groupRows hg hi)
  have hlow := mod_lt_groupRows hg hi
  rw [swizzle, hrank]
  simp only [unswizzle, hgroup, hrows]
  rw [columnRank, Nat.add_mul_mod_self_right, Nat.mod_eq_of_lt hlow, Nat.add_mul_div_right _ _ hpos,
    Nat.div_eq_of_lt hlow, Nat.zero_add, Nat.div_add_mod']

theorem swizzle_bijOn (hg : 0 < g) :
    Set.BijOn (swizzle rows cols g) (Set.Iio rows ×ˢ Set.Iio cols) (Set.Iio rows ×ˢ Set.Iio cols) := by
  refine Set.InvOn.bijOn ⟨?_, ?_⟩ (swizzle_mapsTo hg) (unswizzle_mapsTo hg)
  · rintro ⟨i, j⟩ ⟨hi, hj⟩
    exact unswizzle_swizzle hg hi hj
  · rintro ⟨i, j⟩ ⟨hi, hj⟩
    exact swizzle_unswizzle hg hi hj

end Groups

/-! The program below the limit. -/

example : swizzle2d .int32 4 2 5 3 2 = (4, 2) := by decide

/-- The tile `swizzle2d` returns, at sizes of the type. -/
def swizzledTile (ty : IntType) (rows cols g : ℕ) (tile : ℕ × ℕ) : ℕ × ℕ :=
  let new := swizzle2d ty (BitVec.ofNat _ tile.1) (BitVec.ofNat _ tile.2) (BitVec.ofNat _ rows)
    (BitVec.ofNat _ cols) (BitVec.ofNat _ g)
  (new.1.toNat, new.2.toNat)

theorem swizzledTile_eq {ty : IntType} {rows cols g i j : ℕ} (hg : 0 < g) (hrows : rows < limit ty)
    (hgrid : rows * cols ≤ limit ty) (hgroup : g * cols < limit ty) (hi : i < rows) (hj : j < cols) :
    swizzledTile ty rows cols g (i, j) = swizzle rows cols g (i, j) := by
  have hcols : 0 < cols := by omega
  have hgcols : 0 < g * cols := Nat.mul_pos hg hcols
  have hglimit : g < limit ty := (Nat.le_mul_of_pos_right g hcols).trans_lt hgroup
  have hij : i * cols + j < limit ty := by
    have : (i + 1) * cols ≤ rows * cols := Nat.mul_le_mul_right cols hi
    rw [Nat.succ_mul] at this
    omega
  have hid : (i * cols + j) / (g * cols) = i / g := by
    rw [Nat.mul_comm g, ← Nat.div_div_eq_div_mul, Nat.mul_comm i, Nat.mul_add_div hcols,
      Nat.div_eq_of_lt hj, Nat.add_zero]
  have hoff : i / g * g ≤ i := Nat.div_mul_le_self i g
  have hrank : (i * cols + j) % (g * cols) = rowRank cols g i j := by
    have hdiv := Nat.div_add_mod' (i * cols + j) (g * cols)
    have hrow : i * cols = i / g * (g * cols) + i % g * cols := by
      rw [← Nat.mul_assoc, ← Nat.add_mul, Nat.div_add_mod']
    rw [hid] at hdiv
    rw [rowRank]
    omega
  obtain ⟨hlow, hhigh⟩ := rank_row (rowRank_lt hg hi hj)
  have hnew := (group_row hlow).2.2.1
  have hrest : BitVec.ofNat ty.bits rows - BitVec.ofNat _ (i / g * g) =
      BitVec.ofNat _ (rows - i / g * g) :=
    BitVec.ofNat_sub_ofNat_of_le _ _
      ((hoff.trans_lt (hi.trans hrows)).trans_le (limit_le ty)) (by omega)
  have hranklt : rowRank cols g i j < limit ty := by
    rw [← hrank]
    exact (Nat.mod_lt _ hgcols).trans hgroup
  have hfirst : minimum ty (BitVec.ofNat _ (rows - i / g * g)) (BitVec.ofNat _ g) =
      BitVec.ofNat _ (groupRows rows g i) :=
    minimum_ofNat ((Nat.sub_le _ _).trans_lt hrows) hglimit
  have hgroupRows : groupRows rows g i < limit ty := (Nat.min_le_right _ _).trans_lt hglimit
  simp only [swizzledTile, swizzle2d, ← BitVec.ofNat_mul, ← BitVec.ofNat_add,
    floordiv_ofNat hij hgroup, hid, hrest, hfirst, mod_ofNat hij hgroup, hrank,
    mod_ofNat hranklt hgroupRows, floordiv_ofNat hranklt hgroupRows, swizzle]
  rw [toNat_ofNat (hnew.trans hrows), toNat_ofNat ((Nat.div_le_self _ _).trans_lt hranklt)]

/-- `swizzle2d` permutes the tiles of the grid, keeps every tile in its group of
rows and visits the tiles of a group column by column. -/
theorem swizzle2d_bijection (ty : IntType) (rows cols g : ℕ) (hg : 0 < g) (hrows : rows < limit ty)
    (hgrid : rows * cols ≤ limit ty) (hgroup : g * cols < limit ty) :
    Set.BijOn (swizzledTile ty rows cols g) (Set.Iio rows ×ˢ Set.Iio cols)
        (Set.Iio rows ×ˢ Set.Iio cols) ∧
      ∀ i j, i < rows → j < cols →
        (swizzledTile ty rows cols g (i, j)).1 / g = i / g ∧
          columnRank rows g (swizzledTile ty rows cols g (i, j)).1
            (swizzledTile ty rows cols g (i, j)).2 = rowRank cols g i j := by
  have heq : ∀ i j, i < rows → j < cols →
      swizzledTile ty rows cols g (i, j) = swizzle rows cols g (i, j) := fun i j hi hj =>
    swizzledTile_eq hg hrows hgrid hgroup hi hj
  refine ⟨(swizzle_bijOn hg).congr ?_, fun i j hi hj => ?_⟩
  · rintro ⟨i, j⟩ ⟨hi, hj⟩
    exact (heq i j hi hj).symm
  · rw [heq i j hi hj]
    exact swizzle_rank hg hi hj

/-- Five rows in groups of two; the last group has one row. -/
theorem swizzle2d_bijection_short_group :
    Set.BijOn (swizzledTile .int32 5 3 2) (Set.Iio 5 ×ˢ Set.Iio 3) (Set.Iio 5 ×ˢ Set.Iio 3) :=
  (swizzle2d_bijection .int32 5 3 2 (by decide) (by decide) (by decide) (by decide)).1

end TritonCpu.Swizzle2d
