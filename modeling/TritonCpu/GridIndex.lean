import Mathlib.Data.Set.Function
import Mathlib.Tactic.Linarith
import Mathlib.Tactic.Positivity
import TritonCpu.Launcher

/-!
# The coordinates of a program

The launcher counts the programs in `int64_t` and takes the coordinates of each
from its number. The divisor `gridX * gridY` of the last one is a product of two
`int`s, so it has 32 bits: it wraps when a plane of the grid has more than
`2 ^ 31 - 1` programs.
-/

set_option autoImplicit false

namespace TritonCpu

/-- The grid as `_launch` receives it. -/
structure CGrid where
  gridX : BitVec 32
  gridY : BitVec 32
  gridZ : BitVec 32

namespace CGrid

/-- `int64_t N = (int64_t)gridX * gridY * gridZ;` -/
def N (grid : CGrid) : BitVec 64 :=
  grid.gridX.signExtend 64 * grid.gridY.signExtend 64 * grid.gridZ.signExtend 64

/-- The quotient and the remainder in `int64_t`. A division by zero has no value. -/
def quot (a b : BitVec 64) : Option (BitVec 64) := if b = 0 then none else some (a.sdiv b)

def rem (a b : BitVec 64) : Option (BitVec 64) := if b = 0 then none else some (a.srem b)

/-- The coordinates `x`, `y`, `z` of program `i`, each an `int`. -/
def program (grid : CGrid) (i : BitVec 64) : Option (BitVec 32 × BitVec 32 × BitVec 32) := do
  let x ← rem i (grid.gridX.signExtend 64)
  let row ← quot i (grid.gridX.signExtend 64)
  let y ← rem row (grid.gridY.signExtend 64)
  let z ← quot i ((grid.gridX * grid.gridY).signExtend 64)
  return (x.truncate 32, y.truncate 32, z.truncate 32)

/-- The values of the counter `i`. -/
def counters (grid : CGrid) : Set (BitVec 64) := {i | 0 ≤ i.toInt ∧ i.toInt < grid.N.toInt}

def box (grid : CGrid) : Set (BitVec 32 × BitVec 32 × BitVec 32) :=
  {c | (0 ≤ c.1.toInt ∧ c.1.toInt < grid.gridX.toInt) ∧
    (0 ≤ c.2.1.toInt ∧ c.2.1.toInt < grid.gridY.toInt) ∧
    0 ≤ c.2.2.toInt ∧ c.2.2.toInt < grid.gridZ.toInt}

/-- Every counter has coordinates, and they go through the box once. -/
def Decomposes (grid : CGrid) : Prop :=
  Set.BijOn grid.program grid.counters (some '' grid.box)

/-- All dimensions are positive, and the number of programs is an `int64_t`. -/
structure Valid (grid : CGrid) : Prop where
  x_pos : 0 < grid.gridX.toInt
  y_pos : 0 < grid.gridY.toInt
  z_pos : 0 < grid.gridZ.toInt
  fits : grid.gridX.toInt * grid.gridY.toInt * grid.gridZ.toInt < 2 ^ 63

def toGrid (grid : CGrid) : Grid :=
  ⟨grid.gridX.toInt.toNat, grid.gridY.toInt.toNat, grid.gridZ.toInt.toNat⟩

section Words

theorem bmod_of_lt {x : ℤ} {m : ℕ} (h : 0 ≤ x) (hlt : 2 * x < m) : x.bmod m = x :=
  Int.bmod_eq_of_le (by omega) (by omega)

theorem toInt_truncate (v : BitVec 64) : (v.truncate 32).toInt = v.toInt.bmod (2 ^ 32) := by
  rw [BitVec.truncate_eq_setWidth, ← BitVec.signExtend_eq_setWidth_of_le v (by decide),
    BitVec.toInt_signExtend_eq_toInt_bmod_of_le v (by decide)]

theorem toInt_extend (v : BitVec 32) : (v.signExtend 64).toInt = v.toInt :=
  BitVec.toInt_signExtend_of_le (by decide)

theorem toInt_lt_word (v : BitVec 32) : v.toInt < 2 ^ 31 := by
  have h := v.toInt_lt
  simpa using h

theorem toInt_quot {a : BitVec 64} (b : BitVec 64) (h : 0 ≤ a.toInt) :
    (a.sdiv b).toInt = a.toInt.tdiv b.toInt := by
  apply BitVec.toInt_sdiv_of_ne_or_ne
  left
  rintro rfl
  revert h
  decide

theorem eq_zero_iff {w : ℕ} (v : BitVec w) : v = 0 ↔ v.toInt = 0 := by
  rw [← BitVec.toInt_inj, BitVec.ofNat_eq_ofNat, BitVec.toInt_zero]

end Words

variable {grid : CGrid}

def plane (grid : CGrid) : ℤ := (grid.gridX.toInt * grid.gridY.toInt).bmod (2 ^ 32)

theorem program_eq (hx : 0 < grid.gridX.toInt) (hy : 0 < grid.gridY.toInt) {i : BitVec 64}
    (hi : 0 ≤ i.toInt) : (grid.plane = 0 → grid.program i = none) ∧
      (grid.plane ≠ 0 → ∃ c, grid.program i = some c ∧
        c.1.toInt = i.toInt % grid.gridX.toInt ∧
        c.2.1.toInt = i.toInt / grid.gridX.toInt % grid.gridY.toInt ∧
        c.2.2.toInt = (i.toInt.tdiv grid.plane).bmod (2 ^ 32)) := by
  have hplane : ((grid.gridX * grid.gridY).signExtend 64).toInt = grid.plane := by
    rw [toInt_extend, BitVec.toInt_mul, plane]
  have hx0 : grid.gridX.signExtend 64 ≠ 0 := by
    rw [Ne, eq_zero_iff, toInt_extend]
    omega
  have hy0 : grid.gridY.signExtend 64 ≠ 0 := by
    rw [Ne, eq_zero_iff, toInt_extend]
    omega
  have hquot : (i.sdiv (grid.gridX.signExtend 64)).toInt = i.toInt / grid.gridX.toInt := by
    rw [toInt_quot _ hi, toInt_extend, Int.tdiv_eq_ediv_of_nonneg hi]
  have hprogram : grid.program i = (quot i ((grid.gridX * grid.gridY).signExtend 64)).map fun z =>
      ((i.srem (grid.gridX.signExtend 64)).truncate 32,
        ((i.sdiv (grid.gridX.signExtend 64)).srem (grid.gridY.signExtend 64)).truncate 32,
        z.truncate 32) := by
    simp only [program, rem, quot, if_neg hx0, if_neg hy0]
    split <;> rfl
  constructor
  · intro hzero
    rw [hprogram, quot, if_pos ((eq_zero_iff _).mpr (hplane.trans hzero))]
    rfl
  · intro hne
    have hne0 : (grid.gridX * grid.gridY).signExtend 64 ≠ 0 := by
      rwa [Ne, eq_zero_iff, hplane]
    have hxlt := toInt_lt_word grid.gridX
    have hylt := toInt_lt_word grid.gridY
    rw [hprogram, quot, if_neg hne0]
    refine ⟨_, rfl, ?_, ?_, ?_⟩
    · have hmod := Int.emod_lt_of_pos i.toInt hx
      rw [toInt_truncate, BitVec.toInt_srem, toInt_extend, Int.tmod_eq_emod_of_nonneg hi]
      exact bmod_of_lt (Int.emod_nonneg _ hx.ne') (by omega)
    · have hrow : 0 ≤ i.toInt / grid.gridX.toInt := Int.ediv_nonneg hi hx.le
      have hmod := Int.emod_lt_of_pos (i.toInt / grid.gridX.toInt) hy
      rw [toInt_truncate, BitVec.toInt_srem, hquot, toInt_extend, Int.tmod_eq_emod_of_nonneg hrow]
      exact bmod_of_lt (Int.emod_nonneg _ hy.ne') (by omega)
    · rw [toInt_truncate, toInt_quot _ hi, hplane]

theorem Valid.plane_pos (h : grid.Valid) : 0 < grid.gridX.toInt * grid.gridY.toInt :=
  Int.mul_pos h.x_pos h.y_pos

theorem Valid.plane_le (h : grid.Valid) : grid.gridX.toInt * grid.gridY.toInt ≤
    grid.gridX.toInt * grid.gridY.toInt * grid.gridZ.toInt :=
  le_mul_of_one_le_right h.plane_pos.le h.z_pos

theorem toInt_N (h : grid.Valid) :
    grid.N.toInt = grid.gridX.toInt * grid.gridY.toInt * grid.gridZ.toInt := by
  have hplane := h.plane_pos
  have hle := h.plane_le
  have hfits := h.fits
  rw [N, BitVec.toInt_mul, BitVec.toInt_mul, toInt_extend, toInt_extend, toInt_extend,
    bmod_of_lt hplane.le (by omega), bmod_of_lt (hplane.le.trans hle) (by omega)]

theorem toInt_ofInt_counter (h : grid.Valid) {n : ℤ} (hn : 0 ≤ n)
    (hlt : n < grid.gridX.toInt * grid.gridY.toInt * grid.gridZ.toInt) :
    (BitVec.ofInt 64 n).toInt = n := by
  have hfits := h.fits
  rw [BitVec.toInt_ofInt]
  exact bmod_of_lt hn (by omega)

/-- The plane is an `int`, or it is one too many and the only one. -/
def PlaneFits (grid : CGrid) : Prop :=
  grid.gridX.toInt * grid.gridY.toInt < 2 ^ 31 ∨
    grid.gridX.toInt * grid.gridY.toInt = 2 ^ 31 ∧ grid.gridZ.toInt = 1

instance : Decidable grid.PlaneFits := inferInstanceAs (Decidable (_ ∨ _))

theorem plane_of_lt (h : grid.Valid) (hlt : grid.gridX.toInt * grid.gridY.toInt < 2 ^ 31) :
    grid.plane = grid.gridX.toInt * grid.gridY.toInt :=
  bmod_of_lt h.plane_pos.le (by omega)

theorem plane_quot (h : grid.Valid) (hfits : grid.PlaneFits) {i : BitVec 64}
    (hi : i ∈ grid.counters) : grid.plane ≠ 0 ∧ (i.toInt.tdiv grid.plane).bmod (2 ^ 32) =
      i.toInt / (grid.gridX.toInt * grid.gridY.toInt) := by
  have hpos := h.plane_pos
  obtain ⟨hi0, hilt⟩ := hi
  rw [toInt_N h] at hilt
  rcases hfits with hlt | ⟨heq, hone⟩
  · have hzlt := toInt_lt_word grid.gridZ
    have hquot : i.toInt / (grid.gridX.toInt * grid.gridY.toInt) < grid.gridZ.toInt :=
      Int.ediv_lt_of_lt_mul hpos (by rwa [mul_comm])
    rw [plane_of_lt h hlt, Int.tdiv_eq_ediv_of_nonneg hi0]
    exact ⟨hpos.ne', bmod_of_lt (Int.ediv_nonneg hi0 hpos.le) (by omega)⟩
  · rw [heq, hone, mul_one] at hilt
    have hplane : grid.plane = -2 ^ 31 := by
      rw [plane, heq]
      decide
    rw [hplane, heq, Int.ediv_eq_zero_of_lt hi0 hilt, Int.tdiv_neg,
      Int.tdiv_eq_zero_of_lt hi0 hilt]
    exact ⟨by decide, by decide⟩

theorem program_toGrid (h : grid.Valid) (hfits : grid.PlaneFits) {i : BitVec 64}
    (hi : i ∈ grid.counters) : ∃ c, grid.program i = some c ∧
      c.1.toInt = (grid.toGrid.program i.toInt.toNat).1 ∧
      c.2.1.toInt = (grid.toGrid.program i.toInt.toNat).2.1 ∧
      c.2.2.toInt = (grid.toGrid.program i.toInt.toNat).2.2 := by
  obtain ⟨hne, hquot⟩ := plane_quot h hfits hi
  obtain ⟨c, hc, hcx, hcy, hcz⟩ := (program_eq h.x_pos h.y_pos hi.1).2 hne
  have hX : ((grid.gridX.toInt.toNat : ℕ) : ℤ) = grid.gridX.toInt := Int.toNat_of_nonneg h.x_pos.le
  have hY : ((grid.gridY.toInt.toNat : ℕ) : ℤ) = grid.gridY.toInt := Int.toNat_of_nonneg h.y_pos.le
  have hI : ((i.toInt.toNat : ℕ) : ℤ) = i.toInt := Int.toNat_of_nonneg hi.1
  refine ⟨c, hc, ?_, ?_, ?_⟩
  · rw [hcx, Grid.program, toGrid, Int.natCast_emod, hX, hI]
  · rw [hcy, Grid.program, toGrid, Int.natCast_emod, Int.natCast_ediv, hX, hY, hI]
  · rw [hcz, hquot, Grid.program, toGrid, Int.natCast_ediv, Int.natCast_mul, hX, hY, hI]

theorem index_lt {X Y Z x y z : ℤ} (hx0 : 0 ≤ x) (hx : x < X) (hy0 : 0 ≤ y) (hy : y < Y)
    (hz0 : 0 ≤ z) (hz : z < Z) : 0 ≤ x + X * (y + Y * z) ∧ x + X * (y + Y * z) < X * Y * Z := by
  have hX : 0 ≤ X := by omega
  have hY : 0 ≤ Y := by omega
  have hrow : y + Y * z + 1 ≤ Y * Z := by nlinarith
  have hindex : X * (y + Y * z + 1) ≤ X * (Y * Z) := Int.mul_le_mul_of_nonneg_left hrow hX
  refine ⟨by positivity, ?_⟩
  rw [mul_add, mul_one] at hindex
  rw [mul_assoc]
  omega

theorem coordinates_index {X Y x y : ℤ} (z : ℤ) (hx0 : 0 ≤ x) (hx : x < X) (hy0 : 0 ≤ y)
    (hy : y < Y) : (x + X * (y + Y * z)) % X = x ∧ (x + X * (y + Y * z)) / X % Y = y ∧
      (x + X * (y + Y * z)) / (X * Y) = z := by
  have hrow : (x + X * (y + Y * z)) / X = y + Y * z := by
    rw [Int.add_mul_ediv_left _ _ (by omega), Int.ediv_eq_zero_of_lt hx0 hx, zero_add]
  refine ⟨?_, ?_, ?_⟩
  · rw [Int.add_mul_emod_self_left, Int.emod_eq_of_lt hx0 hx]
  · rw [hrow, Int.add_mul_emod_self_left, Int.emod_eq_of_lt hy0 hy]
  · rw [← Int.ediv_ediv_of_nonneg (by omega), hrow, Int.add_mul_ediv_left _ _ (by omega),
      Int.ediv_eq_zero_of_lt hy0 hy, zero_add]

theorem toGrid_N (h : grid.Valid) : (grid.toGrid.N : ℤ) = grid.N.toInt := by
  rw [toInt_N h, Grid.N, toGrid, Int.natCast_mul, Int.natCast_mul,
    Int.toNat_of_nonneg h.x_pos.le, Int.toNat_of_nonneg h.y_pos.le, Int.toNat_of_nonneg h.z_pos.le]

theorem decomposes_of_planeFits (h : grid.Valid) (hfits : grid.PlaneFits) : grid.Decomposes := by
  have hx := h.x_pos
  have hy := h.y_pos
  refine ⟨?_, ?_, ?_⟩
  · intro i hi
    obtain ⟨c, hc, hcx, hcy, hcz⟩ := program_toGrid h hfits hi
    have hN := toGrid_N h
    have hlt := program_lt grid.toGrid (i := i.toInt.toNat)
      (by obtain ⟨h0, hlt⟩ := hi; omega)
    simp only [toGrid] at hlt
    refine ⟨c, ?_, hc.symm⟩
    rw [box, Set.mem_ofPred_eq, hcx, hcy, hcz]
    simp only [toGrid]
    omega
  · intro i hi j hj heq
    obtain ⟨c, hc, hcx, hcy, hcz⟩ := program_toGrid h hfits hi
    obtain ⟨d, hd, hdx, hdy, hdz⟩ := program_toGrid h hfits hj
    rw [hc, hd, Option.some_inj] at heq
    subst heq
    have hi0 := hi.1
    have hj0 := hj.1
    have hindex := program_index grid.toGrid i.toInt.toNat
    rw [show (grid.toGrid.program i.toInt.toNat).1 = (grid.toGrid.program j.toInt.toNat).1 by omega,
      show (grid.toGrid.program i.toInt.toNat).2.1 = (grid.toGrid.program j.toInt.toNat).2.1 by omega,
      show (grid.toGrid.program i.toInt.toNat).2.2 = (grid.toGrid.program j.toInt.toNat).2.2 by omega,
      program_index] at hindex
    exact BitVec.toInt_inj.mp (by omega)
  · rintro _ ⟨c, ⟨⟨hcx0, hcx⟩, ⟨hcy0, hcy⟩, hcz0, hcz⟩, rfl⟩
    obtain ⟨hn0, hn⟩ := index_lt hcx0 hcx hcy0 hcy hcz0 hcz
    obtain ⟨hix, hiy, hiz⟩ := coordinates_index c.2.2.toInt hcx0 hcx hcy0 hcy
    have hvalue := toInt_ofInt_counter h hn0 hn
    have hmem : BitVec.ofInt 64 (c.1.toInt + grid.gridX.toInt *
        (c.2.1.toInt + grid.gridY.toInt * c.2.2.toInt)) ∈ grid.counters := by
      rw [counters, Set.mem_ofPred_eq, hvalue, toInt_N h]
      exact ⟨hn0, hn⟩
    obtain ⟨hne, hquot⟩ := plane_quot h hfits hmem
    obtain ⟨d, hd, hdx, hdy, hdz⟩ := (program_eq h.x_pos h.y_pos hmem.1).2 hne
    refine ⟨_, hmem, hd.trans ?_⟩
    rw [hvalue, hix] at hdx
    rw [hvalue, hiy] at hdy
    rw [hquot, hvalue, hiz] at hdz
    rw [Option.some_inj, Prod.ext_iff, Prod.ext_iff, ← BitVec.toInt_inj, ← BitVec.toInt_inj,
      ← BitVec.toInt_inj]
    exact ⟨hdx, hdy, hdz⟩

/-- Elsewhere the divisor is zero, or it is too small to keep the last
coordinate below the grid. -/
theorem planeFits_of_decomposes (h : grid.Valid) (hdec : grid.Decomposes) : grid.PlaneFits := by
  by_contra hfits
  have hx := h.x_pos
  have hy := h.y_pos
  have hz := h.z_pos
  have hle := h.plane_le
  have hzlt := toInt_lt_word grid.gridZ
  obtain ⟨hlarge, hexact⟩ := not_or.mp hfits
  have hplanes : ∀ {n : ℤ}, 0 ≤ n →
      n < grid.gridX.toInt * grid.gridY.toInt * grid.gridZ.toInt → grid.plane ≠ 0 ∧
        0 ≤ (n.tdiv grid.plane).bmod (2 ^ 32) ∧
        (n.tdiv grid.plane).bmod (2 ^ 32) < grid.gridZ.toInt := by
    intro n hn hlt
    have hvalue := toInt_ofInt_counter h hn hlt
    have hmem : BitVec.ofInt 64 n ∈ grid.counters := by
      rw [counters, Set.mem_ofPred_eq, hvalue, toInt_N h]
      exact ⟨hn, hlt⟩
    obtain ⟨c, hc, hprogram⟩ := hdec.mapsTo hmem
    have hspec := program_eq hx hy hmem.1
    by_cases hzero : grid.plane = 0
    · rw [hspec.1 hzero] at hprogram
      cases hprogram
    · obtain ⟨d, hd, -, -, hdz⟩ := hspec.2 hzero
      rw [hd, Option.some_inj] at hprogram
      rw [hprogram] at hc
      rw [← hvalue, ← hdz]
      exact ⟨hzero, hc.2.2⟩
  have hlow : -2 ^ 31 ≤ grid.plane := Int.le_bmod (by decide)
  have hhigh : grid.plane < 2 ^ 31 := Int.bmod_lt (by decide)
  obtain hneg | hzero | hpos := lt_trichotomy grid.plane 0
  · -- The program `-plane` is behind the first of the planes, but its coordinate is `-1`.
    have hlt : -grid.plane < grid.gridX.toInt * grid.gridY.toInt * grid.gridZ.toInt := by
      by_cases hone : grid.gridZ.toInt = 1
      · rw [hone, mul_one]
        have hne : grid.gridX.toInt * grid.gridY.toInt ≠ 2 ^ 31 := fun heq => hexact ⟨heq, hone⟩
        omega
      · nlinarith [show 2 ≤ grid.gridZ.toInt by omega]
    have hquot : (-grid.plane).tdiv grid.plane = -1 := by
      rw [Int.neg_tdiv, Int.tdiv_self hneg.ne]
    have hbad := (hplanes (by omega) hlt).2.1
    rw [hquot] at hbad
    revert hbad
    decide
  · exact (hplanes le_rfl (Int.mul_pos h.plane_pos hz)).1 hzero
  · -- The divisor is smaller than a plane, so one program has the coordinate `gridZ`.
    have hlt : grid.gridZ.toInt * grid.plane <
        grid.gridX.toInt * grid.gridY.toInt * grid.gridZ.toInt := by
      rw [mul_comm]
      exact Int.mul_lt_mul_of_pos_right (by omega) hz
    have hbad := (hplanes (by positivity) hlt).2.2
    rw [Int.mul_tdiv_cancel _ hpos.ne', bmod_of_lt hz.le (by omega)] at hbad
    exact lt_irrefl _ hbad

/-- The programs go through the grid once exactly when the plane fits. -/
theorem decomposes_iff (h : grid.Valid) : grid.Decomposes ↔ grid.PlaneFits :=
  ⟨planeFits_of_decomposes h, decomposes_of_planeFits h⟩

/-- A plane of `2 ^ 31` programs. -/
def widePlane : CGrid := ⟨65536, 32768, 1⟩

theorem decomposes_iff_widePlane : widePlane.Decomposes ↔ widePlane.PlaneFits :=
  decomposes_iff ⟨by decide, by decide, by decide, by decide⟩

/-- A plane of `2 ^ 32` programs, where the divisor is zero. -/
def wrappedPlane : CGrid := ⟨65536, 65536, 1⟩

theorem wrappedPlane_not_decomposes : wrappedPlane.Valid ∧ wrappedPlane.program 0 = none ∧
    ¬ wrappedPlane.Decomposes := by
  have hnone : wrappedPlane.program 0 = none := by decide
  refine ⟨⟨by decide, by decide, by decide, by decide⟩, hnone, fun hdec => ?_⟩
  obtain ⟨c, -, hc⟩ := hdec.mapsTo (show (0 : BitVec 64) ∈ wrappedPlane.counters from
    ⟨by decide, by decide⟩)
  rw [hnone] at hc
  cases hc

end CGrid

end TritonCpu
