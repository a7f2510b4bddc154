import Mathlib
import TritonCpu.FlashAttention

/-!
# Packing the tiles of `K` and `V`

`pack_rows_u32` transposes 16 rows of a head into words of two elements,
through the four ZA tiles in turn. `pack_v` interleaves the rows of two keys.
-/

set_option autoImplicit false

namespace TritonCpu.FlashAttention

/-- The 16-bit elements of memory, by byte address. -/
abbrev Inputs := ℤ → ℕ

/-- Element `col` of a row, `base[row * stride + col]`. -/
def element (inputs : Inputs) (base stride row : ℤ) (col : ℕ) : ℕ :=
  inputs (base + 2 * (row * stride + col))

/-- The rows of `pack_rows_u32`: those outside `[0, nrows_valid)` are skipped. -/
structure RowSource where
  inputs : Inputs
  base : ℤ
  row_stride : ℤ
  row0 : ℤ
  nrows_valid : ℤ
  npair : ℕ

namespace RowSource

variable (src : RowSource)

def rowOk (r : ℕ) : Bool := decide (src.row0 + r ≥ 0 ∧ src.row0 + r < src.nrows_valid)

/-- The pair `p` of row `r`, one 32-bit word. -/
def word (r p : ℕ) : ℕ :=
  element src.inputs src.base src.row_stride (if src.rowOk r then src.row0 + r else 0) (2 * p) +
    2 ^ 16 * element src.inputs src.base src.row_stride
      (if src.rowOk r then src.row0 + r else 0) (2 * p + 1)

/-- The ZA tiles, by row and lane, and the packed words, by pair and row. -/
structure PackState where
  za : ℕ → ℕ → ℕ → ℕ
  dst : ℕ → ℕ → ℕ

/-- `FA_LD_ROWS(t, u)` -/
def ldRows (s : PackState) (t u : ℕ) : PackState :=
  { s with za := Function.update s.za t fun r lane =>
      if src.rowOk r ∧ u + lane < src.npair then src.word r (u + lane) else 0 }

/-- `FA_ST_COLS(t, u)` -/
def stCols (s : PackState) (t u : ℕ) : PackState :=
  let nu := if src.npair - u < lanes then src.npair - u else lanes
  { s with dst := fun p => if u ≤ p ∧ p < u + nu then fun r => s.za t r (p - u) else s.dst p }

/-- `if (u > 0) FA_ST_COLS(3, u - L);` -/
def stLast (s : PackState) (u : ℕ) : PackState := if u > 0 then src.stCols s 3 (u - lanes) else s

/-- The loop over `u`, four tiles a round. -/
def packLoop (u : ℕ) (s : PackState) : PackState :=
  if u < src.npair then
    let s := src.stLast (src.ldRows s 0 u) u
    if u + lanes ≥ src.npair then src.stCols s 0 u
    else
      let s := src.stCols (src.ldRows s 1 (u + lanes)) 0 u
      if u + 2 * lanes ≥ src.npair then src.stCols s 1 (u + lanes)
      else
        let s := src.stCols (src.ldRows s 2 (u + 2 * lanes)) 1 (u + lanes)
        if u + 3 * lanes ≥ src.npair then src.stCols s 2 (u + 2 * lanes)
        else
          let s := src.stCols (src.ldRows s 3 (u + 3 * lanes)) 2 (u + 2 * lanes)
          if u + 4 * lanes ≥ src.npair then src.stCols s 3 (u + 3 * lanes)
          else packLoop (u + 4 * lanes) s
  else s
termination_by src.npair - u
decreasing_by simp only [lanes]; omega

/-- The words that `pack_rows_u32` writes, `dst[p][L]`. -/
def packRowsU32 : List ℕ :=
  (List.range src.npair).flatMap fun p => (List.range lanes).map fun r =>
    (src.packLoop 0 ⟨fun _ _ _ => 0, fun _ _ => 0⟩).dst p r

end RowSource

/-- The elements that `pack_v` writes for the keys `[k0, k0 + nk)`. -/
def packV (inputs : Inputs) (vbase v_rs k0 : ℤ) (nk : ℕ) (Sk : ℤ) (D : ℕ) : List ℕ :=
  (List.range (nk / 2)).flatMap fun kp : ℕ =>
    let k := k0 + 2 * kp
    let ok0 := decide (k ≥ 0 ∧ k < Sk)
    let ok1 := decide (k + 1 ≥ 0 ∧ k + 1 < Sk)
    (inQuads 0 (D / lanes)).flatMap fun dt => (List.range lanes).flatMap fun i =>
      [if ok0 then element inputs vbase v_rs k (dt * lanes + i) else 0,
        if ok1 then element inputs vbase v_rs (k + 1) (dt * lanes + i) else 0]

section PackRows

variable (src : RowSource)

def RowSource.column (p r : ℕ) : ℕ := if src.rowOk r then src.word r p else 0

/-- The words of the first `n` pairs are written, and a tile is loaded. -/
def RowSource.Packed (n : ℕ) (s : RowSource.PackState) : Prop :=
  ∀ p < n, p < src.npair → s.dst p = src.column p

def RowSource.Loaded (t u : ℕ) (s : RowSource.PackState) : Prop :=
  ∀ r lane, u + lane < src.npair → s.za t r lane = src.column (u + lane) r

theorem loaded_ldRows (s : RowSource.PackState) (t u : ℕ) :
    src.Loaded t u (src.ldRows s t u) := by
  intro r lane hlane
  simp only [RowSource.ldRows, Function.update_self, RowSource.column]
  by_cases hok : src.rowOk r = true <;> simp [hok, hlane]

theorem loaded_ldRows_of_ne {s : RowSource.PackState} {t t' u u' : ℕ} (h : src.Loaded t u s)
    (hne : t ≠ t') : src.Loaded t u (src.ldRows s t' u') := by
  intro r lane hlane
  simp only [RowSource.ldRows, Function.update_of_ne hne]
  exact h r lane hlane

theorem packed_stCols {s : RowSource.PackState} {t u : ℕ} (h : src.Packed u s)
    (hload : src.Loaded t u s) : src.Packed (u + lanes) (src.stCols s t u) := by
  intro p hp hpair
  have hsplit : (src.stCols s t u).dst p = if u ≤ p ∧ p < u + lanes ∧ p < src.npair then
      fun r => s.za t r (p - u) else s.dst p := by
    simp only [RowSource.stCols]
    split_ifs <;> first | rfl | omega
  rw [hsplit]
  by_cases hold : p < u
  · rw [if_neg (by omega)]
    exact h p hold hpair
  · rw [if_pos ⟨by omega, hp, hpair⟩]
    funext r
    rw [hload r (p - u) (by omega), Nat.add_sub_cancel' (by omega)]

theorem packed_round {s : RowSource.PackState} {t t' u : ℕ} (u' : ℕ) (h : src.Packed u s)
    (hload : src.Loaded t u s) (hne : t ≠ t') :
    src.Packed (u + lanes) (src.stCols (src.ldRows s t' u') t u) ∧
      src.Loaded t' u' (src.stCols (src.ldRows s t' u') t u) :=
  ⟨packed_stCols src h (loaded_ldRows_of_ne src hload hne), loaded_ldRows src s t' u'⟩

theorem packed_first {u : ℕ} {s : RowSource.PackState} (h : src.Packed (u - lanes) s)
    (hload : 0 < u → src.Loaded 3 (u - lanes) s) (hu : u = 0 ∨ lanes ≤ u) :
    src.Packed u (src.stLast (src.ldRows s 0 u) u) ∧
      src.Loaded 0 u (src.stLast (src.ldRows s 0 u) u) := by
  rw [RowSource.stLast]
  by_cases hpos : u > 0
  · obtain ⟨hpacked, hloaded⟩ := packed_round src u h (hload hpos) (show 3 ≠ 0 by decide)
    rw [if_pos hpos]
    rw [Nat.sub_add_cancel (by omega)] at hpacked
    exact ⟨hpacked, hloaded⟩
  · rw [if_neg hpos]
    obtain rfl : u = 0 := by omega
    exact ⟨fun p hp => absurd hp (by omega), loaded_ldRows src s 0 0⟩

theorem packed_packLoop (u : ℕ) (s : RowSource.PackState) (h : src.Packed (u - lanes) s)
    (hload : 0 < u → src.Loaded 3 (u - lanes) s) (hu : u = 0 ∨ lanes ≤ u) (hend : u < src.npair) :
    src.Packed src.npair (src.packLoop u s) := by
  have hall : ∀ {n s}, src.npair ≤ n → src.Packed n s → src.Packed src.npair s :=
    fun hn hs p hp hpair => hs p (by omega) hpair
  have hlanes : lanes = 16 := rfl
  have second := fun {s u} (hr : src.Packed u s ∧ src.Loaded 0 u s) =>
    packed_round src (u + lanes) hr.1 hr.2 (show 0 ≠ 1 by decide)
  have third := fun {s u} (hr : src.Packed (u + lanes) s ∧ src.Loaded 1 (u + lanes) s) =>
    packed_round src (u + 2 * lanes) hr.1 hr.2 (show 1 ≠ 2 by decide)
  have fourth := fun {s u} (hr : src.Packed (u + 2 * lanes) s ∧ src.Loaded 2 (u + 2 * lanes) s) =>
    packed_round src (u + 3 * lanes) hr.1 hr.2 (show 2 ≠ 3 by decide)
  fun_induction RowSource.packLoop src u s with
  | case1 u s hlt s₀ hstop =>
    have h₀ := packed_first src h hload hu
    exact hall hstop (packed_stCols src h₀.1 h₀.2)
  | case2 u s hlt s₀ hgo s₁ hstop =>
    have h₁ := second (packed_first src h hload hu)
    exact hall (by omega) (packed_stCols src h₁.1 h₁.2)
  | case3 u s hlt s₀ hgo s₁ hgo₁ s₂ hstop =>
    have h₁ := second (packed_first src h hload hu)
    have h₂ := third ⟨h₁.1, h₁.2⟩
    rw [show u + lanes + lanes = u + 2 * lanes by omega] at h₂
    exact hall (by omega) (packed_stCols src h₂.1 h₂.2)
  | case4 u s hlt s₀ hgo s₁ hgo₁ s₂ hgo₂ s₃ hstop =>
    have h₁ := second (packed_first src h hload hu)
    have h₂ := third ⟨h₁.1, h₁.2⟩
    rw [show u + lanes + lanes = u + 2 * lanes by omega] at h₂
    have h₃ := fourth h₂
    rw [show u + 2 * lanes + lanes = u + 3 * lanes by omega] at h₃
    exact hall (by omega) (packed_stCols src h₃.1 h₃.2)
  | case5 u s hlt s₀ hgo s₁ hgo₁ s₂ hgo₂ s₃ hgo₃ ih =>
    have h₁ := second (packed_first src h hload hu)
    have h₂ := third ⟨h₁.1, h₁.2⟩
    rw [show u + lanes + lanes = u + 2 * lanes by omega] at h₂
    have h₃ := fourth h₂
    rw [show u + 2 * lanes + lanes = u + 3 * lanes by omega] at h₃
    have hlast : u + 4 * lanes - lanes = u + 3 * lanes := by omega
    rw [hlast] at ih
    exact ih h₃.1 (fun _ => h₃.2) (by omega) (by omega)
  | case6 u s hlt => exact absurd hend hlt

theorem packRowsU32_eq : src.packRowsU32 = (List.range src.npair).flatMap fun p =>
    (List.range lanes).map (src.column p) := by
  rw [RowSource.packRowsU32]
  apply List.flatMap_congr
  intro p hp
  have hlt : p < src.npair := List.mem_range.mp hp
  have hpacked := packed_packLoop src 0 ⟨fun _ _ _ => 0, fun _ _ => 0⟩
    (fun _ hn => absurd hn (by omega)) (fun hpos => absurd hpos (by omega)) (Or.inl rfl) (by omega)
  rw [hpacked p hlt hlt]

end PackRows

end TritonCpu.FlashAttention
