import Mathlib
import TritonCpu.FlashAttention

/-!
# The window of flash attention

The softmax of a chunk tests the window for every lane, except on the keys that
all 16 rows of a row tile see. The lanes are 32-bit integers.
-/

set_option autoImplicit false

namespace TritonCpu.FlashAttention

open List

/-- The conversion to `int32_t`. -/
def toInt32 (x : ℤ) : ℤ := Int.bmod x (2 ^ 32)

/-- Lane `i` of `svindex_s32((int32_t)rbase, 1)`. -/
def laneRow (rbase : ℤ) (i : ℕ) : ℤ := toInt32 (toInt32 rbase + i)

def laneLb (a : FaArgs) (row : ℤ) : ℤ :=
  if a.has_left then max (toInt32 (row + toInt32 a.left)) 0 else 0

def laneRb (a : FaArgs) (row : ℤ) : ℤ :=
  if a.has_right then min (toInt32 (row + toInt32 a.right)) (toInt32 (a.Sk - 1))
  else toInt32 (a.Sk - 1)

/-- Whether `FA_MASK_KEY` keeps the score of a key in a lane. -/
def laneOk (a : FaArgs) (row key : ℤ) : Bool :=
  decide (laneLb a row ≤ toInt32 key ∧ toInt32 key ≤ laneRb a row)

/-- The start of the keys of a chunk that all rows of a row tile see. -/
def interiorStart (a : FaArgs) (rbase c : ℤ) (nk : ℕ) : ℕ :=
  let f0 := rowLb a (rbase + lanes - 1) - c
  if f0 < 0 then 0 else if f0 > nk then nk else f0.toNat

def interiorStop (a : FaArgs) (rbase c : ℤ) (nk : ℕ) : ℕ :=
  let f0 := interiorStart a rbase c nk
  let f1 := rowRb a rbase + 1 - c
  if f1 < f0 then f0 else if f1 > nk then nk else f1.toNat

/-- `for (; j + 1 < stop; j += 2) { j; j + 1 } if (j < stop) j` -/
def inPairs (j stop : ℕ) : List ℕ :=
  if j + 1 < stop then j :: (j + 1) :: inPairs (j + 2) stop else if j < stop then [j] else []
termination_by stop - j

/-- The keys of a chunk for one lane of a row tile, and whether the score of the
key is kept. -/
def softmaxKeys (a : FaArgs) (rbase c : ℤ) (nk i : ℕ) : List (ℤ × Bool) :=
  let f0 := interiorStart a rbase c nk
  let f1 := interiorStop a rbase c nk
  let maskKey := fun j : ℕ => (c + j, laneOk a (laneRow rbase i) (c + j))
  (inPairs 0 f0).map maskKey ++ (inQuads f0 f1).map (fun j : ℕ => (c + j, true)) ++
    (inPairs f1 nk).map maskKey

/-- The first row of the row tile of row `r`. -/
def tileRow (r0 r : ℤ) : ℤ := r0 + (r - r0) / lanes * lanes

/-- The keys that one block processes for row `r`. -/
def blockKeys (a : FaArgs) (rend r0 r : ℤ) : List (ℤ × Bool) :=
  (chunkStarts a rend r0).flatMap fun c =>
    softmaxKeys a (tileRow r0 r) c (chunkKeys a (blockHi a rend r0) c) (r - tileRow r0 r).toNat

/-- The keys that a call processes for row `r`, and whether the score is kept. -/
def rowKeys (call : Call) (r : ℤ) : List (ℤ × Bool) :=
  (blockStarts call).flatMap fun r0 =>
    if r0 ≤ r ∧ r < r0 + blockRows call.args call.rend r0 then blockKeys call.args call.rend r0 r
    else []

/-- Key `j` is visible from row `r`. -/
def Visible (call : Call) (r j : ℤ) : Prop :=
  (0 ≤ j ∧ j < call.seqlen_k) ∧ (call.window_left = true → r + call.left_shift ≤ j) ∧
    (call.window_right = true → j ≤ r + call.right_shift)

/-- Every visible key is processed once, with its score, and no other keeps its
score. -/
def RowCovered (call : Call) (r : ℤ) : Prop :=
  (∀ j, Visible call r j →
    (rowKeys call r).count (j, true) = 1 ∧ (rowKeys call r).count (j, false) = 0) ∧
  ∀ j, ¬ Visible call r j → (j, true) ∉ rowKeys call r

def Fits32 (call : Call) : Prop :=
  ∀ x ∈ [call.row_start, call.num_rows, call.seqlen_q, call.seqlen_k, call.left_shift,
    call.right_shift], -2 ^ 31 ≤ x ∧ x < 2 ^ 31

section Loops

theorem inPairs_eq (j stop : ℕ) : inPairs j stop = List.range' j (stop - j) := by
  fun_induction inPairs j stop with
  | case1 j h ih =>
    rw [ih, show stop - j = stop - (j + 2) + 1 + 1 by omega, List.range'_succ, List.range'_succ]
  | case2 j h hlast =>
    rw [show stop - j = 1 by omega]
    rfl
  | case3 j h hlast =>
    rw [show stop - j = 0 by omega]
    rfl

variable (a : FaArgs) (rbase c : ℤ) (nk i : ℕ)

theorem interior_le : interiorStart a rbase c nk ≤ interiorStop a rbase c nk ∧
    interiorStop a rbase c nk ≤ nk := by
  simp only [interiorStart, interiorStop]
  split_ifs <;> omega

def interior (key : ℤ) : Bool :=
  decide (rowLb a (rbase + lanes - 1) ≤ key ∧ key ≤ rowRb a rbase)

theorem interior_iff {n : ℕ} (hn : n < nk) : interior a rbase (c + n) = true ↔
    interiorStart a rbase c nk ≤ n ∧ n < interiorStop a rbase c nk := by
  simp only [interior, decide_eq_true_eq, interiorStart, interiorStop]
  split_ifs <;> omega

theorem softmaxKeys_eq : softmaxKeys a rbase c nk i = (List.range nk).map fun n : ℕ =>
    (c + n, interior a rbase (c + n) || laneOk a (laneRow rbase i) (c + n)) := by
  obtain ⟨hle, hle'⟩ := interior_le a rbase c nk
  have hsplit : List.range nk = List.range' 0 (interiorStart a rbase c nk) ++
      List.range' (interiorStart a rbase c nk)
        (interiorStop a rbase c nk - interiorStart a rbase c nk) ++
      List.range' (interiorStop a rbase c nk) (nk - interiorStop a rbase c nk) := by
    have hfirst := @List.range'_append_1 0 (interiorStart a rbase c nk)
      (interiorStop a rbase c nk - interiorStart a rbase c nk)
    have hsecond := @List.range'_append_1 0 (interiorStop a rbase c nk)
      (nk - interiorStop a rbase c nk)
    rw [Nat.zero_add] at hfirst hsecond
    rw [hfirst, Nat.add_sub_cancel' hle, hsecond, Nat.add_sub_cancel' hle', range_eq_range']
  rw [softmaxKeys, hsplit]
  simp only [inPairs_eq, inQuads_eq, Nat.sub_zero, map_append]
  congr 1
  · congr 1
    · apply map_congr_left
      intro n hn
      have hn' : n < interiorStart a rbase c nk := by simpa using hn
      have hno : interior a rbase (c + n) = false := by
        rw [← Bool.not_eq_true, interior_iff a rbase c nk (by omega)]
        omega
      rw [hno, Bool.false_or]
    · apply map_congr_left
      intro n hn
      have hn' := mem_range'_1.mp hn
      have hyes : interior a rbase (c + n) = true := by
        rw [interior_iff a rbase c nk (by omega)]
        omega
      rw [hyes, Bool.true_or]
  · apply map_congr_left
    intro n hn
    have hn' := mem_range'_1.mp hn
    have hno : interior a rbase (c + n) = false := by
      rw [← Bool.not_eq_true, interior_iff a rbase c nk (by omega)]
      omega
    rw [hno, Bool.false_or]

end Loops

section Rows

/-- Whether row `r` of a block keeps the score of a key. -/
def keepsKey (a : FaArgs) (r0 r key : ℤ) : Bool :=
  interior a (tileRow r0 r) key ||
    laneOk a (laneRow (tileRow r0 r) (r - tileRow r0 r).toNat) key

theorem blockKeys_eq (a : FaArgs) (rend r0 r : ℤ) (hchunk : 0 < a.chunk_n) :
    blockKeys a rend r0 r = (List.range (blockHi a rend r0 - blockLo a r0).toNat).map fun n : ℕ =>
      (blockLo a r0 + n, keepsKey a r0 r (blockLo a r0 + n)) := by
  rw [blockKeys, chunkStarts]
  by_cases hempty : blockHi a rend r0 ≤ blockLo a r0
  · rw [if_pos hempty, show (blockHi a rend r0 - blockLo a r0).toNat = 0 by omega]
    rfl
  · rw [if_neg hempty]
    simp only [softmaxKeys_eq]
    exact flatMap_countFrom (fun key => (key, keepsKey a r0 r key)) hchunk

theorem flatMap_blocks {α : Type} (g : ℤ → List α) {step : ℕ} (hstep : 0 < step)
    (rows : ℤ → ℕ) {start stop r : ℤ}
    (hrows : ∀ r0, rows r0 = if stop - r0 < step then (stop - r0).toNat else step)
    (hle : start ≤ r) (hlt : r < stop) :
    ((countFrom start stop step).flatMap fun r0 => if r0 ≤ r ∧ r < r0 + rows r0 then g r0 else []) =
      g (start + (r - start) / step * step) := by
  have hlater : ∀ start', r < start' → ((countFrom start' stop step).flatMap fun r0 =>
      if r0 ≤ r ∧ r < r0 + rows r0 then g r0 else []) = [] := by
    intro start' hstart'
    rw [flatMap_eq_nil_iff]
    intro r0 hr0
    have hge := ((mem_countFrom hstep).mp hr0).1
    rw [if_neg (by omega)]
  fun_induction countFrom start stop step with
  | case1 start h ih =>
    rw [flatMap_cons]
    by_cases hhere : r < start + step
    · have hblock : start ≤ r ∧ r < start + rows start := by
        rw [hrows]
        split_ifs <;> omega
      have hzero : (r - start) / (step : ℤ) = 0 := Int.ediv_eq_zero_of_lt (by omega) (by omega)
      rw [if_pos hblock, hlater _ hhere, hzero]
      simp
    · have hother : ¬ (start ≤ r ∧ r < start + rows start) := by
        rw [hrows]
        split_ifs <;> omega
      have hpos : (step : ℤ) ≠ 0 := by omega
      rw [if_neg hother, nil_append, ih (by omega)]
      congr 1
      rw [show r - start = r - (start + step) + 1 * step by omega, Int.add_mul_ediv_right _ _ hpos,
        Int.add_mul]
      omega
  | case2 start h => omega

variable {call : Call} {r : ℤ}

def blockRow (call : Call) (r : ℤ) : ℤ :=
  call.rbeg + (r - call.rbeg) / call.args.block_m * call.args.block_m

theorem num_rows_pos (hle : call.rbeg ≤ r) (hlt : r < call.rend) : 0 < call.num_rows := by
  rw [Call.rbeg] at hle
  rw [Call.rend] at hlt
  split_ifs at hle hlt <;> omega

theorem rowKeys_eq (hle : call.rbeg ≤ r) (hlt : r < call.rend) :
    rowKeys call r = blockKeys call.args call.rend (blockRow call r) r :=
  flatMap_blocks (fun r0 => blockKeys call.args call.rend r0 r)
    (blockM_spec (num_rows_pos hle hlt)).1 (blockRows call.args call.rend) (fun _ => rfl) hle hlt

def rowLo (call : Call) (r : ℤ) : ℤ := blockLo call.args (blockRow call r)

def rowHi (call : Call) (r : ℤ) : ℤ := blockHi call.args call.rend (blockRow call r)

/-- Whether the call keeps the score of a key for row `r`. -/
def keeps (call : Call) (r key : ℤ) : Bool := keepsKey call.args (blockRow call r) r key

theorem mem_rowKeys (hle : call.rbeg ≤ r) (hlt : r < call.rend) {j : ℤ} {kept : Bool} :
    (j, kept) ∈ rowKeys call r ↔
      (rowLo call r ≤ j ∧ j < rowHi call r) ∧ keeps call r j = kept := by
  rw [rowKeys_eq hle hlt, blockKeys_eq _ _ _ _ (by decide : 0 < 512), mem_map]
  constructor
  · rintro ⟨n, hn, heq⟩
    have hn' := mem_range.mp hn
    obtain ⟨rfl, rfl⟩ := Prod.mk.inj heq
    refine ⟨⟨?_, ?_⟩, rfl⟩
    · rw [rowLo]
      omega
    · rw [rowHi]
      omega
  · rintro ⟨⟨hlo, hhi⟩, rfl⟩
    rw [rowLo] at hlo
    rw [rowHi] at hhi
    refine ⟨(j - blockLo call.args (blockRow call r)).toNat, by rw [mem_range]; omega, ?_⟩
    have hj : blockLo call.args (blockRow call r) +
        ((j - blockLo call.args (blockRow call r)).toNat : ℤ) = j := by omega
    rw [hj, keeps]

theorem nodup_rowKeys (hle : call.rbeg ≤ r) (hlt : r < call.rend) : (rowKeys call r).Nodup := by
  rw [rowKeys_eq hle hlt, blockKeys_eq _ _ _ _ (by decide : 0 < 512)]
  refine List.Nodup.map (fun n m h => ?_) nodup_range
  have hfst := (Prod.mk.inj h).1
  omega

theorem visible_iff {j : ℤ} :
    Visible call r j ↔ rowLb call.args r ≤ j ∧ j ≤ rowRb call.args r := by
  rw [rowLb_le_iff, le_rowRb_iff, Visible]
  tauto

theorem blockRow_spec (hle : call.rbeg ≤ r) (hlt : r < call.rend) :
    call.rbeg ≤ blockRow call r ∧ blockRow call r ≤ r ∧
      r < blockRow call r + blockRows call.args call.rend (blockRow call r) ∧
      blockRow call r + blockRows call.args call.rend (blockRow call r) ≤
        blockRow call r + call.args.block_m := by
  have hpos : (0 : ℤ) < call.args.block_m :=
    Int.natCast_pos.mpr (blockM_spec (num_rows_pos hle hlt)).1
  have hdiv := Int.mul_ediv_add_emod (r - call.rbeg) call.args.block_m
  have hmod := Int.emod_nonneg (r - call.rbeg) (by omega : (call.args.block_m : ℤ) ≠ 0)
  have hmod' := Int.emod_lt_of_pos (r - call.rbeg) hpos
  have hquot : 0 ≤ (r - call.rbeg) / call.args.block_m := Int.ediv_nonneg (by omega) (by omega)
  have hmul := Int.mul_nonneg hquot (by omega : (0 : ℤ) ≤ call.args.block_m)
  rw [Int.mul_comm] at hdiv
  have hrow : blockRow call r = call.rbeg + (r - call.rbeg) / call.args.block_m * call.args.block_m :=
    rfl
  generalize (r - call.rbeg) / call.args.block_m * call.args.block_m = q at *
  generalize blockRow call r = r0 at *
  rw [blockRows]
  split_ifs <;> omega

theorem visible_bounds (hle : call.rbeg ≤ r) (hlt : r < call.rend) {j : ℤ}
    (h : Visible call r j) : rowLo call r ≤ j ∧ j < rowHi call r := by
  obtain ⟨hlb, hrb⟩ := visible_iff.mp h
  obtain ⟨-, hfirst, hlast, -⟩ := blockRow_spec hle hlt
  have hlo := rowLb_mono call.args hfirst
  have hhi := rowRb_mono call.args (show r ≤ blockRow call r +
    blockRows call.args call.rend (blockRow call r) - 1 by omega)
  have hdown := (roundDown_le (rowLb call.args (blockRow call r))).1
  have hup := (le_roundUp (rowRb call.args (blockRow call r +
    blockRows call.args call.rend (blockRow call r) - 1) + 1)).1
  rw [rowLo, rowHi, blockLo, blockHi]
  omega

theorem rowCovered_iff_keeps (hle : call.rbeg ≤ r) (hlt : r < call.rend) :
    RowCovered call r ↔
      ∀ j, rowLo call r ≤ j → j < rowHi call r → (keeps call r j = true ↔ Visible call r j) := by
  have hmem := fun j kept => @mem_rowKeys call r hle hlt j kept
  constructor
  · rintro ⟨hyes, hno⟩ j hlo hhi
    constructor
    · intro hkeep
      by_contra hinvisible
      exact hno j hinvisible ((hmem j true).mpr ⟨⟨hlo, hhi⟩, hkeep⟩)
    · intro hvisible
      have hone : (j, true) ∈ rowKeys call r := by
        rw [← count_pos_iff, (hyes j hvisible).1]
        exact Nat.one_pos
      exact ((hmem j true).mp hone).2
  · intro h
    refine ⟨fun j hvisible => ?_, fun j hinvisible hmem' => ?_⟩
    · obtain ⟨hlo, hhi⟩ := visible_bounds hle hlt hvisible
      have hkeep := (h j hlo hhi).mpr hvisible
      refine ⟨count_eq_one_of_mem (nodup_rowKeys hle hlt)
        ((hmem j true).mpr ⟨⟨hlo, hhi⟩, hkeep⟩), ?_⟩
      rw [count_eq_zero]
      intro hfalse
      rw [((hmem j false).mp hfalse).2] at hkeep
      exact absurd hkeep (by simp)
    · obtain ⟨⟨hlo, hhi⟩, hkeep⟩ := (hmem j true).mp hmem'
      exact hinvisible ((h j hlo hhi).mp hkeep)

end Rows

/-- Where a bound of the row leaves `int32_t`, the lane test does no harm: below
a left bound that leaves it no key is processed that the lane keeps; and above a
right bound that leaves it all rows of the row tile see what the row sees. -/
structure LaneFits (call : Call) (r : ℤ) : Prop where
  left : call.window_left = true → 2 ^ 31 ≤ r + call.left_shift → rowHi call r ≤ rowLo call r ∨
    call.window_right = true ∧
      (r + call.right_shift < rowLo call r ∨ 2 ^ 31 ≤ r + call.right_shift)
  right : call.window_right = true → 2 ^ 31 ≤ r + call.right_shift →
    call.seqlen_k ≤ rowLb call.args r ∨
      rowLb call.args (tileRow (blockRow call r) r + 15) ≤ rowLb call.args r ∧
        call.seqlen_k ≤ tileRow (blockRow call r) r + call.right_shift + 1

section Lanes

theorem toInt32_of_fits {x : ℤ} (h : -2 ^ 31 ≤ x) (h' : x < 2 ^ 31) : toInt32 x = x := by
  simp only [toInt32, Int.bmod]
  split_ifs <;> omega

theorem toInt32_overflow {x : ℤ} (h : 2 ^ 31 ≤ x) (h' : x < 2 ^ 32) : toInt32 x < 0 := by
  simp only [toInt32, Int.bmod]
  split_ifs <;> omega

section Bounds

variable (a : FaArgs) {r : ℤ} (hr : 0 ≤ r) (hr' : r < 2 ^ 31)

include hr hr'

theorem laneLb_le_iff {j : ℤ} (hj : 0 ≤ j) (hleft : -2 ^ 31 ≤ a.left ∧ a.left < 2 ^ 31)
    (hsum : a.has_left = true → r + a.left < 2 ^ 31) : laneLb a r ≤ j ↔ rowLb a r ≤ j := by
  rw [rowLb_le_iff, laneLb]
  by_cases hwindow : a.has_left = true
  · have hsum' := hsum hwindow
    rw [if_pos hwindow, toInt32_of_fits hleft.1 hleft.2, toInt32_of_fits (by omega) hsum']
    simp only [hwindow, forall_const]
    omega
  · rw [if_neg hwindow]
    simp [hwindow]

theorem laneLb_overflow (hleft : -2 ^ 31 ≤ a.left ∧ a.left < 2 ^ 31)
    (hwindow : a.has_left = true) (hsum : 2 ^ 31 ≤ r + a.left) : laneLb a r = 0 := by
  have hneg := toInt32_overflow hsum (by omega)
  rw [laneLb, if_pos hwindow, toInt32_of_fits hleft.1 hleft.2]
  omega

theorem le_laneRb_iff {j : ℤ} (hk : 0 < a.Sk ∧ a.Sk < 2 ^ 31)
    (hright : -2 ^ 31 ≤ a.right ∧ a.right < 2 ^ 31)
    (hsum : a.has_right = true → r + a.right < 2 ^ 31) : j ≤ laneRb a r ↔ j ≤ rowRb a r := by
  rw [le_rowRb_iff, laneRb, toInt32_of_fits (x := a.Sk - 1) (by omega) (by omega)]
  by_cases hwindow : a.has_right = true
  · have hsum' := hsum hwindow
    rw [if_pos hwindow, toInt32_of_fits hright.1 hright.2, toInt32_of_fits (by omega) hsum']
    simp only [hwindow, forall_const]
    omega
  · rw [if_neg hwindow]
    simp only [hwindow, Bool.false_eq_true, false_implies, and_true]
    omega

theorem laneRb_overflow (hright : -2 ^ 31 ≤ a.right ∧ a.right < 2 ^ 31)
    (hwindow : a.has_right = true) (hsum : 2 ^ 31 ≤ r + a.right) : laneRb a r < 0 := by
  have hneg := toInt32_overflow hsum (by omega)
  rw [laneRb, if_pos hwindow, toInt32_of_fits hright.1 hright.2]
  omega

end Bounds

variable {call : Call} {r : ℤ}

theorem tileRow_spec (hle : call.rbeg ≤ r) (hlt : r < call.rend) :
    call.rbeg ≤ tileRow (blockRow call r) r ∧ tileRow (blockRow call r) r ≤ r ∧
      r < tileRow (blockRow call r) r + 16 := by
  obtain ⟨hbeg, hfirst, -, -⟩ := blockRow_spec hle hlt
  simp only [tileRow, lanes]
  omega

theorem row_bounds (hfits : Fits32 call) (hlt : r < call.rend) : 0 ≤ call.rbeg ∧ r < 2 ^ 31 := by
  have hq := hfits call.seqlen_q (by simp)
  rw [Call.rend] at hlt
  rw [Call.rbeg]
  split_ifs at hlt ⊢ <;> omega

theorem laneRow_eq (hfits : Fits32 call) (hle : call.rbeg ≤ r) (hlt : r < call.rend) :
    laneRow (tileRow (blockRow call r) r) (r - tileRow (blockRow call r) r).toNat = r := by
  obtain ⟨hbeg, hrow⟩ := row_bounds hfits hlt
  obtain ⟨htile, htile', -⟩ := tileRow_spec hle hlt
  rw [laneRow, toInt32_of_fits (x := tileRow (blockRow call r) r) (by omega) (by omega),
    Int.toNat_of_nonneg (by omega), toInt32_of_fits (by omega) (by omega)]
  omega

theorem processed_bounds (hfits : Fits32 call) {j : ℤ} (hlo : rowLo call r ≤ j)
    (hhi : j < rowHi call r) :
    (0 ≤ rowLo call r ∧ j < 2 ^ 31) ∧ 0 < call.seqlen_k ∧ rowLo call r < call.seqlen_k := by
  have hk := hfits call.seqlen_k (by simp)
  have hlt := rowRb_lt call.args (blockRow call r +
    blockRows call.args call.rend (blockRow call r) - 1)
  have hup := le_roundUp (rowRb call.args (blockRow call r +
    blockRows call.args call.rend (blockRow call r) - 1) + 1)
  have hdown := roundDown_le (rowLb call.args (blockRow call r))
  have hlb := rowLb_nonneg call.args (blockRow call r)
  have hSk : call.args.Sk = call.seqlen_k := rfl
  rw [rowHi, blockHi] at hhi
  rw [rowLo, blockLo] at hlo ⊢
  omega

/-- The scores that are kept: of the keys all rows of the row tile see, and of
those that pass the lane test. -/
theorem keeps_iff (hfits : Fits32 call) (hle : call.rbeg ≤ r) (hlt : r < call.rend) {j : ℤ}
    (hlo : rowLo call r ≤ j) (hhi : j < rowHi call r) : keeps call r j = true ↔
      (rowLb call.args (tileRow (blockRow call r) r + 15) ≤ j ∧
        j ≤ rowRb call.args (tileRow (blockRow call r) r)) ∨
      (laneLb call.args r ≤ j ∧ j ≤ laneRb call.args r) := by
  obtain ⟨⟨hnonneg, hword⟩, -⟩ := processed_bounds hfits hlo hhi
  have hlast : tileRow (blockRow call r) r + (lanes : ℤ) - 1 = tileRow (blockRow call r) r + 15 := by
    simp only [lanes]
    omega
  rw [keeps, keepsKey, Bool.or_eq_true, interior, laneOk, decide_eq_true_eq, decide_eq_true_eq,
    laneRow_eq hfits hle hlt, toInt32_of_fits (x := j) (by omega) hword, hlast]

theorem visible_of_interior (hle : call.rbeg ≤ r) (hlt : r < call.rend) {j : ℤ}
    (hlb : rowLb call.args (tileRow (blockRow call r) r + 15) ≤ j)
    (hrb : j ≤ rowRb call.args (tileRow (blockRow call r) r)) : Visible call r j := by
  obtain ⟨-, htile, htile'⟩ := tileRow_spec hle hlt
  exact visible_iff.mpr ⟨Int.le_trans (rowLb_mono call.args (by omega)) hlb,
    Int.le_trans hrb (rowRb_mono call.args htile)⟩

theorem covered_of_fits (hfits : Fits32 call) (hle : call.rbeg ≤ r) (hlt : r < call.rend)
    (hleft : call.window_left = true → r + call.left_shift < 2 ^ 31)
    (hright : call.window_right = true → r + call.right_shift < 2 ^ 31) : RowCovered call r := by
  rw [rowCovered_iff_keeps hle hlt]
  intro j hlo hhi
  obtain ⟨hbeg, hrow⟩ := row_bounds hfits hlt
  obtain ⟨⟨hnonneg, -⟩, hk, -⟩ := processed_bounds hfits hlo hhi
  have hlb := laneLb_le_iff call.args (r := r) (j := j) (by omega) hrow (by omega)
    (hfits call.left_shift (by simp)) hleft
  have hrb := le_laneRb_iff call.args (r := r) (j := j) (by omega) hrow
    ⟨hk, (hfits call.seqlen_k (by simp)).2⟩ (hfits call.right_shift (by simp)) hright
  rw [keeps_iff hfits hle hlt hlo hhi, hlb, hrb, ← visible_iff]
  constructor
  · rintro (⟨hstart, hstop⟩ | hvisible)
    · exact visible_of_interior hle hlt hstart hstop
    · exact hvisible
  · exact Or.inr

theorem covered_iff_left (hfits : Fits32 call) (hle : call.rbeg ≤ r) (hlt : r < call.rend)
    (hwindow : call.window_left = true) (hsum : 2 ^ 31 ≤ r + call.left_shift) :
    RowCovered call r ↔
      ∀ j, rowLo call r ≤ j → j < rowHi call r → ¬ j ≤ laneRb call.args r := by
  rw [rowCovered_iff_keeps hle hlt]
  obtain ⟨hbeg, hrow⟩ := row_bounds hfits hlt
  have hzero := laneLb_overflow call.args (r := r) (by omega) hrow
    (hfits call.left_shift (by simp)) hwindow hsum
  refine forall_congr' fun j => forall_congr' fun hlo => forall_congr' fun hhi => ?_
  obtain ⟨⟨hnonneg, hword⟩, -⟩ := processed_bounds hfits hlo hhi
  have hinvisible : ¬ Visible call r j := by
    intro hvisible
    have hbound := hvisible.2.1 hwindow
    omega
  have hno : ¬ (rowLb call.args (tileRow (blockRow call r) r + 15) ≤ j ∧
      j ≤ rowRb call.args (tileRow (blockRow call r) r)) := fun h =>
    hinvisible (visible_of_interior hle hlt h.1 h.2)
  rw [keeps_iff hfits hle hlt hlo hhi, hzero, iff_false_right hinvisible]
  constructor
  · intro h hrb
    exact h (Or.inr ⟨by omega, hrb⟩)
  · rintro h (hin | hlane)
    · exact hno hin
    · exact h hlane.2

/-- The lanes of a row whose right bound overflows keep nothing. It is covered
when all rows of the row tile see what it sees. -/
theorem covered_iff_right (hfits : Fits32 call) (hle : call.rbeg ≤ r) (hlt : r < call.rend)
    (hwindow : call.window_right = true) (hsum : 2 ^ 31 ≤ r + call.right_shift) :
    RowCovered call r ↔ ∀ j, Visible call r j →
      rowLb call.args (tileRow (blockRow call r) r + 15) ≤ j ∧
        j ≤ rowRb call.args (tileRow (blockRow call r) r) := by
  rw [rowCovered_iff_keeps hle hlt]
  obtain ⟨hbeg, hrow⟩ := row_bounds hfits hlt
  have hneg := laneRb_overflow call.args (r := r) (by omega) hrow
    (hfits call.right_shift (by simp)) hwindow hsum
  constructor
  · intro h j hvisible
    obtain ⟨hlo, hhi⟩ := visible_bounds hle hlt hvisible
    have hnonneg := hvisible.1.1
    rcases (keeps_iff hfits hle hlt hlo hhi).mp ((h j hlo hhi).mpr hvisible) with hin | hlane
    · exact hin
    · omega
  · intro h j hlo hhi
    obtain ⟨⟨hnonneg, -⟩, -⟩ := processed_bounds hfits hlo hhi
    rw [keeps_iff hfits hle hlt hlo hhi]
    constructor
    · rintro (hin | hlane)
      · exact visible_of_interior hle hlt hin.1 hin.2
      · omega
    · exact fun hvisible => Or.inl (h j hvisible)

/-- A row of a call with 32-bit integers is covered exactly when the lanes fit. -/
theorem rowCovered_iff (hfits : Fits32 call) (hle : call.rbeg ≤ r) (hlt : r < call.rend) :
    RowCovered call r ↔ LaneFits call r := by
  obtain ⟨hbeg, hrow⟩ := row_bounds hfits hlt
  have hk := hfits call.seqlen_k (by simp)
  by_cases hleft : call.window_left = true ∧ 2 ^ 31 ≤ r + call.left_shift
  · obtain ⟨hwindow, hsum⟩ := hleft
    have hlb : r + call.left_shift ≤ rowLb call.args r :=
      (rowLb_le_iff call.args (j := rowLb call.args r)).mp (Int.le_refl _) |>.2 hwindow
    rw [covered_iff_left hfits hle hlt hwindow hsum]
    by_cases hright : call.window_right = true ∧ 2 ^ 31 ≤ r + call.right_shift
    · obtain ⟨hwindow', hsum'⟩ := hright
      have hneg := laneRb_overflow call.args (r := r) (by omega) hrow
        (hfits call.right_shift (by simp)) hwindow' hsum'
      constructor
      · exact fun _ => ⟨fun _ _ => Or.inr ⟨hwindow', Or.inr hsum'⟩, fun _ _ => Or.inl (by omega)⟩
      · intro _ j hlo hhi
        obtain ⟨⟨hnonneg, -⟩, -⟩ := processed_bounds hfits hlo hhi
        omega
    · have hfit : call.window_right = true → r + call.right_shift < 2 ^ 31 := by
        intro hwindow'
        by_contra hbig
        exact hright ⟨hwindow', by omega⟩
      constructor
      · intro h
        refine ⟨fun _ _ => ?_, fun hwindow' hsum' => absurd ⟨hwindow', hsum'⟩ hright⟩
        by_cases hempty : rowHi call r ≤ rowLo call r
        · exact Or.inl hempty
        · obtain ⟨-, hpos, hfirst⟩ := processed_bounds hfits (Int.le_refl (rowLo call r)) (by omega)
          have hno := h (rowLo call r) (Int.le_refl _) (by omega)
          rw [le_laneRb_iff call.args (by omega) hrow ⟨hpos, hk.2⟩ (hfits call.right_shift (by simp))
            hfit, le_rowRb_iff] at hno
          by_cases hwindow' : call.window_right = true
          · refine Or.inr ⟨hwindow', Or.inl ?_⟩
            by_contra hge
            exact hno ⟨hfirst, fun _ => Int.not_lt.mp hge⟩
          · exact absurd ⟨hfirst, fun hyes => absurd hyes hwindow'⟩ hno
      · intro h j hlo hhi hkept
        obtain ⟨-, hpos, -⟩ := processed_bounds hfits hlo hhi
        rw [le_laneRb_iff call.args (by omega) hrow ⟨hpos, hk.2⟩ (hfits call.right_shift (by simp))
          hfit, le_rowRb_iff] at hkept
        rcases h.left hwindow hsum with hempty | ⟨hwindow', hbelow | hbig⟩
        · omega
        · have hbound : j ≤ r + call.right_shift := hkept.2 hwindow'
          omega
        · exact hright ⟨hwindow', hbig⟩
  · have hfit : call.window_left = true → r + call.left_shift < 2 ^ 31 := by
      intro hwindow
      by_contra hbig
      exact hleft ⟨hwindow, by omega⟩
    by_cases hright : call.window_right = true ∧ 2 ^ 31 ≤ r + call.right_shift
    · obtain ⟨hwindow, hsum⟩ := hright
      rw [covered_iff_right hfits hle hlt hwindow hsum]
      constructor
      · intro h
        refine ⟨fun hwindow' hsum' => absurd ⟨hwindow', hsum'⟩ hleft, fun _ _ => ?_⟩
        by_cases hnone : call.seqlen_k ≤ rowLb call.args r
        · exact Or.inl hnone
        · have hlast : ∀ j, j < call.seqlen_k → j ≤ rowRb call.args r := by
            intro j hj
            rw [le_rowRb_iff]
            refine ⟨hj, fun _ => ?_⟩
            have hshift : call.args.right = call.right_shift := rfl
            omega
          have hstart := h (rowLb call.args r)
            (visible_iff.mpr ⟨Int.le_refl _, hlast _ (by omega)⟩)
          have hstop := h (call.seqlen_k - 1)
            (visible_iff.mpr ⟨by omega, hlast _ (by omega)⟩)
          have hbound : call.seqlen_k - 1 ≤ tileRow (blockRow call r) r + call.right_shift :=
            ((le_rowRb_iff call.args).mp hstop.2).2 hwindow
          exact Or.inr ⟨hstart.1, by omega⟩
      · intro h j hvisible
        obtain ⟨hlb, hrb⟩ := visible_iff.mp hvisible
        have hj := hvisible.1.2
        rcases h.right hwindow hsum with hnone | ⟨hsame, hreach⟩
        · omega
        · refine ⟨Int.le_trans hsame hlb, (le_rowRb_iff call.args).mpr ⟨hj, fun _ => ?_⟩⟩
          have hshift : call.args.right = call.right_shift := rfl
          omega
    · have hfit' : call.window_right = true → r + call.right_shift < 2 ^ 31 := by
        intro hwindow
        by_contra hbig
        exact hright ⟨hwindow, by omega⟩
      have hcovered := covered_of_fits hfits hle hlt hfit hfit'
      refine ⟨fun _ => ⟨fun hwindow hsum => ?_, fun hwindow hsum => ?_⟩, fun _ => hcovered⟩
      · exact absurd ⟨hwindow, hsum⟩ hleft
      · exact absurd ⟨hwindow, hsum⟩ hright

end Lanes

def slidingWindow : Call where
  k := 4096
  k_rs := 64
  v := 65536
  v_rs := 64
  row_start := 16
  num_rows := 64
  seqlen_q := 100
  seqlen_k := 100
  window_left := true
  window_right := true
  left_shift := -8
  right_shift := 4
  head_dim := 64

theorem slidingWindow_covered : RowCovered slidingWindow 20 :=
  (@rowCovered_iff slidingWindow 20 (by rw [Fits32]; decide) (by decide) (by decide)).mpr
    { left := fun _ hsum => absurd hsum (by decide)
      right := fun _ hsum => absurd hsum (by decide) }

def wideWindow : Call :=
  { slidingWindow with
    row_start := 0, num_rows := 16, seqlen_q := 16, seqlen_k := 32, left_shift := -1,
    right_shift := 2147483647 }

/-- Row 1 sees key 0, and the right bound of its lane is negative. -/
theorem wideWindow_not_covered : Fits32 wideWindow ∧
    (wideWindow.rbeg ≤ 1 ∧ 1 < wideWindow.rend) ∧ ¬ RowCovered wideWindow 1 := by
  have hfits : Fits32 wideWindow := by
    rw [Fits32]
    decide
  have hrow : wideWindow.rbeg ≤ 1 ∧ 1 < wideWindow.rend := by decide
  refine ⟨hfits, hrow, fun h => ?_⟩
  have hinterior := (covered_iff_right hfits hrow.1 hrow.2 rfl (by decide)).mp h 0
    (visible_iff.mpr (by decide))
  exact absurd hinterior.1 (by decide)

end TritonCpu.FlashAttention
