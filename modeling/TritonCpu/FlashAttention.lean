import Mathlib.Data.Int.Init
import Mathlib.Tactic.Common

/-!
# The blocks and chunks of flash attention

A call of `kunpeng_flash_attention_forward` processes query rows of one head in
blocks. The keys that a block can see, rounded outwards to tiles of 16 keys,
are processed in chunks.
-/

set_option autoImplicit false

namespace TritonCpu.FlashAttention

/-- `L`, the lanes of a vector, rows of a row tile and keys of a key tile. -/
def lanes : ℕ := 16

/-- The parameters of a call that decide what it reads of `K` and `V`. -/
structure Call where
  k : ℤ
  k_rs : ℤ
  v : ℤ
  v_rs : ℤ
  row_start : ℤ
  num_rows : ℤ
  seqlen_q : ℤ
  seqlen_k : ℤ
  window_left : Bool
  window_right : Bool
  left_shift : ℤ
  right_shift : ℤ
  head_dim : ℤ

/-- `fa_args`, without the query, the output and the scale. -/
structure FaArgs where
  k : ℤ
  v : ℤ
  k_rs : ℤ
  v_rs : ℤ
  Sq : ℤ
  Sk : ℤ
  left : ℤ
  right : ℤ
  has_left : Bool
  has_right : Bool
  D : ℕ
  block_m : ℕ
  chunk_n : ℕ

/-- `block_m` of `set_blocking`. -/
def blockM (has_left : Bool) (num_rows : ℤ) : ℕ :=
  let bm := if has_left then 16 else 64
  let rows16 := (num_rows.toNat + lanes - 1) / lanes * lanes
  if rows16 < bm then rows16 else bm

def Call.args (call : Call) : FaArgs where
  k := call.k
  v := call.v
  k_rs := call.k_rs
  v_rs := call.v_rs
  Sq := call.seqlen_q
  Sk := call.seqlen_k
  left := call.left_shift
  right := call.right_shift
  has_left := call.window_left
  has_right := call.window_right
  D := call.head_dim.toNat
  block_m := blockM call.window_left call.num_rows
  chunk_n := 512

/-- The rows of a call, `[rbeg, rend)` of `fa_block`. -/
def Call.rbeg (call : Call) : ℤ := if call.row_start < 0 then 0 else call.row_start

def Call.rend (call : Call) : ℤ :=
  if call.row_start + call.num_rows < call.seqlen_q then call.row_start + call.num_rows
  else call.seqlen_q

/-- The checks of the entry point and of `fa_block`; without rows they return. -/
def Call.hasRows (call : Call) : Bool :=
  decide (¬(call.num_rows ≤ 0 ∨ call.row_start ≥ call.seqlen_q) ∧ call.rbeg < call.rend)

def rowLb (a : FaArgs) (r : ℤ) : ℤ :=
  if !a.has_left then 0 else if r + a.left < 0 then 0 else r + a.left

def rowRb (a : FaArgs) (r : ℤ) : ℤ :=
  if !a.has_right then a.Sk - 1 else if r + a.right > a.Sk - 1 then a.Sk - 1 else r + a.right

/-- `x & ~(int64_t)(L - 1)` -/
def roundDown (x : ℤ) : ℤ := x / lanes * lanes

/-- `(x + L - 1) & ~(int64_t)(L - 1)` -/
def roundUp (x : ℤ) : ℤ := roundDown (x + lanes - 1)

/-- The values of `x` in `for (x = start; x < stop; x += step)`. -/
def countFrom (start stop : ℤ) (step : ℕ) : List ℤ :=
  if start < stop ∧ 0 < step then start :: countFrom (start + step) stop step else []
termination_by (stop - start).toNat
decreasing_by omega

/-- `for (; j + 3 < stop; j += 4) { j; j + 1; j + 2; j + 3 } for (; j < stop; j++) j` -/
def inQuads (j stop : ℕ) : List ℕ :=
  if j + 3 < stop then j :: (j + 1) :: (j + 2) :: (j + 3) :: inQuads (j + 4) stop
  else List.range' j (stop - j)
termination_by stop - j

/-- `nr`, the rows of the block that starts at `r0`. -/
def blockRows (a : FaArgs) (rend r0 : ℤ) : ℕ :=
  if rend - r0 < a.block_m then (rend - r0).toNat else a.block_m

def blockLo (a : FaArgs) (r0 : ℤ) : ℤ := roundDown (rowLb a r0)

def blockHi (a : FaArgs) (rend r0 : ℤ) : ℤ := roundUp (rowRb a (r0 + blockRows a rend r0 - 1) + 1)

/-- `nk`, the keys of the chunk that starts at `c`. -/
def chunkKeys (a : FaArgs) (hi c : ℤ) : ℕ := if hi - c < a.chunk_n then (hi - c).toNat else a.chunk_n

def blockStarts (call : Call) : List ℤ := countFrom call.rbeg call.rend call.args.block_m

/-- The starts of the chunks of a block; a block that sees no key has none. -/
def chunkStarts (a : FaArgs) (rend r0 : ℤ) : List ℤ :=
  if blockHi a rend r0 ≤ blockLo a r0 then []
  else countFrom (blockLo a r0) (blockHi a rend r0) a.chunk_n

section Bounds

variable (a : FaArgs)

theorem rowLb_le_iff {r j : ℤ} :
    rowLb a r ≤ j ↔ 0 ≤ j ∧ (a.has_left = true → r + a.left ≤ j) := by
  rw [rowLb]
  by_cases hleft : a.has_left = true
  · simp only [hleft, Bool.not_true, Bool.false_eq_true, if_false, forall_const]
    split_ifs <;> omega
  · simp only [Bool.not_eq_true] at hleft
    simp [hleft]

theorem le_rowRb_iff {r j : ℤ} :
    j ≤ rowRb a r ↔ j < a.Sk ∧ (a.has_right = true → j ≤ r + a.right) := by
  rw [rowRb]
  by_cases hright : a.has_right = true
  · simp only [hright, Bool.not_true, Bool.false_eq_true, if_false, forall_const]
    split_ifs <;> omega
  · simp only [Bool.not_eq_true] at hright
    simp only [hright, Bool.not_false, if_true, Bool.false_eq_true, false_imp_iff, and_true]
    omega

theorem rowLb_nonneg (r : ℤ) : 0 ≤ rowLb a r := by
  rw [rowLb]
  split_ifs <;> omega

theorem rowLb_mono {r r' : ℤ} (h : r ≤ r') : rowLb a r ≤ rowLb a r' := by
  rw [rowLb, rowLb]
  split_ifs <;> omega

theorem rowRb_mono {r r' : ℤ} (h : r ≤ r') : rowRb a r ≤ rowRb a r' := by
  rw [rowRb, rowRb]
  split_ifs <;> omega

theorem rowRb_lt (r : ℤ) : rowRb a r < a.Sk := by
  rw [rowRb]
  split_ifs <;> omega

theorem roundDown_le (x : ℤ) : roundDown x ≤ x ∧ x < roundDown x + 16 ∧ (16 : ℤ) ∣ roundDown x := by
  simp only [roundDown, lanes]
  omega

theorem le_roundUp (x : ℤ) : x ≤ roundUp x ∧ roundUp x < x + 16 ∧ (16 : ℤ) ∣ roundUp x := by
  simp only [roundUp, roundDown, lanes]
  omega

theorem blockM_spec {has_left : Bool} {num_rows : ℤ} (h : 0 < num_rows) :
    0 < blockM has_left num_rows ∧ 16 ∣ blockM has_left num_rows := by
  simp only [blockM, lanes]
  cases has_left with
  | false => simp only [Bool.false_eq_true, if_false]; split_ifs <;> omega
  | true => simp only [if_true]; split_ifs <;> omega

end Bounds

section CountFrom

variable {start stop : ℤ} {step : ℕ}

theorem mem_countFrom (hstep : 0 < step) {x : ℤ} : x ∈ countFrom start stop step ↔
    start ≤ x ∧ x < stop ∧ (step : ℤ) ∣ x - start := by
  fun_induction countFrom start stop step with
  | case1 start h ih =>
    rw [List.mem_cons, ih]
    constructor
    · rintro (rfl | ⟨hle, hlt, hdvd⟩)
      · exact ⟨Int.le_refl _, h.1, by simp⟩
      · have hshift : x - start = (x - (start + step)) + step := by omega
        exact ⟨by omega, hlt, hshift ▸ (Int.dvd_add hdvd (Int.dvd_refl _))⟩
    · rintro ⟨hle, hlt, hdvd⟩
      by_cases heq : x = start
      · exact Or.inl heq
      · have hpos : (step : ℤ) ≤ x - start := Int.le_of_dvd (by omega) hdvd
        have hshift : x - (start + step) = (x - start) - step := by omega
        exact Or.inr ⟨by omega, hlt, hshift ▸ Int.dvd_sub hdvd (Int.dvd_refl _)⟩
  | case2 start h =>
    simp only [List.not_mem_nil, false_iff]
    omega

theorem flatMap_countFrom {α : Type} (f : ℤ → α) (hstep : 0 < step) :
    (countFrom start stop step).flatMap (fun c =>
      (List.range (if stop - c < step then (stop - c).toNat else step)).map fun n : ℕ => f (c + n)) =
        (List.range (stop - start).toNat).map fun n : ℕ => f (start + n) := by
  fun_induction countFrom start stop step with
  | case1 start h ih =>
    rw [List.flatMap_cons, ih]
    by_cases hlast : stop - start < step
    · rw [if_pos hlast, show (stop - (start + step)).toNat = 0 by omega]
      simp
    · obtain ⟨rest, hrest⟩ : ∃ rest : ℕ, (stop - start).toNat = step + rest :=
        ⟨(stop - start).toNat - step, by omega⟩
      rw [if_neg hlast, hrest, show (stop - (start + step)).toNat = rest by omega, List.range_add,
        List.map_append, List.map_map]
      congr 1
      apply List.map_congr_left
      intro n _
      simp only [Function.comp_apply]
      congr 1
      push_cast
      omega
  | case2 start h =>
    rw [show (stop - start).toNat = 0 by omega]
    rfl

theorem inQuads_eq (j stop : ℕ) : inQuads j stop = List.range' j (stop - j) := by
  fun_induction inQuads j stop with
  | case1 j h ih =>
    rw [ih, show stop - j = stop - (j + 4) + 1 + 1 + 1 + 1 by omega, List.range'_succ,
      List.range'_succ, List.range'_succ, List.range'_succ]
  | case2 j h => rfl

end CountFrom

end TritonCpu.FlashAttention
