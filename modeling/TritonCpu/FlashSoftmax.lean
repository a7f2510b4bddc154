import TritonCpu.FlashWindow
import TritonCpu.OnlineSoftmax

/-!
# The softmax of flash attention

A query row meets its keys in chunks. The softmax of a chunk masks the scores
that the row does not see, raises the running maximum, rescales what it has so
far, and adds the probabilities of the chunk and the values they weigh. The
arithmetic is exact; a score is an element of the field, or minus infinity.
-/

set_option autoImplicit false

namespace TritonCpu.FlashSoftmax
open FlashAttention OnlineSoftmax List

section Code

variable {𝕜 : Type} [Field 𝕜] [LinearOrder 𝕜]

/-- One lane of `mrow`, `lrow` and `OT`. -/
structure Row (𝕜 : Type) where
  m : WithBot 𝕜
  l : 𝕜
  OT : ℕ → 𝕜

/-- The score of the `j`-th key of a chunk in `ST` after the passes of
`FA_MASK_KEY`, which leave out the keys that all rows of the row tile see. -/
def maskedScore (a : FaArgs) (rbase c : ℤ) (nk i : ℕ) (st : ℕ → WithBot 𝕜) (j : ℕ) : WithBot 𝕜 :=
  if interiorStart a rbase c nk ≤ j ∧ j < interiorStop a rbase c nk then st j
  else if laneOk a (laneRow rbase i) (c + j) then st j
  else ⊥

/-- `mx0` and `mx1` after the keys of a loop in pairs. -/
def maxInPairs (st : ℕ → WithBot 𝕜) (j stop : ℕ) (mx : WithBot 𝕜 × WithBot 𝕜) :
    WithBot 𝕜 × WithBot 𝕜 :=
  if j + 1 < stop then maxInPairs st (j + 2) stop (max mx.1 (st j), max mx.2 (st (j + 1)))
  else if j < stop then (max mx.1 (st j), mx.2)
  else mx
termination_by stop - j

/-- `mx0` and `mx1` after the keys that all rows of the row tile see. -/
def maxInQuads (st : ℕ → WithBot 𝕜) (j stop : ℕ) (mx0 mx1 mx2 mx3 : WithBot 𝕜) :
    WithBot 𝕜 × WithBot 𝕜 :=
  if j + 3 < stop then
    maxInQuads st (j + 4) stop (max mx0 (st j)) (max mx1 (st (j + 1))) (max mx2 (st (j + 2)))
      (max mx3 (st (j + 3)))
  else
    let mx0 := (List.range' j (stop - j)).foldl (fun mx j => max mx (st j)) mx0
    (max mx0 mx2, max mx1 mx3)
termination_by stop - j

/-- `svmax_f32_x(pt, mx0, mx1)` of a chunk. -/
def chunkMax (st : ℕ → WithBot 𝕜) (f0 f1 nk : ℕ) : WithBot 𝕜 :=
  let mx := maxInPairs st 0 f0 (⊥, ⊥)
  let mx := maxInQuads st f0 f1 mx.1 mx.2 ⊥ ⊥
  let mx := maxInPairs st f1 nk mx
  max mx.1 mx.2

def sumInPairs (p : ℕ → 𝕜) (kp nkp : ℕ) (l0 l1 l2 l3 : 𝕜) : 𝕜 :=
  if kp < nkp then
    sumInPairs p (kp + 4) nkp (l0 + (p (2 * kp) + p (2 * kp + 1)))
      (l1 + (p (2 * kp + 2) + p (2 * kp + 3))) (l2 + (p (2 * kp + 4) + p (2 * kp + 5)))
      (l3 + (p (2 * kp + 6) + p (2 * kp + 7)))
  else l0 + l1 + (l2 + l3)
termination_by nkp - kp

/-- One lane of `softmax`: the row, and the probabilities of the chunk. -/
def softmax (E : Exp2 𝕜) (scale : 𝕜) (a : FaArgs) (rbase c : ℤ) (nk i : ℕ) (first : Bool)
    (st : ℕ → WithBot 𝕜) (row : Row 𝕜) : Row 𝕜 × (ℕ → 𝕜) :=
  let st := maskedScore a rbase c nk i st
  let mx := max row.m
    (chunkMax st (interiorStart a rbase c nk) (interiorStop a rbase c nk) nk * (scale : WithBot 𝕜))
  let msafe := if mx = ⊥ then 0 else mx.unbotD 0
  let alpha := E.exp2 (row.m + (-msafe : 𝕜))
  let p := fun j => E.exp2 (st j * (scale : WithBot 𝕜) + (-msafe : 𝕜))
  ({ m := mx
     l := sumInPairs p 0 (nk / 2) (row.l * alpha) 0 0 0
     OT := if first then row.OT else fun d => row.OT d * alpha }, p)

/-- One lane of `row_inv`. -/
def rowInv (row : Row 𝕜) : 𝕜 := if 0 < row.l ∧ row.m ≠ ⊥ then 1 / row.l else 0

/-- One element of `ZA` through the key tiles of `pv_gemm`, a pair of keys with
every `FA_MOPA`. -/
def pvGemm (p v : ℕ → 𝕜) (nkt : ℕ) (za : 𝕜) : 𝕜 :=
  (List.range nkt).foldl (fun za kt =>
    (List.range (lanes / 2)).foldl (fun za kp =>
      za + (p (kt * lanes + 2 * kp) * v (kt * lanes + 2 * kp) +
        p (kt * lanes + 2 * kp + 1) * v (kt * lanes + 2 * kp + 1))) za) za

/-- One row in the body of the loop of `task` over the chunks. -/
def chunkRow (E : Exp2 𝕜) (scale : 𝕜) (a : FaArgs) (rbase : ℤ) (i : ℕ) (score : ℤ → 𝕜)
    (value : ℤ → ℕ → 𝕜) (chunk : ℤ × ℕ) (first : Bool) (row : Row 𝕜) : Row 𝕜 :=
  let (row, p) := softmax E scale a rbase chunk.1 chunk.2 i first
    (fun j => (score (chunk.1 + j) : WithBot 𝕜)) row
  { row with
    OT := fun d => pvGemm p (fun j => value (chunk.1 + j) d) (chunk.2 / lanes)
      (if first then 0 else row.OT d) }

/-- One row in the loop of `task` over the chunks: the row and its output. A
block without a chunk writes zeros; the last chunk writes what it has. -/
def chunkLoop (E : Exp2 𝕜) (scale : 𝕜) (a : FaArgs) (rbase : ℤ) (i : ℕ) (score : ℤ → 𝕜)
    (value : ℤ → ℕ → 𝕜) : List (ℤ × ℕ) → Bool → Row 𝕜 → Row 𝕜 × (ℕ → 𝕜)
  | [], _, row => (row, fun _ => 0)
  | [chunk], first, row =>
    let row := chunkRow E scale a rbase i score value chunk first row
    (row, fun d => row.OT d * rowInv row)
  | chunk :: chunk' :: chunks, first, row =>
    chunkLoop E scale a rbase i score value (chunk' :: chunks) false
      (chunkRow E scale a rbase i score value chunk first row)

/-- Row `r` of the block at `r0`, from `m` of minus infinity and `l` of zero;
`OT` is what the block before left. -/
def taskRow (E : Exp2 𝕜) (scale : 𝕜) (a : FaArgs) (r0 r : ℤ) (score : ℤ → 𝕜)
    (value : ℤ → ℕ → 𝕜) (OT : ℕ → 𝕜) (chunks : List (ℤ × ℕ)) : Row 𝕜 × (ℕ → 𝕜) :=
  chunkLoop E scale a (tileRow r0 r) (r - tileRow r0 r).toNat score value chunks true ⟨⊥, 0, OT⟩

/-- `lse[r]` of `fa_block`. -/
def lse (ln2 : 𝕜) (logf : 𝕜 → 𝕜) (row : Row 𝕜) : WithBot 𝕜 :=
  if 0 < row.l ∧ row.m ≠ ⊥ then ((row.m.unbotD 0 * ln2 + logf row.l : 𝕜) : WithBot 𝕜) else ⊥

end Code

section Softmax

variable {𝕜 : Type} [Field 𝕜] [LinearOrder 𝕜]

def weightSum (E : Exp2 𝕜) (scale : 𝕜) (score : ℤ → 𝕜) (keys : List ℤ) : 𝕜 :=
  (keys.map fun j => E.exp2 ((score j * scale : 𝕜) : WithBot 𝕜)).sum

def weightedSum (E : Exp2 𝕜) (scale : 𝕜) (score : ℤ → 𝕜) (value : ℤ → ℕ → 𝕜) (keys : List ℤ)
    (d : ℕ) : 𝕜 :=
  (keys.map fun j => E.exp2 ((score j * scale : 𝕜) : WithBot 𝕜) * value j d).sum

end Softmax

def chunkInts (chunk : ℤ × ℕ) : List ℤ := (List.range chunk.2).map fun n : ℕ => chunk.1 + (n : ℤ)

/-- The keys of the chunks that row `r` of the block at `r0` sees. -/
def seenKeys (a : FaArgs) (r0 r : ℤ) (chunks : List (ℤ × ℕ)) : List ℤ :=
  (chunks.flatMap chunkInts).filter (keepsKey a r0 r)

section Maximum

variable {𝕜 : Type} [LinearOrder 𝕜]

theorem maxInPairs_eq_bot (st : ℕ → WithBot 𝕜) (j stop : ℕ) (mx : WithBot 𝕜 × WithBot 𝕜) :
    ((maxInPairs st j stop mx).1 = ⊥ ∧ (maxInPairs st j stop mx).2 = ⊥) ↔
      (mx.1 = ⊥ ∧ mx.2 = ⊥) ∧ ∀ n, j ≤ n → n < stop → st n = ⊥ := by
  fun_induction maxInPairs st j stop mx with
  | case1 j mx h ih =>
    rw [ih, max_eq_bot, max_eq_bot]
    constructor
    · rintro ⟨⟨⟨hfst, hj⟩, hsnd, hj'⟩, hrest⟩
      refine ⟨⟨hfst, hsnd⟩, fun n hle hlt => ?_⟩
      obtain rfl | rfl | hle' : n = j ∨ n = j + 1 ∨ j + 2 ≤ n := by omega
      · exact hj
      · exact hj'
      · exact hrest n hle' hlt
    · rintro ⟨⟨hfst, hsnd⟩, hall⟩
      exact ⟨⟨⟨hfst, hall j (by omega) (by omega)⟩, hsnd, hall (j + 1) (by omega) h⟩,
        fun n hle hlt => hall n (by omega) hlt⟩
  | case2 j mx h hlast =>
    rw [max_eq_bot]
    constructor
    · rintro ⟨⟨hfst, hj⟩, hsnd⟩
      refine ⟨⟨hfst, hsnd⟩, fun n hle hlt => ?_⟩
      rwa [show n = j by omega]
    · rintro ⟨⟨hfst, hsnd⟩, hall⟩
      exact ⟨⟨hfst, hall j (by omega) hlast⟩, hsnd⟩
  | case3 j mx h hlast =>
    constructor
    · intro hmx
      exact ⟨hmx, fun n hle hlt => by omega⟩
    · exact And.left

theorem foldl_max_eq_bot (st : ℕ → WithBot 𝕜) (keys : List ℕ) (mx : WithBot 𝕜) :
    keys.foldl (fun mx j => max mx (st j)) mx = ⊥ ↔ mx = ⊥ ∧ ∀ j ∈ keys, st j = ⊥ := by
  induction keys generalizing mx with
  | nil => simp
  | cons j keys ih => rw [foldl_cons, ih, max_eq_bot, forall_mem_cons, and_assoc]

theorem maxInQuads_eq_bot (st : ℕ → WithBot 𝕜) (j stop : ℕ) (mx0 mx1 mx2 mx3 : WithBot 𝕜) :
    ((maxInQuads st j stop mx0 mx1 mx2 mx3).1 = ⊥ ∧
        (maxInQuads st j stop mx0 mx1 mx2 mx3).2 = ⊥) ↔
      ((mx0 = ⊥ ∧ mx1 = ⊥) ∧ mx2 = ⊥ ∧ mx3 = ⊥) ∧ ∀ n, j ≤ n → n < stop → st n = ⊥ := by
  fun_induction maxInQuads st j stop mx0 mx1 mx2 mx3 with
  | case1 j mx0 mx1 mx2 mx3 h ih =>
    rw [ih]
    simp only [max_eq_bot]
    constructor
    · rintro ⟨⟨⟨⟨h0, hj⟩, h1, hj1⟩, ⟨h2, hj2⟩, h3, hj3⟩, hrest⟩
      refine ⟨⟨⟨h0, h1⟩, h2, h3⟩, fun n hle hlt => ?_⟩
      obtain rfl | rfl | rfl | rfl | hle' :
          n = j ∨ n = j + 1 ∨ n = j + 2 ∨ n = j + 3 ∨ j + 4 ≤ n := by omega
      · exact hj
      · exact hj1
      · exact hj2
      · exact hj3
      · exact hrest n hle' hlt
    · rintro ⟨⟨⟨h0, h1⟩, h2, h3⟩, hall⟩
      exact ⟨⟨⟨⟨h0, hall j (by omega) (by omega)⟩, h1, hall (j + 1) (by omega) (by omega)⟩,
        ⟨h2, hall (j + 2) (by omega) (by omega)⟩, h3, hall (j + 3) (by omega) h⟩,
        fun n hle hlt => hall n (by omega) hlt⟩
  | case2 j mx0 mx1 mx2 mx3 h mx0' =>
    have hrest : (∀ n ∈ List.range' j (stop - j), st n = ⊥) ↔
        ∀ n, j ≤ n → n < stop → st n = ⊥ := by
      constructor
      · intro hall n hle hlt
        exact hall n (mem_range'_1.mpr ⟨hle, by omega⟩)
      · intro hall n hn
        obtain ⟨hle, hlt⟩ := mem_range'_1.mp hn
        exact hall n hle (by omega)
    rw [max_eq_bot, max_eq_bot, foldl_max_eq_bot, hrest]
    tauto

theorem chunkMax_eq_bot (st : ℕ → WithBot 𝕜) {f0 f1 nk : ℕ} (hle : f0 ≤ f1) (hle' : f1 ≤ nk) :
    chunkMax st f0 f1 nk = ⊥ ↔ ∀ n < nk, st n = ⊥ := by
  rw [chunkMax, max_eq_bot, maxInPairs_eq_bot, maxInQuads_eq_bot, maxInPairs_eq_bot]
  constructor
  · rintro ⟨⟨⟨⟨-, hfirst⟩, -⟩, hmiddle⟩, hlast⟩ n hn
    obtain hlt | hlt | hlt : n < f0 ∨ (f0 ≤ n ∧ n < f1) ∨ f1 ≤ n := by omega
    · exact hfirst n (Nat.zero_le n) hlt
    · exact hmiddle n hlt.1 hlt.2
    · exact hlast n hlt hn
  · intro hall
    exact ⟨⟨⟨⟨⟨rfl, rfl⟩, fun n _ hn => hall n (by omega)⟩, rfl, rfl⟩,
      fun n _ hn => hall n (by omega)⟩, fun n _ hn => hall n hn⟩

end Maximum

section Sums

variable {𝕜 : Type} [Field 𝕜]

theorem sumInPairs_eq (p : ℕ → 𝕜) (kp nkp : ℕ) (l0 l1 l2 l3 : 𝕜) (h : 4 ∣ nkp - kp) :
    sumInPairs p kp nkp l0 l1 l2 l3 =
      l0 + l1 + l2 + l3 + ((List.range' (2 * kp) (2 * (nkp - kp))).map p).sum := by
  fun_induction sumInPairs p kp nkp l0 l1 l2 l3 with
  | case1 kp l0 l1 l2 l3 hlt ih =>
    have hkeys : 2 * (nkp - kp) = 2 * (nkp - (kp + 4)) + 1 + 1 + 1 + 1 + 1 + 1 + 1 + 1 := by omega
    rw [ih (by omega), hkeys]
    simp only [List.range'_succ, map_cons, sum_cons]
    rw [show 2 * (kp + 4) = 2 * kp + 1 + 1 + 1 + 1 + 1 + 1 + 1 + 1 by ring]
    ring
  | case2 kp l0 l1 l2 l3 hge =>
    rw [show 2 * (nkp - kp) = 0 by omega, List.range'_zero, map_nil, sum_nil]
    ring

theorem pvGemm_eq (p v : ℕ → 𝕜) (nkt : ℕ) (za : 𝕜) :
    pvGemm p v nkt za = za + ((List.range (nkt * lanes)).map fun j => p j * v j).sum := by
  induction nkt with
  | zero => simp [pvGemm]
  | succ nkt ih =>
    have hsucc : pvGemm p v (nkt + 1) za = (List.range (lanes / 2)).foldl (fun za kp =>
        za + (p (nkt * lanes + 2 * kp) * v (nkt * lanes + 2 * kp) +
          p (nkt * lanes + 2 * kp + 1) * v (nkt * lanes + 2 * kp + 1))) (pvGemm p v nkt za) := by
      rw [pvGemm, range_succ, foldl_append]
      rfl
    rw [hsucc, ih, Nat.succ_mul, range_add, map_append, sum_append]
    simp only [lanes, Nat.reduceDiv, range_succ, range_zero, nil_append,
      cons_append, foldl_cons, foldl_nil, map_cons, map_nil, sum_cons,
      sum_nil, Nat.reduceMul, Nat.add_zero, Nat.mul_zero, Nat.add_assoc, Nat.reduceAdd]
    ring

end Sums

section Rows

variable {𝕜 : Type} [Field 𝕜] [LinearOrder 𝕜]

/-- A row before a chunk; the first chunk does not read `OT`. -/
def Row.state (row : Row 𝕜) (first : Bool) : State 𝕜 ℕ where
  m := row.m
  l := row.l
  acc := if first then fun _ => 0 else row.OT

/-- What a row takes from key `j`. -/
def rowKey (scale : 𝕜) (a : FaArgs) (r0 r : ℤ) (score : ℤ → 𝕜) (value : ℤ → ℕ → 𝕜) (j : ℤ) :
    Key 𝕜 ℕ :=
  (if keepsKey a r0 r j then ((score j * scale : 𝕜) : WithBot 𝕜) else ⊥, value j)

variable {E : Exp2 𝕜} {scale : 𝕜} (hscale : 0 < scale) (a : FaArgs) (r0 r : ℤ) (score : ℤ → 𝕜)
  (value : ℤ → ℕ → 𝕜)

include hscale

theorem maskedScore_mul (chunk : ℤ × ℕ) {n : ℕ} (hn : n < chunk.2) :
    maskedScore a (tileRow r0 r) chunk.1 chunk.2 (r - tileRow r0 r).toNat
        (fun j => (score (chunk.1 + j) : WithBot 𝕜)) n * (scale : WithBot 𝕜) =
      (rowKey scale a r0 r score value (chunk.1 + n)).1 := by
  have hbot : (⊥ : WithBot 𝕜) * (scale : WithBot 𝕜) = ⊥ :=
    WithBot.bot_mul (by simpa using hscale.ne')
  by_cases hinterior : interior a (tileRow r0 r) (chunk.1 + n) = true
  · have hkeep : keepsKey a r0 r (chunk.1 + n) = true := by rw [keepsKey, hinterior, Bool.true_or]
    rw [maskedScore, if_pos ((interior_iff _ _ _ _ hn).mp hinterior), rowKey, if_pos hkeep,
      WithBot.coe_mul]
  · have hkeep : keepsKey a r0 r (chunk.1 + n) =
        laneOk a (laneRow (tileRow r0 r) (r - tileRow r0 r).toNat) (chunk.1 + n) := by
      rw [keepsKey, Bool.eq_false_iff.mpr hinterior, Bool.false_or]
    rw [maskedScore, if_neg (fun h => hinterior ((interior_iff _ _ _ _ hn).mpr h)), rowKey, hkeep]
    split_ifs
    · rw [WithBot.coe_mul]
    · exact hbot

/-- A chunk absorbs its keys; the new maximum is finite from the first key that
the row sees on. -/
theorem chunkRow_state (chunk : ℤ × ℕ) (hdvd : 16 ∣ chunk.2) (first : Bool) (row : Row 𝕜) :
    ∃ mx : WithBot 𝕜,
      (mx = ⊥ ↔ row.m = ⊥ ∧ ∀ key ∈ (chunkInts chunk).map (rowKey scale a r0 r score value),
        key.1 = ⊥) ∧
      (chunkRow E scale a (tileRow r0 r) (r - tileRow r0 r).toNat score value chunk first row).state
          false =
        (row.state first).absorb E mx ((chunkInts chunk).map (rowKey scale a r0 r score value)) := by
  obtain ⟨c, nk⟩ := chunk
  have hmask : ∀ n < nk, maskedScore a (tileRow r0 r) c nk (r - tileRow r0 r).toNat
      (fun j => (score (c + j) : WithBot 𝕜)) n * (scale : WithBot 𝕜) =
        (rowKey scale a r0 r score value (c + n)).1 :=
    fun n hn => maskedScore_mul hscale a r0 r score value (c, nk) hn
  have hbot : ∀ x : WithBot 𝕜, x * (scale : WithBot 𝕜) = ⊥ ↔ x = ⊥ := by
    intro x
    rw [WithBot.mul_eq_bot_iff]
    simp [hscale.ne']
  obtain ⟨hle, hle'⟩ := interior_le a (tileRow r0 r) c nk
  refine ⟨max row.m (chunkMax (maskedScore a (tileRow r0 r) c nk (r - tileRow r0 r).toNat
      (fun j => (score (c + j) : WithBot 𝕜))) (interiorStart a (tileRow r0 r) c nk)
      (interiorStop a (tileRow r0 r) c nk) nk * (scale : WithBot 𝕜)), ?_, ?_⟩
  · rw [max_eq_bot, hbot, chunkMax_eq_bot _ hle hle']
    simp only [chunkInts, map_map, forall_mem_map, mem_range, Function.comp_apply]
    refine and_congr_right fun _ => forall₂_congr fun n hn => ?_
    rw [← hbot, hmask n hn]
  · have hpairs : 4 ∣ nk / 2 - 0 := by omega
    have hkeys : 2 * (nk / 2 - 0) = nk := by omega
    have htiles : nk / lanes * lanes = nk := Nat.div_mul_cancel hdvd
    simp only [chunkRow, softmax, Row.state, State.absorb, sumInPairs_eq _ _ _ _ _ _ _ hpairs,
      hkeys, pvGemm_eq, htiles, chunkInts, map_map, State.mk.injEq, true_and]
    generalize max row.m _ = mx
    have hprob : ∀ n ∈ List.range nk, E.exp2 (maskedScore a (tileRow r0 r) c nk
        (r - tileRow r0 r).toNat (fun j => (score (c + j) : WithBot 𝕜)) n * (scale : WithBot 𝕜) +
          (-safe mx : 𝕜)) =
        E.exp2 ((rowKey scale a r0 r score value (c + n)).1 + (-safe mx : 𝕜)) := by
      intro n hn
      rw [hmask n (mem_range.mp hn)]
    constructor
    · rw [← range_eq_range', add_zero, add_zero, add_zero]
      congr 2
      exact map_congr_left hprob
    · funext d
      have hacc : (if first = true then 0 else
          (if first = true then row.OT else fun d => row.OT d * E.exp2 (row.m + (-safe mx : 𝕜))) d) =
          (if first = true then fun _ => 0 else row.OT) d * E.exp2 (row.m + (-safe mx : 𝕜)) := by
        cases first with
        | true => exact (zero_mul _).symm
        | false => rfl
      refine congrArg₂ (· + ·) hacc (congrArg List.sum (map_congr_left fun n hn => ?_))
      exact congrArg (· * value (c + n) d) (hprob n hn)

theorem chunkRow_after (chunk : ℤ × ℕ) (hdvd : 16 ∣ chunk.2) {first : Bool} {row : Row 𝕜}
    {seen : List (Key 𝕜 ℕ)} (hrow : (row.state first).After E seen) :
    ((chunkRow E scale a (tileRow r0 r) (r - tileRow r0 r).toNat score value chunk first row).state
      false).After E (seen ++ (chunkInts chunk).map (rowKey scale a r0 r score value)) := by
  obtain ⟨mx, hmx, heq⟩ := chunkRow_state (E := E) hscale a r0 r score value chunk hdvd first row
  rw [heq]
  exact hrow.absorb hmx

theorem chunkLoop_after (chunks : List (ℤ × ℕ)) (hchunks : ∀ chunk ∈ chunks, 16 ∣ chunk.2)
    (hne : chunks ≠ []) {first : Bool} {row : Row 𝕜} {seen : List (Key 𝕜 ℕ)}
    (hrow : (row.state first).After E seen) {row' : Row 𝕜} {out : ℕ → 𝕜}
    (hloop : chunkLoop E scale a (tileRow r0 r) (r - tileRow r0 r).toNat score value chunks first
      row = (row', out)) :
    (row'.state false).After E
        (seen ++ (chunks.flatMap chunkInts).map (rowKey scale a r0 r score value)) ∧
      ∀ d, out d = row'.OT d * rowInv row' := by
  induction chunks generalizing first row seen with
  | nil => exact absurd rfl hne
  | cons chunk chunks ih =>
    obtain ⟨hdvd, hrest⟩ := forall_mem_cons.mp hchunks
    have hstep := chunkRow_after hscale a r0 r score value chunk hdvd hrow
    cases chunks with
    | nil =>
      rw [chunkLoop, Prod.mk.injEq] at hloop
      obtain ⟨rfl, rfl⟩ := hloop
      rw [flatMap_cons, flatMap_nil, append_nil]
      exact ⟨hstep, fun d => rfl⟩
    | cons chunk' chunks =>
      rw [chunkLoop] at hloop
      obtain ⟨hafter, hout⟩ := ih hrest (cons_ne_nil _ _) hstep hloop
      rw [flatMap_cons, map_append, ← append_assoc]
      exact ⟨hafter, hout⟩

omit hscale in
theorem sum_rowKey (f : ℤ → 𝕜) (keys : List ℤ) :
    (keys.map fun j => E.exp2 (rowKey scale a r0 r score value j).1 * f j).sum =
      ((keys.filter (keepsKey a r0 r)).map fun j =>
        E.exp2 ((score j * scale : 𝕜) : WithBot 𝕜) * f j).sum := by
  have hweight : ∀ j, E.exp2 (rowKey scale a r0 r score value j).1 * f j =
      if keepsKey a r0 r j = true then E.exp2 ((score j * scale : 𝕜) : WithBot 𝕜) * f j else 0 := by
    intro j
    rw [rowKey]
    split_ifs
    · rfl
    · rw [E.exp2_bot, zero_mul]
  simp only [hweight, sum_map_ite, sum_map_zero, add_zero, Bool.decide_eq_true]

omit hscale in
theorem denominator_rowKey (keys : List ℤ) :
    denominator E (keys.map (rowKey scale a r0 r score value)) =
      weightSum E scale score (keys.filter (keepsKey a r0 r)) := by
  have hsum := @sum_rowKey 𝕜 _ _ E scale a r0 r score value (fun _ => 1) keys
  simp only [mul_one] at hsum
  rw [denominator, map_map]
  exact hsum

omit hscale in
theorem numerator_rowKey (keys : List ℤ) (d : ℕ) :
    numerator E (keys.map (rowKey scale a r0 r score value)) d =
      weightedSum E scale score value (keys.filter (keepsKey a r0 r)) d := by
  rw [numerator, map_map]
  exact sum_rowKey a r0 r score value (fun j => value j d) keys

omit hscale [LinearOrder 𝕜] in
theorem rowKey_eq_bot {j : ℤ} :
    (rowKey scale a r0 r score value j).1 = ⊥ ↔ ¬ keepsKey a r0 r j = true := by
  rw [rowKey]
  split_ifs with hkeep
  · simp only [hkeep, WithBot.coe_ne_bot, not_true_eq_false]
  · exact iff_of_true rfl hkeep

/-- A row has taken the keys of all its chunks, and its output is what it has
accumulated, by the reciprocal of its sum. -/
theorem taskRow_after (OT : ℕ → 𝕜) (chunks : List (ℤ × ℕ))
    (hchunks : ∀ chunk ∈ chunks, 16 ∣ chunk.2) {row : Row 𝕜} {out : ℕ → 𝕜}
    (htask : taskRow E scale a r0 r score value OT chunks = (row, out)) :
    (row.state false).After E ((chunks.flatMap chunkInts).map (rowKey scale a r0 r score value)) ∧
      ∀ d, out d = (row.state false).acc d * (row.state false).inv := by
  by_cases hne : chunks = []
  · rw [hne, taskRow, chunkLoop, Prod.mk.injEq] at htask
    obtain ⟨rfl, rfl⟩ := htask
    rw [hne]
    exact ⟨State.after_nil rfl, fun d => by simp [State.inv, Row.state]⟩
  · have hstart : (Row.state (⟨⊥, 0, OT⟩ : Row 𝕜) true).After E [] := State.after_nil rfl
    exact chunkLoop_after hscale a r0 r score value chunks hchunks hne hstart htask

variable [IsStrictOrderedRing 𝕜]

/-- Whatever the chunks, and whether the row sees keys of all of them or of none
of some, the output is the mean of the values of the keys it sees, weighted by
the powers of their scaled scores; `m` and `l` hold the sum of the weights.
Without a key the output is zero. -/
theorem taskRow_softmax (OT : ℕ → 𝕜) (chunks : List (ℤ × ℕ))
    (hchunks : ∀ chunk ∈ chunks, 16 ∣ chunk.2) {row : Row 𝕜} {out : ℕ → 𝕜}
    (htask : taskRow E scale a r0 r score value OT chunks = (row, out)) :
    (seenKeys a r0 r chunks ≠ [] →
      (∃ m : 𝕜, row.m = m ∧ E.exp2 m * row.l = weightSum E scale score (seenKeys a r0 r chunks) ∧
        ∀ ln2 logf, lse ln2 logf row = (m * ln2 + logf row.l : 𝕜)) ∧
      ∀ d, out d = weightedSum E scale score value (seenKeys a r0 r chunks) d /
        weightSum E scale score (seenKeys a r0 r chunks)) ∧
    (seenKeys a r0 r chunks = [] →
      (∀ d, out d = 0) ∧ ∀ ln2 logf, lse ln2 logf row = ⊥) := by
  obtain ⟨hafter, hout⟩ := taskRow_after hscale a r0 r score value OT chunks hchunks htask
  constructor
  · intro hseen
    obtain ⟨j, hj⟩ := exists_mem_of_ne_nil _ hseen
    obtain ⟨hmem, hkeep⟩ := mem_filter.mp hj
    obtain ⟨hm, hl⟩ : row.m ≠ ⊥ ∧ 0 < row.l := hafter.finite
      ⟨_, mem_map_of_mem hmem, fun h => (rowKey_eq_bot a r0 r score value).mp h hkeep⟩
    obtain ⟨m, hm'⟩ := WithBot.ne_bot_iff_exists.mp hm
    have hsum : E.exp2 row.m * row.l = _ := hafter.sum
    rw [denominator_rowKey, ← hm'] at hsum
    refine ⟨⟨m, hm'.symm, hsum, fun ln2 logf => ?_⟩, fun d => ?_⟩
    · rw [lse, if_pos ⟨hl, hm⟩, ← hm', WithBot.unbotD_coe]
    · rw [hout, hafter.acc_mul_inv, numerator_rowKey, denominator_rowKey, seenKeys]
  · intro hseen
    have hunseen : ∀ key ∈ (chunks.flatMap chunkInts).map (rowKey scale a r0 r score value),
        key.1 = ⊥ := by
      rw [seenKeys, filter_eq_nil_iff] at hseen
      rw [forall_mem_map]
      exact fun j hj => (rowKey_eq_bot a r0 r score value).mpr (hseen j hj)
    obtain ⟨hm, hinv⟩ : row.m = ⊥ ∧ _ := hafter.unseen_inv hunseen
    refine ⟨fun d => ?_, fun ln2 logf => by simp [lse, hm]⟩
    rw [hout, hinv, mul_zero]

end Rows

def wholeRow : FaArgs where
  k := 0
  v := 0
  k_rs := 16
  v_rs := 16
  Sq := 16
  Sk := 32
  left := 0
  right := 0
  has_left := false
  has_right := false
  D := 16
  block_m := 16
  chunk_n := 16

/-- The second chunk lies behind the last key; the row sees none of it. -/
theorem taskRow_softmax_wholeRow :
    let result := taskRow realExp2 1 wholeRow 0 0 (fun j => j) (fun j _ => j) (fun _ => 0)
      [(0, 16), (32, 16), (16, 16)]
    (∃ m : ℝ, result.1.m = m ∧ realExp2.exp2 m * result.1.l =
      weightSum realExp2 1 (fun j => (j : ℝ))
        (seenKeys wholeRow 0 0 [(0, 16), (32, 16), (16, 16)])) := by
  intro result
  obtain ⟨⟨m, hm, hsum, -⟩, -⟩ := (taskRow_softmax (E := realExp2) one_pos wholeRow 0 0 (fun j => j)
    (fun j _ => j) (fun _ => 0) [(0, 16), (32, 16), (16, 16)] (by decide) rfl).1 (by decide +kernel)
  exact ⟨m, hm, hsum⟩

section Calls

def blockChunks (a : FaArgs) (rend r0 : ℤ) : List (ℤ × ℕ) :=
  (chunkStarts a rend r0).map fun c => (c, chunkKeys a (blockHi a rend r0) c)

variable {call : Call} {r : ℤ}

theorem flatMap_blockChunks (a : FaArgs) (rend r0 : ℤ) (hchunk : 0 < a.chunk_n) :
    (blockChunks a rend r0).flatMap chunkInts =
      (List.range (blockHi a rend r0 - blockLo a r0).toNat).map fun n : ℕ =>
        blockLo a r0 + (n : ℤ) := by
  rw [blockChunks, chunkStarts]
  by_cases hempty : blockHi a rend r0 ≤ blockLo a r0
  · rw [if_pos hempty, show (blockHi a rend r0 - blockLo a r0).toNat = 0 by omega]
    rfl
  · rw [if_neg hempty, flatMap_map]
    exact flatMap_countFrom (fun key => key) hchunk

theorem seenKeys_blockChunks (hle : call.rbeg ≤ r) (hlt : r < call.rend) :
    seenKeys call.args (blockRow call r) r
        (blockChunks call.args call.rend (blockRow call r)) =
      ((rowKeys call r).filter Prod.snd).map Prod.fst := by
  rw [seenKeys, flatMap_blockChunks _ _ _ (by decide : 0 < 512), rowKeys_eq hle hlt,
    blockKeys_eq _ _ _ _ (by decide : 0 < 512), filter_map, filter_map, map_map]
  rfl

theorem blockChunks_dvd (a : FaArgs) (rend r0 : ℤ) (hchunk : 16 ∣ a.chunk_n) :
    ∀ chunk ∈ blockChunks a rend r0, 16 ∣ chunk.2 := by
  intro chunk hchunk'
  obtain ⟨c, hc, rfl⟩ := mem_map.mp hchunk'
  rw [chunkStarts] at hc
  split_ifs at hc with hempty
  · exact absurd hc not_mem_nil
  · have hlo := (roundDown_le (rowLb a r0)).2.2
    have hhi := (le_roundUp (rowRb a (r0 + blockRows a rend r0 - 1) + 1)).2.2
    obtain ⟨hge, -, hstep⟩ := (mem_countFrom (by
      by_contra hzero
      rw [countFrom, if_neg (by omega)] at hc
      exact absurd hc not_mem_nil)).mp hc
    have hstep' : (16 : ℤ) ∣ c - blockLo a r0 := (Int.natCast_dvd_natCast.mpr hchunk).trans hstep
    rw [← blockHi] at hhi
    rw [← blockLo] at hlo
    show 16 ∣ chunkKeys a (blockHi a rend r0) c
    rw [chunkKeys]
    by_cases hlast : blockHi a rend r0 - c < a.chunk_n
    · rw [if_pos hlast]
      omega
    · rw [if_neg hlast]
      exact hchunk

/-- The attention of a row of a call whose processed keys are its visible keys:
the mean of their values, weighted by the powers of their scaled scores. -/
theorem call_row {𝕜 : Type} [Field 𝕜] [LinearOrder 𝕜] [IsStrictOrderedRing 𝕜] (E : Exp2 𝕜)
    {scale : 𝕜} (hscale : 0 < scale) (hle : call.rbeg ≤ r) (hlt : r < call.rend)
    (hcovered : RowCovered call r) (score : ℤ → 𝕜) (value : ℤ → ℕ → 𝕜) (OT : ℕ → 𝕜) (d : ℕ) :
    (taskRow E scale call.args (blockRow call r) r score value OT
        (blockChunks call.args call.rend (blockRow call r))).2 d =
      (∑ j ∈ Finset.Icc (rowLb call.args r) (rowRb call.args r),
          E.exp2 ((score j * scale : 𝕜) : WithBot 𝕜) * value j d) /
        ∑ j ∈ Finset.Icc (rowLb call.args r) (rowRb call.args r),
          E.exp2 ((score j * scale : 𝕜) : WithBot 𝕜) := by
  have hseen := seenKeys_blockChunks hle hlt
  have hnodup : (seenKeys call.args (blockRow call r) r
      (blockChunks call.args call.rend (blockRow call r))).Nodup := by
    rw [seenKeys, flatMap_blockChunks _ _ _ (by decide : 0 < 512)]
    refine (List.Nodup.map (fun n m h => ?_) nodup_range).filter _
    simpa using h
  have hvisible : (seenKeys call.args (blockRow call r) r
      (blockChunks call.args call.rend (blockRow call r))).toFinset =
        Finset.Icc (rowLb call.args r) (rowRb call.args r) := by
    ext j
    rw [mem_toFinset, hseen, Finset.mem_Icc, ← visible_iff, mem_map]
    constructor
    · rintro ⟨⟨j', kept⟩, hkey, rfl⟩
      obtain ⟨hmem, rfl⟩ := mem_filter.mp hkey
      by_contra hinvisible
      exact hcovered.2 j' hinvisible hmem
    · intro hvisible
      have hmem : (j, true) ∈ rowKeys call r := by
        rw [← count_pos_iff, (hcovered.1 j hvisible).1]
        exact Nat.one_pos
      exact ⟨(j, true), mem_filter.mpr ⟨hmem, rfl⟩, rfl⟩
  have hsum : ∀ f : ℤ → 𝕜, ((seenKeys call.args (blockRow call r) r
      (blockChunks call.args call.rend (blockRow call r))).map f).sum =
        ∑ j ∈ Finset.Icc (rowLb call.args r) (rowRb call.args r), f j := by
    intro f
    rw [← hvisible, sum_toFinset f hnodup]
  rcases htask : taskRow E scale call.args (blockRow call r) r score value OT
    (blockChunks call.args call.rend (blockRow call r)) with ⟨row, out⟩
  obtain ⟨hafter, hout⟩ := taskRow_after hscale call.args (blockRow call r) r score value OT
    (blockChunks call.args call.rend (blockRow call r))
    (blockChunks_dvd _ _ _ (by decide : 16 ∣ 512)) htask
  show out d = _
  rw [hout, hafter.acc_mul_inv, numerator_rowKey, denominator_rowKey, ← hsum, ← hsum]
  rfl

/-- Row 20 of a sliding window attends to the keys from 12 to 24. -/
theorem call_row_slidingWindow :
    (taskRow realExp2 1 slidingWindow.args (blockRow slidingWindow 20) 20 (fun j => (j : ℝ))
        (fun j _ => (j : ℝ)) (fun _ => 0)
        (blockChunks slidingWindow.args slidingWindow.rend (blockRow slidingWindow 20))).2 0 =
      (∑ j ∈ Finset.Icc (12 : ℤ) 24, realExp2.exp2 (((j : ℝ) * 1 : ℝ) : WithBot ℝ) * j) /
        ∑ j ∈ Finset.Icc (12 : ℤ) 24, realExp2.exp2 (((j : ℝ) * 1 : ℝ) : WithBot ℝ) :=
  call_row realExp2 one_pos (by decide) (by decide)
    (covered_of_fits (by rw [Fits32]; decide) (by decide) (by decide) (by decide) (by decide))
    _ _ _ _

end Calls

end TritonCpu.FlashSoftmax
