import TritonCpu.FreeVariables

/-!
# Consecutive elements

How many consecutive inputs of the first dimension go to consecutive outputs of
the first dimension: as many as the leading bases that are the units of the
output allow, as long as no other basis reaches their bits.
-/

set_option autoImplicit false

namespace TritonCpu

open XorSpan BitFields List

namespace LinearLayout

variable (L : LinearLayout)

/-- The first index that is not that of a basis `(2^i, 0, ..., 0)`. -/
def countConsec : ℕ → List (List ℕ) → Except LayoutError ℕ
  | consec, [] => .ok consec
  | consec, basis :: firstInDimBases => do
    let unit ← shiftOne consec
    if basis.getD 0 0 ≠ unit ∨ ¬ basis.tail.all (· == 0) then pure consec
    else countConsec (consec + 1) firstInDimBases

def otherBits (firstInDim : String) (consec : ℕ) : ℕ :=
  L.bases.entries.foldl (fun otherBits e =>
    e.2.zipIdx.foldl (fun otherBits basis =>
      if e.1 ≠ firstInDim ∨ consec ≤ basis.2 then otherBits ||| basis.1.getD 0 0
      else otherBits) otherBits) 0

def getNumConsecutiveInOut : Except LayoutError ℕ :=
  match L.bases.entries with
  | [] => .ok 1
  | (firstInDim, firstInDimBases) :: _ =>
    if L.getOutDimNames.length = 0 then .ok 1
    else do
      let consec ← countConsec 0 firstInDimBases
      let otherBits := L.otherBits firstInDim consec
      let trailingZeros := if otherBits ≠ 0 then countTrailingZeros otherBits else 31
      shiftOne (min consec trailingZeros)

end LinearLayout

open LinearLayout

section Loops

/-- `(2^i, 0, ..., 0)`. -/
def UnitBasis (i : ℕ) (basis : List ℕ) : Prop :=
  basis.getD 0 0 = 2 ^ i ∧ ∀ x ∈ basis.tail, x = 0

theorem countConsec_ok {bases : List (List ℕ)} (hlt : ∀ basis ∈ bases, basis.getD 0 0 < 2 ^ 30)
    {c : ℕ} (hc : c ≤ 30) : ∃ consec, countConsec c bases = .ok consec ∧ c ≤ consec ∧
      consec ≤ 30 ∧ consec ≤ c + bases.length ∧
      (∀ i, c + i < consec → UnitBasis (c + i) (bases.getD i [])) ∧
      (consec < c + bases.length → ¬ UnitBasis consec (bases.getD (consec - c) [])) := by
  induction bases generalizing c with
  | nil => exact ⟨c, rfl, le_rfl, hc, by simp, fun i hi => by omega, fun h => by simp at h⟩
  | cons basis bases ih =>
    have hstep : countConsec c (basis :: bases) =
        if basis.getD 0 0 ≠ 2 ^ c ∨ ¬ basis.tail.all (· == 0) then .ok c
        else countConsec (c + 1) bases := by
      rw [countConsec, shiftOne_ok (by omega)]
      rfl
    have hcond : (basis.getD 0 0 ≠ 2 ^ c ∨ ¬ basis.tail.all (· == 0)) ↔ ¬ UnitBasis c basis := by
      rw [UnitBasis, not_and_or]
      simp
    by_cases hunit : UnitBasis c basis
    · have hsmall : (2 : ℕ) ^ c < 2 ^ 30 := by
        rw [← hunit.1]
        exact hlt basis mem_cons_self
      have hc' := (Nat.pow_lt_pow_iff_right (by omega)).mp hsmall
      obtain ⟨consec, hconsec, hge, hle, hlen, hunits, hbreak⟩ :=
        ih (fun b hb => hlt b (mem_cons_of_mem _ hb)) (c := c + 1) (by omega)
      refine ⟨consec, ?_, by omega, hle, by rw [length_cons]; omega, fun i hi => ?_,
        fun h => ?_⟩
      · rw [hstep, if_neg (fun h => hcond.mp h hunit), hconsec]
      · cases i with
        | zero => exact hunit
        | succ i =>
          have hrest := hunits i (by omega)
          rwa [Nat.add_assoc, Nat.add_comm 1 i] at hrest
      · have hrest := hbreak (by rw [length_cons] at h; omega)
        have hidx : consec - c = consec - (c + 1) + 1 := by omega
        rwa [hidx, getD_cons_succ]
    · refine ⟨c, ?_, le_rfl, hc, by simp, fun i hi => by omega, fun _ => ?_⟩
      · rw [hstep, if_pos (hcond.mpr hunit)]
      · rwa [Nat.sub_self, getD_cons_zero]

theorem testBit_foldl {α : Type} {step : ℕ → α → ℕ} {j : ℕ} {Sets : α → Prop}
    (hstep : ∀ bits a, (step bits a).testBit j = true ↔ bits.testBit j = true ∨ Sets a)
    (l : List α) (bits : ℕ) :
    (l.foldl step bits).testBit j = true ↔ bits.testBit j = true ∨ ∃ a ∈ l, Sets a := by
  induction l generalizing bits with
  | nil => simp
  | cons a l ih =>
    rw [foldl_cons, ih, hstep, or_assoc]
    simp

variable (L : LinearLayout)

theorem testBit_otherBits (firstInDim : String) (consec j : ℕ) :
    (L.otherBits firstInDim consec).testBit j = true ↔
      ∃ e ∈ L.bases.entries, ∃ i < e.2.length, (e.1 ≠ firstInDim ∨ consec ≤ i) ∧
        ((e.2.getD i []).getD 0 0).testBit j = true := by
  have hinner : ∀ (e : String × List (List ℕ)) (bits : ℕ) (basis : List ℕ × ℕ),
      (if e.1 ≠ firstInDim ∨ consec ≤ basis.2 then bits ||| basis.1.getD 0 0 else bits).testBit
        j = true ↔ bits.testBit j = true ∨
          ((e.1 ≠ firstInDim ∨ consec ≤ basis.2) ∧ (basis.1.getD 0 0).testBit j = true) := by
    intro e bits basis
    by_cases h : e.1 ≠ firstInDim ∨ consec ≤ basis.2
    · rw [if_pos h, Nat.testBit_or, Bool.or_eq_true, and_iff_right h]
    · rw [if_neg h]
      simp only [h, false_and, or_false]
  have houter : ∀ (bits : ℕ) (e : String × List (List ℕ)),
      (e.2.zipIdx.foldl (fun otherBits basis =>
        if e.1 ≠ firstInDim ∨ consec ≤ basis.2 then otherBits ||| basis.1.getD 0 0
        else otherBits) bits).testBit j = true ↔ bits.testBit j = true ∨
          ∃ i < e.2.length, (e.1 ≠ firstInDim ∨ consec ≤ i) ∧
            ((e.2.getD i []).getD 0 0).testBit j = true := by
    intro bits e
    rw [testBit_foldl (hinner e)]
    apply or_congr Iff.rfl
    constructor
    · rintro ⟨⟨basis, i⟩, hmem, h⟩
      have hget := mk_mem_zipIdx_iff_getElem?.mp hmem
      obtain ⟨hi, rfl⟩ := List.getElem?_eq_some_iff.mp hget
      refine ⟨i, hi, h.1, ?_⟩
      rw [getD_eq_getElem _ _ hi]
      exact h.2
    · rintro ⟨i, hi, h⟩
      rw [getD_eq_getElem _ _ hi] at h
      exact ⟨(e.2[i], i), mk_mem_zipIdx_iff_getElem?.mpr (List.getElem?_eq_getElem hi), h⟩
  rw [otherBits, testBit_foldl houter, Nat.zero_testBit]
  simp

end Loops

section Consecutive

/-- `L(a*V + v, ...) = L(a*V, ...) + (v, 0, ..., 0)` for all `v < V`. The output
of `L` is what `apply` returns. -/
def Consecutive (L : RawLayout) (firstInDim firstOutDim : String) (V : ℕ) : Prop :=
  ∀ (a v : ℕ) (ins : String → ℕ), v < V → a * V + v < 2 ^ L.getInDimSizeLog2 firstInDim →
    (∀ inDim ∈ L.getInDimNames, inDim ≠ firstInDim → ins inDim < 2 ^ L.getInDimSizeLog2 inDim) →
    ∀ outDim ∈ L.getOutDimNames,
      L.value outDim (Function.update ins firstInDim (a * V + v)) =
        L.value outDim (Function.update ins firstInDim (a * V)) +
          if outDim = firstOutDim then v else 0

def restValue (L : RawLayout) (inDims : List String) (outDim : String) (ins : String → ℕ) : ℕ :=
  xorSum (inDims.map fun d => combine (L.dimColumn d outDim) (ins d))

theorem value_update {L : RawLayout} {firstInDim : String} {inDims : List String}
    (hin : L.getInDimNames = firstInDim :: inDims) (outDim : String) (ins : String → ℕ) (x : ℕ) :
    L.value outDim (Function.update ins firstInDim x) =
      combine (L.dimColumn firstInDim outDim) x ^^^ restValue L inDims outDim ins := by
  have hnodup : (firstInDim :: inDims).Nodup := hin ▸ nodup_getInDimNames L
  rw [RawLayout.value, hin, map_cons, xorSum_cons, Function.update_self, restValue]
  congr 1
  apply xorSum_map_congr
  intro d hd
  have hne : d ≠ firstInDim := by
    rintro rfl
    exact (nodup_cons.mp hnodup).1 hd
  rw [Function.update_of_ne hne]

theorem testBit_combine_of_selected {j : ℕ} {cs : List ℕ} {x : ℕ}
    (h : ∀ i < cs.length, x.testBit i = true → (cs.getD i 0).testBit j = false) :
    (combine cs x).testBit j = false := by
  induction cs generalizing x with
  | nil => simp
  | cons c cs ih =>
    have hrest : (combine cs (x / 2)).testBit j = false := by
      apply ih
      intro i hi hbit
      rw [Nat.testBit_div_two] at hbit
      have hcol := h (i + 1) (by rw [length_cons]; omega) hbit
      rwa [getD_cons_succ] at hcol
    rw [combine, Nat.testBit_xor, hrest, Bool.xor_false]
    split_ifs with hbit
    · exact h 0 (by simp) hbit
    · exact Nat.zero_testBit j

theorem testBit_xorSum {j : ℕ} {l : List ℕ} (h : ∀ b ∈ l, b.testBit j = false) :
    (xorSum l).testBit j = false := by
  induction l with
  | nil => exact Nat.zero_testBit j
  | cons b l ih =>
    rw [xorSum_cons, Nat.testBit_xor, h b mem_cons_self,
      ih fun b' hb' => h b' (mem_cons_of_mem _ hb')]
    rfl

theorem xor_ne_add {b k : ℕ} (hb : b.testBit k = true) : b ^^^ 2 ^ k ≠ b + 2 ^ k := by
  have hlt : b ^^^ 2 ^ k < b := by
    apply Nat.lt_of_testBit k
    · rw [Nat.testBit_xor, hb, Nat.testBit_two_pow_self]
      rfl
    · exact hb
    · intro j hj
      rw [Nat.testBit_xor, Nat.testBit_two_pow_of_ne (by omega), Bool.xor_false]
  have hpos := Nat.two_pow_pos k
  omega

theorem xor_eq_add {k b v : ℕ} (hb : ∀ j < k, b.testBit j = false) (hv : v < 2 ^ k) :
    b ^^^ v = b + v := by
  have hmod : b % 2 ^ k = 0 := by
    apply Nat.eq_of_testBit_eq
    intro j
    rw [Nat.testBit_mod_two_pow, Nat.zero_testBit]
    by_cases hj : j < k
    · simp [hb j hj]
    · simp [hj]
  have hsplit : b = 2 ^ k * (b / 2 ^ k) := by
    have hdiv := Nat.mod_add_div b (2 ^ k)
    omega
  have hxor := xor_shiftLeft_eq hv (b / 2 ^ k)
  rw [Nat.shiftLeft_eq, Nat.mul_comm (b / 2 ^ k), ← hsplit] at hxor
  rw [Nat.xor_comm, hxor, Nat.add_comm]

/-- What the two loops find out about the bases. -/
structure Leading (L : RawLayout) (firstInDim firstOutDim : String) (consec zeros : ℕ) : Prop where
  consec_le : consec ≤ L.getInDimSizeLog2 firstInDim
  units : ∀ i < consec, ∀ outDim ∈ L.getOutDimNames,
    L.getBasis firstInDim i outDim = if outDim = firstOutDim then 2 ^ i else 0
  stop : consec < L.getInDimSizeLog2 firstInDim → ∃ outDim ∈ L.getOutDimNames,
    L.getBasis firstInDim consec outDim ≠ if outDim = firstOutDim then 2 ^ consec else 0
  clear : ∀ j < zeros, ∀ inDim ∈ L.getInDimNames, ∀ i < L.getInDimSizeLog2 inDim,
    inDim ≠ firstInDim ∨ consec ≤ i → (L.getBasis inDim i firstOutDim).testBit j = false
  set : zeros < consec → ∃ inDim ∈ L.getInDimNames, ∃ i < L.getInDimSizeLog2 inDim,
    (inDim ≠ firstInDim ∨ consec ≤ i) ∧ (L.getBasis inDim i firstOutDim).testBit zeros = true

variable {L : RawLayout} {firstInDim firstOutDim : String} {inDims outDims : List String}
  {consec zeros : ℕ} (h : Leading L firstInDim firstOutDim consec zeros)
  (hin : L.getInDimNames = firstInDim :: inDims)
  (hout : L.getOutDimNames = firstOutDim :: outDims)

include h

theorem combine_leading {outDim : String} (hmem : outDim ∈ L.getOutDimNames) {x : ℕ}
    (hx : x < 2 ^ consec) :
    combine (L.dimColumn firstInDim outDim) x = if outDim = firstOutDim then x else 0 := by
  have htake : (L.dimColumn firstInDim outDim).take consec =
      (List.range consec).map fun i => if outDim = firstOutDim then 2 ^ i else 0 := by
    have hrange : (List.range (L.getInDimSizeLog2 firstInDim)).take consec = List.range consec := by
      rw [take_range, Nat.min_eq_left h.consec_le]
    rw [RawLayout.dimColumn, ← map_take, hrange]
    exact map_congr_left fun i hi => h.units i (mem_range.mp hi) outDim hmem
  have hmod := combine_take (L.dimColumn firstInDim outDim) x consec
  rw [Nat.mod_eq_of_lt hx, htake] at hmod
  rw [← hmod]
  split_ifs with hfirst
  · rw [combine_units, Nat.mod_eq_of_lt hx]
  · have hlt : combine ((List.range consec).map fun _ => 0) x < 2 ^ 0 := by
      apply combine_lt
      intro c hc
      obtain ⟨_, _, rfl⟩ := mem_map.mp hc
      exact Nat.one_pos
    rw [Nat.pow_zero] at hlt
    omega

include hin hout

theorem consecutive_of_leading {k : ℕ} (hk : k ≤ consec) (hk' : k ≤ zeros) :
    Consecutive L firstInDim firstOutDim (2 ^ k) := by
  have hnodup : (firstInDim :: inDims).Nodup := hin ▸ nodup_getInDimNames L
  intro a v ins hv _ _ outDim hmem
  have hv' : v < 2 ^ consec := hv.trans_le (Nat.pow_le_pow_right (by omega) hk)
  have hsplit : a * 2 ^ k + v = (a * 2 ^ k) ^^^ v := by
    rw [Nat.xor_comm, ← Nat.shiftLeft_eq, xor_shiftLeft_eq hv, Nat.shiftLeft_eq, Nat.add_comm,
      Nat.mul_comm]
  rw [value_update hin, value_update hin, hsplit, combine_xor, combine_leading h hmem hv']
  split_ifs with hfirst
  · subst hfirst
    -- the low bits of everything else are clear
    have hlow : ∀ j < k, (combine (L.dimColumn firstInDim outDim) (a * 2 ^ k) ^^^
        restValue L inDims outDim ins).testBit j = false := by
      intro j hj
      have hfirst : (combine (L.dimColumn firstInDim outDim) (a * 2 ^ k)).testBit j = false := by
        apply testBit_combine_of_selected
        intro i hi hbit
        rw [length_dimColumn] at hi
        rw [getD_dimColumn]
        have hki : k ≤ i := by
          by_contra hlt
          rw [← Nat.shiftLeft_eq, Nat.testBit_shiftLeft] at hbit
          simp [hlt] at hbit
        by_cases hlead : i < consec
        · rw [h.units i hlead outDim hmem, if_pos rfl, Nat.testBit_two_pow_of_ne (by omega)]
        · exact h.clear j (by omega) firstInDim (by simp [hin]) i hi (Or.inr (by omega))
      have hrest : (restValue L inDims outDim ins).testBit j = false := by
        apply testBit_xorSum
        intro b hb
        obtain ⟨d, hd, rfl⟩ := mem_map.mp hb
        have hne : d ≠ firstInDim := by
          rintro rfl
          exact (nodup_cons.mp hnodup).1 hd
        apply testBit_combine_of_selected
        intro i hi _
        rw [length_dimColumn] at hi
        rw [getD_dimColumn]
        exact h.clear j (by omega) d (by simp [hin, hd]) i hi (Or.inl hne)
      rw [Nat.testBit_xor, hfirst, hrest]
      rfl
    rw [← xor_eq_add hlow hv]
    ac_rfl
  · rw [Nat.xor_zero, Nat.add_zero]

theorem le_of_consecutive {m : ℕ} (hm : m ≤ L.getInDimSizeLog2 firstInDim)
    (hV : Consecutive L firstInDim firstOutDim (2 ^ m)) : m ≤ consec ∧ m ≤ zeros := by
  have hfirst : firstOutDim ∈ L.getOutDimNames := by simp [hout]
  have hzeroRest : ∀ outDim, restValue L inDims outDim (fun _ => 0) = 0 := fun outDim =>
    xorSum_map_zero fun d _ => combine_zero _
  have hconsec : m ≤ consec := by
    by_contra hlt
    obtain ⟨outDim, hmem, hne⟩ := h.stop (by omega)
    have hpow : (2 : ℕ) ^ consec < 2 ^ m := Nat.pow_lt_pow_right (by omega) (by omega)
    have hval := hV 0 (2 ^ consec) (fun _ => 0) hpow (by
      rw [Nat.zero_mul, Nat.zero_add]
      exact Nat.pow_lt_pow_right (by omega) (by omega)) (fun _ _ _ => Nat.two_pow_pos _) outDim hmem
    rw [Nat.zero_mul, Nat.zero_add, value_update hin, value_update hin, hzeroRest, combine_zero,
      combine_two_pow, getD_dimColumn, Nat.xor_zero, Nat.xor_zero, Nat.zero_add] at hval
    exact hne hval
  refine ⟨hconsec, ?_⟩
  by_contra hlt
  have hpow : (2 : ℕ) ^ zeros < 2 ^ m := Nat.pow_lt_pow_right (by omega) (by omega)
  have hunit : combine (L.dimColumn firstInDim firstOutDim) (2 ^ zeros) = 2 ^ zeros := by
    rw [combine_leading h hfirst (Nat.pow_lt_pow_right (by omega) (by omega)), if_pos rfl]
  obtain ⟨inDim, hmem, i, hi, hother, hbit⟩ := h.set (by omega)
  by_cases hdim : inDim = firstInDim
  · subst hdim
    have hge : consec ≤ i := hother.resolve_left fun hne => hne rfl
    have hsmall : (2 : ℕ) ^ zeros < 2 ^ i := Nat.pow_lt_pow_right (by omega) (by omega)
    have htop : (2 : ℕ) ^ (i + 1) ≤ 2 ^ L.getInDimSizeLog2 inDim :=
      Nat.pow_le_pow_right (by omega) (by omega)
    have hmul : 2 ^ (i - m) * 2 ^ m = 2 ^ i := by
      rw [← Nat.pow_add, Nat.sub_add_cancel (by omega)]
    have hsum : 2 ^ i + 2 ^ zeros = 2 ^ i ^^^ 2 ^ zeros := by
      have hxor := xor_shiftLeft_eq hsmall 1
      rw [Nat.shiftLeft_eq, Nat.one_mul, Nat.mul_one] at hxor
      rw [Nat.xor_comm, hxor, Nat.add_comm]
    have hval := hV (2 ^ (i - m)) (2 ^ zeros) (fun _ => 0) hpow (by
      rw [hmul]
      rw [Nat.pow_succ] at htop
      omega) (fun _ _ _ => Nat.two_pow_pos _) firstOutDim hfirst
    rw [hmul, hsum, value_update hin, value_update hin, hzeroRest, combine_xor, hunit,
      combine_two_pow, getD_dimColumn, Nat.xor_zero, Nat.xor_zero, if_pos rfl] at hval
    exact xor_ne_add hbit hval
  · -- the basis of another dimension alone
    have hnodup : (firstInDim :: inDims).Nodup := hin ▸ nodup_getInDimNames L
    have hd : inDim ∈ inDims := by
      rw [hin] at hmem
      exact (mem_cons.mp hmem).resolve_left hdim
    have hval := hV 0 (2 ^ zeros) (Function.update (fun _ => 0) inDim (2 ^ i)) hpow (by
      rw [Nat.zero_mul, Nat.zero_add]
      exact Nat.pow_lt_pow_right (by omega) (by omega)) (fun d _ _ => by
        by_cases heq : d = inDim
        · subst heq
          rw [Function.update_self]
          exact Nat.pow_lt_pow_right (by omega) hi
        · rw [Function.update_of_ne heq]
          exact Nat.two_pow_pos _) firstOutDim hfirst
    have hrest : restValue L inDims firstOutDim (Function.update (fun _ => 0) inDim (2 ^ i)) =
        combine (L.dimColumn inDim firstOutDim) (2 ^ i) :=
      xorSum_update (fun d v => combine (L.dimColumn d firstOutDim) v) (fun _ => combine_zero _)
        (nodup_cons.mp hnodup).2 hd _
    rw [Nat.zero_mul, Nat.zero_add, value_update hin, value_update hin, hrest, combine_zero, hunit,
      combine_two_pow, getD_dimColumn, Nat.zero_xor, if_pos rfl, Nat.xor_comm] at hval
    exact xor_ne_add hbit hval

end Consecutive

section Exact

variable (L : LinearLayout) {firstOutDim : String} {outDims : List String}
  (hout : L.getOutDimNames = firstOutDim :: outDims)

include hout

theorem getD_zero_eq {inDim : String} {bs : List (List ℕ)} (h : (inDim, bs) ∈ L.bases.entries)
    (i : ℕ) : (bs.getD i []).getD 0 0 = L.getBasis inDim i firstOutDim := by
  have hindex : L.getOutDimIndex firstOutDim = 0 := by
    rw [RawLayout.getOutDimIndex, hout, idxOf_cons_self]
  rw [RawLayout.getBasis, MapVector.find_of_mem h, Option.getD_some, hindex]

theorem unitBasis_iff {inDim : String} {bs : List (List ℕ)} (h : (inDim, bs) ∈ L.bases.entries)
    {i : ℕ} (hi : i < bs.length) (j : ℕ) : UnitBasis j (bs.getD i []) ↔
      ∀ outDim ∈ L.getOutDimNames,
        L.getBasis inDim i outDim = if outDim = firstOutDim then 2 ^ j else 0 := by
  have hnodup : (firstOutDim :: outDims).Nodup := hout ▸ nodup_getOutDimNames L.toRawLayout
  have hlen : (bs.getD i []).length = outDims.length + 1 := by
    rw [getD_eq_getElem _ _ hi, length_of_mem_flatBases L (mem_flatten.mpr
      ⟨bs, mem_map.mpr ⟨_, h, rfl⟩, getElem_mem hi⟩), hout, length_cons]
  have hbasis : ∀ outDim, L.getBasis inDim i outDim =
      (bs.getD i []).getD ((firstOutDim :: outDims).idxOf outDim) 0 := by
    intro outDim
    rw [RawLayout.getBasis, MapVector.find_of_mem h, Option.getD_some, RawLayout.getOutDimIndex,
      hout]
  generalize bs.getD i [] = basis at hlen hbasis ⊢
  cases basis with
  | nil => simp at hlen
  | cons b basis =>
    rw [length_cons, Nat.add_right_cancel_iff] at hlen
    rw [UnitBasis, getD_cons_zero, tail_cons, hout, forall_mem_cons, if_pos rfl,
      hbasis, idxOf_cons_self, getD_cons_zero]
    apply and_congr Iff.rfl
    have hne : ∀ outDim ∈ outDims, outDim ≠ firstOutDim := by
      rintro outDim hmem rfl
      exact (nodup_cons.mp hnodup).1 hmem
    have hrest : ∀ outDim ∈ outDims, L.getBasis inDim i outDim =
        basis.getD (outDims.idxOf outDim) 0 := by
      intro outDim hmem
      rw [hbasis, idxOf_cons_ne _ (hne outDim hmem).symm, getD_cons_succ]
    constructor
    · intro hzero outDim hmem
      have hlt : outDims.idxOf outDim < basis.length := by
        rw [hlen]
        exact idxOf_lt_length_of_mem hmem
      rw [hrest outDim hmem, if_neg (hne outDim hmem), getD_eq_getElem _ _ hlt]
      exact hzero _ (getElem_mem hlt)
    · intro hzero x hx
      obtain ⟨t, ht, rfl⟩ := getElem_of_mem hx
      have ht' : t < outDims.length := by omega
      have hval := hzero _ (getElem_mem ht')
      rw [hrest _ (getElem_mem ht'), if_neg (hne _ (getElem_mem ht')),
        (nodup_cons.mp hnodup).2.idxOf_getElem t ht', getD_eq_getElem _ _ ht] at hval
      exact hval

theorem testBit_otherBits_iff (firstInDim : String) (consec j : ℕ) :
    (L.otherBits firstInDim consec).testBit j = true ↔ ∃ inDim ∈ L.getInDimNames,
      ∃ i < L.getInDimSizeLog2 inDim, (inDim ≠ firstInDim ∨ consec ≤ i) ∧
        (L.getBasis inDim i firstOutDim).testBit j = true := by
  rw [testBit_otherBits]
  constructor
  · rintro ⟨e, he, i, hi, hother, hbit⟩
    refine ⟨e.1, mem_map_of_mem he, i, ?_, hother, ?_⟩
    · rwa [getInDimSizeLog2_of_mem L.toRawLayout he]
    · rwa [← getD_zero_eq L hout he]
  · rintro ⟨inDim, hin, i, hi, hother, hbit⟩
    obtain ⟨e, he, rfl⟩ := mem_map.mp hin
    rw [getInDimSizeLog2_of_mem L.toRawLayout he] at hi
    rw [← getD_zero_eq L hout he] at hbit
    exact ⟨e, he, i, hi, hother, hbit⟩

omit hout in
/-- The result is the largest power of two, at most the size of the first input
dimension, of consecutive elements. -/
theorem getNumConsecutiveInOut_exact {firstInDim : String} {inDims : List String}
    (hin : L.getInDimNames = firstInDim :: inDims)
    (hout : L.getOutDimNames = firstOutDim :: outDims) :
    ∃ k, L.getNumConsecutiveInOut = .ok (2 ^ k) ∧ k ≤ L.getInDimSizeLog2 firstInDim ∧
      Consecutive L.toRawLayout firstInDim firstOutDim (2 ^ k) ∧
      ∀ m ≤ L.getInDimSizeLog2 firstInDim,
        Consecutive L.toRawLayout firstInDim firstOutDim (2 ^ m) → m ≤ k := by
  have hfirst : firstOutDim ∈ L.getOutDimNames := by simp [hout]
  have hbound : ∀ inDim i, L.getBasis inDim i firstOutDim < 2 ^ 30 := by
    intro inDim i
    have hsize := getOutDimSizeLog2_lt L hfirst
    exact (getBasis_lt L).trans_le (Nat.pow_le_pow_right (by omega) (by omega))
  obtain ⟨bs, es, hentries⟩ : ∃ bs es, L.bases.entries = (firstInDim, bs) :: es := by
    cases hcases : L.bases.entries with
    | nil =>
      rw [RawLayout.getInDimNames, MapVector.keys, hcases] at hin
      simp at hin
    | cons e es =>
      rw [RawLayout.getInDimNames, MapVector.keys, hcases, map_cons] at hin
      obtain ⟨rfl, -⟩ := List.cons.inj hin
      exact ⟨e.2, es, rfl⟩
  have hmem : (firstInDim, bs) ∈ L.bases.entries := by simp [hentries]
  have hlog := getInDimSizeLog2_of_mem L.toRawLayout hmem
  have hsmall : ∀ basis ∈ bs, basis.getD 0 0 < 2 ^ 30 := by
    intro basis hbasis
    obtain ⟨i, hi, rfl⟩ := getElem_of_mem hbasis
    rw [← getD_eq_getElem _ [] hi, getD_zero_eq L hout hmem]
    exact hbound _ _
  obtain ⟨consec, hconsec, -, hle, hlen, hunits, hbreak⟩ := countConsec_ok hsmall (Nat.zero_le 30)
  rw [Nat.zero_add] at hlen hbreak
  have hbits := testBit_otherBits_iff L hout firstInDim consec
  have hword : L.otherBits firstInDim consec < 2 ^ 64 := by
    apply Nat.lt_pow_two_of_testBit
    intro j hj
    by_contra hset
    obtain ⟨inDim, -, i, -, -, hbit⟩ := (hbits j).mp (by simpa using hset)
    have hlt := (hbound inDim i).trans_le (Nat.pow_le_pow_right (n := 2) (by omega)
      (show 30 ≤ j by omega))
    rw [Nat.testBit_lt_two_pow hlt] at hbit
    exact Bool.false_ne_true hbit
  let zeros := if L.otherBits firstInDim consec ≠ 0 then
    countTrailingZeros (L.otherBits firstInDim consec) else 31
  have hzeros : (∀ j < zeros, (L.otherBits firstInDim consec).testBit j = false) ∧
      (zeros < consec → (L.otherBits firstInDim consec).testBit zeros = true) := by
    by_cases hzero : L.otherBits firstInDim consec = 0
    · have heq : zeros = 31 := if_neg (not_not.mpr hzero)
      rw [hzero]
      exact ⟨fun j _ => Nat.zero_testBit j, fun hlt => by omega⟩
    · have heq : zeros = countTrailingZeros (L.otherBits firstInDim consec) := if_pos hzero
      have hctz := (countTrailingZeros_eq_iff hzero hword).mp heq.symm
      exact ⟨hctz.2, fun _ => hctz.1⟩
  have hleading : Leading L.toRawLayout firstInDim firstOutDim consec zeros := by
    constructor
    · rw [hlog]
      exact hlen
    · intro i hi
      have hunit := hunits i (by omega)
      rw [Nat.zero_add] at hunit
      exact (unitBasis_iff L hout hmem (by omega) i).mp hunit
    · intro hlt
      rw [hlog] at hlt
      have hnot := hbreak hlt
      rw [Nat.sub_zero, unitBasis_iff L hout hmem hlt] at hnot
      simpa using hnot
    · intro j hj inDim hmem' i hi hother
      by_contra hset
      have hbit := (hbits j).mpr ⟨inDim, hmem', i, hi, hother, by simpa using hset⟩
      rw [hzeros.1 j hj] at hbit
      exact Bool.false_ne_true hbit
    · intro hlt
      exact (hbits zeros).mp (hzeros.2 hlt)
  refine ⟨min consec zeros, ?_, ?_, ?_, fun m hm hV => ?_⟩
  · have hne : ¬ L.getOutDimNames.length = 0 := by simp [hout]
    rw [getNumConsecutiveInOut, hentries]
    simp only [if_neg hne, hconsec]
    exact shiftOne_ok (by omega)
  · exact (Nat.min_le_left _ _).trans hleading.consec_le
  · exact consecutive_of_leading hleading hin hout (Nat.min_le_left _ _) (Nat.min_le_right _ _)
  · obtain ⟨hc, hz⟩ := le_of_consecutive hleading hin hout hm hV
    exact Nat.le_min.mpr ⟨hc, hz⟩

omit hout in
theorem getNumConsecutiveInOut_exact_lanes : fourLanes.getNumConsecutiveInOut = .ok 4 ∧
    Consecutive fourLanes.toRawLayout "lane" "dim0" 4 := by
  have hin : fourLanes.getInDimNames = ["lane"] := rfl
  have hout : fourLanes.getOutDimNames = ["dim0"] := rfl
  obtain ⟨k, hk, -, hconsecutive, -⟩ := getNumConsecutiveInOut_exact fourLanes hin hout
  have hfour : fourLanes.getNumConsecutiveInOut = .ok 4 := by decide +kernel
  have hV : 2 ^ k = 4 := Except.ok.inj (hk.symm.trans hfour)
  exact ⟨hfour, hV ▸ hconsecutive⟩

end Exact

end TritonCpu
