import TritonCpu.LayoutCompose

/-!
# The free variables of a layout

The pivots of the reduced matrix are the input bits that matter. The other bits
are free: every output of the layout is that of exactly one input whose free
bits are zero.
-/

set_option autoImplicit false

namespace TritonCpu

open XorSpan BitFields List

/-- `__builtin_ctzll`: the first bit of a number that is not zero. -/
def countTrailingZeros (m : ℕ) : ℕ := (List.range 64).findIdx m.testBit

namespace LinearLayout

variable (f2 : F2Reduce) (L : LinearLayout)

def basicVars : List ℕ :=
  ((f2.inplaceRrefStrided L.getMatrix L.getTotalInDimSizeLog2).filter (· ≠ 0)).map
    countTrailingZeros

/-- The mask of `n` input bits, the first of which is column `c`. -/
def freeMask (basicVars : List ℕ) (c n : ℕ) : Except LayoutError ℕ :=
  (List.range n).foldlM (fun mask i => do
    if c + i ∈ basicVars then pure mask
    else
      let bit ← shiftOne i
      pure (mask ||| bit)) 0

/-- One mask for each input dimension, given with the logarithm of its size. -/
def freeMasks (basicVars : List ℕ) : List (String × ℕ) → ℕ → Except LayoutError (List (String × ℕ))
  | [], _ => .ok []
  | (dim, n) :: dims, c => do
    let mask ← freeMask basicVars c n
    let masks ← freeMasks basicVars dims (c + n)
    pure ((dim, mask) :: masks)

def getFreeVariableMasks : Except LayoutError (MapVector ℕ) := do
  let masks ← freeMasks (L.basicVars f2)
    (L.getInDimNames.map fun dim => (dim, L.getInDimSizeLog2 dim)) 0
  pure (MapVector.build (fun _ mask => mask) masks)

end LinearLayout

open LinearLayout

section BasicVars

theorem countTrailingZeros_eq_iff {m j : ℕ} (hm : m ≠ 0) (hlt : m < 2 ^ 64) :
    countTrailingZeros m = j ↔ m.testBit j = true ∧ ∀ i < j, m.testBit i = false := by
  obtain ⟨i, hi⟩ := Nat.exists_testBit_of_ne_zero hm
  have hi' : i < 64 := by
    by_contra hbig
    have hpow := hlt.trans_le (Nat.pow_le_pow_right (n := 2) (by omega) (not_lt.mp hbig))
    rw [Nat.testBit_lt_two_pow hpow] at hi
    exact Bool.false_ne_true hi
  have hfound : (List.range 64).findIdx m.testBit < (List.range 64).length :=
    findIdx_lt_length_of_exists ⟨i, mem_range.mpr hi', hi⟩
  have hbit : m.testBit (countTrailingZeros m) = true := by
    have hget := findIdx_getElem (w := hfound)
    rw [getElem_range] at hget
    exact hget
  have hbefore : ∀ k < countTrailingZeros m, m.testBit k = false := by
    intro k hk
    have hnot := not_of_lt_findIdx hk
    rw [getElem_range] at hnot
    simpa using hnot
  constructor
  · rintro rfl
    exact ⟨hbit, hbefore⟩
  · rintro ⟨hj, hj'⟩
    rcases lt_trichotomy (countTrailingZeros m) j with hlt | heq | hgt
    · rw [hj' _ hlt] at hbit
      exact absurd hbit Bool.false_ne_true
    · exact heq
    · rw [hbefore j hgt] at hj
      exact absurd hj Bool.false_ne_true

variable (f2 : F2Reduce) (L : LinearLayout)

theorem isRref_getMatrix (hpos : 0 < L.getTotalInDimSizeLog2) :
    IsRref L.getTotalInDimSizeLog2 L.getMatrix
      (f2.inplaceRrefStrided L.getMatrix L.getTotalInDimSizeLog2) := by
  have hrows : ∀ r ∈ L.getMatrix, r < 2 ^ L.getTotalInDimSizeLog2 := by
    rw [getMatrix_eq L.toRawLayout L.fits, ← length_flatColumns]
    exact transposeBits_lt
  exact f2.isRref _ _ hrows L.numCols_le (Or.inl hpos)

theorem transposeBits_getMatrix :
    transposeBits L.getTotalInDimSizeLog2 L.getMatrix = L.flatColumns := by
  rw [getMatrix_eq L.toRawLayout L.fits, ← length_flatColumns]
  exact transposeBits_transposeBits (flatColumns_lt L.toRawLayout L.fits)

def reducedColumns : List ℕ :=
  transposeBits L.getTotalInDimSizeLog2
    (f2.inplaceRrefStrided L.getMatrix L.getTotalInDimSizeLog2)

theorem mem_basicVars_iff (hpos : 0 < L.getTotalInDimSizeLog2) (j : ℕ) :
    j ∈ L.basicVars f2 ↔ Pivot (reducedColumns f2 L) j := by
  have hrref := isRref_getMatrix f2 L hpos
  have hword : ∀ row ∈ f2.inplaceRrefStrided L.getMatrix L.getTotalInDimSizeLog2,
      row < 2 ^ 64 := fun row hrow =>
    (hrref.lt row hrow).trans_le (Nat.pow_le_pow_right (by omega) L.numCols_le)
  rw [reducedColumns, hrref.pivot_iff, basicVars, mem_map]
  constructor
  · rintro ⟨row, hrow, hj⟩
    have hmem := mem_filter.mp hrow
    exact ⟨row, hmem.1, (countTrailingZeros_eq_iff (by simpa using hmem.2) (hword _ hmem.1)).mp hj⟩
  · rintro ⟨row, hrow, hbit, hbefore⟩
    have hne : row ≠ 0 := by
      rintro rfl
      simp at hbit
    exact ⟨row, mem_filter.mpr ⟨hrow, by simpa using hne⟩,
      (countTrailingZeros_eq_iff hne (hword _ hrow)).mpr ⟨hbit, hbefore⟩⟩

end BasicVars

section Masks

variable (basicVars : List ℕ)

theorem freeMask_ok (c : ℕ) {n : ℕ} (hn : n ≤ 31) : ∃ mask, freeMask basicVars c n = .ok mask ∧
    ∀ i, mask.testBit i = true ↔ i < n ∧ c + i ∉ basicVars := by
  induction n with
  | zero => exact ⟨0, rfl, fun i => by simp⟩
  | succ n ih =>
    obtain ⟨mask, hmask, hbits⟩ := ih (by omega)
    rw [freeMask] at hmask
    rw [freeMask, range_succ, foldlM_append, hmask]
    by_cases hbasic : c + n ∈ basicVars
    · refine ⟨mask, ?_, fun i => ?_⟩
      · simp [hbasic, bind, Except.bind, pure, Except.pure]
      · rw [hbits]
        constructor
        · rintro ⟨hi, hnot⟩
          exact ⟨by omega, hnot⟩
        · rintro ⟨hi, hnot⟩
          have hne : i ≠ n := by
            rintro rfl
            exact hnot hbasic
          exact ⟨by omega, hnot⟩
    · refine ⟨mask ||| 2 ^ n, ?_, fun i => ?_⟩
      · simp [hbasic, bind, Except.bind, pure, Except.pure, shiftOne_ok (show n < 31 by omega)]
      · rw [Nat.testBit_or, Bool.or_eq_true, hbits]
        constructor
        · rintro (⟨hi, hnot⟩ | hlast)
          · exact ⟨by omega, hnot⟩
          · obtain rfl : n = i := by simpa [Nat.testBit_two_pow] using hlast
            exact ⟨by omega, hbasic⟩
        · rintro ⟨hi, hnot⟩
          by_cases hlast : n = i
          · subst hlast
            exact Or.inr Nat.testBit_two_pow_self
          · exact Or.inl ⟨by omega, hnot⟩

theorem and_eq_zero_iff {v mask : ℕ} :
    v &&& mask = 0 ↔ ∀ i, v.testBit i = true → mask.testBit i = false := by
  constructor
  · intro h i hi
    have hbit := congrArg (fun m => m.testBit i) h
    simpa [Nat.testBit_and, hi] using hbit
  · intro h
    apply Nat.eq_of_testBit_eq
    intro i
    rw [Nat.testBit_and, Nat.zero_testBit]
    cases hi : v.testBit i with
    | false => rfl
    | true => exact h i hi

theorem freeMasks_ok (dims : List (String × ℕ)) (hdims : ∀ e ∈ dims, e.2 ≤ 31) (c : ℕ) :
    ∃ masks, freeMasks basicVars dims c = .ok masks ∧ masks.map Prod.fst = dims.map Prod.fst ∧
      Fits (masks.map Prod.snd) (dims.map Prod.snd) ∧ ∀ vs, Fits vs (dims.map Prod.snd) →
        (List.Forall₂ (fun v mask => v &&& mask = 0) vs (masks.map Prod.snd) ↔
          ∀ i, (pack (dims.map Prod.snd) vs).testBit i = true → c + i ∈ basicVars) := by
  induction dims generalizing c with
  | nil =>
    refine ⟨[], rfl, rfl, List.Forall₂.nil, fun vs hvs => ?_⟩
    cases hvs
    simp [pack]
  | cons e dims ih =>
    obtain ⟨dim, n⟩ := e
    obtain ⟨mask, hmask, hbits⟩ := freeMask_ok basicVars c (hdims _ mem_cons_self)
    obtain ⟨masks, hmasks, hnames, hfits, hrest⟩ :=
      ih (fun e he => hdims e (mem_cons_of_mem _ he)) (c + n)
    refine ⟨(dim, mask) :: masks, ?_, ?_, ?_, fun vs hvs => ?_⟩
    · rw [freeMasks, hmask, hmasks]
      rfl
    · rw [map_cons, map_cons, hnames]
    · refine List.Forall₂.cons (Nat.lt_pow_two_of_testBit _ fun i hi => ?_) hfits
      by_contra hset
      have hlt := ((hbits i).mp (by simpa using hset)).1
      omega
    · rw [map_cons] at hvs
      cases hvs with
      | @cons v k vs ks hv hvs =>
        rw [map_cons, map_cons, forall₂_cons, hrest vs hvs, and_eq_zero_iff, pack]
        have hpack : ∀ i, (v + 2 ^ n * pack (dims.map Prod.snd) vs).testBit i =
            if i < n then v.testBit i else (pack (dims.map Prod.snd) vs).testBit (i - n) := by
          intro i
          rw [Nat.add_comm, Nat.testBit_two_pow_mul_add _ hv]
        simp only [hpack]
        constructor
        · rintro ⟨hlow, hhigh⟩ i hi
          split_ifs at hi with hin
          · have hclear := hlow i hi
            by_contra hnot
            rw [(hbits i).mpr ⟨hin, hnot⟩] at hclear
            exact Bool.false_ne_true hclear.symm
          · have hmem := hhigh (i - n) hi
            rwa [Nat.add_assoc, Nat.add_sub_cancel' (not_lt.mp hin)] at hmem
        · intro h
          refine ⟨fun i hi => ?_, fun i hi => ?_⟩
          · have hin : i < n := by
              by_contra hout
              have hbig := hv.trans_le (Nat.pow_le_pow_right (n := 2) (by omega) (not_lt.mp hout))
              rw [Nat.testBit_lt_two_pow hbig] at hi
              exact Bool.false_ne_true hi
            have hmem := h i (by rwa [if_pos hin])
            cases hset : mask.testBit i with
            | false => rfl
            | true => exact absurd hmem ((hbits i).mp hset).2
          · have hmem := h (n + i) (by
              rw [if_neg (by omega), Nat.add_sub_cancel_left]
              exact hi)
            rwa [← Nat.add_assoc] at hmem

end Masks

section Representatives

variable (f2 : F2Reduce) (L : LinearLayout)

def InRange (ins : String → ℕ) : Prop :=
  ∀ inDim ∈ L.getInDimNames, ins inDim < 2 ^ L.getInDimSizeLog2 inDim

/-- `L(ins)`. -/
def output (ins : String → ℕ) : Except LayoutError (List (String × ℕ)) :=
  L.apply (L.getInDimNames.map fun inDim => (inDim, ins inDim))

theorem output_eq_iff {ins ins' : String → ℕ}
    (hwidth : ∀ inDim ∈ L.getInDimNames, L.getInDimSizeLog2 inDim ≤ 31) (hins : InRange L ins)
    (hins' : InRange L ins') : output L ins = output L ins' ↔
      combine L.flatColumns (pack L.inWidths (L.getInDimNames.map ins)) =
        combine L.flatColumns (pack L.inWidths (L.getInDimNames.map ins')) := by
  rw [output, output, apply_eq_value L.toRawLayout hins hwidth, apply_eq_value L.toRawLayout hins' hwidth,
    ← pack_values L.toRawLayout L.fits hins, ← pack_values L.toRawLayout L.fits hins']
  have hlt : ∀ ins, Fits (L.getOutDimNames.map fun outDim => L.value outDim ins) L.outWidths := by
    intro ins
    rw [← map_getOutDimSizeLog2]
    simp only [forall₂_map_left_iff, forall₂_map_right_iff, forall₂_same]
    exact fun outDim _ => value_lt L ins
  constructor
  · intro h
    have hvalues := congrArg (List.map Prod.snd) (Except.ok.inj h)
    rw [map_map, map_map] at hvalues
    exact congrArg (pack L.outWidths) hvalues
  · intro h
    have hvalues := congrArg (unpack L.outWidths) h
    rw [unpack_pack (hlt ins), unpack_pack (hlt ins')] at hvalues
    congr 1
    apply map_congr_left
    intro outDim hout
    rw [map_inj_left.mp hvalues outDim hout]

def ClearOf (masks : MapVector ℕ) (ins : String → ℕ) : Prop :=
  ∀ e ∈ masks.entries, ins e.1 &&& e.2 = 0

theorem getFreeVariableMasks_ok
    (hwidth : ∀ inDim ∈ L.getInDimNames, L.getInDimSizeLog2 inDim ≤ 31) :
    ∃ masks, L.getFreeVariableMasks f2 = .ok masks ∧ masks.keys = L.getInDimNames ∧
      (∀ e ∈ masks.entries, e.2 < 2 ^ L.getInDimSizeLog2 e.1) ∧
      ∀ ins, InRange L ins → (ClearOf masks ins ↔
        ∀ i, (pack L.inWidths (L.getInDimNames.map ins)).testBit i = true →
          i ∈ L.basicVars f2) := by
  obtain ⟨masks, hmasks, hnames, hfits, hclear⟩ := freeMasks_ok (L.basicVars f2)
    (L.getInDimNames.map fun dim => (dim, L.getInDimSizeLog2 dim)) (by simpa using hwidth) 0
  have hkeys : masks.map Prod.fst = L.getInDimNames := by
    rw [hnames, map_map]
    exact map_id _
  have hentries : (MapVector.build (fun _ mask => mask) masks : MapVector ℕ).entries = masks :=
    entries_build_sizes (hkeys ▸ L.bases.nodup)
  have hsizes : (L.getInDimNames.map fun dim => (dim, L.getInDimSizeLog2 dim)).map Prod.snd =
      L.getInDimNames.map L.getInDimSizeLog2 := by
    rw [map_map]
    rfl
  refine ⟨MapVector.build (fun _ mask => mask) masks, ?_, ?_, ?_, fun ins hins => ?_⟩
  · rw [getFreeVariableMasks, hmasks]
    rfl
  · rw [MapVector.keys, hentries, hkeys]
  · rw [hentries]
    rw [hsizes, ← hkeys, map_map] at hfits
    simpa only [forall₂_map_left_iff, forall₂_map_right_iff, forall₂_same,
      Function.comp_apply] using hfits
  · have hfit := fits_ins L.toRawLayout hins
    rw [map_getInDimSizeLog2] at hsizes
    have hspec := hclear _ (hsizes ▸ hfit)
    simp only [hsizes, Nat.zero_add] at hspec
    rw [← hspec, ClearOf, hentries, ← hkeys, map_map]
    simp only [forall₂_map_left_iff, forall₂_map_right_iff, forall₂_same,
      Function.comp_apply]

theorem exists_basic (x : ℕ) (hx : x < 2 ^ L.getTotalInDimSizeLog2) :
    ∃ y < 2 ^ L.getTotalInDimSizeLog2, (∀ i, y.testBit i = true → i ∈ L.basicVars f2) ∧
      combine L.flatColumns y = combine L.flatColumns x ∧
      ∀ y' < 2 ^ L.getTotalInDimSizeLog2, (∀ i, y'.testBit i = true → i ∈ L.basicVars f2) →
        combine L.flatColumns y' = combine L.flatColumns x → y' = y := by
  rcases Nat.eq_zero_or_pos L.getTotalInDimSizeLog2 with hzero | hpos
  · rw [hzero] at hx ⊢
    have hx' : x < 1 := hx
    obtain rfl : x = 0 := by omega
    refine ⟨0, by simp, fun i hi => by simp at hi, rfl, fun y' hy' _ _ => ?_⟩
    have hlt : y' < 1 := hy'
    omega
  · have hrref := isRref_getMatrix f2 L hpos
    have hker := hrref.kernel
    rw [transposeBits_getMatrix] at hker
    obtain ⟨y, hy, hxy, hunique⟩ := hrref.echelon.exists_representative hker x
    have hlt := lt_of_selectsPivots hy
    rw [length_transposeBits] at hlt
    refine ⟨y, hlt, fun i hi => (mem_basicVars_iff f2 L hpos i).mpr (hy i hi), hxy, ?_⟩
    intro y' _ hbasic hxy'
    exact hunique y' (fun i hi => (mem_basicVars_iff f2 L hpos i).mp (hbasic i hi)) hxy'

/-- An input that is zero under the masks and has the output of `ins`. -/
structure Represents (masks : MapVector ℕ) (ins rep : String → ℕ) : Prop where
  inRange : InRange L rep
  clear : ClearOf masks rep
  same : output L rep = output L ins

/-- Every output of the layout is that of exactly one input that is zero under
the masks, and the masks are zero exactly when no two inputs have the same
output. -/
theorem getFreeVariableMasks_representatives (f2 : F2Reduce) (L : LinearLayout)
    (hwidth : ∀ inDim ∈ L.getInDimNames, L.getInDimSizeLog2 inDim ≤ 31) :
    ∃ masks, L.getFreeVariableMasks f2 = .ok masks ∧ masks.keys = L.getInDimNames ∧
      (∀ ins, InRange L ins → ∃ rep, Represents L masks ins rep ∧
        ∀ rep', Represents L masks ins rep' → ∀ inDim ∈ L.getInDimNames,
          rep' inDim = rep inDim) ∧
      ((∀ e ∈ masks.entries, e.2 = 0) ↔ ∀ ins ins', InRange L ins → InRange L ins' →
        output L ins = output L ins' → ∀ inDim ∈ L.getInDimNames, ins inDim = ins' inDim) := by
  obtain ⟨masks, hmasks, hkeys, hlt, hclear⟩ := getFreeVariableMasks_ok f2 L hwidth
  have hnumber : ∀ {ins : String → ℕ}, InRange L ins →
      pack L.inWidths (L.getInDimNames.map ins) < 2 ^ L.getTotalInDimSizeLog2 := by
    intro ins hins
    rw [getTotalInDimSizeLog2_eq]
    exact pack_lt (fits_ins L.toRawLayout hins)
  have hrep : ∀ ins, InRange L ins → ∃ rep, Represents L masks ins rep ∧
      ∀ rep', Represents L masks ins rep' → ∀ inDim ∈ L.getInDimNames,
        rep' inDim = rep inDim := by
    intro ins hins
    obtain ⟨y, hy, hbasic, hxy, hunique⟩ := exists_basic f2 L _ (hnumber hins)
    obtain ⟨rep, hfit, rfl⟩ := exists_ins L.toRawLayout hy
    refine ⟨rep, ⟨hfit, (hclear rep hfit).mpr hbasic, (output_eq_iff L hwidth hfit hins).mpr hxy⟩,
      fun rep' hrep' => ?_⟩
    have heq := hunique _ (hnumber hrep'.inRange) ((hclear rep' hrep'.inRange).mp hrep'.clear)
      ((output_eq_iff L hwidth hrep'.inRange hins).mp hrep'.same)
    have hfields := congrArg (unpack L.inWidths) heq
    rw [unpack_pack (fits_ins L.toRawLayout hrep'.inRange),
      unpack_pack (fits_ins L.toRawLayout hfit)] at hfields
    exact map_inj_left.mp hfields
  refine ⟨masks, hmasks, hkeys, hrep, ?_, ?_⟩
  · -- with no free bit every input represents itself
    intro hzero ins ins' hins hins' hsame inDim hin
    have hall : ∀ ins, ClearOf masks ins := by
      intro ins e he
      rw [hzero e he, Nat.and_zero]
    obtain ⟨rep, -, hunique⟩ := hrep ins' hins'
    exact (hunique ins ⟨hins, hall ins, hsame⟩ inDim hin).trans
      (hunique ins' ⟨hins', hall ins', rfl⟩ inDim hin).symm
  · -- the masks, taken as an input, have a representative with the same output
    intro hinj e he
    have hfind : ∀ e ∈ masks.entries, (masks.find e.1).getD 0 = e.2 := by
      intro e he
      rw [MapVector.find_of_mem he, Option.getD_some]
    have hins : InRange L fun inDim => (masks.find inDim).getD 0 := by
      intro inDim hin
      rw [← hkeys] at hin
      obtain ⟨e, he, rfl⟩ := mem_map.mp hin
      simp only [hfind e he]
      exact hlt e he
    obtain ⟨rep, hrep', -⟩ := hrep _ hins
    have hmem : e.1 ∈ L.getInDimNames := by
      rw [← hkeys]
      exact mem_map_of_mem he
    have hself := hrep'.clear e he
    rw [hinj rep _ hrep'.inRange hins hrep'.same e.1 hmem, hfind e he, Nat.and_self] at hself
    exact hself

theorem getFreeVariableMasks_representatives_square :
    ∃ masks, squareLanes.getFreeVariableMasks f2reduce = .ok masks ∧
      ∀ ins, InRange squareLanes ins → ∃ rep, Represents squareLanes masks ins rep := by
  obtain ⟨masks, hmasks, -, hrep, -⟩ :=
    getFreeVariableMasks_representatives f2reduce squareLanes (by decide)
  refine ⟨masks, hmasks, fun ins hins => ?_⟩
  obtain ⟨rep, hrep', -⟩ := hrep ins hins
  exact ⟨rep, hrep'⟩

/-- A dimension of more bits than an `int32_t` has, all of them free. -/
def wideInput : LinearLayout :=
  oneInputLayout "lane" (List.replicate 33 [0]) ⟨[("dim0", 1)], by decide⟩
    (by decide) (by decide) (by decide +kernel) (by decide +kernel)

/-- The mask of such a dimension is not defined. -/
theorem wideInput_has_no_masks : ¬ ∃ masks, wideInput.getFreeVariableMasks f2reduce = .ok masks := by
  rintro ⟨masks, hmasks⟩
  have hundefined : wideInput.getFreeVariableMasks f2reduce = .error .undefined := by
    decide +kernel
  rw [hundefined] at hmasks
  cases hmasks

end Representatives

end TritonCpu
