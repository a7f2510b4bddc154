import TritonCpu.BlockedLayout
import TritonCpu.InvertAndComposeInverse
import TritonCpu.LayoutQuotient

/-!
# Conversions between register layouts

The layout of the source is inverted and composed with the layout of the
destination. What is left when the blocks, the warps and the lanes are divided
out says how far the data has to travel.
-/

set_option autoImplicit false

namespace TritonCpu

open XorSpan BitFields LinearLayout List

structure RankedTensorType (Encoding : Type) where
  shape : List ℕ
  encoding : Encoding

section Convert

variable {Encoding : Type} (f2 : F2Reduce)
  (toLinearLayout : List ℕ → Encoding → Except LayoutError (Option LinearLayout))

/-- The loop of `minimalCvtLayout`. -/
def quotientBy : List String → LinearLayout → Except LayoutError LinearLayout
  | [], comp => .ok comp
  | dim :: dims, comp => do
    match ← comp.quotient f2 [dim] with
    | none => .ok comp
    | some quotient => quotientBy dims quotient

def minimalCvtLayout (srcTy dstTy : RankedTensorType Encoding) :
    Except LayoutError (Option LinearLayout) := do
  let srcLayout ← toLinearLayout srcTy.shape srcTy.encoding
  let dstLayout ← toLinearLayout dstTy.shape dstTy.encoding
  match srcLayout, dstLayout with
  | some srcLayout, some dstLayout => do
    let comp ← dstLayout.invertAndCompose f2 srcLayout
    let comp ← quotientBy f2 ["block", "warp", "lane", "register"] comp
    pure (some comp)
  | _, _ => pure none

def cvtReordersRegisters (srcTy dstTy : RankedTensorType Encoding) : Except LayoutError Bool := do
  match ← minimalCvtLayout f2 toLinearLayout srcTy dstTy with
  | none => pure false
  | some layout => pure (layout.getOutDimNames.isEmpty || layout.getOutDimNames == ["register"])

def cvtNeedsSharedMemory
    (shortcuts : List (RankedTensorType Encoding → RankedTensorType Encoding → Except LayoutError Bool))
    (srcTy dstTy : RankedTensorType Encoding) : Except LayoutError Bool := do
  let reorders ← cvtReordersRegisters f2 toLinearLayout srcTy dstTy
  if reorders then pure false
  else shortcuts.allM fun isShortcut => do
    let taken ← isShortcut srcTy dstTy
    pure !taken

end Convert

/-- `Q` is `L` without the dimensions `taken`, which `L` passes on unchanged and
on which no other output depends. -/
structure PassesOn (L Q : RawLayout) (taken : List String) : Prop where
  mem : ∀ d ∈ taken, d ∈ L.getInDimNames ∧ d ∈ L.getOutDimNames
  size : ∀ d ∈ taken, L.getInDimSizeLog2 d = L.getOutDimSizeLog2 d
  identity : ∀ d ∈ taken, ∀ i < L.getInDimSizeLog2 d, L.getBasis d i d = 2 ^ i
  zero : ∀ inDim ∈ L.getInDimNames, ∀ outDim ∈ L.getOutDimNames, inDim ≠ outDim →
    inDim ∈ taken ∨ outDim ∈ taken → ∀ i, L.getBasis inDim i outDim = 0
  inDims : Q.getInDimNames = L.getInDimNames.filter (· ∉ taken)
  outDims : Q.getOutDimNames = L.getOutDimNames.filter (· ∉ taken)
  inSize : ∀ inDim ∈ Q.getInDimNames, Q.getInDimSizeLog2 inDim = L.getInDimSizeLog2 inDim
  outSize : ∀ outDim ∈ Q.getOutDimNames, Q.getOutDimSizeLog2 outDim = L.getOutDimSizeLog2 outDim
  basis : ∀ inDim ∈ Q.getInDimNames, ∀ outDim ∈ Q.getOutDimNames, ∀ i,
    Q.getBasis inDim i outDim = L.getBasis inDim i outDim

section Quotients

variable {L Q R : RawLayout} {taken : List String} {dim : String}

theorem passesOn_nil (L : RawLayout) : PassesOn L L [] where
  mem := by simp
  size := by simp
  identity := by simp
  zero := by simp
  inDims := by simp
  outDims := by simp
  inSize := fun _ _ => rfl
  outSize := fun _ _ => rfl
  basis := fun _ _ _ _ _ => rfl

theorem PassesOn.mem_inDims (h : PassesOn L Q taken) {d : String} :
    d ∈ Q.getInDimNames ↔ d ∈ L.getInDimNames ∧ d ∉ taken := by
  rw [h.inDims]
  simp

theorem PassesOn.mem_outDims (h : PassesOn L Q taken) {d : String} :
    d ∈ Q.getOutDimNames ↔ d ∈ L.getOutDimNames ∧ d ∉ taken := by
  rw [h.outDims]
  simp

theorem PassesOn.quotient (h : PassesOn L Q taken) (hq : IsQuotient Q R dim) :
    PassesOn L R (dim :: taken) := by
  have hin := h.mem_inDims.mp hq.mem_in
  have hout := h.mem_outDims.mp hq.mem_out
  have hmemIn : ∀ {d : String}, d ∈ R.getInDimNames ↔ d ∈ Q.getInDimNames ∧ d ≠ dim := by
    intro d
    rw [hq.inDims]
    simp
  have hmemOut : ∀ {d : String}, d ∈ R.getOutDimNames ↔ d ∈ Q.getOutDimNames ∧ d ≠ dim := by
    intro d
    rw [hq.outDims]
    simp
  exact {
    mem := by
      intro d hd
      rcases mem_cons.mp hd with rfl | hd
      · exact ⟨hin.1, hout.1⟩
      · exact h.mem d hd
    size := by
      intro d hd
      rcases mem_cons.mp hd with rfl | hd
      · rw [← h.inSize d hq.mem_in, ← h.outSize d hq.mem_out, hq.size]
      · exact h.size d hd
    identity := by
      intro d hd i hi
      rcases mem_cons.mp hd with rfl | hd
      · rw [← h.inSize d hq.mem_in] at hi
        rw [← h.basis d hq.mem_in d hq.mem_out]
        exact hq.identity i hi
      · exact h.identity d hd i hi
    zero := by
      intro inDim hinDim outDim houtDim hne hor i
      by_cases hold : inDim ∈ taken ∨ outDim ∈ taken
      · exact h.zero inDim hinDim outDim houtDim hne hold i
      · obtain ⟨hinNot, houtNot⟩ := not_or.mp hold
        have hinQ := h.mem_inDims.mpr ⟨hinDim, hinNot⟩
        have houtQ := h.mem_outDims.mpr ⟨houtDim, houtNot⟩
        rw [← h.basis inDim hinQ outDim houtQ]
        by_cases heq : inDim = dim
        · rw [heq] at hne ⊢
          exact hq.column_zero outDim houtQ hne.symm i
        · have hdim : outDim = dim := by
            rcases hor with hmem | hmem
            · exact absurd (mem_cons.mp hmem) (not_or.mpr ⟨heq, hinNot⟩)
            · exact (mem_cons.mp hmem).resolve_right houtNot
          rw [hdim]
          exact hq.row_zero inDim hinQ heq i
    inDims := by
      rw [hq.inDims, h.inDims, filter_filter]
      apply filter_congr
      intro d _
      simp
    outDims := by
      rw [hq.outDims, h.outDims, filter_filter]
      apply filter_congr
      intro d _
      simp
    inSize := by
      intro d hd
      obtain ⟨hdQ, hne⟩ := hmemIn.mp hd
      rw [hq.inSize d hne hdQ, h.inSize d hdQ]
    outSize := by
      intro d hd
      obtain ⟨hdQ, hne⟩ := hmemOut.mp hd
      rw [hq.outSize d hne hdQ, h.outSize d hdQ]
    basis := by
      intro d hd o ho i
      obtain ⟨hdQ, hne⟩ := hmemIn.mp hd
      obtain ⟨hoQ, hne'⟩ := hmemOut.mp ho
      rw [hq.basis d hdQ hne o hoQ hne' i, h.basis d hdQ o hoQ] }

theorem quotientBy_passesOn {f2 : F2Reduce} {dims : List String} {comp result : LinearLayout}
    (hpass : PassesOn L comp.toRawLayout taken) (h : quotientBy f2 dims comp = .ok result) :
    ∃ taken', PassesOn L result.toRawLayout taken' := by
  induction dims generalizing comp taken with
  | nil =>
    obtain rfl := Except.ok.inj h
    exact ⟨taken, hpass⟩
  | cons dim dims ih =>
    rw [quotientBy] at h
    obtain ⟨quotient, hquotient, h⟩ := bind_eq_ok h
    cases quotient with
    | none =>
      obtain rfl := Except.ok.inj h
      exact ⟨taken, hpass⟩
    | some quotient => exact ih (hpass.quotient (quotient_eq_some hquotient)) h

end Quotients

section Values

variable {L Q : RawLayout} {taken : List String} (h : PassesOn L Q taken)

theorem value_single (L : RawLayout) {inDim outDim : String} (hmem : inDim ∈ L.getInDimNames)
    (hzero : ∀ d ∈ L.getInDimNames, d ≠ inDim → ∀ i, L.getBasis d i outDim = 0)
    (ins : String → ℕ) :
    L.value outDim ins = combine (L.dimColumn inDim outDim) (ins inDim) := by
  apply xorSum_map_single L.bases.nodup hmem
  intro d hd hne
  have hlt : combine (L.dimColumn d outDim) (ins d) < 2 ^ 0 := by
    apply combine_lt
    intro c hc
    obtain ⟨i, _, rfl⟩ := mem_map.mp hc
    rw [hzero d hd hne]
    exact Nat.two_pow_pos 0
  omega

include h

theorem PassesOn.value_taken {d : String} (hd : d ∈ taken) {ins : String → ℕ}
    (hfit : ins d < 2 ^ L.getInDimSizeLog2 d) : L.value d ins = ins d := by
  obtain ⟨hin, hout⟩ := h.mem d hd
  have hunits : L.dimColumn d d = (List.range (L.getInDimSizeLog2 d)).map (2 ^ ·) := by
    apply map_congr_left
    intro i hi
    exact h.identity d hd i (mem_range.mp hi)
  rw [value_single L hin, hunits, combine_units, Nat.mod_eq_of_lt hfit]
  intro d' hd' hne i
  exact h.zero d' hd' d hout hne (Or.inr hd) i

theorem PassesOn.value_rest {d : String} (hin : d ∈ L.getInDimNames) (hout : d ∈ L.getOutDimNames)
    (hall : ∀ d' ∈ L.getInDimNames, d' ≠ d → d' ∈ taken) (ins : String → ℕ) :
    L.value d ins = combine (L.dimColumn d d) (ins d) := by
  apply value_single L hin
  intro d' hd' hne i
  exact h.zero d' hd' d hout hne (Or.inl (hall d' hd' hne)) i

end Values

section Composition

variable {f2 : F2Reduce} {A B C : LinearLayout}

theorem invertAndCompose_cols (hperm : A.getOutDimNames.Perm B.getOutDimNames)
    (hC : A.invertAndCompose f2 B = .ok C) :
    A.getTotalInDimSizeLog2 + B.getTotalInDimSizeLog2 ≤ 64 := by
  rw [invertAndCompose] at hC
  obtain ⟨_, -, hC⟩ := bind_eq_ok hC
  obtain ⟨_, -, hC⟩ := bind_eq_ok hC
  obtain ⟨_, -, hC⟩ := bind_eq_ok hC
  obtain ⟨_, -, hC⟩ := bind_eq_ok hC
  obtain ⟨T, htranspose, hC⟩ := bind_eq_ok hC
  obtain ⟨_, -, hC⟩ := bind_eq_ok hC
  obtain ⟨_, hcols, -⟩ := bind_eq_ok hC
  obtain ⟨T', htranspose', hraw⟩ := transposeOuts_ok f2 B hperm
  obtain rfl : T = T' := Except.ok.inj (htranspose.symm.trans htranspose')
  rw [hraw, getTotalInDimSizeLog2_transposedOuts, assertThat] at hcols
  split_ifs at hcols with hle
  exact of_decide_eq_true hle

/-- What `A.invertAndCompose(B)` returns when it returns, for outputs of the same
sizes: `B(C(x)) = A(x)`. -/
theorem invertAndCompose_value (hC : A.invertAndCompose f2 B = .ok C)
    (hperm : A.getOutDimNames.Perm B.getOutDimNames) (hsurj : B.surjective = true)
    (hsame : ∀ outDim ∈ A.getOutDimNames,
      A.getOutDimSizeLog2 outDim = B.getOutDimSizeLog2 outDim) :
    Invertible A.toRawLayout B.toRawLayout ∧ C.getInDimNames = A.getInDimNames ∧
      C.getOutDimNames = B.getInDimNames ∧
      (∀ d ∈ A.getInDimNames, C.getInDimSizeLog2 d = A.getInDimSizeLog2 d) ∧
      (∀ d ∈ B.getInDimNames, C.getOutDimSizeLog2 d = B.getInDimSizeLog2 d) ∧
      ∀ ins : String → ℕ, (∀ d ∈ A.getInDimNames, ins d < 2 ^ A.getInDimSizeLog2 d) →
        ∀ outDim ∈ A.getOutDimNames,
          B.value outDim (fun d => C.value d ins) = A.value outDim ins := by
  have hle : ∀ outDim ∈ A.getOutDimNames,
      A.getOutDimSizeLog2 outDim ≤ B.getOutDimSizeLog2 outDim := fun o ho => (hsame o ho).le
  have hcols : A.getTotalInDimSizeLog2 + B.getTotalInDimSizeLog2 ≤ 64 :=
    invertAndCompose_cols hperm hC
  obtain ⟨hins, houts, hA, hB, hind⟩ := invertAndCompose_eq_ok f2 A B hperm hsurj hle hcols hC
  have hinv : Invertible A.toRawLayout B.toRawLayout := ⟨hins, houts, hA, hB, hind, Or.inl hsame⟩
  obtain ⟨C', hC', ⟨hnames, hwidths⟩, ⟨hnamesOut, hwidthsOut⟩, happly⟩ :=
    invertsAndComposes_of_invertible f2 A B hperm hsurj hle hcols hinv
  obtain rfl : C = C' := Except.ok.inj (hC.symm.trans hC')
  have hinSize : ∀ d ∈ A.getInDimNames, C.getInDimSizeLog2 d = A.getInDimSizeLog2 d := by
    rw [← map_getInDimSizeLog2, ← map_getInDimSizeLog2, hnames] at hwidths
    exact map_inj_left.mp hwidths
  have houtSize : ∀ d ∈ B.getInDimNames, C.getOutDimSizeLog2 d = B.getInDimSizeLog2 d := by
    rw [← map_getOutDimSizeLog2, ← map_getInDimSizeLog2, hnamesOut] at hwidthsOut
    exact map_inj_left.mp hwidthsOut
  refine ⟨hinv, hnames, hnamesOut, hinSize, houtSize, fun ins hfit outDim hout => ?_⟩
  have hsmall : ∀ {L : RawLayout}, L.getTotalInDimSizeLog2 < 31 →
      ∀ d ∈ L.getInDimNames, L.getInDimSizeLog2 d ≤ 31 := by
    intro L hL d hd
    have hled := getInDimSizeLog2_le_total L d
    omega
  have hzip : A.getInDimNames.zip (A.getInDimNames.map ins) =
      A.getInDimNames.map fun d => (d, ins d) := map_prod_left_eq_zip.symm
  obtain ⟨y, z, w, hy, hz, hw, hzw⟩ := happly (A.getInDimNames.map ins) (fits_ins A.toRawLayout hfit)
  rw [hzip] at hy hw
  have hCapply := @apply_eq_value C.toRawLayout ins
    (by
      rw [hnames]
      intro d hd
      rw [hinSize d hd]
      exact hfit d hd)
    (by
      rw [hnames]
      intro d hd
      rw [hinSize d hd]
      exact hsmall hA d hd)
  rw [hnames] at hCapply
  obtain rfl := Except.ok.inj (hCapply.symm.trans hy)
  have hBapply := @apply_eq_value B.toRawLayout (fun d => C.value d ins)
    (fun d hd => by
      rw [← houtSize d hd]
      exact value_lt C ins)
    (hsmall hB)
  rw [← hnamesOut] at hBapply
  obtain rfl := Except.ok.inj (hBapply.symm.trans hz)
  have hAapply := apply_eq_value A.toRawLayout hfit (hsmall hA)
  obtain rfl := Except.ok.inj (hAapply.symm.trans hw)
  have hval := hzw outDim hout
  rw [lookup_map _ (hperm.mem_iff.mp hout), lookup_map _ hout] at hval
  exact Option.some.inj hval

end Composition

section Registers

def hardwareDims : List String := ["register", "lane", "warp", "block"]

/-- The registers of all threads hold the tensor. -/
structure RegisterLayout (shape : List ℕ) (L : LinearLayout) : Prop where
  inDims : L.getInDimNames.Perm hardwareDims
  outDims : L.outDims.entries = (standardOutDimNames shape.length).zip shape
  surjective : L.surjective = true

variable {f2 : F2Reduce} {shape : List ℕ} {S D : LinearLayout}

theorem RegisterLayout.mem (h : RegisterLayout shape S) {d : String} :
    d ∈ S.getInDimNames ↔ d = "register" ∨ d = "lane" ∨ d = "warp" ∨ d = "block" := by
  rw [h.inDims.mem_iff]
  simp [hardwareDims]

theorem RegisterLayout.outDims_eq (hS : RegisterLayout shape S) (hD : RegisterLayout shape D) :
    S.outDims = D.outDims :=
  MapVector.ext (hS.outDims.trans hD.outDims.symm)

/-- When the source needs no other lane, warp or block, its register is found from
the register of the destination. -/
theorem reordered_registers (hS : RegisterLayout shape S) (hD : RegisterLayout shape D)
    {C R : LinearLayout} (hC : D.invertAndCompose f2 S = .ok C) {taken : List String}
    (hpass : PassesOn C.toRawLayout R.toRawLayout taken)
    (hregister : ∀ d ∈ R.getOutDimNames, d = "register") :
    (∀ d ∈ ["lane", "warp", "block"], S.getInDimSizeLog2 d = D.getInDimSizeLog2 d) ∧
      ∃ f : ℕ → ℕ, ∀ reg < 2 ^ D.getInDimSizeLog2 "register",
        f reg < 2 ^ S.getInDimSizeLog2 "register" ∧
        ∀ lane < 2 ^ D.getInDimSizeLog2 "lane", ∀ warp < 2 ^ D.getInDimSizeLog2 "warp",
          ∀ block < 2 ^ D.getInDimSizeLog2 "block", ∃ element,
            S.apply (S.getInDimNames.map fun d =>
              (d, hardwareIndex (f reg) lane warp block d)) = .ok element ∧
            D.apply (D.getInDimNames.map fun d =>
              (d, hardwareIndex reg lane warp block d)) = .ok element := by
  have houts : S.getOutDimNames = D.getOutDimNames := by
    rw [RawLayout.getOutDimNames, hS.outDims_eq hD]
    rfl
  have hsizes : ∀ o, S.getOutDimSizeLog2 o = D.getOutDimSizeLog2 o := by
    intro o
    rw [RawLayout.getOutDimSizeLog2, hS.outDims_eq hD]
    rfl
  obtain ⟨hinv, hin, hout, hinSize, houtSize, hvalue⟩ := invertAndCompose_value hC
    (by rw [houts]) hS.surjective fun o _ => (hsizes o).symm
  -- all dimensions except the registers are passed on
  have htaken : ∀ d ∈ S.getInDimNames, d ≠ "register" → d ∈ taken := by
    intro d hd hne
    by_contra hnot
    exact hne (hregister d (hpass.mem_outDims.mpr ⟨hout ▸ hd, hnot⟩))
  have hmem : ∀ d, d ∈ S.getInDimNames ↔ d ∈ D.getInDimNames := by
    intro d
    rw [hS.mem, hD.mem]
  have hsame : ∀ d ∈ S.getInDimNames, d ≠ "register" →
      S.getInDimSizeLog2 d = D.getInDimSizeLog2 d := by
    intro d hd hne
    rw [← houtSize d hd, ← hinSize d ((hmem d).mp hd)]
    exact (hpass.size d (htaken d hd hne)).symm
  have hregS : "register" ∈ S.getInDimNames := hS.mem.mpr (Or.inl rfl)
  have hregC : "register" ∈ C.getInDimNames := hin ▸ (hmem _).mp hregS
  refine ⟨?_, fun reg => combine (C.dimColumn "register" "register") reg, fun reg hreg =>
    ⟨?_, fun lane hlane warp hwarp block hblock => ?_⟩⟩
  · intro d hd
    apply hsame d
    · rw [hS.mem]
      simpa using Or.inr hd
    · rintro rfl
      exact absurd hd (by decide)
  · rw [← houtSize _ hregS]
    apply combine_lt
    intro c hc
    obtain ⟨i, -, rfl⟩ := mem_map.mp hc
    exact getBasis_lt C
  · have hfitD : ∀ d ∈ D.getInDimNames,
        hardwareIndex reg lane warp block d < 2 ^ D.getInDimSizeLog2 d := by
      intro d hd
      rcases hD.mem.mp hd with rfl | rfl | rfl | rfl
      · exact hreg
      · exact hlane
      · exact hwarp
      · exact hblock
    -- the source is read at the same lane, warp and block
    have hread : ∀ d ∈ S.getInDimNames, C.value d (hardwareIndex reg lane warp block) =
        hardwareIndex (combine (C.dimColumn "register" "register") reg) lane warp block d := by
      intro d hd
      by_cases hne : d = "register"
      · rw [hne]
        exact hpass.value_rest hregC (hout ▸ hregS)
          (fun d' hd' hne' => htaken d' ((hmem d').mpr (hin ▸ hd')) hne') _
      · have hfit := hfitD d ((hmem d).mp hd)
        rw [← hinSize d ((hmem d).mp hd)] at hfit
        rw [hpass.value_taken (htaken d hd hne) hfit]
        simp only [hardwareIndex, if_neg hne]
    have hwidths : ∀ {L : RawLayout}, L.getTotalInDimSizeLog2 < 31 →
        ∀ d ∈ L.getInDimNames, L.getInDimSizeLog2 d ≤ 31 := by
      intro L hL d hd
      have hled := getInDimSizeLog2_le_total L d
      omega
    have hfitS : ∀ d ∈ S.getInDimNames,
        C.value d (hardwareIndex reg lane warp block) < 2 ^ S.getInDimSizeLog2 d := by
      intro d hd
      rw [← houtSize d hd]
      exact value_lt C _
    have happlyS := apply_eq_value S.toRawLayout hfitS (hwidths hinv.outerInBits)
    have happlyD := apply_eq_value D.toRawLayout hfitD (hwidths hinv.inBits)
    rw [map_congr_left fun d hd => congrArg (Prod.mk d) (hread d hd)] at happlyS
    refine ⟨_, happlyS, ?_⟩
    rw [happlyD, houts]
    congr 1
    apply map_congr_left
    intro o ho
    rw [hvalue _ hfitD o ho]

variable {Encoding : Type}
  {toLinearLayout : List ℕ → Encoding → Except LayoutError (Option LinearLayout)}
  {srcTy dstTy : RankedTensorType Encoding}

/-- Only registers are reordered: every destination register holds what a register
of the same lane, warp and block of the source holds, and shared memory is not
asked for. -/
theorem cvtReordersRegisters_sound (hshape : srcTy.shape = dstTy.shape)
    (hsrc : toLinearLayout srcTy.shape srcTy.encoding = .ok (some S))
    (hdst : toLinearLayout dstTy.shape dstTy.encoding = .ok (some D))
    (hS : RegisterLayout srcTy.shape S) (hD : RegisterLayout dstTy.shape D)
    (h : cvtReordersRegisters f2 toLinearLayout srcTy dstTy = .ok true) :
    (∀ shortcuts, cvtNeedsSharedMemory f2 toLinearLayout shortcuts srcTy dstTy = .ok false) ∧
    (∀ d ∈ ["lane", "warp", "block"], S.getInDimSizeLog2 d = D.getInDimSizeLog2 d) ∧
      ∃ f : ℕ → ℕ, ∀ reg < 2 ^ D.getInDimSizeLog2 "register",
        f reg < 2 ^ S.getInDimSizeLog2 "register" ∧
        ∀ lane < 2 ^ D.getInDimSizeLog2 "lane", ∀ warp < 2 ^ D.getInDimSizeLog2 "warp",
          ∀ block < 2 ^ D.getInDimSizeLog2 "block", ∃ element,
            S.apply (S.getInDimNames.map fun d =>
              (d, hardwareIndex (f reg) lane warp block d)) = .ok element ∧
            D.apply (D.getInDimNames.map fun d =>
              (d, hardwareIndex reg lane warp block d)) = .ok element := by
  have hshared : ∀ shortcuts,
      cvtNeedsSharedMemory f2 toLinearLayout shortcuts srcTy dstTy = .ok false := by
    intro shortcuts
    rw [cvtNeedsSharedMemory, h]
    rfl
  refine ⟨hshared, ?_⟩
  rw [cvtReordersRegisters] at h
  obtain ⟨layout, hlayout, h⟩ := bind_eq_ok h
  rw [minimalCvtLayout, hsrc, hdst, ok_bind, ok_bind] at hlayout
  obtain ⟨comp, hcomp, hlayout⟩ := bind_eq_ok hlayout
  obtain ⟨R, hR, hlayout⟩ := bind_eq_ok hlayout
  obtain rfl := Except.ok.inj hlayout
  obtain ⟨taken, hpass⟩ := quotientBy_passesOn (passesOn_nil comp.toRawLayout) hR
  rw [← hshape] at hD
  apply reordered_registers hS hD hcomp hpass
  intro d hd
  have hnames := Except.ok.inj h
  rw [Bool.or_eq_true, List.isEmpty_iff, beq_iff_eq] at hnames
  rcases hnames with hnil | hone
  · rw [hnil] at hd
    exact absurd hd not_mem_nil
  · rw [hone] at hd
    exact mem_singleton.mp hd

theorem registerLayout_of_blocked {enc : BlockedEncodingAttr} {L : LinearLayout}
    (h : IsBlockedLayout enc shape L) (hne : shape ≠ []) : RegisterLayout shape L where
  inDims := by
    rw [h.inDims, if_neg hne]
    rfl
  outDims := h.outDims
  surjective := h.surjective

/-- `toLinearLayout` for blocked encodings. -/
def blockedToLinearLayout (shape : List ℕ) (enc : BlockedEncodingAttr) :
    Except LayoutError (Option LinearLayout) := do
  let L ← enc.toLinearLayout f2reduce shape
  pure (some L)

/-- Two by two elements for each of two lanes and two warps; two blocks hold the same. -/
def rowOrder : RankedTensorType BlockedEncodingAttr :=
  ⟨[4, 4], [2, 2], [2, 1], [1, 2], [0, 1], [2, 1], [1, 1], [0, 1]⟩

/-- The registers of a thread count along the other dimension first. -/
def columnOrder : RankedTensorType BlockedEncodingAttr :=
  ⟨[4, 4], [2, 2], [2, 1], [1, 2], [1, 0], [2, 1], [1, 1], [1, 0]⟩

theorem squares_wellFormed : ∀ ty ∈ [rowOrder, columnOrder],
    ty.encoding.WellFormed ty.shape ∧ ty.encoding.Fits ty.shape := by
  intro ty hty
  simp only [mem_cons, not_mem_nil, or_false] at hty
  rcases hty with rfl | rfl
  all_goals exact ⟨{
    sizePerThread := powersOfTwo_of_bits [1, 1] rfl
    threadsPerWarp := powersOfTwo_of_bits [1, 0] rfl
    warpsPerCTA := powersOfTwo_of_bits [0, 1] rfl
    order := by decide
    CTALayout := ⟨powersOfTwo_of_bits [1, 0] rfl, powersOfTwo_of_bits [0, 0] rfl, by decide,
      by decide⟩
    shapePow := powersOfTwo_of_bits [2, 2] rfl }, by decide, by decide, by decide, by decide⟩

/-- Reversing the order of the registers keeps the data in its thread. -/
theorem cvtReordersRegisters_square : ∃ S D : LinearLayout, ∃ f : ℕ → ℕ,
    rowOrder.encoding.toLinearLayout f2reduce rowOrder.shape = .ok S ∧
    columnOrder.encoding.toLinearLayout f2reduce columnOrder.shape = .ok D ∧
    ∀ reg < 2 ^ D.getInDimSizeLog2 "register", f reg < 2 ^ S.getInDimSizeLog2 "register" ∧
      ∀ lane < 2 ^ D.getInDimSizeLog2 "lane", ∀ warp < 2 ^ D.getInDimSizeLog2 "warp",
        ∀ block < 2 ^ D.getInDimSizeLog2 "block", ∃ element,
          S.apply (S.getInDimNames.map fun d =>
            (d, hardwareIndex (f reg) lane warp block d)) = .ok element ∧
          D.apply (D.getInDimNames.map fun d =>
            (d, hardwareIndex reg lane warp block d)) = .ok element := by
  have hreorders : cvtReordersRegisters f2reduce blockedToLinearLayout rowOrder columnOrder =
      .ok true := by
    have hoption : (cvtReordersRegisters f2reduce blockedToLinearLayout rowOrder
        columnOrder).toOption = some true := by
      decide +kernel
    revert hoption
    cases cvtReordersRegisters f2reduce blockedToLinearLayout rowOrder columnOrder with
    | error e => exact fun hnone => absurd hnone (by simp [Except.toOption])
    | ok reorders => exact fun hsome => congrArg Except.ok (Option.some.inj hsome)
  have hranks : ∀ ty ∈ [rowOrder, columnOrder], ty.shape ≠ [] := by decide
  have hshape : rowOrder.shape = columnOrder.shape := rfl
  have hlayout : ∀ ty ∈ [rowOrder, columnOrder], ∃ L : LinearLayout,
      ty.encoding.toLinearLayout f2reduce ty.shape = .ok L ∧ RegisterLayout ty.shape L := by
    intro ty hty
    obtain ⟨hwell, hfits⟩ := squares_wellFormed ty hty
    obtain ⟨L, hL, hdesc⟩ := toLinearLayout_describes f2reduce hwell hfits
    exact ⟨L, hL, registerLayout_of_blocked (isBlockedLayout_of_describes hwell hdesc)
      (hranks ty hty)⟩
  obtain ⟨S, hS, hSregs⟩ := hlayout rowOrder mem_cons_self
  obtain ⟨D, hD, hDregs⟩ := hlayout columnOrder (mem_cons_of_mem _ mem_cons_self)
  have hread : ∀ {ty : RankedTensorType BlockedEncodingAttr} {L : LinearLayout},
      ty.encoding.toLinearLayout f2reduce ty.shape = .ok L →
      blockedToLinearLayout ty.shape ty.encoding = .ok (some L) := by
    intro ty L hL
    rw [blockedToLinearLayout, hL]
    rfl
  obtain ⟨-, -, f, hf⟩ :=
    cvtReordersRegisters_sound hshape (hread hS) (hread hD) hSregs hDregs hreorders
  exact ⟨S, D, f, hS, hD, hf⟩

end Registers

end TritonCpu
