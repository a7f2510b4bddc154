import TritonCpu.PtrDenotation

/-!
# Sums with an unstructured dimension

In unstructured mode a dimension may have a tensor of offsets. The operations
on tensors have one lemma each: what they return has at every position the
result at that position. From these the sum of two dimensions is read off path
by path; one of the paths loses the `stride * j` of a structured side.
-/

set_option autoImplicit false

namespace TritonCpu.AnalysisStructured
open Builder TritonIR OpFoldResult List

/-- A scalar, or a tensor with `n` elements. -/
def HasElements (n : ℕ) : OFR → Prop
  | .attr _ => True
  | .value v => v.ty.shape = none ∨ ∃ shape, v.ty.shape = some shape ∧ shape.prod = n

/-- A tensor of the given shape whose elements are given by `f`. -/
def IsTensor (shape : List ℕ) (x : OFR) (f : Env → ℕ → ℤ) : Prop :=
  ∃ v, x = .value v ∧ v.ty.shape = some shape ∧
    ∀ ρ j, j < shape.prod → v.eval ρ (unravel shape j) = f ρ j

section Tensors

variable {shape : List ℕ} {x y : OFR} {f g : Env → ℕ → ℤ}

theorem IsTensor.elementAt (h : IsTensor shape x f) (ρ : Env) {j : ℕ} (hj : j < shape.prod) :
    elementAt ρ x j = f ρ j := by
  obtain ⟨v, rfl, hshape, heval⟩ := h
  have hs : v.shape = shape := by simp [Value.shape, hshape]
  unfold AnalysisStructured.elementAt
  dsimp only
  rw [hs, heval ρ j hj]

theorem elementAt_scalar {ofr : OFR} (h : IsScalar ofr) (ρ : Env) (j : ℕ) :
    elementAt ρ ofr j = ofr.eval ρ := by
  cases ofr with
  | attr k => rfl
  | value v =>
    have hs : v.shape = [] := by simp [Value.shape, show v.ty.shape = none from h]
    unfold elementAt
    dsimp only
    rw [hs]
    rfl

theorem returns_intCast {v w : Value} {targetTy : ElementType} (h : Returns (intCast v targetTy) w) :
    w.ty.shape = v.ty.shape ∧ ∀ ρ idx, w.eval ρ idx = v.eval ρ idx := by
  obtain ⟨u, -, h⟩ := returns_bind h
  split_ifs at h
  · obtain ⟨id, rfl⟩ := returns_create h
    exact ⟨rfl, fun ρ idx => rfl⟩
  · obtain ⟨id, rfl⟩ := returns_create h
    exact ⟨rfl, fun ρ idx => rfl⟩

theorem returns_indexTypeCast {v w : Value} {targetTy : ElementType}
    (h : Returns (indexTypeCast v targetTy) w) :
    w.ty.shape = v.ty.shape ∧ ∀ ρ idx, w.eval ρ idx = v.eval ρ idx := by
  unfold indexTypeCast at h
  split_ifs at h
  · obtain ⟨u, -, h⟩ := returns_bind h
    obtain ⟨id, rfl⟩ := returns_create h
    exact ⟨rfl, fun ρ idx => rfl⟩
  · exact returns_intCast h

theorem returns_castElement {v w : Value} {targetTy : ElementType}
    (h : Returns (castElement v targetTy) w) :
    w.ty.shape = v.ty.shape ∧ ∀ ρ idx, w.eval ρ idx = v.eval ρ idx := by
  unfold castElement at h
  split_ifs at h
  · exact returns_indexTypeCast h
  · rw [returns_pure] at h
    subst h
    exact ⟨rfl, fun ρ idx => rfl⟩

theorem returns_materialize_element {ofr : OFR} {v : Value} {n : ℕ} (hofr : HasElements n ofr)
    (h : Returns (materialize ofr) v) :
    HasElements n (.value v) ∧ ∀ ρ j, elementAt ρ (.value v) j = elementAt ρ ofr j := by
  cases ofr with
  | attr k =>
    obtain ⟨id, rfl⟩ := returns_create h
    exact ⟨.inl rfl, fun ρ j => rfl⟩
  | value w =>
    rw [materialize, returns_pure] at h
    subst h
    exact ⟨hofr, fun ρ j => rfl⟩

theorem returns_expandOFRIndex {ofr : OFR} {target : Value} (hofr : HasElements shape.prod ofr)
    (htarget : target.ty.shape = some shape)
    (h : Returns (expandOFRIndex ofr (.value target)) x) :
    IsTensor shape x fun ρ j => elementAt ρ ofr j := by
  obtain ⟨v, hv, h⟩ := returns_bind h
  obtain ⟨hvElements, hvAt⟩ := returns_materialize_element hofr hv
  split_ifs at h with hty
  · -- the types agree, so the result is a tensor already
    rw [returns_pure] at h
    subst h
    rw [hty] at htarget
    cases x with
    | attr k =>
      obtain ⟨id, rfl⟩ := returns_create hv
      cases htarget
    | value w =>
      rw [materialize, returns_pure] at hv
      subst hv
      refine ⟨v, rfl, htarget, fun ρ j _ => ?_⟩
      show _ = v.eval ρ (unravel v.shape j)
      rw [Value.shape, htarget]
      rfl
  · rw [htarget] at h
    have hat : ∀ ρ j, v.eval ρ (unravel v.shape j) = elementAt ρ ofr j := hvAt
    split at h
    · next s hs hnone =>
      cases hs
      obtain ⟨w, hw, h⟩ := returns_bind h
      obtain ⟨y, hy, h⟩ := returns_bind h
      obtain ⟨id, rfl⟩ := returns_create hy
      rw [returns_pure] at h
      subst h
      have hvs : v.shape = [] := by simp [Value.shape, hnone]
      refine ⟨_, rfl, rfl, fun ρ j _ => ?_⟩
      show _ = elementAt ρ ofr j
      rw [← hat, hvs]
      exact (returns_castElement hw).2 ρ []
    · next s vShape hs hsome =>
      cases hs
      have hvs : v.shape = vShape := by simp [Value.shape, hsome]
      have hprod : vShape.prod = shape.prod := by
        rcases hvElements with hnone | ⟨s, hs, hprod⟩
        · rw [hsome] at hnone
          cases hnone
        · rw [hsome] at hs
          cases hs
          exact hprod
      split_ifs at h with hne
      · obtain ⟨-, h⟩ := returns_assert_bind h
        obtain ⟨y, hy, h⟩ := returns_bind h
        obtain ⟨id, rfl⟩ := returns_create hy
        rw [returns_pure] at h
        subst h
        refine ⟨_, rfl, rfl, fun ρ j hj => ?_⟩
        show _ = elementAt ρ ofr j
        rw [← hat, hvs, Value.eval, hvs, ravel_unravel shape j hj]
      · obtain ⟨w, hw, h⟩ := returns_bind h
        rw [returns_pure] at h
        subst h
        have hcast := returns_indexTypeCast hw
        rw [not_not] at hne
        subst hne
        refine ⟨w, rfl, hcast.1.trans hsome, fun ρ j _ => ?_⟩
        show _ = elementAt ρ ofr j
        rw [← hat, hvs]
        exact hcast.2 ρ _
    · exact absurd h (not_returns_stop _ _)
    · next hs _ => cases hs

theorem returns_addOFRs_tensor {s : OFR} (hx : IsTensor shape x f) (hy : IsTensor shape y g)
    (h : Returns (addOFRs x y) s) : IsTensor shape s fun ρ j => f ρ j + g ρ j := by
  obtain ⟨v, rfl, hv, hveval⟩ := hx
  obtain ⟨w, rfl, hw, hweval⟩ := hy
  obtain ⟨l, hl, h⟩ := returns_bind h
  obtain ⟨r, hr, h⟩ := returns_bind h
  obtain ⟨z, hz, h⟩ := returns_bind h
  obtain ⟨id, rfl⟩ := returns_create hz
  rw [materialize, returns_pure] at hl hr
  rw [returns_pure] at h
  subst h
  subst hl hr
  refine ⟨_, rfl, hv, fun ρ j hj => ?_⟩
  show _ = f ρ j + g ρ j
  rw [← hveval ρ j hj, ← hweval ρ j hj]
  rfl

theorem returns_mulConstant_tensor {v : Value} {c : Option ℤ} (hv : v.ty.shape = some shape)
    (h : Returns (mulConstant (.value v)) c) : c = none := by
  unfold mulConstant at h
  split at h
  · next hattr => cases hattr
  · next hvalue =>
    cases hvalue
    cases hv
  · exact absurd h (not_returns_stop _ _)
  · rwa [returns_pure] at h

theorem returns_mulOFRs_tensor {s : OFR} (hx : IsTensor shape x f) (hy : IsTensor shape y g)
    (h : Returns (mulOFRs x y) s) : IsTensor shape s fun ρ j => f ρ j * g ρ j := by
  obtain ⟨v, rfl, hv, hveval⟩ := hx
  obtain ⟨w, rfl, hw, hweval⟩ := hy
  obtain ⟨l, hl, h⟩ := returns_bind h
  obtain ⟨r, hr, h⟩ := returns_bind h
  have hl := returns_mulConstant_tensor hv hl
  have hr := returns_mulConstant_tensor hw hr
  subst hl hr
  rw [if_neg (by simp), if_neg (by simp), if_neg (by simp), if_neg (by simp)] at h
  obtain ⟨lv, hlv, h⟩ := returns_bind h
  obtain ⟨rv, hrv, h⟩ := returns_bind h
  obtain ⟨z, hz, h⟩ := returns_bind h
  obtain ⟨id, rfl⟩ := returns_create hz
  rw [mulOperand, materialize, returns_pure] at hlv hrv
  rw [returns_pure] at h
  subst h
  subst hlv hrv
  refine ⟨_, rfl, hv, fun ρ j hj => ?_⟩
  show _ = f ρ j * g ρ j
  rw [← hveval ρ j hj, ← hweval ρ j hj]
  rfl

theorem returns_expandOFRIndex_scalar {ofr : OFR} (hofr : IsScalar ofr) (hy : IsTensor shape y g)
    (h : Returns (expandOFRIndex ofr y) x) : IsTensor shape x fun ρ _ => ofr.eval ρ := by
  obtain ⟨v, rfl, hv, -⟩ := hy
  have helements : HasElements shape.prod ofr := by
    cases ofr with
    | attr k => trivial
    | value w => exact .inl hofr
  obtain ⟨w, rfl, hw, heval⟩ := returns_expandOFRIndex helements hv h
  refine ⟨w, rfl, hw, fun ρ j hj => ?_⟩
  rw [heval ρ j hj]
  exact elementAt_scalar hofr ρ j

theorem returns_scaleOffset {stride : OFR} (hy : IsTensor shape y g) (hstride : IsScalar stride)
    (h : Returns (scaleOffset y stride) x) : IsTensor shape x fun ρ j => g ρ j * stride.eval ρ := by
  obtain ⟨expanded, hexpanded, h⟩ := returns_bind h
  exact returns_mulOFRs_tensor hy (returns_expandOFRIndex_scalar hstride hy hexpanded) h

theorem returns_castArange {id count : ℕ} {elt : ElementType} {w : Value}
    (h : Returns (castArange (.makeRange id 0 count) elt) w) :
    IsTensor [count] (.value w) fun _ j => j := by
  have hrange : ∀ (ρ : Env) (j : ℕ),
      (Value.makeRange id 0 count).eval ρ (unravel [count] j) = j := by
    intro ρ j
    simp [Value.eval, unravel]
  unfold castArange at h
  split at h
  · split_ifs at h
    · obtain ⟨i, rfl⟩ := returns_create h
      exact ⟨_, rfl, rfl, fun ρ j _ => hrange ρ j⟩
    · obtain ⟨i, rfl⟩ := returns_create h
      exact ⟨_, rfl, rfl, fun ρ j _ => hrange ρ j⟩
    · rw [returns_pure] at h
      subst h
      exact ⟨_, rfl, rfl, fun ρ j _ => hrange ρ j⟩
  · obtain ⟨i, rfl⟩ := returns_create h
    exact ⟨_, rfl, rfl, fun ρ j _ => hrange ρ j⟩

theorem returns_materializeLinearOffsetTensor {base stride : OFR} {count : ℕ} {target : Value}
    (hbase : IsScalar base) (hstride : IsScalar stride)
    (h : Returns (materializeLinearOffsetTensor base stride count target) x) :
    IsTensor [count] x fun ρ j => base.eval ρ + stride.eval ρ * j := by
  obtain ⟨arangeI32, harange, h⟩ := returns_bind h
  obtain ⟨id, rfl⟩ := returns_create harange
  obtain ⟨arange, hcast, h⟩ := returns_bind h
  obtain ⟨strideSplat, hsplat, h⟩ := returns_bind h
  obtain ⟨arangeStride, hproduct, h⟩ := returns_bind h
  obtain ⟨baseSplat, hbaseSplat, h⟩ := returns_bind h
  have hrange := returns_castArange hcast
  have hsplat := returns_expandOFRIndex_scalar hstride hrange hsplat
  have hproduct := returns_mulOFRs_tensor hrange hsplat hproduct
  have hbaseSplat := returns_expandOFRIndex_scalar hbase hproduct hbaseSplat
  obtain ⟨v, hx, hv, heval⟩ := returns_addOFRs_tensor hbaseSplat hproduct h
  refine ⟨v, hx, hv, fun ρ j hj => ?_⟩
  rw [heval ρ j hj]
  ring

end Tensors

/-- A tensor with `n` elements, in any shape. -/
def IsVector (n : ℕ) (x : OFR) (f : Env → ℕ → ℤ) : Prop :=
  ∃ shape, shape.prod = n ∧ IsTensor shape x f

/-- A scalar or a tensor whose `n` elements are given by `f`. -/
def HasValues (n : ℕ) (x : OFR) (f : Env → ℕ → ℤ) : Prop :=
  HasElements n x ∧ ∀ ρ j, j < n → elementAt ρ x j = f ρ j

/-- The dimension of a state that may be unstructured, of static size `n`. -/
structure GatherDim (n : ℕ) (d : Dim) : Prop where
  size : d.size = .attr n
  stride : IsScalar d.stride
  offset : HasElements n d.offset

/-- A structured side whose stride, not a constant zero, is the stride of the
unstructured side. -/
def sharesStride (d other : Dim) : Bool :=
  d.isStructured && !other.isStructured && !hasConstZero d.stride && d.stride = other.stride

/-- What `addState` adds for a side: with a shared stride, `offset * stride`. -/
def mergedTerm (ρ : Env) (d other : Dim) (j : ℕ) : ℤ :=
  if sharesStride d other then d.offset.eval ρ * d.stride.eval ρ else d.term ρ j

section Merge

variable {n : ℕ} {l r d other : Dim} {x y z : OFR} {f g : Env → ℕ → ℤ}

theorem IsVector.values (h : IsVector n x f) : HasValues n x f := by
  obtain ⟨shape, rfl, v, rfl, hshape, heval⟩ := h
  constructor
  · exact .inr ⟨shape, hshape, rfl⟩
  · intro ρ j hj
    exact IsTensor.elementAt ⟨v, rfl, hshape, heval⟩ ρ hj

theorem GatherDim.values (h : GatherDim n d) :
    HasValues n d.offset fun ρ j => elementAt ρ d.offset j :=
  ⟨h.offset, fun _ _ _ => rfl⟩

theorem unstructured_iff (d : Dim) :
    d.isStructured = false ↔ ∃ v, d.offset = .value v ∧ v.ty.shape.isSome := by
  unfold Dim.isStructured isNotStructured
  cases d.offset with
  | attr k => simp
  | value v => simp

theorem GatherDim.vector (h : GatherDim n d) (hd : d.isStructured = false) :
    IsVector n d.offset fun ρ j => elementAt ρ d.offset j := by
  obtain ⟨v, hv, hsome⟩ := (unstructured_iff d).mp hd
  have helements := h.offset
  rw [hv] at helements
  rcases helements with hnone | ⟨shape, hshape, hprod⟩
  · rw [hnone] at hsome
    cases hsome
  · refine ⟨shape, hprod, v, hv, hshape, fun ρ j _ => ?_⟩
    rw [hv]
    show _ = v.eval ρ (unravel v.shape j)
    rw [Value.shape, hshape]
    rfl

theorem term_structured (hd : d.isStructured = true) (ρ : Env) (j : ℕ) :
    d.term ρ j = d.offset.eval ρ + d.stride.eval ρ * j := by
  rw [Dim.term, if_pos hd]

theorem term_unstructured (hd : d.isStructured = false) (ρ : Env) (j : ℕ) :
    d.term ρ j = elementAt ρ d.offset j * d.stride.eval ρ := by
  rw [Dim.term, if_neg (by simp [hd])]

theorem returns_unitStride (h : Returns (unitStride d other) x) :
    (hasConstZero d.stride = true ∧ d.isStructured = true ∧ x = .attr 1) ∨
      (hasConstZero d.stride = false ∧ x = d.stride) := by
  unfold unitStride at h
  split_ifs at h with hz
  · obtain ⟨hassert, h⟩ := returns_assert_bind h
    rw [returns_pure] at h
    exact .inl ⟨hz, hassert.1, h⟩
  · rw [returns_pure] at h
    exact .inr ⟨by simpa using hz, h⟩

theorem unitStride_unstructured (hd : d.isStructured = false) (h : Returns (unitStride d other) x) :
    x = d.stride := by
  rcases returns_unitStride h with ⟨-, hs, -⟩ | ⟨-, hx⟩
  · rw [hd] at hs
    cases hs
  · exact hx

theorem mergedTerm_same (hone : d.isStructured = false ∨ other.isStructured = false)
    (hx : Returns (unitStride d other) x) (hy : Returns (unitStride other d) x) (ρ : Env) (j : ℕ) :
    elementAt ρ d.offset j * x.eval ρ = mergedTerm ρ d other j := by
  cases hs : d.isStructured with
  | false =>
    rw [unitStride_unstructured hs hx, mergedTerm, if_neg (by simp [sharesStride, hs]),
      term_unstructured hs]
  | true =>
    have hother : other.isStructured = false := by simpa [hs] using hone
    have hoffset := elementAt_scalar ((structured_iff d).mp hs) ρ j
    rcases returns_unitStride hx with ⟨hz, -, rfl⟩ | ⟨hz, rfl⟩
    · rw [mergedTerm, if_neg (by simp [sharesStride, hz]), term_structured hs, hoffset,
        hasConstZero_eval hz]
      show _ * 1 = _
      ring
    · have hsame := unitStride_unstructured hother hy
      have hshares : sharesStride d other = true := by
        rw [sharesStride, hs, hother, hz, decide_eq_true hsame]
        rfl
      rw [mergedTerm, if_pos hshares, hoffset]

theorem mergedTerm_different (hx : Returns (unitStride d other) x)
    (hy : Returns (unitStride other d) y) (hxy : x ≠ y) (ρ : Env) (j : ℕ) :
    mergedTerm ρ d other j = d.term ρ j := by
  rw [mergedTerm, if_neg]
  intro hshares
  simp only [sharesStride, Bool.and_eq_true, Bool.not_eq_true', decide_eq_true_eq] at hshares
  obtain ⟨⟨⟨hd, hother⟩, hz⟩, hstride⟩ := hshares
  rcases returns_unitStride hx with ⟨hz', -⟩ | ⟨-, rfl⟩
  · rw [hz] at hz'
    cases hz'
  · exact hxy (hstride.trans (unitStride_unstructured hother hy).symm)

theorem returns_linearOffset (hd : GatherDim n d) (hs : d.isStructured = true)
    (hx : Returns (unitStride d other) x) (hy : IsVector n y g)
    (h : Returns (linearOffset d x y) z) : HasValues n z fun ρ j => d.term ρ j := by
  have hoffset := (structured_iff d).mp hs
  obtain ⟨shape, hprod, htensor⟩ := hy
  rw [linearOffset, hd.size, getIntAttr] at h
  dsimp only at h
  split_ifs at h with hz
  · have hz' := returns_expandOFRIndex_scalar hoffset htensor h
    obtain ⟨helements, hvalues⟩ := IsVector.values ⟨shape, hprod, hz'⟩
    refine ⟨helements, fun ρ j hj => ?_⟩
    rw [hvalues ρ j hj]
    show d.offset.eval ρ = d.term ρ j
    rw [term_structured hs, hasConstZero_eval hz]
    ring
  · obtain ⟨v, rfl, -⟩ := htensor
    have hxs : x = d.stride := by
      rcases returns_unitStride hx with ⟨hz', -⟩ | ⟨-, hx⟩
      · exact absurd hz' hz
      · exact hx
    subst hxs
    have hlinear := returns_materializeLinearOffsetTensor hoffset hd.stride h
    obtain ⟨helements, hvalues⟩ := IsVector.values ⟨[n], prod_singleton, hlinear⟩
    refine ⟨helements, fun ρ j hj => ?_⟩
    rw [hvalues ρ j hj]
    exact (term_structured hs ρ j).symm

theorem vector_scaleOffset {stride z : OFR} (hy : IsVector n y g) (hstride : IsScalar stride)
    (h : Returns (scaleOffset y stride) z) : IsVector n z fun ρ j => g ρ j * stride.eval ρ := by
  obtain ⟨shape, hprod, htensor⟩ := hy
  exact ⟨shape, hprod, returns_scaleOffset htensor hstride h⟩

theorem expand_values {shape : List ℕ} (hx : HasValues shape.prod x f) (hy : IsTensor shape y g)
    (h : Returns (expandOFRIndex x y) z) : IsTensor shape z f := by
  obtain ⟨v, rfl, hv, -⟩ := hy
  obtain ⟨w, hw, hshape, heval⟩ := returns_expandOFRIndex hx.1 hv h
  exact ⟨w, hw, hshape, fun ρ j hj => (heval ρ j hj).trans (hx.2 ρ j hj)⟩

theorem returns_expandToUnstructured {p : OFR × OFR} (hx : HasValues n x f) (hy : HasValues n y g)
    (hxv : l.isStructured = false → IsVector n x f) (hyv : l.isStructured = true → IsVector n y g)
    (h : Returns (expandToUnstructured l x y) p) :
    ∃ shape, shape.prod = n ∧ IsTensor shape p.1 f ∧ IsTensor shape p.2 g := by
  unfold expandToUnstructured at h
  split_ifs at h with hl
  · obtain ⟨z, hz, h⟩ := returns_bind h
    rw [returns_pure] at h
    subst h
    obtain ⟨shape, rfl, htensor⟩ := hxv (by simpa using hl)
    exact ⟨shape, rfl, htensor, expand_values hy htensor hz⟩
  · obtain ⟨z, hz, h⟩ := returns_bind h
    rw [returns_pure] at h
    subst h
    obtain ⟨shape, rfl, htensor⟩ := hyv (by simpa using hl)
    exact ⟨shape, rfl, expand_values hx htensor hz, htensor⟩

/-- A side whose stride became one. -/
structure Aligned (n : ℕ) (d : Dim) (x : OFR) : Prop where
  values : HasValues n x fun ρ j => d.term ρ j
  vector : d.isStructured = false → IsVector n x fun ρ j => d.term ρ j

theorem Aligned.linear (hd : GatherDim n d) (hs : d.isStructured = true)
    (hx : Returns (unitStride d other) x) (hy : IsVector n y g)
    (h : Returns (linearOffset d x y) z) : Aligned n d z := by
  constructor
  · exact returns_linearOffset hd hs hx hy h
  · intro hu
    rw [hs] at hu
    cases hu

theorem Aligned.scaled (hd : GatherDim n d) (hs : d.isStructured = false)
    (hx : Returns (unitStride d other) x) (h : Returns (scaleOffset d.offset x) z) :
    Aligned n d z := by
  have hxs := unitStride_unstructured hs hx
  subst hxs
  have hvector : IsVector n z fun ρ j => d.term ρ j := by
    obtain ⟨shape, hprod, v, hz, hshape, heval⟩ := vector_scaleOffset (hd.vector hs) hd.stride h
    exact ⟨shape, hprod, v, hz, hshape, fun ρ j hj =>
      (heval ρ j hj).trans (term_unstructured hs ρ j).symm⟩
  exact ⟨hvector.values, fun _ => hvector⟩

/-- Either the offsets or the strides are the same and nothing changes, or both
sides get stride one. -/
theorem returns_alignStrides {p : (OFR × OFR) × OFR × OFR} (hl : GatherDim n l)
    (hr : GatherDim n r) (hone : l.isStructured = false ∨ r.isStructured = false)
    (hx : Returns (unitStride l r) x) (hy : Returns (unitStride r l) y)
    (h : Returns (alignStrides l r x y) p) :
    (p = ((l.offset, x), r.offset, y) ∧ (l.offset = r.offset ∨ x = y)) ∨
      (x ≠ y ∧ p.1.2 = .attr 1 ∧ p.2.2 = .attr 1 ∧ Aligned n l p.1.1 ∧ Aligned n r p.2.1) := by
  unfold alignStrides at h
  split_ifs at h with hne hcase1 hcase2
  · -- only the left side is structured
    simp only [Bool.and_eq_true, Bool.not_eq_true'] at hcase1
    obtain ⟨lhsOffset, hlo, h⟩ := returns_bind h
    obtain ⟨rhsOffset, hro, h⟩ := returns_bind h
    rw [returns_pure] at h
    subst h
    exact .inr ⟨hne.2, rfl, rfl, .linear hl hcase1.1 hx (hr.vector hcase1.2) hlo,
      .scaled hr hcase1.2 hy hro⟩
  · -- only the right side is structured
    simp only [Bool.and_eq_true, Bool.not_eq_true'] at hcase2
    obtain ⟨rhsOffset, hro, h⟩ := returns_bind h
    obtain ⟨lhsOffset, hlo, h⟩ := returns_bind h
    rw [returns_pure] at h
    subst h
    exact .inr ⟨hne.2, rfl, rfl, .scaled hl hcase2.1 hx hlo,
      .linear hr hcase2.2 hy (hl.vector hcase2.1) hro⟩
  · -- both sides are unstructured
    have hlu : l.isStructured = false := by
      cases hs : l.isStructured <;> simp_all
    have hru : r.isStructured = false := by
      cases hs : r.isStructured <;> simp_all
    obtain ⟨lhsOffset, hlo, h⟩ := returns_bind h
    obtain ⟨rhsOffset, hro, h⟩ := returns_bind h
    rw [returns_pure] at h
    subst h
    exact .inr ⟨hne.2, rfl, rfl, .scaled hl hlu hx hlo, .scaled hr hru hy hro⟩
  · rw [returns_pure] at h
    rw [not_and_or, not_not, not_not] at hne
    exact .inl ⟨h, hne⟩

theorem returns_mergeUnstructured {q : OFR × OFR} (hl : GatherDim n l) (hr : GatherDim n r)
    (hone : l.isStructured = false ∨ r.isStructured = false)
    (h : Returns (mergeUnstructured l r) q) :
    (∃ f, IsVector n q.1 f) ∧ ∀ ρ j, j < n →
      elementAt ρ q.1 j * q.2.eval ρ = mergedTerm ρ l r j + mergedTerm ρ r l j := by
  obtain ⟨x, hx, h⟩ := returns_bind h
  obtain ⟨y, hy, h⟩ := returns_bind h
  obtain ⟨⟨⟨lhsOffset, lhsStride⟩, rhsOffset, rhsStride⟩, halign, hm⟩ := returns_bind h
  dsimp only at hm
  have hrl : l.isStructured = true → r.isStructured = false := fun hs => by
    simpa [hs] using hone
  rcases returns_alignStrides hl hr hone hx hy halign with ⟨heq, hsame⟩ | ⟨hne, h1, h2, hal, har⟩
  · simp only [Prod.mk.injEq] at heq
    obtain ⟨⟨rfl, rfl⟩, rfl, rfl⟩ := heq
    split_ifs at hm with hstride
    · -- one stride: the offsets are added
      subst hstride
      obtain ⟨p, hp, hm⟩ := returns_bind hm
      obtain ⟨sum, hsum, hm⟩ := returns_bind hm
      rw [returns_pure] at hm
      subst hm
      obtain ⟨shape, hprod, hpl, hpr⟩ := returns_expandToUnstructured hl.values hr.values hl.vector
        (fun hs => hr.vector (hrl hs)) hp
      have hvector : IsVector n sum _ := ⟨shape, hprod, returns_addOFRs_tensor hpl hpr hsum⟩
      refine ⟨⟨_, hvector⟩, fun ρ j hj => ?_⟩
      rw [hvector.values.2 ρ j hj, ← mergedTerm_same hone hx hy,
        ← mergedTerm_same (Or.comm.mp hone) hy hx]
      ring
    · -- one offset: the strides are added, and both sides are unstructured
      obtain ⟨hoffset, hm⟩ := returns_assert_bind hm
      obtain ⟨stride, hsum, hm⟩ := returns_bind hm
      rw [returns_pure] at hm
      subst hm
      have hboth : l.isStructured = r.isStructured := by
        rw [Dim.isStructured, Dim.isStructured, hoffset]
      have hlu : l.isStructured = false := by
        rcases hone with hlu | hru
        · exact hlu
        · rw [hboth, hru]
      have hru : r.isStructured = false := hboth ▸ hlu
      refine ⟨⟨_, hl.vector hlu⟩, fun ρ j hj => ?_⟩
      have hxs := unitStride_unstructured hlu hx
      have hys := unitStride_unstructured hru hy
      rw [mergedTerm_different hx hy hstride, mergedTerm_different hy hx (Ne.symm hstride),
        term_unstructured hlu, term_unstructured hru, ← hoffset, eval_addOFRs hsum, hxs, hys]
      ring
  · -- both strides are one
    dsimp only at h1 h2 hal har
    subst h1 h2
    rw [if_pos rfl] at hm
    obtain ⟨p, hp, hm⟩ := returns_bind hm
    obtain ⟨sum, hsum, hm⟩ := returns_bind hm
    rw [returns_pure] at hm
    subst hm
    obtain ⟨shape, hprod, hpl, hpr⟩ := returns_expandToUnstructured hal.values har.values hal.vector
      (fun hs => har.vector (hrl hs)) hp
    have hvector : IsVector n sum _ := ⟨shape, hprod, returns_addOFRs_tensor hpl hpr hsum⟩
    refine ⟨⟨_, hvector⟩, fun ρ j hj => ?_⟩
    rw [hvector.values.2 ρ j hj, mergedTerm_different hx hy hne,
      mergedTerm_different hy hx (Ne.symm hne)]
    show _ * 1 = _
    ring

end Merge

section States

variable {n : ℕ} {l r d other : Dim} {L R s : PtrState}

theorem structured_of_constZero {o : OFR} (h : hasConstZero o = true) : isNotStructured o = false := by
  cases o with
  | attr k => rfl
  | value v =>
    rw [hasConstZero, decide_eq_true_eq] at h
    unfold scalarConstant at h
    split at h
    · rfl
    · cases h

theorem mergedTerm_unshared (h : sharesStride d other = false) (ρ : Env) (j : ℕ) :
    mergedTerm ρ d other j = d.term ρ j := by
  rw [mergedTerm, if_neg (by simp [h])]

theorem unshared_of_unstructured (h : d.isStructured = false) : sharesStride d other = false := by
  simp [sharesStride, h]

theorem mergedTerm_zero (hstride : hasConstZero d.stride = true)
    (hoffset : hasConstZero d.offset = true) (ρ : Env) (j : ℕ) : mergedTerm ρ d other j = 0 := by
  have hs : d.isStructured = true := by
    rw [Dim.isStructured, structured_of_constZero hoffset]
    rfl
  rw [mergedTerm_unshared (by simp [sharesStride, hstride]), term_structured hs,
    hasConstZero_eval hstride, hasConstZero_eval hoffset]
  ring

theorem addDim_gather {q : OFR × OFR} (hl : GatherDim n l) (hr : GatherDim n r)
    (hone : l.isStructured = false ∨ r.isStructured = false)
    (h : Returns (addDim true L R l r) q) :
    (∃ f, IsVector n q.1 f) ∧ ∀ ρ j, j < n →
      elementAt ρ q.1 j * q.2.eval ρ = mergedTerm ρ l r j + mergedTerm ρ r l j := by
  have hboth : (l.isStructured && r.isStructured) = false := by
    rcases hone with hu | hu <;> simp [hu]
  rw [addDim, if_neg (by simp [hboth]), if_pos rfl] at h
  obtain ⟨lhsModulo, -, h⟩ := returns_bind h
  obtain ⟨rhsModulo, -, h⟩ := returns_bind h
  obtain ⟨-, h⟩ := returns_assert_bind h
  split_ifs at h with hlz hrz
  · rw [returns_pure] at h
    subst h
    rw [Bool.and_eq_true] at hlz
    have hru : r.isStructured = false := by
      have hls : l.isStructured = true := by
        rw [Dim.isStructured, structured_of_constZero hlz.2]
        rfl
      simpa [hls] using hone
    refine ⟨⟨_, hr.vector hru⟩, fun ρ j hj => ?_⟩
    rw [mergedTerm_zero hlz.1 hlz.2, mergedTerm_unshared (unshared_of_unstructured hru),
      term_unstructured hru]
    ring
  · rw [returns_pure] at h
    subst h
    rw [Bool.and_eq_true] at hrz
    have hlu : l.isStructured = false := by
      have hrs : r.isStructured = true := by
        rw [Dim.isStructured, structured_of_constZero hrz.2]
        rfl
      simpa [hrs] using hone
    refine ⟨⟨_, hl.vector hlu⟩, fun ρ j hj => ?_⟩
    rw [mergedTerm_zero hrz.1 hrz.2, mergedTerm_unshared (unshared_of_unstructured hlu),
      term_unstructured hlu]
    ring
  · exact returns_mergeUnstructured hl hr hone h

/-- The side loses nothing: its stride is not the one of the unstructured side,
or `offset * stride` is `offset + stride * j` anyway. -/
def Keeps (ρ : Env) (n : ℕ) (d other : Dim) : Prop :=
  sharesStride d other = true → n = 0 ∨
    (n = 1 ∧ d.offset.eval ρ * d.stride.eval ρ = d.offset.eval ρ) ∨
    (d.offset.eval ρ = 0 ∧ d.stride.eval ρ = 0)

theorem mergedTerm_iff (ρ : Env) (n : ℕ) (d other : Dim) :
    (∀ j, j < n → mergedTerm ρ d other j = d.term ρ j) ↔ Keeps ρ n d other := by
  unfold Keeps
  by_cases hshares : sharesStride d other = true
  · have hs : d.isStructured = true := by
      simp only [sharesStride, Bool.and_eq_true] at hshares
      exact hshares.1.1.1
    have hmerged : ∀ j : ℕ, mergedTerm ρ d other j = d.term ρ j ↔
        d.offset.eval ρ * d.stride.eval ρ = d.offset.eval ρ + d.stride.eval ρ * j := fun j => by
      rw [mergedTerm, if_pos hshares, term_structured hs]
    simp only [hmerged, hshares, forall_const]
    constructor
    · intro hall
      rcases n with _ | _ | n
      · exact .inl rfl
      · have hzero := hall 0 (by omega)
        exact .inr (.inl ⟨rfl, by simpa using hzero⟩)
      · -- the first two elements force the stride to zero
        have hzero := hall 0 (by omega)
        have hone := hall 1 (by omega)
        have hstride : d.stride.eval ρ = 0 := by
          push_cast at hzero hone
          linarith
        rw [hstride] at hzero
        exact .inr (.inr ⟨by simpa using hzero.symm, hstride⟩)
    · rintro (rfl | ⟨rfl, hone⟩ | ⟨hoffset, hstride⟩) j hj
      · omega
      · have hj0 : j = 0 := by omega
        simp [hj0, hone]
      · simp [hoffset, hstride]
  · constructor
    · intro _ hs
      exact absurd hs hshares
    · intro _ j _
      exact mergedTerm_unshared (by simpa using hshares) ρ j

theorem merged_sum_iff (ρ : Env) (n : ℕ) (l r : Dim) :
    (∀ j, j < n → mergedTerm ρ l r j + mergedTerm ρ r l j = l.term ρ j + r.term ρ j) ↔
      Keeps ρ n l r ∧ Keeps ρ n r l := by
  rw [← mergedTerm_iff, ← mergedTerm_iff]
  constructor
  · intro hall
    -- one of the sides is not shared, so the other must be right
    cases hl : sharesStride l r with
    | false =>
      have hleft := mergedTerm_unshared hl ρ
      refine ⟨fun j _ => hleft j, fun j hj => ?_⟩
      have := hall j hj
      rw [hleft j] at this
      linarith
    | true =>
      have hr : sharesStride r l = false := by
        simp only [sharesStride, Bool.and_eq_true] at hl
        simp [sharesStride, hl.1.1.1]
      have hright := mergedTerm_unshared hr ρ
      refine ⟨fun j hj => ?_, fun j _ => hright j⟩
      have := hall j hj
      rw [hright j] at this
      linarith
  · rintro ⟨hl, hr⟩ j hj
    rw [hl j hj, hr j hj]

/-- A state without modulo that may be unstructured in dimension `g` only. -/
structure GatherState (n g : ℕ) (s : PtrState) : Prop where
  no_modulo : s.anyModulo = false
  structured : ∀ (k : ℕ) (d : Dim), s.dims[k]? = some d → k ≠ g → d.isStructured = true
  gather : ∀ d, s.dims[g]? = some d → GatherDim n d

/-- The dimension of the sum: offsets and strides add where both sides are
structured, otherwise `offset[j] * stride` is the sum of the sides. -/
def DenotesSum (ρ : Env) (n : ℕ) (l r d : Dim) : Prop :=
  if l.isStructured && r.isStructured then
    d.offset.eval ρ = l.offset.eval ρ + r.offset.eval ρ ∧
      d.stride.eval ρ = l.stride.eval ρ + r.stride.eval ρ
  else
    d.isStructured = false ∧ ∀ j, j < n →
      elementAt ρ d.offset j * d.stride.eval ρ = l.term ρ j + r.term ρ j

theorem addShapes_length {scalar : Option Value} {i : ℕ} {ls rs : List Dim} {shapes : List OFR}
    (hlen : ls.length = rs.length) (hl : ∀ d ∈ ls, d.hasModulo = false)
    (h : Returns (addShapes scalar i (ls.zip rs)) shapes) : shapes.length = ls.length := by
  induction ls generalizing i rs shapes with
  | nil =>
    rw [zip_nil_left, addShapes, returns_pure] at h
    rw [h]
    rfl
  | cons d ls ih =>
    cases rs with
    | nil => simp at hlen
    | cons e rs =>
      have hd := hl d mem_cons_self
      have hrest : ∀ i t, Returns (addShapes scalar i (ls.zip rs)) t → t.length = ls.length :=
        fun i t => ih (by simpa using hlen) fun x hx => hl x (mem_cons_of_mem _ hx)
      rw [zip_cons_cons, addShapes] at h
      split_ifs at h with hu hk
      · obtain ⟨t, ht, h⟩ := returns_bind h
        rw [returns_pure] at h
        subst h
        rw [length_cons, length_cons, hrest _ t ht]
      · obtain ⟨t, ht, h⟩ := returns_bind h
        rw [returns_pure] at h
        subst h
        rw [length_cons, length_cons, hrest _ t ht]
      · simp [hd] at hk

theorem added_dim {mode : Bool} {steps : List (OFR × OFR)} {shapes : List OFR}
    (h : Added mode L R s steps shapes) (hno : L.anyModulo = false) (hnoR : R.anyModulo = false) :
    s.rank = L.rank ∧ ∀ (k : ℕ) (l r d : Dim), L.dims[k]? = some l → R.dims[k]? = some r →
      s.dims[k]? = some d → ∃ q, Returns (addDim mode L R l r) q ∧ d.offset = q.1 ∧
        d.stride = q.2 := by
  have hlen : L.dims.length = R.dims.length := h.rank
  have hshapes := addShapes_length hlen (no_modulo_of_state hno) (h.modulo.left hnoR)
  have hsteps : steps.length = L.dims.length := by
    rw [← h.steps.length_eq, length_zip, hlen, min_self]
  constructor
  · rw [PtrState.rank, h.dims, length_zipWith, length_zip, length_map, hshapes,
      hsteps]
    simp [PtrState.rank]
  · intro k l r d hl hr hd
    rw [h.dims, List.getElem?_zipWith_eq_some] at hd
    obtain ⟨q, t, hq, -, rfl⟩ := hd
    refine ⟨q, ?_, rfl, rfl⟩
    have hp : (L.dims.zip R.dims)[k]? = some (l, r) := List.getElem?_zip_eq_some.mpr ⟨hl, hr⟩
    obtain ⟨hk, hpk⟩ := List.getElem?_eq_some_iff.mp hp
    obtain ⟨hk', hqk⟩ := List.getElem?_eq_some_iff.mp hq
    have hstep := h.steps.get hk hk'
    rw [get_eq_getElem, get_eq_getElem, hpk, hqk] at hstep
    exact hstep

end States

def row4 (offset : OFR) (stride : ℤ) : PtrState :=
  ⟨[⟨offset, .attr 4, .attr stride, .attr 0⟩], [], none, none⟩

def offsets4 : Value := .unknown 0 ⟨some [4], .int 32⟩

def shifted4 (c : ℤ) : OFR :=
  .value (.binary 103 .addi offsets4
    (.splat 102 (.cast 101 .indexCast (.constant 100 Ty.index c) (.int 32)) [4]))

theorem gatherState_row4 (offset : OFR) (stride : ℤ) (h : HasElements 4 offset) :
    GatherState 4 0 (row4 offset stride) := by
  constructor
  · rfl
  · intro k d hd hk
    obtain ⟨hlt, -⟩ := List.getElem?_eq_some_iff.mp hd
    simp [row4] at hlt
    omega
  · rintro d ⟨⟩
    exact ⟨rfl, trivial, h⟩

end TritonCpu.AnalysisStructured
