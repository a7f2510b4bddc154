import TritonCpu.PtrState

/-!
# What the operations on pointer states do

One inversion lemma for each operation says everything it can return; the
results about sums, products, gathers and scalars are read off these.
-/

set_option autoImplicit false

namespace TritonCpu.AnalysisStructured
open Builder TritonIR OpFoldResult

theorem not_returns_fail {α : Type} {remark : String} {a : α} :
    ¬ Returns (fail remark : Build α) a := not_returns_stop _ _

theorem returns_assert_bind {α : Type} {p : Prop} [Decidable p] {text : String} {f : Unit → Build α}
    {a : α} (h : Returns (assertThat p text >>= f) a) : p ∧ Returns (f ()) a := by
  obtain ⟨u, hu, h⟩ := returns_bind h
  exact ⟨returns_assertThat hu, h⟩

theorem returns_hasModulo {s : PtrState} {b : Bool} (h : Returns s.hasModulo b) :
    b = s.anyModulo ∧ (s.dims = [] ∨ s.isBlockPtr = false) := by
  obtain ⟨hp, h⟩ := returns_assert_bind h
  rw [returns_pure] at h
  exact ⟨h, hp⟩

theorem returns_getNonStructuredDim {s : PtrState} {dim : ℕ}
    (h : Returns s.getNonStructuredDim dim) : s.nonStructuredDims = [dim] := by
  unfold PtrState.getNonStructuredDim at h
  split at h
  · next d hd =>
    rw [returns_pure] at h
    rw [hd, h]
  · exact absurd h (not_returns_stop _ _)

/-- Both scalars are added; in rank zero one of them may be missing. -/
structure AddedScalars (lhs rhs : PtrState) (scalar : Option Value) : Prop where
  both : ∀ l r, lhs.scalar = some l → rhs.scalar = some r →
    ∃ id, scalar = some (.binary id .addi l r)
  other : lhs.scalar = none ∨ rhs.scalar = none →
    scalar = if lhs.rank = 0 then lhs.scalar <|> rhs.scalar else none

theorem returns_addScalars {lhs rhs : PtrState} {scalar : Option Value}
    (h : Returns (addScalars lhs rhs) scalar) : AddedScalars lhs rhs scalar := by
  unfold addScalars at h
  split at h
  · next l r hl hr =>
    obtain ⟨v, hv, rfl⟩ := returns_map h
    obtain ⟨id, rfl⟩ := returns_create hv
    refine ⟨fun l' r' hl' hr' => ?_, fun hnone => ?_⟩
    · rw [hl] at hl'
      rw [hr] at hr'
      cases hl'
      cases hr'
      exact ⟨id, rfl⟩
    · simp [hl, hr] at hnone
  · next hnot =>
    rw [returns_pure] at h
    refine ⟨fun l r hl hr => absurd hr (hnot l r hl), fun _ => h⟩

theorem returns_checkGatherDim {lhs rhs : PtrState} {u : Unit}
    (h : Returns (checkGatherDim lhs rhs) u) (hl : lhs.isStructured = false)
    (hr : rhs.isStructured = false) :
    ∃ dim, lhs.nonStructuredDims = [dim] ∧ rhs.nonStructuredDims = [dim] := by
  rw [checkGatherDim, if_pos (by simp [hl, hr])] at h
  obtain ⟨lhsDim, hlhs, h⟩ := returns_bind h
  obtain ⟨rhsDim, hrhs, h⟩ := returns_bind h
  split_ifs at h with heq
  · subst heq
    exact ⟨lhsDim, returns_getNonStructuredDim hlhs, returns_getNonStructuredDim hrhs⟩
  · exact absurd h not_returns_fail

/-- At most one side has a modulo, in at most two dimensions. -/
structure AddedModulo (lhs rhs : PtrState) (shapes : List OFR) : Prop where
  one_modulo : lhs.anyModulo = false ∨ rhs.anyModulo = false
  low_rank : lhs.anyModulo = true ∨ rhs.anyModulo = true → lhs.rank ≤ 2
  left : rhs.anyModulo = false → Returns (addShapes rhs.scalar 0 (lhs.dims.zip rhs.dims)) shapes
  right : rhs.anyModulo = true → Returns (addShapes lhs.scalar 0 (rhs.dims.zip lhs.dims)) shapes

theorem returns_addModulo {lhs rhs : PtrState} {shapes : List OFR}
    (h : Returns (addModulo lhs rhs) shapes) : AddedModulo lhs rhs shapes := by
  obtain ⟨lhsModulo, hlm, h⟩ := returns_bind h
  obtain ⟨rhsModulo, hrm, h⟩ := returns_bind h
  obtain ⟨rfl, -⟩ := returns_hasModulo hlm
  obtain ⟨rfl, -⟩ := returns_hasModulo hrm
  split_ifs at h with hboth hr
  · exact absurd h not_returns_fail
  · obtain ⟨hlow, h⟩ := returns_assert_bind h
    refine ⟨.inl ?_, fun hm => hlow (by simpa using hm), fun hnot => ?_, fun _ => h⟩
    · simpa [hr] using hboth
    · simp [hr] at hnot
  · obtain ⟨hlow, h⟩ := returns_assert_bind h
    exact ⟨.inr (by simpa using hr), fun hm => hlow (by simpa using hm), fun _ => h,
      fun hyes => absurd hyes hr⟩

/-- Everything a successful sum went through. -/
structure Added (mode : Bool) (lhs rhs s : PtrState) (offsetStrides : List (OFR × OFR))
    (shapes : List OFR) : Prop where
  rank : lhs.rank = rhs.rank
  one_source : lhs.source = none ∨ rhs.source = none
  scalars : AddedScalars lhs rhs s.scalar
  gather : lhs.isStructured = false → rhs.isStructured = false →
    ∃ dim, lhs.nonStructuredDims = [dim] ∧ rhs.nonStructuredDims = [dim]
  steps : List.Forall₂ (fun p q => Returns (addDim mode lhs rhs p.1 p.2) q)
    (lhs.dims.zip rhs.dims) offsetStrides
  modulo : AddedModulo lhs rhs shapes
  dims : s.dims = List.zipWith makeDim offsetStrides ((lhs.dims.map Dim.size).zip shapes)
  order : s.order = []
  source : s.source = (lhs.source <|> rhs.source)

theorem returns_addState {mode : Bool} {lhs rhs s : PtrState}
    (h : Returns (addState lhs rhs mode) s) :
    ∃ offsetStrides shapes, Added mode lhs rhs s offsetStrides shapes := by
  obtain ⟨hrank, h⟩ := returns_assert_bind h
  split_ifs at h with hsource
  · exact absurd h not_returns_fail
  obtain ⟨scalar, hscalar, h⟩ := returns_bind h
  obtain ⟨u, hgather, h⟩ := returns_bind h
  obtain ⟨offsetStrides, hdims, h⟩ := returns_bind h
  obtain ⟨shapes, hmodulo, h⟩ := returns_bind h
  rw [returns_pure] at h
  subst h
  refine ⟨offsetStrides, shapes, hrank, ?_, returns_addScalars hscalar,
    returns_checkGatherDim hgather, returns_mapM hdims, returns_addModulo hmodulo, rfl, rfl, rfl⟩
  rw [Bool.and_eq_true, not_and_or] at hsource
  simpa using hsource

/-- A product of two scalars is a scalar. -/
structure MultipliedScalars (lhs rhs : PtrState) (scalar : Option Value) : Prop where
  both : ∀ l r, lhs.scalar = some l → rhs.scalar = some r →
    ∃ id, scalar = some (.binary id .muli l r)
  other : lhs.scalar = none ∨ rhs.scalar = none → scalar = none

theorem returns_mulScalars {lhs rhs : PtrState} {scalar : Option Value}
    (h : Returns (mulScalars lhs rhs) scalar) : MultipliedScalars lhs rhs scalar := by
  unfold mulScalars at h
  split at h
  · next l r hl hr =>
    obtain ⟨v, hv, rfl⟩ := returns_map h
    obtain ⟨id, rfl⟩ := returns_create hv
    refine ⟨fun l' r' hl' hr' => ?_, fun hnone => ?_⟩
    · rw [hl] at hl'
      rw [hr] at hr'
      cases hl'
      cases hr'
      exact ⟨id, rfl⟩
    · simp [hl, hr] at hnone
  · next hnot =>
    rw [returns_pure] at h
    exact ⟨fun l r hl hr => absurd hr (hnot l r hl), fun _ => h⟩

/-- Everything a successful product went through: `factor` is the scalar of the
state that is replaced by it, `other` the state that is multiplied. -/
structure Multiplied (mode : Bool) (lhs rhs s other : PtrState) (factor : Value) : Prop where
  rank : lhs.rank = rhs.rank
  sides : (other = lhs ∧ rhs.scalar = some factor) ∨
    (other = rhs ∧ rhs.scalar = none ∧ lhs.scalar = some factor)
  scalars : MultipliedScalars lhs rhs s.scalar
  dims : List.Forall₂ (fun d e => Returns (mulDim mode other factor d) e) other.dims s.dims
  order : s.order = []
  source : s.source = none

theorem returns_mulState {mode : Bool} {lhs rhs s : PtrState}
    (h : Returns (mulState lhs rhs mode) s) :
    ∃ other factor, Multiplied mode lhs rhs s other factor := by
  obtain ⟨hrank, h⟩ := returns_assert_bind h
  split_ifs at h with hsource hswap
  · exact absurd h not_returns_fail
  · dsimp only at h
    split at h
    · exact absurd h not_returns_fail
    next factor hfactor =>
    obtain ⟨scalar, hscalar, h⟩ := returns_bind h
    obtain ⟨dims, hdims, h⟩ := returns_bind h
    obtain ⟨modulo, hmodulo, h⟩ := returns_bind h
    split_ifs at h
    · exact absurd h not_returns_fail
    rw [returns_pure] at h
    subst h
    have hnone : rhs.scalar = none := by simp_all
    exact ⟨rhs, factor, hrank, .inr ⟨rfl, hnone, hfactor⟩, returns_mulScalars hscalar,
      returns_mapM hdims, rfl, rfl⟩
  · dsimp only at h
    split at h
    · exact absurd h not_returns_fail
    next factor hfactor =>
    obtain ⟨scalar, hscalar, h⟩ := returns_bind h
    obtain ⟨dims, hdims, h⟩ := returns_bind h
    obtain ⟨modulo, hmodulo, h⟩ := returns_bind h
    split_ifs at h
    · exact absurd h not_returns_fail
    rw [returns_pure] at h
    subst h
    exact ⟨lhs, factor, hrank, .inl ⟨rfl, hfactor⟩, returns_mulScalars hscalar,
      returns_mapM hdims, rfl, rfl⟩

end TritonCpu.AnalysisStructured
