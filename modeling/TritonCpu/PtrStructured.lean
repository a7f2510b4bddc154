import TritonCpu.PtrDenotation

/-!
# Structured expressions

By induction on the expression, the state `visitOperand` returns has the
constant term and the strides `affine` reads off the tree. The state denotes
the value exactly when nothing of them is kept that a broadcast drops.
-/

set_option autoImplicit false

namespace TritonCpu.AnalysisStructured
open Builder TritonIR OpFoldResult List

/-- The offset expressions: ranges, splats, integer constants, expanded and
broadcast dimensions, sums, products, extensions, and base pointers with
offsets. -/
inductive Expr : Value → Prop
  | scalar (v : Value) (h : v.ty.shape = none) (helt : v.ty.elt ≠ .ptr) : Expr v
  | blockArg (id : ℕ) : Expr (.blockArg id ⟨none, .ptr⟩)
  | pointerOp (id : ℕ) : Expr (.pointerOp id ⟨none, .ptr⟩)
  | makeRange (id start count : ℕ) : Expr (.makeRange id start count)
  | constant (id width : ℕ) (shape : List ℕ) (value : ℤ) :
      Expr (.constant id ⟨some shape, .int width⟩ value)
  | splat (id : ℕ) (src : Value) (shape : List ℕ) (h : Expr src) : Expr (.splat id src shape)
  | expandDims (id : ℕ) (src : Value) (axis : ℕ) (h : Expr src) : Expr (.expandDims id src axis)
  | broadcast (id : ℕ) (src : Value) (shape : List ℕ) (h : Expr src) :
      Expr (.broadcast id src shape)
  | addi (id : ℕ) (lhs rhs : Value) (hl : Expr lhs) (hr : Expr rhs) :
      Expr (.binary id .addi lhs rhs)
  | muli (id : ℕ) (lhs rhs : Value) (hl : Expr lhs) (hr : Expr rhs) :
      Expr (.binary id .muli lhs rhs)
  | extSI (id : ℕ) (src : Value) (elt : ElementType) (h : Expr src) :
      Expr (.cast id .extSI src elt)
  | addptr (id : ℕ) (ptr offset : Value) (hp : Expr ptr) (ho : Expr offset) :
      Expr (.addptr id ptr offset)

/-- The state follows the affine reading of the value. -/
structure Follows (a : Env → Affine) (s : PtrState) : Prop where
  plain : ∀ d ∈ s.dims, Plain d
  block : s.order = []
  scalarIndex : ∀ c, s.scalar = some c → c.ty = Ty.index
  scalar : ∀ ρ, s.scalar.map (fun c => c.eval ρ []) = (a ρ).scalar
  strides : ∀ ρ, s.strides ρ = (a ρ).strides
  base : ∀ ρ, s.base ρ = (a ρ).start - (a ρ).lostStart

/-- The value follows its affine reading. -/
structure Reads (v : Value) (a : Env → Affine) : Prop where
  lost : ∀ ρ, (a ρ).lost.length = v.shape.length
  strides : ∀ ρ, (a ρ).strides.length = v.shape.length
  value : ∀ ρ idx, InBounds v.shape idx →
    v.eval ρ idx = (a ρ).start + dot (a ρ).strides idx - dot (a ρ).lost idx
  uniform : ∀ ρ c, (a ρ).scalar = some c → v.ty.elt ≠ .ptr → ∀ idx, InBounds v.shape idx →
    v.eval ρ idx = c

/-- A reading in which integers of rank zero carry a scalar. -/
structure Regular (v : Value) (a : Env → Affine) : Prop extends Reads v a where
  rank_zero : v.shape = [] → v.ty.elt ≠ .ptr → ∀ ρ, (a ρ).scalar ≠ none

/-- What a visit establishes. -/
structure Tracks (v : Value) (s : PtrState) : Prop where
  sizes : s.dims.map Dim.size = v.shape.map fun n : ℕ => OFR.attr n
  source : v.ty.elt ≠ .ptr → s.source = none
  follows : Follows (fun ρ => affine ρ v) s
  regular : Regular v fun ρ => affine ρ v

theorem plain_anyModulo {s : PtrState} (h : ∀ d ∈ s.dims, Plain d) : s.anyModulo = false := by
  rw [PtrState.anyModulo, any_eq_false]
  exact fun d hd => by simp [(h d hd).no_modulo]

section Sums

theorem addDim_structured {mode : Bool} {L R : PtrState} {l r : Dim} {q : OFR × OFR}
    (hl : Plain l) (hr : Plain r) (h : Returns (addDim mode L R l r) q) :
    Computes (· = Ty.index) q.1 (fun ρ => l.offset.eval ρ + r.offset.eval ρ) ∧
      Computes (· = Ty.index) q.2 (fun ρ => l.stride.eval ρ + r.stride.eval ρ) := by
  rw [addDim, if_pos (by simp [hl.structured, hr.structured])] at h
  obtain ⟨offset, ho, h⟩ := returns_bind h
  obtain ⟨stride, hs, h⟩ := returns_bind h
  rw [returns_pure] at h
  subst h
  constructor
  · exact returns_addOFRs (P := (· = Ty.index)) rfl hl.offset hr.offset ho
  · exact returns_addOFRs (P := (· = Ty.index)) rfl hl.stride hr.stride hs

theorem addShapes_plain {scalar : Option Value} {i : ℕ} {l r : List Dim} {shapes : List OFR}
    (hlen : l.length = r.length) (hl : ∀ d ∈ l, Plain d) (hr : ∀ d ∈ r, Plain d)
    (h : Returns (addShapes scalar i (l.zip r)) shapes) : shapes = l.map fun _ => .attr 0 := by
  induction l generalizing i r shapes with
  | nil =>
    rw [zip_nil_left, addShapes, returns_pure] at h
    exact h
  | cons x xs ih =>
    cases r with
    | nil => simp at hlen
    | cons y ys =>
      have hx := hl x (by simp)
      have hy := hr y (by simp)
      rw [zip_cons_cons, addShapes, if_neg (by simp [hx.structured, hy.structured]),
        if_pos (by simp [hx.no_modulo])] at h
      obtain ⟨rest, hrest, h⟩ := returns_bind h
      rw [returns_pure] at h
      subst h
      rw [ih (by simpa using hlen) (fun d hd => hl d (by simp [hd]))
        (fun d hd => hr d (by simp [hd])) hrest, hx.shape, map_cons]

/-- The dimensions of a sum of plain states. -/
structure SumOf (l r s : List Dim) : Prop where
  plain : ∀ d ∈ s, Plain d
  sizes : s.map Dim.size = l.map Dim.size
  offsets : ∀ ρ, (s.map fun d => d.offset.eval ρ).sum =
    (l.map fun d => d.offset.eval ρ).sum + (r.map fun d => d.offset.eval ρ).sum
  strides : ∀ ρ, s.map (fun d => d.stride.eval ρ) =
    List.zipWith (· + ·) (l.map fun d => d.stride.eval ρ) (r.map fun d => d.stride.eval ρ)

theorem sumOf_steps {mode : Bool} {L R : PtrState} {l r : List Dim} {steps : List (OFR × OFR)}
    (hlen : l.length = r.length) (hl : ∀ d ∈ l, Plain d) (hr : ∀ d ∈ r, Plain d)
    (h : List.Forall₂ (fun p q => Returns (addDim mode L R p.1 p.2) q) (l.zip r) steps) :
    SumOf l r (List.zipWith makeDim steps ((l.map Dim.size).zip (l.map fun _ => .attr 0))) := by
  induction l generalizing r steps with
  | nil =>
    cases h
    cases r with
    | nil => exact ⟨by simp, rfl, fun ρ => rfl, fun ρ => rfl⟩
    | cons y ys => simp at hlen
  | cons x xs ih =>
    cases r with
    | nil => simp at hlen
    | cons y ys =>
      rw [zip_cons_cons] at h
      cases h with
      | @cons _ q _ steps hq h =>
        have hd := addDim_structured (hl x (by simp)) (hr y (by simp)) hq
        have hrest := ih (by simpa using hlen) (fun d hd => hl d (by simp [hd]))
          (fun d hd => hr d (by simp [hd])) h
        refine ⟨fun d hmem => ?_, ?_, fun ρ => ?_, fun ρ => ?_⟩
        · rcases mem_cons.mp hmem with rfl | hmem
          · exact ⟨hd.1.1, hd.2.1, rfl⟩
          · exact hrest.plain d hmem
        · exact congrArg (x.size :: ·) hrest.sizes
        · have hoffsets := hrest.offsets ρ
          have hhead := hd.1.2 ρ
          simp only [map_cons, zip_cons_cons, zipWith_cons_cons, sum_cons,
            makeDim] at *
          rw [hoffsets, hhead]
          ring
        · exact congrArg₂ (· :: ·) (hd.2.2 ρ) (hrest.strides ρ)

theorem scalarValue_of_map {s : PtrState} {ρ : Env} {x : Option ℤ}
    (h : s.scalar.map (fun c => c.eval ρ []) = x) : s.scalarValue ρ = x.getD 0 := by
  rw [← h]
  rfl

theorem added_scalar {L R s : PtrState} {a b : Env → Affine} (ha : Follows a L)
    (hb : Follows b R) (h : AddedScalars L R s.scalar) :
    (∀ c, s.scalar = some c → c.ty = Ty.index) ∧
      ∀ ρ, s.scalar.map (fun c => c.eval ρ []) = ((a ρ).add (b ρ)).scalar := by
  have hrank : ∀ ρ, L.rank = 0 ↔ (a ρ).strides = [] := fun ρ => by
    rw [← ha.strides ρ]
    simp [PtrState.rank, PtrState.strides]
  cases hl : L.scalar with
  | some l =>
    cases hr : R.scalar with
    | some r =>
      obtain ⟨id, hs⟩ := h.both l r hl hr
      refine ⟨fun c hc => ?_, fun ρ => ?_⟩
      · rw [hs] at hc
        cases hc
        exact ha.scalarIndex l hl
      · simp [hs, Affine.add, ← ha.scalar ρ, ← hb.scalar ρ, hl, hr, Value.eval, BinaryOp.eval]
    | none =>
      have hs := h.other (.inr hr)
      rw [hl, hr] at hs
      refine ⟨fun c hc => ?_, fun ρ => ?_⟩
      · rw [hs] at hc
        split_ifs at hc
        cases hc
        exact ha.scalarIndex l hl
      · rw [hs]
        simp only [Affine.add, ← ha.scalar ρ, ← hb.scalar ρ, hl, hr, hrank ρ]
        split_ifs <;> rfl
  | none =>
    have hs := h.other (.inl hl)
    rw [hl] at hs
    refine ⟨fun c hc => ?_, fun ρ => ?_⟩
    · rw [hs] at hc
      split_ifs at hc
      exact hb.scalarIndex c hc
    · rw [hs]
      simp only [Affine.add, ← ha.scalar ρ, ← hb.scalar ρ, hl, hrank ρ]
      cases hr : R.scalar <;> split_ifs <;> rfl

theorem addState_follows {mode : Bool} {L R s : PtrState} {a b : Env → Affine}
    (ha : Follows a L) (hb : Follows b R) (h : Returns (addState L R mode) s) :
    Follows (fun ρ => (a ρ).add (b ρ)) s ∧ s.dims.map Dim.size = L.dims.map Dim.size := by
  obtain ⟨steps, shapes, h⟩ := returns_addState h
  have hshapes := addShapes_plain h.rank ha.plain hb.plain
    (h.modulo.left (plain_anyModulo hb.plain))
  subst hshapes
  have hsum := sumOf_steps h.rank ha.plain hb.plain h.steps
  rw [← h.dims] at hsum
  have hscalar := added_scalar ha hb h.scalars
  have hstrides : ∀ ρ, s.strides ρ = ((a ρ).add (b ρ)).strides := fun ρ => by
    unfold PtrState.strides
    rw [hsum.strides ρ]
    exact congrArg₂ _ (ha.strides ρ) (hb.strides ρ)
  refine ⟨⟨hsum.plain, h.order, hscalar.1, hscalar.2, hstrides, fun ρ => ?_⟩, hsum.sizes⟩
  have hbase : s.base ρ = L.base ρ + R.base ρ := by
    have hlen := congrArg List.length hsum.sizes
    have hrank : L.dims.length = R.dims.length := h.rank
    rw [length_map, length_map] at hlen
    unfold PtrState.base
    rw [added_source h ρ]
    by_cases hnil : L.dims = []
    · have hr : R.dims = [] := length_eq_zero_iff.mp (by rw [← hrank, hnil]; rfl)
      have hs : s.dims = [] := length_eq_zero_iff.mp (by simp [hlen, hnil])
      have hstr : (a ρ).strides = [] := by simp [← ha.strides ρ, PtrState.strides, hnil]
      rw [if_pos hnil, if_pos hr, if_pos hs, scalarValue_of_map (hscalar.2 ρ),
        scalarValue_of_map (ha.scalar ρ), scalarValue_of_map (hb.scalar ρ)]
      simp only [Affine.add, hstr, if_true]
      cases (a ρ).scalar <;> cases (b ρ).scalar <;> simp <;> ring
    · have hr : R.dims ≠ [] := fun e => hnil (length_eq_zero_iff.mp (by simp [hrank, e]))
      have hs : s.dims ≠ [] := fun e => hnil (length_eq_zero_iff.mp (by simp [← hlen, e]))
      rw [if_neg hnil, if_neg hr, if_neg hs]
      have hoff : s.offsetSum ρ = L.offsetSum ρ + R.offsetSum ρ := hsum.offsets ρ
      linarith
  rw [hbase, ha.base ρ, hb.base ρ]
  simp only [Affine.add]
  ring

end Sums

section Products

theorem mulOFRs_zero {o x : OFR} (h : Returns (mulOFRs (.attr 0) o) x) : x = .attr 0 := by
  obtain ⟨l, hl, h⟩ := returns_bind h
  obtain ⟨r, -, h⟩ := returns_bind h
  rw [mulConstant, returns_pure] at hl
  subst hl
  rw [if_pos rfl, returns_pure] at h
  exact h

/-- A plain dimension times an index factor. -/
structure ScaledDim (factor : Value) (d e : Dim) : Prop where
  plain : Plain e
  size : e.size = d.size
  offset : ∀ ρ, e.offset.eval ρ = d.offset.eval ρ * factor.eval ρ []
  stride : ∀ ρ, e.stride.eval ρ = d.stride.eval ρ * factor.eval ρ []

theorem mulDim_plain {mode : Bool} {other : PtrState} {factor : Value} {d e : Dim}
    (hf : factor.ty = Ty.index) (hd : Plain d) (h : Returns (mulDim mode other factor d) e) :
    ScaledDim factor d e := by
  rw [mulDim, if_pos hd.structured] at h
  obtain ⟨offset, ho, h⟩ := returns_bind h
  obtain ⟨stride, hs, h⟩ := returns_bind h
  obtain ⟨shape, hsh, h⟩ := returns_bind h
  rw [returns_pure] at h
  subst h
  rw [hd.shape] at hsh
  have hoffset := @returns_mulOFRs (· = Ty.index) rfl _ (.value factor) _ hd.offset hf ho
  have hstride := @returns_mulOFRs (· = Ty.index) rfl _ (.value factor) _ hd.stride hf hs
  exact ⟨⟨hoffset.1, hstride.1, mulOFRs_zero hsh⟩, rfl, hoffset.2, hstride.2⟩

theorem mulDims_plain {mode : Bool} {other : PtrState} {factor : Value} {l s : List Dim}
    (hf : factor.ty = Ty.index) (hl : ∀ d ∈ l, Plain d)
    (h : List.Forall₂ (fun d e => Returns (mulDim mode other factor d) e) l s) :
    List.Forall₂ (ScaledDim factor) l s := by
  induction h with
  | nil => exact .nil
  | cons hd _ ih =>
    exact .cons (mulDim_plain hf (hl _ (by simp)) hd) (ih fun d hd => hl d (by simp [hd]))

theorem scaled_plain {factor : Value} {l s : List Dim}
    (h : List.Forall₂ (ScaledDim factor) l s) : ∀ d ∈ s, Plain d := by
  induction h with
  | nil => simp
  | cons hd _ ih =>
    intro d hmem
    rcases mem_cons.mp hmem with rfl | hmem
    · exact hd.plain
    · exact ih d hmem

theorem scaled_lists {factor : Value} {l s : List Dim} (h : List.Forall₂ (ScaledDim factor) l s)
    (ρ : Env) : s.map Dim.size = l.map Dim.size ∧
      (s.map fun d => d.offset.eval ρ).sum =
        (l.map fun d => d.offset.eval ρ).sum * factor.eval ρ [] ∧
      s.map (fun d => d.stride.eval ρ) =
        (l.map fun d => d.stride.eval ρ).map (· * factor.eval ρ []) := by
  induction h with
  | nil => simp
  | @cons d e l s hd h ih =>
    obtain ⟨hsize, hoffset, hstride⟩ := ih
    refine ⟨?_, ?_, ?_⟩
    · simp only [map_cons, hd.size, hsize]
    · simp only [map_cons, sum_cons, hd.offset ρ, hoffset]
      ring
    · simp only [map_cons, hd.stride ρ, hstride]

theorem multiplied_scalar {L R s other : PtrState} {a b : Env → Affine} {factor : Value}
    (ha : Follows a L) (hb : Follows b R)
    (hsides : (other = L ∧ R.scalar = some factor) ∨
      (other = R ∧ R.scalar = none ∧ L.scalar = some factor))
    (h : MultipliedScalars L R s.scalar) :
    (∀ c, s.scalar = some c → c.ty = Ty.index) ∧
      ∀ ρ, s.scalar.map (fun c => c.eval ρ []) =
        (other.scalar.map fun c => c.eval ρ []).map (· * factor.eval ρ []) := by
  rcases hsides with ⟨rfl, hr⟩ | ⟨rfl, hr, hl⟩
  · cases hl : other.scalar with
    | none =>
      have hs := h.other (.inl hl)
      simp [hs]
    | some l =>
      obtain ⟨id, hs⟩ := h.both l factor hl hr
      refine ⟨fun c hc => ?_, fun ρ => ?_⟩
      · rw [hs] at hc
        cases hc
        exact ha.scalarIndex l hl
      · simp [hs, Value.eval, BinaryOp.eval]
  · have hs := h.other (.inr hr)
    simp [hs, hr]

theorem mulState_follows {mode : Bool} {L R s : PtrState} {a b : Env → Affine}
    (ha : Follows a L) (hb : Follows b R) (hls : L.source = none) (hrs : R.source = none)
    (hsize : L.dims.map Dim.size = R.dims.map Dim.size) (h : Returns (mulState L R mode) s) :
    Follows (fun ρ => (a ρ).mul (b ρ)) s ∧ s.dims.map Dim.size = L.dims.map Dim.size := by
  obtain ⟨other, factor, h⟩ := returns_mulState h
  have hscalar := multiplied_scalar ha hb h.sides h.scalars
  -- the state that is multiplied, its reading, and the factor
  obtain ⟨o, ho, hos, hfactor, hmul, hosize⟩ : ∃ o, Follows o other ∧ other.source = none ∧
      factor.ty = Ty.index ∧
      (∀ ρ, (a ρ).mul (b ρ) = (o ρ).scale (factor.eval ρ [])) ∧
      other.dims.map Dim.size = L.dims.map Dim.size := by
    rcases h.sides with ⟨rfl, hr⟩ | ⟨rfl, hr, hl⟩
    · refine ⟨a, ha, hls, hb.scalarIndex factor hr, fun ρ => ?_, rfl⟩
      simp [Affine.mul, ← hb.scalar ρ, hr]
    · refine ⟨b, hb, hrs, ha.scalarIndex factor hl, fun ρ => ?_, hsize.symm⟩
      simp [Affine.mul, ← hb.scalar ρ, ← ha.scalar ρ, hr, hl]
  have hdims := mulDims_plain hfactor ho.plain h.dims
  have hlists := scaled_lists hdims
  simp only [hmul]
  refine ⟨⟨scaled_plain hdims, h.order, hscalar.1, fun ρ => ?_, fun ρ => ?_, fun ρ => ?_⟩,
    (hlists ⟨fun _ _ => 0, fun _ _ _ => 0, fun _ _ _ => 0⟩).1.trans hosize⟩
  · rw [hscalar.2 ρ, ho.scalar ρ]
    rfl
  · unfold PtrState.strides
    rw [(hlists ρ).2.2]
    exact congrArg _ (ho.strides ρ)
  · have hbase := ho.base ρ
    have hlen : s.dims = [] ↔ other.dims = [] := by
      have hl := hdims.length_eq
      rw [← length_eq_zero_iff, ← hl, length_eq_zero_iff]
    have hs : s.base ρ = other.base ρ * factor.eval ρ [] := by
      unfold PtrState.base PtrState.sourceValue
      rw [h.source, hos]
      by_cases hnil : s.dims = []
      · rw [if_pos hnil, if_pos (hlen.mp hnil), scalarValue_of_map (hscalar.2 ρ),
          PtrState.scalarValue]
        cases other.scalar <;> simp
      · rw [if_neg hnil, if_neg fun e => hnil (hlen.mpr e), PtrState.offsetSum, (hlists ρ).2.1]
        simp [PtrState.offsetSum]
    rw [hs, hbase]
    simp only [Affine.scale]
    ring

end Products

end TritonCpu.AnalysisStructured
