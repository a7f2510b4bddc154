import TritonCpu.MaskBox

/-!
# Masks decode exactly

An integer expression is a scalar or a range along one dimension, and a mask
made from such expressions is the box of its sizes. What a mask must not be
made from is left out of `IntExpr` and `MaskExpr`: ranges of one element,
comparisons whose unsigned or lower bound the analysis does not check, and
comparisons of two scalars that are broadcast afterwards.
-/

set_option autoImplicit false

namespace TritonCpu.MaskAnalysis
open Builder TritonIR OpFoldResult AnalysisStructured

/-- Integer scalars, ranges, splats, constants and their sums, in any shape. -/
inductive IntExpr : Value → Prop
  | scalar (v : Value) (h : Ty.isInteger v.ty = true) : IntExpr v
  | constant (id : ℕ) (ty : Ty) (value : ℤ) : IntExpr (.constant id ty value)
  | makeRange (id start count : ℕ) (h : count ≠ 1) : IntExpr (.makeRange id start count)
  | splat (id : ℕ) (src : Value) (shape : List ℕ) : IntExpr (.splat id src shape)
  | addi (id : ℕ) (lhs rhs : Value) (hl : IntExpr lhs) (hr : IntExpr rhs) :
      IntExpr (.binary id .addi lhs rhs)
  | expandDims (id : ℕ) (src : Value) (axis : ℕ) (h : IntExpr src) :
      IntExpr (.expandDims id src axis)
  | broadcast (id : ℕ) (src : Value) (shape : List ℕ) (h : IntExpr src) :
      IntExpr (.broadcast id src shape)
  | extSI (id : ℕ) (src : Value) (elt : ElementType) (h : IntExpr src) :
      IntExpr (.cast id .extSI src elt)

/-- The expressions `parse` describes by a scalar. -/
def uniform : Value → Bool
  | .constant _ _ _ | .splat _ _ _ => true
  | .expandDims _ src _ | .broadcast _ src _ => uniform src
  | .cast _ _ src elt => Ty.isInteger ⟨src.ty.shape, elt⟩ || uniform src
  | v => Ty.isInteger v.ty

def sized : Value → Bool
  | .constant _ _ _ => false
  | .expandDims _ src _ | .broadcast _ src _ | .cast _ _ src _ => sized src
  | _ => true

def literal : Value → Bool
  | .constant _ _ _ => true
  | .splat _ src _ | .expandDims _ src _ | .broadcast _ src _ | .cast _ _ src _ => literal src
  | _ => false

/-- What a state says of an integer expression. -/
inductive Described (v : Value) (s : MaskState) : Prop
  | scalar (c : OFR) (state : s = { MaskState.empty with dims := s.dims, scalar := some c })
      (value : ∀ ρ idx, InBounds v.shape idx → v.eval ρ idx = c.eval ρ)
      (dims : sized v = true → s.dims = ofShape v.shape)
      (folded : ∀ k, c = .attr k → literal v = true) (h : uniform v = true)
  | range (start end' : OFR) (k n : ℕ)
      (state : s = ⟨some start, some end', ofShape v.shape, none⟩)
      (size : v.shape[k]? = some n) (hn : n ≠ 1)
      (value : ∀ ρ idx (i : ℕ), InBounds v.shape idx → idx[k]? = some i →
        v.eval ρ idx = start.eval ρ + i)
      (distance : ∀ ρ, end'.eval ρ = start.eval ρ + n) (h : uniform v = false)

theorem not_returns_fail {remark : String} {s : MaskState} : ¬ Returns (fail remark) s :=
  not_returns_stop _ _

theorem shape_scalar {v : Value} (h : Ty.isInteger v.ty = true) : v.shape = [] := by
  unfold Ty.isInteger at h
  rw [Bool.and_eq_true, Option.isNone_iff_eq_none] at h
  rw [Value.shape, h.1]
  rfl

theorem uniform_scalar {v : Value} (hver : v.Verified) (h : Ty.isInteger v.ty = true) :
    uniform v = true := by
  cases v with
  | expandDims id src axis =>
    obtain ⟨-, shape, hshape, -⟩ := hver
    simp [Ty.isInteger, Value.ty, hshape] at h
  | broadcast id src shape => simp [Ty.isInteger, Value.ty] at h
  | cast id op src elt =>
    rw [uniform, Bool.or_eq_true]
    exact Or.inl h
  | constant id ty value => rfl
  | splat id src shape => rfl
  | _ => exact h

section Int

variable {iterArg : ℕ → ℕ → Build MaskState} {v src lhs rhs : Value} {s : MaskState}

theorem parseTensor_tensor {p : Build MaskState} (h : Ty.isInteger v.ty = false) :
    parseTensor v p = p := by
  rw [parseTensor, h]
  rfl

theorem returns_parseIntScalar (h : Returns (parseIntScalar v) s) :
    ∃ c, s = { MaskState.empty with scalar := some (.value c) } ∧ ∀ ρ, c.eval ρ [] = v.eval ρ [] := by
  obtain ⟨c, hc, h⟩ := returns_bind h
  obtain ⟨id, rfl⟩ := returns_create hc
  rw [returns_pure] at h
  exact ⟨_, h, fun ρ => rfl⟩

theorem returns_parseConstant {ty : Ty} {value : ℤ} (h : Returns (parseConstant ty value) s) :
    s = { MaskState.empty with scalar := some (.attr value) } := by
  unfold parseConstant at h
  split at h
  · obtain ⟨-, -, h⟩ := returns_bind h
    obtain ⟨-, -, h⟩ := returns_bind h
    rwa [returns_pure] at h
  · obtain ⟨-, -, h⟩ := returns_bind h
    rwa [returns_pure] at h

theorem parseWith_scalar (hv : Ty.isInteger v.ty = true) (h : Returns (parseWith iterArg v) s) :
    ∃ c, s = { MaskState.empty with scalar := some c } ∧ (∀ ρ, c.eval ρ = v.eval ρ []) ∧
      ∀ k, c = .attr k → literal v = true := by
  have hcast : ∀ p, Returns (parseTensor v p) s →
      ∃ c, s = { MaskState.empty with scalar := some c } ∧ (∀ ρ, c.eval ρ = v.eval ρ []) ∧
        ∀ k, c = .attr k → literal v = true := by
    intro p hp
    rw [parseTensor, hv] at hp
    obtain ⟨c, hs, hc⟩ := returns_parseIntScalar hp
    exact ⟨.value c, hs, hc, fun k hk => by cases hk⟩
  cases v with
  | constant id ty value =>
    rw [parseWith] at h
    exact ⟨.attr value, returns_parseConstant h, fun ρ => rfl, fun _ _ => rfl⟩
  | makeRange id start count => simp [Ty.isInteger, Value.ty] at hv
  | binary id op l r => cases op <;> exact hcast _ h
  | cast id op src elt => cases op <;> exact hcast _ h
  | _ => exact hcast _ h

theorem described_scalar (hver : v.Verified) (hv : Ty.isInteger v.ty = true)
    (h : Returns (parseWith iterArg v) s) : Described v s := by
  obtain ⟨c, rfl, hc, hfolded⟩ := parseWith_scalar hv h
  refine .scalar c rfl (fun ρ idx hidx => ?_) (fun _ => ?_) hfolded (uniform_scalar hver hv)
  · rw [shape_scalar hv] at hidx
    cases hidx
    exact (hc ρ).symm
  · rw [shape_scalar hv]
    rfl

theorem described_constant {id : ℕ} {ty : Ty} {value : ℤ}
    (h : Returns (parseConstant ty value) s) : Described (.constant id ty value) s := by
  rw [returns_parseConstant h]
  refine .scalar (.attr value) rfl (fun ρ idx _ => rfl) (fun hs => ?_) (fun _ _ => rfl) rfl
  cases hs

theorem described_makeRange {id start count : ℕ} (hcount : count ≠ 1)
    (h : Returns (parseMakeRange start count) s) : Described (.makeRange id start count) s := by
  rw [parseMakeRange, returns_pure] at h
  subst h
  refine .range (.attr start) (.attr (start + count)) 0 count rfl rfl hcount
    (fun ρ idx i _ hi => ?_) (fun ρ => rfl) rfl
  cases idx with
  | nil => cases hi
  | cons j is =>
    cases hi
    rfl

theorem described_splat {id : ℕ} {shape : List ℕ}
    (h : Returns (parseSplat src shape (parseWith iterArg src)) s) :
    Described (.splat id src shape) s := by
  unfold parseSplat at h
  split at h
  · exact absurd h not_returns_fail
  next hsrc =>
    rw [Bool.not_eq_true, Bool.not_eq_false'] at hsrc
    obtain ⟨t, ht, h⟩ := returns_bind h
    obtain ⟨c, rfl, hc, hfolded⟩ := parseWith_scalar hsrc ht
    rw [returns_pure] at h
    subst h
    exact .scalar c rfl (fun ρ idx _ => (hc ρ).symm) (fun _ => rfl) hfolded rfl

theorem returns_addStateScalar {start end' c : OFR} {dims : List OFR}
    (h : Returns (addStateScalar ⟨some start, some end', dims, none⟩ c) s) :
    ∃ x y, s = ⟨some x, some y, dims, none⟩ ∧ (∀ ρ, x.eval ρ = start.eval ρ + c.eval ρ) ∧
      ∀ ρ, y.eval ρ = end'.eval ρ + c.eval ρ := by
  unfold addStateScalar deref at h
  obtain ⟨x, hx, h⟩ := returns_bind (returns_pure_bind.mp h)
  obtain ⟨y, hy, h⟩ := returns_bind (returns_pure_bind.mp h)
  rw [returns_pure] at h
  exact ⟨x, y, h, eval_addOFRs hx, eval_addOFRs hy⟩

theorem described_sum {id : ℕ} {t : MaskState} {c : OFR} {w x : Value}
    (hw : (∀ ρ idx, InBounds lhs.shape idx → x.eval ρ idx = c.eval ρ))
    (heval : ∀ ρ idx, (Value.binary id .addi lhs rhs).eval ρ idx = w.eval ρ idx + x.eval ρ idx)
    (hshape : w.shape = lhs.shape) (hty : Ty.isInteger lhs.ty = false) (hd : Described w t)
    (hrange : t.scalar = none) (h : Returns (addStateScalar t c) s) :
    Described (.binary id .addi lhs rhs) s := by
  cases hd with
  | scalar d hstate =>
    rw [hstate] at hrange
    cases hrange
  | range start end' k n hstate hsize hn hvalue hdistance =>
    rw [hstate] at h
    obtain ⟨x, y, hs, hx, hy⟩ := returns_addStateScalar h
    have hshape' : (Value.binary id .addi lhs rhs).shape = w.shape := hshape.symm
    refine .range x y k n ?_ ?_ hn (fun ρ idx i hidx hi => ?_) (fun ρ => ?_) hty
    · rw [hs, hshape']
    · rw [hshape']
      exact hsize
    · rw [hshape'] at hidx
      rw [heval, hvalue ρ idx i hidx hi, hw ρ idx (hshape ▸ hidx), hx ρ]
      ring
    · rw [hx ρ, hy ρ, hdistance ρ]
      ring

theorem described_add {id : ℕ} {L R : MaskState} (hty : lhs.ty = rhs.ty)
    (htensor : Ty.isInteger lhs.ty = false) (hl : Described lhs L) (hr : Described rhs R)
    (h : Returns (addStates L R) s) : Described (.binary id .addi lhs rhs) s := by
  have hshape : rhs.shape = lhs.shape := by rw [Value.shape, Value.shape, hty]
  unfold addStates at h
  split at h
  · exact absurd h not_returns_fail
  · exact absurd h not_returns_fail
  next c hc hnone =>
    cases hl with
    | scalar d hstate hvalue =>
      rw [hstate] at hc
      cases hc
      refine described_sum (x := lhs) hvalue (fun ρ idx => ?_) hshape htensor hr hnone h
      exact add_comm _ _
    | range start end' k n hstate =>
      rw [hstate] at hc
      cases hc
  next c hnone hc =>
    cases hr with
    | scalar d hstate hvalue =>
      rw [hstate] at hc
      cases hc
      rw [hshape] at hvalue
      exact described_sum (x := rhs) hvalue (fun ρ idx => rfl) rfl htensor hl hnone h
    | range start end' k n hstate =>
      rw [hstate] at hc
      cases hc

theorem ofShape_insertIdx (shape : List ℕ) (axis : ℕ) :
    ofShape (shape.insertIdx axis 1) = (ofShape shape).insertIdx axis (.attr 1) :=
  List.map_insertIdx _ _ _ _

theorem shape_expandDims (id axis : ℕ) {shape : List ℕ} (h : src.ty.shape = some shape) :
    (Value.expandDims id src axis).shape = src.shape.insertIdx axis 1 := by
  simp [Value.shape, Value.ty, h]

theorem described_expandDims {id axis : ℕ} {shape : List ℕ} {t : MaskState}
    (hshape : src.ty.shape = some shape) (haxis : axis ≤ src.shape.length)
    (hd : Described src t)
    (hs : s = { t with dims := t.dims.insertIdx axis (.attr 1) }) :
    Described (.expandDims id src axis) s := by
  have hnew := shape_expandDims id axis hshape
  have heval : ∀ ρ idx, (Value.expandDims id src axis).eval ρ idx =
      src.eval ρ (idx.eraseIdx axis) := fun ρ idx => rfl
  cases hd with
  | scalar c hstate hvalue hdims hfolded hu =>
    refine .scalar c ?_ (fun ρ idx hidx => ?_) (fun hz => ?_) hfolded hu
    · rw [hs, hstate]
    · rw [hnew] at hidx
      rw [heval, hvalue ρ _ (inBounds_eraseIdx axis _ _ haxis hidx)]
    · rw [hs, hnew, ofShape_insertIdx, hdims hz]
  | range start end' k n hstate hsize hn hvalue hdistance hu =>
    refine .range start end' (if k < axis then k else k + 1) n ?_ ?_ hn
      (fun ρ idx i hidx hi => ?_) hdistance hu
    · rw [hs, hnew, ofShape_insertIdx, hstate]
    · have herase : (src.shape.insertIdx axis 1).eraseIdx axis = src.shape :=
        List.eraseIdx_insertIdx_self 1
      rw [hnew]
      rw [← herase, List.getElem?_eraseIdx] at hsize
      split_ifs at hsize ⊢ with hk
      · exact hsize
      · exact hsize
    · rw [hnew] at hidx
      rw [heval]
      apply hvalue ρ _ i (inBounds_eraseIdx axis _ _ haxis hidx)
      rw [List.getElem?_eraseIdx]
      split_ifs at hi ⊢ with hk
      · exact hi
      · exact hi

theorem returns_parseExpandDims {axis : ℕ} {p : Build MaskState}
    (h : Returns (parseExpandDims axis p) s) :
    ∃ t, Returns p t ∧ axis ≤ t.dims.length ∧
      s = { t with dims := t.dims.insertIdx axis (.attr 1) } := by
  obtain ⟨t, ht, h⟩ := returns_bind h
  obtain ⟨u, hu, h⟩ := returns_bind h
  rw [returns_pure] at h
  exact ⟨t, ht, returns_assertThat hu, h⟩

theorem returns_parseBroadcast {shape : List ℕ} {p : Build MaskState}
    (h : Returns (parseBroadcast src shape p) s) :
    ∃ t dims, Returns p t ∧ src.shape.length = shape.length ∧
      Returns (broadcastDims src.shape shape t.dims) dims ∧ s = { t with dims } := by
  obtain ⟨u, hu, h⟩ := returns_bind h
  obtain ⟨u', hu', h⟩ := returns_bind h
  obtain ⟨t, ht, h⟩ := returns_bind h
  obtain ⟨dims, hdims, h⟩ := returns_bind h
  rw [returns_pure] at h
  exact ⟨t, dims, ht, returns_assertThat hu', hdims, h⟩

theorem described_broadcast {id : ℕ} {shape : List ℕ} {t : MaskState} {dims : List OFR}
    (hone : List.Forall₂ (fun d e => d = e ∨ d = 1) src.shape shape) (hd : Described src t)
    (hdims : Returns (broadcastDims src.shape shape t.dims) dims) (hs : s = { t with dims }) :
    Described (.broadcast id src shape) s := by
  have hlen : src.shape.length = shape.length := hone.length_eq
  have hsized : t.dims = ofShape src.shape → dims = ofShape shape := fun ht =>
    (returns_broadcastDims hlen (by rw [ht, ofShape, List.length_map]) hdims).ofShape ht
  have heval : ∀ ρ idx, (Value.broadcast id src shape).eval ρ idx =
      src.eval ρ (broadcastIndex src.shape idx) := fun ρ idx => rfl
  cases hd with
  | scalar c hstate hvalue hsz hfolded hu =>
    refine .scalar c ?_ (fun ρ idx hidx => ?_) (fun hz => ?_) hfolded hu
    · rw [hs, hstate]
    · rw [heval, hvalue ρ _ (inBounds_broadcast _ _ _ hone hidx)]
    · rw [hs]
      exact hsized (hsz hz)
  | range start end' k n hstate hsize hn hvalue hdistance hu =>
    have hone' := (forall₂_iff_getElem? hlen).mp hone
    have hdst : shape[k]? = some n := by
      have hk : k < shape.length := by
        rw [← hlen]
        exact (List.getElem?_eq_some_iff.mp hsize).1
      rcases hone' k n shape[k] hsize (List.getElem?_eq_getElem hk) with heq | heq
      · rw [List.getElem?_eq_getElem hk, heq]
      · exact absurd heq hn
    refine .range start end' k n ?_ hdst hn (fun ρ idx i hidx hi => ?_) hdistance hu
    · rw [hs, hsized (by rw [hstate]), hstate]
      rfl
    · rw [heval]
      apply hvalue ρ _ i (inBounds_broadcast _ _ _ hone hidx)
      rw [broadcastIndex, List.getElem?_zipWith, hsize, hi]
      simp [hn]

theorem parseWith_described (hexpr : IntExpr v) (hver : v.Verified)
    (h : Returns (parseWith iterArg v) s) : Described v s := by
  induction hexpr generalizing s with
  | scalar v hv => exact described_scalar hver hv h
  | constant id ty value =>
    rw [parseWith] at h
    exact described_constant h
  | makeRange id start count hcount =>
    rw [parseWith] at h
    exact described_makeRange hcount h
  | splat id src shape =>
    rw [parseWith, parseTensor_tensor rfl] at h
    exact described_splat h
  | addi id lhs rhs hl hr ihl ihr =>
    obtain ⟨hlv, hrv, hty, helt⟩ := hver
    by_cases hi : Ty.isInteger (Value.binary id .addi lhs rhs).ty = true
    · exact described_scalar ⟨hlv, hrv, hty, helt⟩ hi h
    · rw [Bool.not_eq_true] at hi
      rw [parseWith, parseTensor_tensor hi] at h
      obtain ⟨L, hL, h⟩ := returns_bind h
      obtain ⟨R, hR, h⟩ := returns_bind h
      exact described_add hty hi (ihl hlv hL) (ihr hrv hR) h
  | expandDims id src axis hsrc ih =>
    obtain ⟨hsv, shape, hshape, haxis⟩ := hver
    have hi : Ty.isInteger (Value.expandDims id src axis).ty = false := by
      simp [Ty.isInteger, Value.ty, hshape]
    rw [parseWith, parseTensor_tensor hi] at h
    obtain ⟨t, ht, -, hs⟩ := returns_parseExpandDims h
    exact described_expandDims hshape (by rwa [shape_of_ty hshape]) (ih hsv ht) hs
  | broadcast id src shape hsrc ih =>
    obtain ⟨hsv, srcShape, hshape, hone⟩ := hver
    rw [parseWith, parseTensor_tensor rfl] at h
    obtain ⟨t, dims, ht, -, hdims, hs⟩ := returns_parseBroadcast h
    exact described_broadcast (by rwa [shape_of_ty hshape]) (ih hsv ht) hdims hs
  | extSI id src elt hsrc ih =>
    obtain ⟨hsv, hsrcElt, helt⟩ := hver
    by_cases hi : Ty.isInteger (Value.cast id .extSI src elt).ty = true
    · exact described_scalar ⟨hsv, hsrcElt, helt⟩ hi h
    · rw [Bool.not_eq_true] at hi
      rw [parseWith, parseTensor_tensor hi] at h
      have huniform : uniform (.cast id .extSI src elt) = uniform src := by
        rw [uniform, show Ty.isInteger ⟨src.ty.shape, elt⟩ = false from hi, Bool.false_or]
      cases ih hsv h with
      | scalar c hstate hvalue hdims hfolded hu =>
        exact .scalar c hstate hvalue hdims hfolded (huniform.trans hu)
      | range start end' k n hstate hsize hn hvalue hdistance hu =>
        exact .range start end' k n hstate hsize hn hvalue hdistance (huniform.trans hu)

end Int

end TritonCpu.MaskAnalysis
