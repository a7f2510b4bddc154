import Mathlib
import TritonCpu.MaskExact

/-!
# Mask expressions

The remaining operations on masks, the induction over mask expressions, and
the inputs on which the box is wrong.
-/

set_option autoImplicit false

namespace TritonCpu.MaskAnalysis
open Builder TritonIR OpFoldResult AnalysisStructured List

section Operations

variable {ρ : Env} {L R s t : MaskState} {lhs rhs c m src : Value} {fl fr flags : List Bool}

theorem Exact.isMask {v : Value} (h : Exact ρ v flags s) : s.isMask = true := by
  have hne : s.dims ≠ [] := by
    intro hnil
    have hlen : flags.length = 0 := by
      rw [h.flags_length, ← h.rank, hnil]
      rfl
    have hmem := h.marked
    rw [length_eq_zero_iff.mp hlen] at hmem
    cases hmem
  rw [h.mask]
  cases hd : s.dims with
  | nil => exact absurd hd hne
  | cons d ds => rfl

theorem land_ne_zero {x y : ℤ} (hx : x = 0 ∨ x = -1) (hy : y = 0 ∨ y = -1) :
    (Int.land x y ≠ 0 ↔ x ≠ 0 ∧ y ≠ 0) ∧ (Int.land x y = 0 ∨ Int.land x y = -1) := by
  rcases hx with rfl | rfl <;> rcases hy with rfl | rfl <;> decide +kernel

theorem land_comm (x y : ℤ) (hx : x = 0 ∨ x = -1) (hy : y = 0 ∨ y = -1) :
    Int.land x y = Int.land y x := by
  rcases hx with rfl | rfl <;> rcases hy with rfl | rfl <;> decide +kernel

theorem shape_and (id : ℕ) : (Value.binary id .andi lhs rhs).shape = lhs.shape := rfl

theorem returns_minStates (h : Returns (minStates L R) s) :
    L.dims.length = R.dims.length ∧ s = { MaskState.empty with dims := s.dims } ∧
      ∀ ρ, IsMin ρ L.dims R.dims s.dims := by
  unfold minStates at h
  split at h
  · exact absurd h not_returns_fail
  next hrank =>
    obtain ⟨dims, hdims, hs⟩ := returns_bind h
    rw [returns_pure] at hs
    subst hs
    refine ⟨not_not.mp hrank, rfl, fun ρ => ?_⟩
    have hall := returns_mapM hdims
    have hlists : dims.map (OFR.eval ρ) =
        (L.dims.zip R.dims).map fun p => min (p.1.eval ρ) (p.2.eval ρ) := by
      clear hdims h
      generalize L.dims.zip R.dims = pairs at hall
      induction hall with
      | nil => rfl
      | @cons p d ps ds hp _ ih =>
        rw [map_cons, map_cons, ih, eval_minOFRs hp]
    show dims.map (OFR.eval ρ) = List.zipWith min (L.dims.map (OFR.eval ρ)) (R.dims.map (OFR.eval ρ))
    rw [hlists, zipWith_map]
    exact map_uncurry_zip_eq_zipWith (f := fun a b => min (OFR.eval ρ a) (OFR.eval ρ b))

theorem exact_andMasks {id : ℕ} (hty : lhs.ty = rhs.ty) (hl : Exact ρ lhs fl L)
    (hr : Exact ρ rhs fr R) (h : Returns (minStates L R) s) :
    Exact ρ (.binary id .andi lhs rhs) (List.zipWith (fun a b => a || b) fl fr) s := by
  have hshape : rhs.shape = lhs.shape := by rw [Value.shape, Value.shape, hty]
  obtain ⟨hlen, hs, hmin⟩ := returns_minStates h
  have hflags : fl.length = fr.length := by rw [hl.flags_length, hr.flags_length, hshape]
  constructor
  · exact hs
  · rw [isMin_length hlen (hmin ρ), hl.rank, shape_and]
  · rw [length_zipWith, ← hflags, min_self, hl.flags_length, shape_and]
  · obtain ⟨k, hk⟩ := List.getElem?_of_mem hl.marked
    have hlt : k < fr.length := by
      rw [← hflags]
      exact (List.getElem?_eq_some_iff.mp hk).1
    apply mem_of_getElem? (i := k)
    rw [List.getElem?_zipWith, hk, List.getElem?_eq_getElem hlt]
    simp
  · exact anchored_min hlen (by rw [hl.flags_length, hl.rank]) (by rw [hr.flags_length, hr.rank])
      (hmin ρ) hl.anchored hr.anchored
  · intro idx hidx
    exact (land_ne_zero (hl.bit idx hidx) (hr.bit idx (hshape ▸ hidx))).2
  · intro idx hidx
    have hidx' : InBounds rhs.shape idx := hshape ▸ hidx
    rw [inBox_min hlen (hmin ρ), ← hl.box idx hidx, ← hr.box idx hidx']
    exact (land_ne_zero (hl.bit idx hidx) (hr.bit idx hidx')).1

theorem returns_selectDims {c : OFR} {dims : List OFR} (h : Returns (selectDims c dims) s) :
    s = { MaskState.empty with dims := s.dims } ∧ ∀ ρ, s.dims.map (OFR.eval ρ) =
      dims.map fun d => if c.eval ρ ≠ 0 then d.eval ρ else 0 := by
  obtain ⟨dims', hdims, hs⟩ := returns_bind h
  rw [returns_pure] at hs
  subst hs
  refine ⟨rfl, fun ρ => ?_⟩
  have hall := returns_mapM hdims
  show dims'.map (OFR.eval ρ) = _
  clear hdims h
  induction hall with
  | nil => rfl
  | cons hd _ ih =>
    rw [map_cons, map_cons, ih, eval_compareOFRs (fun _ _ _ _ => rfl) hd ρ]
    show (if decide (c.eval ρ ≠ 0) = true then _ else (0 : ℤ)) :: _ = _
    simp only [decide_eq_true_eq]

theorem exact_select {k : OFR} {v : Value} (hm : Exact ρ m flags t) (hshape : v.shape = m.shape)
    (hc : Bit ρ c) (hcshape : c.shape = m.shape)
    (hk : ∀ idx, InBounds c.shape idx → c.eval ρ idx = k.eval ρ)
    (heval : ∀ idx, InBounds m.shape idx →
      v.eval ρ idx = Int.land (c.eval ρ idx) (m.eval ρ idx))
    (h : Returns (selectDims k t.dims) s) : Exact ρ v flags s := by
  obtain ⟨hs, hdims⟩ := returns_selectDims h
  have hlen : s.dims.length = t.dims.length := by
    have := congrArg List.length (hdims ρ)
    simpa using this
  constructor
  · exact hs
  · rw [hlen, hm.rank, hshape]
  · rw [hm.flags_length, hshape]
  · exact hm.marked
  · by_cases hzero : k.eval ρ = 0
    · -- a marked size is 0
      intro hflags
      have hflen := hflags.length_eq
      rw [forall₂_iff_getElem? hflen] at hflags
      obtain ⟨j, hj⟩ := List.getElem?_of_mem hm.marked
      have hlt : j < s.dims.length := by
        rw [hflen]
        exact (List.getElem?_eq_some_iff.mp hj).1
      have hpos := hflags j _ true (List.getElem?_eq_getElem hlt) hj rfl
      have hmem : (s.dims[j]).eval ρ ∈ s.dims.map (OFR.eval ρ) :=
        mem_map_of_mem (getElem_mem hlt)
      rw [hdims ρ] at hmem
      obtain ⟨d, -, hd⟩ := mem_map.mp hmem
      rw [if_neg (not_not.mpr hzero)] at hd
      omega
    · apply anchored_congr _ hm.anchored
      rw [hdims ρ]
      simp [hzero]
  · intro idx hidx
    rw [hshape] at hidx
    rw [heval idx hidx]
    exact (land_ne_zero (hc idx (hcshape ▸ hidx)) (hm.bit idx hidx)).2
  · intro idx hidx
    rw [hshape] at hidx
    have hcidx : InBounds c.shape idx := hcshape ▸ hidx
    rw [heval idx hidx, (land_ne_zero (hc idx hcidx) (hm.bit idx hidx)).1, hk idx hcidx,
      hm.box idx hidx]
    by_cases hzero : k.eval ρ = 0
    · constructor
      · exact fun hboth => absurd hzero hboth.1
      · intro hbox
        obtain ⟨d, hd⟩ := exists_mem_of_ne_nil s.dims (by
          intro hnil
          have hmask := hm.isMask
          rw [hnil] at hlen
          simp [MaskState.isMask, length_eq_zero_iff.mp hlen.symm] at hmask)
        have hpos := inBox_positive hbox d hd
        have hmem : d.eval ρ ∈ s.dims.map (OFR.eval ρ) := mem_map_of_mem hd
        rw [hdims ρ] at hmem
        obtain ⟨e, -, he⟩ := mem_map.mp hmem
        rw [if_neg (not_not.mpr hzero)] at he
        omega
    · have hsame : s.dims.map (OFR.eval ρ) = t.dims.map (OFR.eval ρ) := by
        rw [hdims ρ]
        simp [hzero]
      rw [inBox_congr hsame]
      exact and_iff_right hzero

theorem Described.scalar_of_uniform {v : Value} (hd : Described v s) (h : uniform v = true) :
    ∃ k, s.scalar = some k ∧ ∀ ρ idx, InBounds v.shape idx → v.eval ρ idx = k.eval ρ := by
  cases hd with
  | scalar k hstate hvalue =>
    refine ⟨k, ?_, hvalue⟩
    rw [hstate]
  | range start end' k n hstate hsize hn hvalue hdistance hu =>
    rw [h] at hu
    cases hu

theorem isMask_scalar {k : OFR} (h : s.scalar = some k) : s.isMask = false := by
  simp [MaskState.isMask, h]

theorem Exact.scalar {v : Value} (h : Exact ρ v flags s) : s.scalar = none := by
  rw [h.mask]
  rfl

theorem exact_expandDims {id axis : ℕ} {shape : List ℕ} (hshape : src.ty.shape = some shape)
    (haxis : axis ≤ src.shape.length) (h : Exact ρ src flags t)
    (hs : s = { t with dims := t.dims.insertIdx axis (.attr 1) }) :
    Exact ρ (.expandDims id src axis) (flags.insertIdx axis false) s := by
  have hnew := shape_expandDims id axis hshape
  have hdims : s.dims = t.dims.insertIdx axis (.attr 1) := by rw [hs]
  have haxisDims : axis ≤ t.dims.length := by rwa [h.rank]
  have haxisFlags : axis ≤ flags.length := by rwa [h.flags_length]
  constructor
  · rw [hs, h.mask]
  · rw [hdims, hnew, length_insertIdx_of_le_length haxisDims,
      length_insertIdx_of_le_length haxis, h.rank]
  · rw [hnew, length_insertIdx_of_le_length haxisFlags,
      length_insertIdx_of_le_length haxis, h.flags_length]
  · rw [mem_insertIdx haxisFlags]
    exact Or.inr h.marked
  · rw [hdims]
    exact anchored_insertIdx haxisDims h.anchored
  · intro idx hidx
    rw [hnew] at hidx
    exact h.bit _ (inBounds_eraseIdx axis _ _ haxis hidx)
  · intro idx hidx
    rw [hnew] at hidx
    rw [hdims, inBox_insertIdx ρ haxisDims haxis hidx]
    exact h.box _ (inBounds_eraseIdx axis _ _ haxis hidx)

theorem exact_broadcast {id : ℕ} {shape : List ℕ} {dims : List OFR}
    (hone : List.Forall₂ (fun d e => d = e ∨ d = 1) src.shape shape)
    (hkept : Kept src.shape shape flags) (h : Exact ρ src flags t)
    (hdims : Returns (broadcastDims src.shape shape t.dims) dims) (hs : s = { t with dims }) :
    Exact ρ (.broadcast id src shape) flags s := by
  have hlen := hone.length_eq
  have hwide := returns_broadcastDims hlen h.rank hdims
  have hnew : (Value.broadcast id src shape).shape = shape := rfl
  have hsdims : s.dims = dims := by rw [hs]
  have hanchored := hwide.anchored hkept h.anchored
  constructor
  · rw [hs, h.mask]
  · rw [hsdims, hwide.length_eq.2, hnew]
  · rw [h.flags_length, hlen, hnew]
  · exact h.marked
  · rw [hsdims]
    exact hanchored
  · intro idx hidx
    exact h.bit _ (inBounds_broadcast _ _ _ hone hidx)
  · intro idx hidx
    have hsrc := inBounds_broadcast _ _ _ hone hidx
    show src.eval ρ (broadcastIndex src.shape idx) ≠ 0 ↔ _
    rw [h.box _ hsrc, hsdims]
    constructor
    · exact hwide.inBox hone hidx
    · intro hbox
      -- an empty source would be empty in a dimension that is kept
      have hmarked : List.Forall₂ (fun d b => b = true → 0 < OFR.eval ρ d) dims flags := by
        have hpos := inBox_positive hbox
        have hflen : dims.length = flags.length := by
          rw [hwide.length_eq.2, h.flags_length, hlen]
        rw [forall₂_iff_getElem? hflen]
        exact fun k d b hd _ _ => hpos d (mem_of_getElem? hd)
      exact hwide.inBox_source hone (h.anchored (hwide.flagged hkept hmarked)) hbox

end Operations

section Parse

variable {ρ : Env} {iterArg : ℕ → ℕ → Build MaskState} {v : Value} {flags : List Bool}
  {s : MaskState}

theorem tensor_of_ty {ty : Ty} (h : ty.shape.isSome) : Ty.isInteger ty = false := by
  obtain ⟨shape, hshape⟩ := Option.isSome_iff_exists.mp h
  simp [Ty.isInteger, hshape]

theorem returns_parseAnd {L R : Build MaskState} (h : Returns (parseAnd L R) s) :
    ∃ l r, Returns L l ∧ Returns R r ∧
      Returns (if !l.isMask || !r.isMask then minStateScalar l r else minStates l r) s := by
  obtain ⟨l, hl, h⟩ := returns_bind h
  obtain ⟨r, hr, h⟩ := returns_bind h
  exact ⟨l, r, hl, hr, h⟩

theorem parseWith_exact (hmask : MaskExpr ρ v flags) (hver : v.Verified)
    (htensor : v.ty.shape.isSome) (h : Returns (parseWith iterArg v) s) : Exact ρ v flags s := by
  induction hmask generalizing s with
  | compareRange id pred lhs rhs hl hr hrange hcompared =>
    obtain ⟨hlv, hrv, hty⟩ := hver
    rw [parseWith, parseTensor_tensor (tensor_of_ty htensor)] at h
    exact exact_compareRange hty hrange hcompared (fun _ => parseWith_described hl hlv)
      (fun _ => parseWith_described hr hrv) h
  | compareScalars id pred lhs rhs hl hr hscalar hsized hliteral =>
    obtain ⟨hlv, hrv, hty⟩ := hver
    rw [parseWith, parseTensor_tensor (tensor_of_ty htensor)] at h
    exact exact_compareScalars hty hscalar hsized hliteral (fun _ => parseWith_described hl hlv)
      (fun _ => parseWith_described hr hrv) h
  | andMasks id lhs rhs fl fr hl hr ihl ihr =>
    obtain ⟨hlv, hrv, hty, -⟩ := hver
    rw [parseWith, parseTensor_tensor (tensor_of_ty htensor)] at h
    obtain ⟨L, R, hL, hR, h⟩ := returns_parseAnd h
    have hel := ihl hlv htensor hL
    have her := ihr hrv (hty ▸ htensor) hR
    rw [hel.isMask, her.isMask] at h
    exact exact_andMasks hty hel her h
  | andScalarMask id c m flags hc hscalar hbit hm ih =>
    obtain ⟨hcv, hmv, hty, -⟩ := hver
    have hshape : c.shape = m.shape := by rw [Value.shape, Value.shape, hty]
    rw [parseWith, parseTensor_tensor (tensor_of_ty htensor)] at h
    obtain ⟨C, M, hC, hM, h⟩ := returns_parseAnd h
    obtain ⟨k, hk, hvalue⟩ := (parseWith_described hc hcv hC).scalar_of_uniform hscalar
    have hem := ih hmv (hty ▸ htensor) hM
    rw [isMask_scalar hk] at h
    have h : Returns (minStateScalar C M) s := h
    rw [minStateScalar, hk, hem.scalar] at h
    exact exact_select hem hshape hbit hshape (hvalue ρ) (fun idx _ => rfl) h
  | andMaskScalar id c m flags hc hscalar hbit hm ih =>
    obtain ⟨hmv, hcv, hty, -⟩ := hver
    have hshape : c.shape = m.shape := by rw [Value.shape, Value.shape, hty]
    rw [parseWith, parseTensor_tensor (tensor_of_ty htensor)] at h
    obtain ⟨M, C, hM, hC, h⟩ := returns_parseAnd h
    obtain ⟨k, hk, hvalue⟩ := (parseWith_described hc hcv hC).scalar_of_uniform hscalar
    have hem := ih hmv htensor hM
    rw [isMask_scalar hk, Bool.not_false, Bool.or_true] at h
    have h : Returns (minStateScalar M C) s := h
    rw [minStateScalar, hk, hem.scalar] at h
    exact exact_select hem rfl hbit hshape (hvalue ρ)
      (fun idx hidx => land_comm _ _ (hem.bit idx hidx) (hbit idx (hshape ▸ hidx))) h
  | expandDims id src axis flags hsrc ih =>
    obtain ⟨hsv, shape, hshape, haxis⟩ := hver
    rw [parseWith, parseTensor_tensor (tensor_of_ty htensor)] at h
    obtain ⟨t, ht, -, hs⟩ := returns_parseExpandDims h
    exact exact_expandDims hshape (by rwa [shape_of_ty hshape])
      (ih hsv (by rw [hshape]; rfl) ht) hs
  | broadcast id src shape flags hsrc hkept ih =>
    obtain ⟨hsv, srcShape, hshape, hone⟩ := hver
    rw [parseWith, parseTensor_tensor (tensor_of_ty htensor)] at h
    obtain ⟨t, dims, ht, -, hdims, hs⟩ := returns_parseBroadcast h
    exact exact_broadcast (by rwa [shape_of_ty hshape]) hkept
      (ih hsv (by rw [hshape]; rfl) ht) hdims hs

/-- A mask that is one condition is not looked at: it must be true. -/
structure TrueScalar (ρ : Env) (v : Value) : Prop where
  expr : IntExpr v
  scalar : uniform v = true
  dims : sized v = true ∨ ∃ id ty value, v = .constant id ty value
  value : ∀ idx, InBounds v.shape idx → v.eval ρ idx ≠ 0

/-- The indices accessed under the sizes of a mask; without sizes all are. -/
def Accessed (ρ : Env) (dims : List OFR) (idx : List ℕ) : Prop := dims = [] ∨ InBox ρ dims idx

end Parse

section Examples

def noLoops : LoopNest := plainContext.loops

def scalar (id : ℕ) : Value := .blockArg id ⟨none, .int 32⟩

def constant (value : ℤ) : Value := .constant 0 ⟨none, .int 32⟩ value

def condition (id : ℕ) : Value := .blockArg id ⟨none, .int 1⟩

def range (start count : ℕ) : Value := .makeRange 0 start count

/-- `rows < M`, where the rows start at an offset. -/
def rowMask : Value :=
  .cmpi 4 .slt (.binary 2 .addi (.splat 1 (scalar 0) [4]) (range 0 4)) (.splat 3 (scalar 1) [4])

def columnMask : Value := .cmpi 5 .slt (range 0 8) (.splat 6 (scalar 2) [8])

/-- `(rows[:, None] < M) & (cols[None, :] < N)`. -/
def tileMask : Value :=
  .binary 11 .andi (.broadcast 8 (.expandDims 7 rowMask 1) [4, 8])
    (.broadcast 10 (.expandDims 9 columnMask 0) [4, 8])

theorem compared_slt (ρ : Env) (lhs rhs : Value) : Compared ρ .slt lhs rhs := by
  intro idx _
  constructor
  · intro h
    cases h
  · intro h
    cases h

theorem tileMask_expr (ρ : Env) : ∃ flags, MaskExpr ρ tileMask flags := by
  have hrow : MaskExpr ρ rowMask [true] :=
    .compareRange 4 .slt _ _ (.addi 2 _ _ (.splat 1 _ _) (.makeRange 0 0 4 (by decide)))
      (.splat 3 _ _) rfl (compared_slt ρ _ _)
  have hcolumn : MaskExpr ρ columnMask [true] :=
    .compareRange 5 .slt _ _ (.makeRange 0 0 8 (by decide)) (.splat 6 _ _) rfl (compared_slt ρ _ _)
  have hrows := MaskExpr.broadcast 8 _ [4, 8] _ (.expandDims 7 rowMask 1 _ hrow) (by
    intro k m n hk hm hn
    rcases k with _ | _ | k
    · simp_all [Value.shape, Value.ty, rowMask, range, scalar]
    · simp at hk
    · simp at hk)
  have hcolumns := MaskExpr.broadcast 10 _ [4, 8] _ (.expandDims 9 columnMask 0 _ hcolumn) (by
    intro k m n hk hm hn
    rcases k with _ | _ | k
    · simp at hk
    · simp_all [Value.shape, Value.ty, columnMask, range]
    · simp at hk)
  exact ⟨_, .andMasks 11 _ _ _ _ hrows hcolumns⟩

def Inexact (v : Value) (idx : List ℕ) : Prop :=
  v.Verified ∧ v.ty.elt = .int 1 ∧ InBounds v.shape idx ∧
    ∃ s, Returns (parse noLoops (fun _ => false) v) s ∧
      ¬ (v.eval emptyEnv idx ≠ 0 ↔ Accessed emptyEnv s.dims idx)

def splatOf (value : ℤ) (shape : List ℕ) : Value := .splat 1 (constant value) shape

end Examples

end TritonCpu.MaskAnalysis
