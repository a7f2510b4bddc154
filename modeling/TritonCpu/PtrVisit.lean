import TritonCpu.PtrStructured

/-!
# Visiting structured expressions

The readings of the operations with one operand, and the induction over the
expression.
-/

set_option autoImplicit false

namespace TritonCpu.AnalysisStructured
open Builder TritonIR OpFoldResult List

section Readings

variable {v w l r : Value} {a b : Env → Affine}

theorem regular_add (hl : Regular l a) (hr : Regular r b) (hls : l.shape = v.shape)
    (hrs : r.shape = v.shape) (heval : ∀ ρ idx, v.eval ρ idx = l.eval ρ idx + r.eval ρ idx)
    (helt : v.ty.elt ≠ .ptr → l.ty.elt ≠ .ptr ∧ r.ty.elt ≠ .ptr) :
    Regular v fun ρ => (a ρ).add (b ρ) := by
  have hstrides : ∀ ρ, (a ρ).strides.length = (b ρ).strides.length := fun ρ => by
    rw [hl.strides, hr.strides, hls, hrs]
  have hlost : ∀ ρ, (a ρ).lost.length = (b ρ).lost.length := fun ρ => by
    rw [hl.lost, hr.lost, hls, hrs]
  refine ⟨⟨fun ρ => ?_, fun ρ => ?_, fun ρ idx hidx => ?_, fun ρ c hc hptr idx hidx => ?_⟩,
    fun hnil hptr ρ => ?_⟩
  · simp [Affine.add, hl.lost, hr.lost, hls, hrs]
  · simp [Affine.add, hl.strides, hr.strides, hls, hrs]
  · rw [heval, hl.value ρ idx (hls ▸ hidx), hr.value ρ idx (hrs ▸ hidx)]
    simp only [Affine.add, dot_zipWith _ _ _ (hstrides ρ), dot_zipWith _ _ _ (hlost ρ)]
    ring
  · obtain ⟨hlp, hrp⟩ := helt hptr
    have hlu := hl.uniform ρ
    have hru := hr.uniform ρ
    have hzero : (a ρ).strides = [] → v.shape = [] := fun h =>
      length_eq_zero_iff.mp (by rw [← hls, ← hl.strides ρ, h]; rfl)
    have hlz := fun h => hl.rank_zero (hls.trans h) hlp ρ
    have hrz := fun h => hr.rank_zero (hrs.trans h) hrp ρ
    rw [heval]
    simp only [Affine.add] at hc
    cases hx : (a ρ).scalar with
    | none =>
      rw [hx] at hc hlz
      by_cases hs : (a ρ).strides = []
      · exact absurd rfl (hlz (hzero hs))
      · simp [hs] at hc
    | some x =>
      cases hy : (b ρ).scalar with
      | none =>
        rw [hx, hy] at hc
        rw [hy] at hrz
        by_cases hs : (a ρ).strides = []
        · exact absurd rfl (hrz (hzero hs))
        · simp [hs] at hc
      | some y =>
        rw [hx, hy] at hc
        cases hc
        rw [hlu x hx hlp idx (hls ▸ hidx), hru y hy hrp idx (hrs ▸ hidx)]
  · obtain ⟨hlp, hrp⟩ := helt hptr
    have hx := hl.rank_zero (hls.trans hnil) hlp ρ
    have hy := hr.rank_zero (hrs.trans hnil) hrp ρ
    obtain ⟨x, hx⟩ := Option.ne_none_iff_exists'.mp hx
    obtain ⟨y, hy⟩ := Option.ne_none_iff_exists'.mp hy
    simp [Affine.add, hx, hy]

theorem regular_scale (hl : Regular l a) (hr : Regular r b) (hls : l.shape = v.shape)
    (hrs : r.shape = v.shape) (heval : ∀ ρ idx, v.eval ρ idx = l.eval ρ idx * r.eval ρ idx)
    (hlp : l.ty.elt ≠ .ptr) (hrp : r.ty.elt ≠ .ptr) {c : Env → ℤ}
    (hc : ∀ ρ, (b ρ).scalar = some (c ρ)) :
    Regular v fun ρ => (a ρ).scale (c ρ) := by
  refine ⟨⟨fun ρ => ?_, fun ρ => ?_, fun ρ idx hidx => ?_, fun ρ x hx hptr idx hidx => ?_⟩,
    fun hnil hptr ρ => ?_⟩
  · simp [Affine.scale, hl.lost, hls]
  · simp [Affine.scale, hl.strides, hls]
  · rw [heval, hl.value ρ idx (hls ▸ hidx), hr.uniform ρ _ (hc ρ) hrp idx (hrs ▸ hidx)]
    simp only [Affine.scale, dot_scale]
    ring
  · simp only [Affine.scale, Option.map_eq_some_iff] at hx
    obtain ⟨y, hy, rfl⟩ := hx
    rw [heval, hl.uniform ρ y hy hlp idx (hls ▸ hidx),
      hr.uniform ρ _ (hc ρ) hrp idx (hrs ▸ hidx)]
  · have hx := hl.rank_zero (hls.trans hnil) hlp ρ
    simpa [Affine.scale] using hx

theorem regular_expandDims (hl : Regular l a) (id axis : ℕ) (hshape : l.ty.shape.isSome)
    (haxis : axis ≤ l.shape.length) :
    Regular (.expandDims id l axis) fun ρ => (a ρ).expandDims axis := by
  obtain ⟨s, hs⟩ := Option.isSome_iff_exists.mp hshape
  have hls : l.shape = s := shape_of_ty hs
  have hvs : (Value.expandDims id l axis).shape = l.shape.insertIdx axis 1 := by
    simp [Value.shape, Value.ty, hs]
  refine ⟨⟨fun ρ => ?_, fun ρ => ?_, fun ρ idx hidx => ?_, fun ρ x hx hptr idx hidx => ?_⟩,
    fun hnil hptr ρ => ?_⟩
  · simp [Affine.expandDims, hvs, length_insertIdx, hl.lost]
  · simp [Affine.expandDims, hvs, length_insertIdx, hl.strides]
  · rw [hvs] at hidx
    have hidx' := inBounds_eraseIdx axis _ idx haxis hidx
    have hvalue := hl.value ρ _ hidx'
    rw [Value.eval, hvalue]
    simp only [Affine.expandDims]
    rw [dot_insertIdx axis _ idx (by rw [hl.strides]; exact haxis),
      dot_insertIdx axis _ idx (by rw [hl.lost]; exact haxis)]
  · rw [hvs] at hidx
    exact hl.uniform ρ x hx hptr _ (inBounds_eraseIdx axis _ idx haxis hidx)
  · have hlen := congrArg List.length hnil
    rw [hvs, length_insertIdx_of_le_length haxis] at hlen
    simp at hlen

theorem regular_broadcast (hl : Regular l a) (id : ℕ) (shape : List ℕ)
    (hs : List.Forall₂ (fun d e => d = e ∨ d = 1) l.shape shape) :
    Regular (.broadcast id l shape) fun ρ =>
      { a ρ with lost := broadcastLost l.shape shape (a ρ).strides (a ρ).lost } := by
  have hlen : l.shape.length = shape.length := hs.length_eq
  refine ⟨⟨fun ρ => ?_, fun ρ => ?_, fun ρ idx hidx => ?_, fun ρ x hx hptr idx hidx => ?_⟩,
    fun hnil hptr ρ => ?_⟩
  · simp [broadcastLost, hl.lost, hl.strides, Value.shape, Value.ty]
    simp [Value.shape] at hlen
    omega
  · exact (hl.strides ρ).trans hlen
  · have hidx' := inBounds_broadcast _ _ _ hs hidx
    rw [Value.eval, hl.value ρ _ hidx']
    have hdot := dot_broadcast _ _ idx _ _ hs hidx (hl.strides ρ) (hl.lost ρ)
    linarith
  · exact hl.uniform ρ x hx hptr _ (inBounds_broadcast _ _ _ hs hidx)
  · have hnil' : l.shape = [] := by
      have hshape : shape = [] := hnil
      rw [hshape] at hs
      exact forall₂_nil_right_iff.mp hs
    exact hl.rank_zero hnil' hptr ρ

theorem regular_splat (hl : Regular l a) (id : ℕ) (shape : List ℕ) (hs : l.ty.shape = none) :
    Regular (.splat id l shape) fun ρ => (a ρ).splat shape := by
  have hnil : l.shape = [] := by simp [Value.shape, hs]
  have hbounds : InBounds l.shape [] := by rw [hnil]; exact .nil
  refine ⟨⟨fun ρ => ?_, fun ρ => ?_, fun ρ idx hidx => ?_, fun ρ x hx hptr idx hidx => ?_⟩,
    fun _ hptr ρ => ?_⟩
  · simp [Affine.splat, Value.shape, Value.ty]
  · simp [Affine.splat, Value.shape, Value.ty]
  · rw [Value.eval, hl.value ρ [] hbounds]
    simp only [Affine.splat, dot_zeros]
    cases (a ρ).strides <;> cases (a ρ).lost <;> simp [dot]
  · exact hl.uniform ρ x hx hptr [] hbounds
  · exact hl.rank_zero hnil hptr ρ

theorem regular_scalar (hshape : v.ty.shape = none) :
    Regular v fun ρ => Affine.constant (v.eval ρ []) := by
  have hnil : v.shape = [] := by simp [Value.shape, hshape]
  refine ⟨⟨fun ρ => by simp [Affine.constant, hnil], fun ρ => by simp [Affine.constant, hnil],
    fun ρ idx hidx => ?_, fun ρ x hx _ idx hidx => ?_⟩, fun _ _ ρ => by simp [Affine.constant]⟩
  · rw [hnil] at hidx
    cases hidx
    simp [Affine.constant, dot]
  · rw [hnil] at hidx
    cases hidx
    simpa [Affine.constant] using hx

theorem regular_makeRange (id start count : ℕ) :
    Regular (.makeRange id start count) fun _ => ⟨start, [1], [0], 0, none⟩ := by
  constructor
  · constructor
    · intro ρ
      rfl
    · intro ρ
      rfl
    · intro ρ idx hidx
      cases hidx with
      | cons hi hnil =>
        cases hnil
        simp [Value.eval, dot]
    · intro ρ c hc
      cases hc
  · intro hnil
    cases hnil

theorem regular_constant (id : ℕ) (ty : Ty) (value : ℤ) :
    Regular (.constant id ty value) fun _ => (Affine.constant value).splat (ty.shape.getD []) := by
  constructor
  · constructor
    · intro ρ
      simp [Affine.splat, Value.shape, Value.ty]
    · intro ρ
      simp [Affine.splat, Value.shape, Value.ty]
    · intro ρ idx _
      simp [Value.eval, Affine.splat, Affine.constant]
    · intro ρ c hc _ idx _
      simpa [Value.eval, Affine.splat, Affine.constant] using hc
  · intro _ _ ρ
    simp [Affine.splat, Affine.constant]

theorem regular_base (hshape : v.ty = ⟨none, .ptr⟩) :
    Regular v fun ρ => ⟨v.eval ρ [], [], [], 0, none⟩ := by
  have hnil : v.shape = [] := by simp [Value.shape, hshape]
  constructor
  · constructor
    · intro ρ
      simp [hnil]
    · intro ρ
      simp [hnil]
    · intro ρ idx hidx
      rw [hnil] at hidx
      cases hidx
      simp [dot]
    · intro ρ c hc
      cases hc
  · intro _ hptr
    simp [hshape] at hptr

end Readings

section States

variable {s t : PtrState} {a : Env → Affine}

theorem follows_scalar {c : Value} {f : Env → ℤ} (hty : c.ty = Ty.index)
    (hc : ∀ ρ, c.eval ρ [] = f ρ) :
    Follows (fun ρ => Affine.constant (f ρ)) { PtrState.empty with scalar := some c } := by
  constructor
  · simp [PtrState.empty]
  · rfl
  · rintro d ⟨⟩
    exact hty
  · intro ρ
    exact congrArg some (hc ρ)
  · intro ρ
    rfl
  · intro ρ
    simp [PtrState.base, PtrState.empty, PtrState.sourceValue, PtrState.scalarValue,
      Affine.constant, hc ρ]

theorem follows_base (v : Value) :
    Follows (fun ρ => ⟨v.eval ρ [], [], [], 0, none⟩)
      { PtrState.empty with source := some v } := by
  constructor
  · simp [PtrState.empty]
  · rfl
  · intro c hc
    cases hc
  · intro ρ
    rfl
  · intro ρ
    rfl
  · intro ρ
    simp [PtrState.base, PtrState.empty, PtrState.sourceValue, PtrState.scalarValue]

theorem follows_makeRange {start count : ℕ}
    (h : Returns (visitOperandMakeRange start count) s) :
    Follows (fun _ => ⟨start, [1], [0], 0, none⟩) s ∧ s.dims.map Dim.size = [.attr count] ∧
      s.source = none := by
  rw [visitOperandMakeRange, returns_pure] at h
  subst h
  constructor
  · constructor
    · intro d hd
      rw [mem_singleton] at hd
      subst hd
      exact ⟨trivial, trivial, rfl⟩
    · rfl
    · intro c hc
      cases hc
    · intro ρ
      rfl
    · intro ρ
      rfl
    · intro ρ
      simp [PtrState.base, PtrState.sourceValue, PtrState.offsetSum, OFR.eval]
  · exact ⟨rfl, rfl⟩

theorem plain_splatDim (n : ℕ) : Plain (splatDim n) := ⟨trivial, trivial, rfl⟩

@[simp] theorem eval_splatDim (ρ : Env) (n : ℕ) :
    (splatDim n).offset.eval ρ = 0 ∧ (splatDim n).stride.eval ρ = 0 := ⟨rfl, rfl⟩

theorem setFirstOffset_splat {shape : List ℕ} {scalar : Option Value} {dims : List Dim}
    (hscalar : ∀ c, scalar = some c → c.ty = Ty.index)
    (h : Returns (setFirstOffset (shape.map splatDim) scalar) dims) :
    (∀ d ∈ dims, Plain d) ∧ dims.map Dim.size = shape.map (fun n : ℕ => OFR.attr n) ∧
      ∀ ρ, (dims.map fun d => d.offset.eval ρ).sum = (scalar.map fun c => c.eval ρ []).getD 0 ∧
        dims.map (fun d => d.stride.eval ρ) = shape.map fun _ => 0 := by
  have hplain : ∀ d ∈ shape.map splatDim, Plain d := by
    intro d hd
    obtain ⟨n, -, rfl⟩ := mem_map.mp hd
    exact plain_splatDim n
  cases scalar with
  | none =>
    rw [setFirstOffset, returns_pure] at h
    subst h
    refine ⟨hplain, by simp [Function.comp_def, splatDim], fun ρ => ⟨?_, ?_⟩⟩
    · simp [Function.comp_def]
    · simp [Function.comp_def]
  | some c =>
    cases shape with
    | nil => exact absurd h (not_returns_stop _ _)
    | cons n ns =>
      rw [map_cons, setFirstOffset, returns_pure] at h
      subst h
      refine ⟨fun d hd => ?_, by simp [Function.comp_def, splatDim], fun ρ => ⟨?_, ?_⟩⟩
      · rcases mem_cons.mp hd with rfl | hd
        · exact ⟨hscalar c rfl, trivial, rfl⟩
        · exact hplain d (mem_cons_of_mem _ hd)
      · have hrest : ((ns.map splatDim).map fun d => d.offset.eval ρ).sum = 0 := by
          simp [Function.comp_def]
        rw [map_cons, sum_cons, hrest, add_zero]
        rfl
      · simp [Function.comp_def]

theorem returns_rejectModulo {remark : String} (h : Returns (rejectModulo s remark) t) :
    t = s := by
  obtain ⟨modulo, -, h⟩ := returns_bind h
  split_ifs at h with hm
  · exact absurd h not_returns_fail
  · rwa [returns_pure] at h

theorem follows_splat {src : Value} {shape : List ℕ} {visitSrc : Build PtrState}
    (hsrc : ∀ t, Returns visitSrc t → Follows a t ∧ t.dims = [])
    (h : Returns (visitOperandSplat src shape visitSrc) s) :
    Follows (fun ρ => (a ρ).splat shape) s ∧
      s.dims.map Dim.size = shape.map (fun n : ℕ => OFR.attr n) ∧
      ∃ t, Returns visitSrc t ∧ s.source = t.source := by
  obtain ⟨t, ht, h⟩ := returns_bind h
  obtain ⟨ha, hnil⟩ := hsrc t ht
  split_ifs at h with hs
  · exact absurd h not_returns_fail
  obtain ⟨dims, hdims, h⟩ := returns_bind h
  have h := returns_rejectModulo h
  subst h
  rw [hnil, nil_append] at hdims
  obtain ⟨hplain, hsizes, heval⟩ := setFirstOffset_splat ha.scalarIndex hdims
  refine ⟨⟨hplain, ha.block, ha.scalarIndex, ha.scalar, fun ρ => (heval ρ).2, fun ρ => ?_⟩,
    hsizes, t, ht, rfl⟩
  have hbase := ha.base ρ
  rw [PtrState.base, if_pos hnil] at hbase
  unfold PtrState.base PtrState.offsetSum
  show t.sourceValue ρ + (if dims = [] then t.scalarValue ρ else _) = _
  split_ifs with hd
  · exact hbase
  · rw [(heval ρ).1]
    exact hbase

theorem sum_insertIdx_zero (l : List ℤ) (i : ℕ) : (l.insertIdx i 0).sum = l.sum := by
  by_cases hi : i ≤ l.length
  · rw [sum_insertIdx hi (fun a _ => AddCommute.all 0 a), zero_add]
  · rw [insertIdx_of_length_lt (by omega)]

theorem follows_expandDims {axis : ℕ} {visitSrc : Build PtrState}
    (hsrc : ∀ t, Returns visitSrc t → Follows a t ∧ axis ≤ t.dims.length)
    (h : Returns (visitOperandExpandDims axis visitSrc) s) :
    Follows (fun ρ => (a ρ).expandDims axis) s ∧ ∃ t, Returns visitSrc t ∧
      s.dims.map Dim.size = (t.dims.map Dim.size).insertIdx axis (.attr 1) ∧
      s.source = t.source := by
  obtain ⟨t, ht, h⟩ := returns_bind h
  obtain ⟨ha, haxis⟩ := hsrc t ht
  have h := returns_rejectModulo h
  subst h
  have hne : t.dims.insertIdx axis ⟨.attr 0, .attr 1, .attr 0, .attr 0⟩ ≠ [] := fun e => by
    have hlen := congrArg List.length e
    rw [length_insertIdx_of_le_length haxis] at hlen
    simp at hlen
  refine ⟨⟨fun d hd => ?_, ha.block, ha.scalarIndex, ha.scalar, fun ρ => ?_, fun ρ => ?_⟩,
    t, ht, by rw [map_insertIdx], rfl⟩
  · rcases eq_or_mem_of_mem_insertIdx hd with rfl | hd
    · exact ⟨trivial, trivial, rfl⟩
    · exact ha.plain d hd
  · have hstrides := ha.strides ρ
    unfold PtrState.strides at hstrides ⊢
    rw [map_insertIdx, hstrides]
    rfl
  · have hbase := ha.base ρ
    have hscalar := scalarValue_of_map (ha.scalar ρ)
    have hnil : (a ρ).strides = [] ↔ t.dims = [] := by
      rw [← ha.strides ρ, PtrState.strides, map_eq_nil_iff]
    unfold PtrState.base PtrState.offsetSum at hbase ⊢
    rw [if_neg hne, map_insertIdx]
    show t.sourceValue ρ + (List.insertIdx _ axis 0).sum = _
    rw [sum_insertIdx_zero]
    simp only [Affine.expandDims, hnil, ← hscalar]
    split_ifs at hbase ⊢ with hd
    · simp only [hd, map_nil, sum_nil]
      linarith
    · linarith

/-- A broadcast changes sizes only. -/
structure SameButSize (d e : Dim) : Prop where
  offset : e.offset = d.offset
  stride : e.stride = d.stride
  shape : e.shape = d.shape

theorem broadcastDims_spec {src dst : List ℕ} {l dims : List Dim}
    (h : Returns (broadcastDims src dst l) dims) : List.Forall₂ SameButSize l dims ∧
      ((l.map Dim.size = src.map fun n : ℕ => OFR.attr n) →
        dims.map Dim.size = dst.map fun n : ℕ => OFR.attr n) := by
  induction src generalizing dst l dims with
  | nil =>
    cases dst with
    | nil =>
      rw [broadcastDims, returns_pure] at h
      subst h
      exact ⟨forall₂_same.mpr fun d _ => ⟨rfl, rfl, rfl⟩, id⟩
    | cons t dst => exact absurd h (not_returns_stop _ _)
  | cons n src ih =>
    cases l with
    | nil => cases dst <;> exact absurd h (not_returns_stop _ _)
    | cons d l =>
      cases dst with
      | nil => exact absurd h (not_returns_stop _ _)
      | cons t dst =>
        rw [broadcastDims] at h
        split_ifs at h with heq hlt
        · obtain ⟨rest, hrest, h⟩ := returns_bind h
          rw [returns_pure] at h
          subst h
          refine ⟨.cons ⟨rfl, rfl, rfl⟩ (ih hrest).1, fun hsize => ?_⟩
          obtain ⟨hhead, htail⟩ := List.cons.inj hsize
          rw [map_cons, map_cons, (ih hrest).2 htail, hhead, heq]
        · obtain ⟨rest, hrest, h⟩ := returns_bind h
          rw [returns_pure] at h
          subst h
          refine ⟨.cons ⟨rfl, rfl, rfl⟩ (ih hrest).1, fun hsize => ?_⟩
          rw [map_cons, map_cons, (ih hrest).2 (List.cons.inj hsize).2]
        · exact absurd h (not_returns_stop _ _)

theorem lists_of_same {l dims : List Dim} (h : List.Forall₂ SameButSize l dims) :
    ((∀ d ∈ l, Plain d) → ∀ d ∈ dims, Plain d) ∧
      dims.map Dim.offset = l.map Dim.offset ∧ dims.map Dim.stride = l.map Dim.stride := by
  induction h with
  | nil => exact ⟨id, rfl, rfl⟩
  | @cons d e l dims hd _ ih =>
    obtain ⟨hplain, hoffsets, hstrides⟩ := ih
    refine ⟨fun hl c hc => ?_, by simp [hd.offset, hoffsets], by simp [hd.stride, hstrides]⟩
    rcases mem_cons.mp hc with rfl | hc
    · have hplain := hl d mem_cons_self
      exact ⟨hd.offset ▸ hplain.offset, hd.stride ▸ hplain.stride, hd.shape.trans hplain.shape⟩
    · exact hplain (fun b hb => hl b (mem_cons_of_mem _ hb)) c hc

theorem follows_broadcast {src : Value} {shape : List ℕ} {visitSrc : Build PtrState}
    (lost : Env → List ℤ)
    (hsrc : ∀ t, Returns visitSrc t →
      Follows a t ∧ t.dims.map Dim.size = src.shape.map fun n : ℕ => OFR.attr n)
    (h : Returns (visitOperandBroadcast src shape visitSrc) s) :
    Follows (fun ρ => { a ρ with lost := lost ρ }) s ∧
      s.dims.map Dim.size = (shape.map fun n : ℕ => OFR.attr n) ∧
      ∃ t, Returns visitSrc t ∧ s.source = t.source := by
  unfold visitOperandBroadcast at h
  split at h
  · exact absurd h not_returns_fail
  next srcShape hshape =>
  obtain ⟨t, ht, h⟩ := returns_bind h
  obtain ⟨dims, hdims, h⟩ := returns_bind h
  rw [returns_pure] at h
  subst h
  obtain ⟨ha, hsize⟩ := hsrc t ht
  rw [shape_of_ty hshape] at hsize
  have hsame := (broadcastDims_spec hdims).1
  obtain ⟨hplain, hoffsets, hstrides⟩ := lists_of_same hsame
  have hoff : ∀ ρ, dims.map (fun d => d.offset.eval ρ) = t.dims.map fun d => d.offset.eval ρ :=
    fun ρ => by simpa [Function.comp_def] using congrArg (List.map (OFR.eval ρ)) hoffsets
  have hstr : ∀ ρ, dims.map (fun d => d.stride.eval ρ) = t.dims.map fun d => d.stride.eval ρ :=
    fun ρ => by simpa [Function.comp_def] using congrArg (List.map (OFR.eval ρ)) hstrides
  have hnil : dims = [] ↔ t.dims = [] := by
    rw [← length_eq_zero_iff, ← hsame.length_eq, length_eq_zero_iff]
  refine ⟨⟨hplain ha.plain, ha.block, ha.scalarIndex, ha.scalar,
    fun ρ => (hstr ρ).trans (ha.strides ρ), fun ρ => ?_⟩, (broadcastDims_spec hdims).2 hsize, t, ht,
    rfl⟩
  have hbase := ha.base ρ
  unfold PtrState.base PtrState.offsetSum at hbase ⊢
  rw [hoff ρ]
  simp only [hnil]
  exact hbase

theorem follows_constant {ty : Ty} {value : ℤ} (h : Returns (visitOperandConstSplat ty value) s) :
    Follows (fun _ => (Affine.constant value).splat (ty.shape.getD [])) s ∧
      s.dims.map Dim.size = (ty.shape.getD []).map (fun n : ℕ => OFR.attr n) ∧
      s.source = none := by
  unfold visitOperandConstSplat at h
  split at h
  · next size shape width =>
    obtain ⟨c, hc, h⟩ := returns_bind h
    obtain ⟨id, rfl⟩ := returns_create hc
    rw [returns_pure] at h
    subst h
    have hrest : ∀ ρ, ((shape.map splatDim).map fun d => d.offset.eval ρ).sum = 0 := by
      simp [Function.comp_def]
    refine ⟨⟨fun d hd => ?_, rfl, ?_, fun ρ => rfl, fun ρ => ?_, fun ρ => ?_⟩, ?_, rfl⟩
    · rcases mem_cons.mp hd with rfl | hd
      · exact ⟨rfl, trivial, rfl⟩
      · obtain ⟨n, -, rfl⟩ := mem_map.mp hd
        exact plain_splatDim n
    · rintro c ⟨⟩
      rfl
    · simp [PtrState.strides, Affine.splat, Function.comp_def]
    · unfold PtrState.base PtrState.offsetSum
      rw [if_neg (by simp), map_cons, sum_cons, hrest ρ]
      simp [PtrState.sourceValue, Affine.splat, Affine.constant, OFR.eval, Value.eval]
    · simp [Function.comp_def, splatDim]
  · next width =>
    obtain ⟨c, hc, h⟩ := returns_bind h
    obtain ⟨id, rfl⟩ := returns_create hc
    rw [returns_pure] at h
    subst h
    refine ⟨⟨by simp, rfl, ?_, fun ρ => rfl, fun ρ => rfl, fun ρ => ?_⟩, rfl, rfl⟩
    · rintro c ⟨⟩
      rfl
    · simp [PtrState.base, PtrState.sourceValue, PtrState.scalarValue, Affine.splat,
        Affine.constant, Value.eval]
  · exact absurd h (not_returns_stop _ _)

end States

section Visit

variable {ctx : Context} {v : Value} {s : PtrState}

theorem returns_scalarState (hshape : v.ty.shape = none) (helt : v.ty.elt ≠ .ptr)
    (h : Returns (scalarState v) s) : ∃ c, s = { PtrState.empty with scalar := some c } ∧
      c.ty = Ty.index ∧ ∀ ρ, c.eval ρ [] = v.eval ρ [] := by
  unfold scalarState at h
  split at h
  · obtain ⟨c, hc, h⟩ := returns_bind h
    obtain ⟨id, rfl⟩ := returns_create hc
    rw [returns_pure] at h
    refine ⟨_, h, ?_, fun ρ => rfl⟩
    simp [Value.ty, hshape, Ty.index]
  · next hint =>
    rw [returns_pure] at h
    refine ⟨v, h, ?_, fun ρ => rfl⟩
    cases hty : v.ty with
    | mk shape elt =>
      rw [hty] at hshape helt hint
      cases elt with
      | int width => exact absurd rfl (hint width)
      | index => exact congrArg (Ty.mk · _) hshape
      | ptr => exact absurd rfl helt

theorem returns_dispatch {pointer tensor : Build PtrState}
    (h : Returns (dispatch ctx v pointer tensor) s) :
    ctx.knownPtrs v = some s ∨
      (v.ty.shape = none ∧ v.ty.elt ≠ .ptr ∧ Returns (scalarState v) s) ∨
      (v.ty = ⟨none, .ptr⟩ ∧ Returns pointer s) ∨ (v.ty.shape.isSome ∧ Returns tensor s) := by
  unfold dispatch at h
  split at h
  · next known hknown =>
    rw [returns_pure] at h
    subst h
    split_ifs at hknown
    exact .inl hknown
  · right
    split at h
    · next width hty => exact .inl ⟨by rw [hty], by simp [hty], h⟩
    · next hty => exact .inl ⟨by rw [hty], by simp [hty], h⟩
    · next hty => exact .inr (.inl ⟨hty, h⟩)
    · next hint hindex hptr =>
      refine .inr (.inr ⟨?_, h⟩)
      cases hty : v.ty with
      | mk shape elt =>
        cases shape with
        | some shape => rfl
        | none =>
          cases elt with
          | int width => exact absurd hty (hint width)
          | index => exact absurd hty hindex
          | ptr => exact absurd hty hptr

theorem affine_scalar (hshape : v.ty.shape = none) (helt : v.ty.elt ≠ .ptr) (ρ : Env) :
    affine ρ v = Affine.constant (v.eval ρ []) := by
  unfold affine
  rw [if_pos ⟨hshape, helt⟩]

theorem tracks_scalar {c : Value} (hshape : v.ty.shape = none) (helt : v.ty.elt ≠ .ptr)
    (hty : c.ty = Ty.index) (hc : ∀ ρ, c.eval ρ [] = v.eval ρ []) :
    Tracks v { PtrState.empty with scalar := some c } := by
  constructor
  · simp [PtrState.empty, Value.shape, hshape]
  · intro _
    rfl
  · simp only [affine_scalar hshape helt]
    exact follows_scalar hty hc
  · simp only [affine_scalar hshape helt]
    exact regular_scalar hshape

theorem tracks_dispatch {pointer tensor : Build PtrState}
    (hknown : ctx.knownPtrs v = some s → Tracks v s)
    (hpointer : v.ty = ⟨none, .ptr⟩ → Returns pointer s → Tracks v s)
    (htensor : v.ty.shape.isSome → Returns tensor s → Tracks v s)
    (h : Returns (dispatch ctx v pointer tensor) s) : Tracks v s := by
  rcases returns_dispatch h with hk | ⟨hshape, helt, hs⟩ | ⟨hty, hp⟩ | ⟨hty, ht⟩
  · exact hknown hk
  · obtain ⟨c, rfl, hty, hc⟩ := returns_scalarState hshape helt hs
    exact tracks_scalar hshape helt hty hc
  · exact hpointer hty hp
  · exact htensor hty ht

theorem not_returns_unexpectedPointer : ¬ Returns unexpectedPointer s := not_returns_fail

theorem visitOperand_dispatch (ctx : Context) (v : Value) :
    ∃ pointer tensor, visitOperand ctx v = dispatch ctx v pointer tensor := by
  cases v with
  | binary id op lhs rhs => cases op <;> exact ⟨_, _, rfl⟩
  | cast id op src elt => cases op <;> exact ⟨_, _, rfl⟩
  | _ => exact ⟨_, _, rfl⟩

theorem tracks_base {tensor : Build PtrState} (hknown : ctx.knownPtrs v = some s → Tracks v s)
    (hty : v.ty = ⟨none, .ptr⟩) (haffine : ∀ ρ, affine ρ v = ⟨v.eval ρ [], [], [], 0, none⟩)
    (h : Returns (dispatch ctx v (sourceState v) tensor) s) : Tracks v s := by
  refine tracks_dispatch hknown (fun _ hp => ?_) (fun hs _ => ?_) h
  · rw [sourceState, returns_pure] at hp
    subst hp
    constructor
    · simp [PtrState.empty, Value.shape, hty]
    · intro helt
      exact absurd (by rw [hty]) helt
    · simp only [haffine]
      exact follows_base v
    · simp only [haffine]
      exact regular_base hty
  · rw [hty] at hs
    cases hs

theorem tracks_sum {mode : Bool} {l r : Value} {L R : PtrState} (hl : Tracks l L)
    (hr : Tracks r R) (hls : l.shape = v.shape) (hrs : r.shape = v.shape)
    (heval : ∀ ρ idx, v.eval ρ idx = l.eval ρ idx + r.eval ρ idx)
    (helt : v.ty.elt ≠ .ptr → l.ty.elt ≠ .ptr ∧ r.ty.elt ≠ .ptr)
    (haffine : ∀ ρ, affine ρ v = (affine ρ l).add (affine ρ r))
    (h : Returns (addState L R mode) s) : Tracks v s := by
  obtain ⟨hfollows, hsizes⟩ := addState_follows hl.follows hr.follows h
  constructor
  · rw [hsizes, hl.sizes, hls]
  · intro hptr
    obtain ⟨hlp, hrp⟩ := helt hptr
    obtain ⟨steps, shapes, h⟩ := returns_addState h
    rw [h.source, hl.source hlp, hr.source hrp]
    rfl
  · simp only [haffine]
    exact hfollows
  · simp only [haffine]
    exact regular_add hl.regular hr.regular hls hrs heval helt

theorem tracks_product {mode : Bool} {l r : Value} {L R : PtrState} (hl : Tracks l L)
    (hr : Tracks r R) (hls : l.shape = v.shape) (hrs : r.shape = v.shape)
    (heval : ∀ ρ idx, v.eval ρ idx = l.eval ρ idx * r.eval ρ idx)
    (hlp : l.ty.elt ≠ .ptr) (hrp : r.ty.elt ≠ .ptr)
    (haffine : ∀ ρ, affine ρ v = (affine ρ l).mul (affine ρ r))
    (h : Returns (mulState L R mode) s) : Tracks v s := by
  have hsize : L.dims.map Dim.size = R.dims.map Dim.size := by
    rw [hl.sizes, hr.sizes, hls, hrs]
  obtain ⟨hfollows, hsizes⟩ :=
    mulState_follows hl.follows hr.follows (hl.source hlp) (hr.source hrp) hsize h
  obtain ⟨other, factor, h⟩ := returns_mulState h
  constructor
  · rw [hsizes, hl.sizes, hls]
  · intro _
    exact h.source
  · simp only [haffine]
    exact hfollows
  · simp only [haffine]
    rcases h.sides with ⟨-, hfactor⟩ | ⟨-, hnone, hfactor⟩
    · have hscalar : ∀ ρ, (affine ρ r).scalar = some (factor.eval ρ []) := fun ρ => by
        rw [← hr.follows.scalar ρ, hfactor]
        rfl
      have hmul : ∀ ρ, (affine ρ l).mul (affine ρ r) = (affine ρ l).scale (factor.eval ρ []) :=
        fun ρ => by simp [Affine.mul, hscalar ρ]
      simp only [hmul]
      exact regular_scale hl.regular hr.regular hls hrs heval hlp hrp hscalar
    · have hscalar : ∀ ρ, (affine ρ l).scalar = some (factor.eval ρ []) := fun ρ => by
        rw [← hl.follows.scalar ρ, hfactor]
        rfl
      have hnone : ∀ ρ, (affine ρ r).scalar = none := fun ρ => by
        rw [← hr.follows.scalar ρ, hnone]
        rfl
      have hmul : ∀ ρ, (affine ρ l).mul (affine ρ r) = (affine ρ r).scale (factor.eval ρ []) :=
        fun ρ => by simp [Affine.mul, hscalar ρ, hnone ρ]
      simp only [hmul]
      exact regular_scale hr.regular hl.regular hrs hls
        (fun ρ idx => by rw [heval, mul_comm]) hrp hlp hscalar

theorem returns_hasModuloIf {cond b : Bool} {t : PtrState} (h : Returns (hasModuloIf cond t) b) :
    b = (cond && t.anyModulo) := by
  unfold hasModuloIf at h
  split_ifs at h with hc
  · rw [(returns_hasModulo h).1, hc, Bool.true_and]
  · rw [returns_pure] at h
    simpa [hc] using h

theorem returns_clearModulo {lhs rhs : Value} {L R : PtrState} {p : PtrState × PtrState}
    (hl : L.anyModulo = false) (hr : R.anyModulo = false)
    (h : Returns (clearModulo ctx lhs rhs L R) p) : p = (L, R) := by
  obtain ⟨clearRhs, hclear, h⟩ := returns_bind h
  have hclear := returns_hasModuloIf hclear
  rw [hr, Bool.and_false] at hclear
  subst hclear
  rw [if_neg Bool.false_ne_true] at h
  obtain ⟨lhsModulo, hlhs, h⟩ := returns_bind h
  obtain ⟨rfl, -⟩ := returns_hasModulo hlhs
  rw [hl, Bool.false_and, if_neg Bool.false_ne_true, returns_pure] at h
  exact h

theorem returns_visitOperandAdd {lhs rhs : Value} {x y : Build PtrState}
    (hx : ∀ L, Returns x L → L.anyModulo = false) (hy : ∀ R, Returns y R → R.anyModulo = false)
    (h : Returns (visitOperandAdd ctx lhs rhs x y) s) :
    ∃ L R, Returns x L ∧ Returns y R ∧ Returns (addState L R ctx.isAnalysisingUnstructured) s := by
  obtain ⟨L, hL, h⟩ := returns_bind h
  obtain ⟨R, hR, h⟩ := returns_bind h
  obtain ⟨lhsModulo, -, h⟩ := returns_bind h
  obtain ⟨rhsModulo, -, h⟩ := returns_bind h
  split_ifs at h
  · exact absurd h not_returns_fail
  obtain ⟨p, hp, h⟩ := returns_bind h
  have hp := returns_clearModulo (hx L hL) (hy R hR) hp
  subst hp
  exact ⟨L, R, hL, hR, h⟩

theorem returns_visitOperandMul {lhs rhs : Value} {x y : Build PtrState}
    (hx : ∀ L, Returns x L → L.anyModulo = false) (hy : ∀ R, Returns y R → R.anyModulo = false)
    (h : Returns (visitOperandMul ctx lhs rhs x y) s) :
    ∃ L R, Returns x L ∧ Returns y R ∧ Returns (mulState L R ctx.isAnalysisingUnstructured) s := by
  obtain ⟨L, hL, h⟩ := returns_bind h
  obtain ⟨R, hR, h⟩ := returns_bind h
  obtain ⟨p, hp, h⟩ := returns_bind h
  have hp := returns_clearModulo (hx L hL) (hy R hR) hp
  subst hp
  exact ⟨L, R, hL, hR, h⟩

theorem returns_visitOperandAddptr {x y : Build PtrState}
    (h : Returns (visitOperandAddptr ctx x y) s) :
    ∃ L R, Returns x L ∧ Returns y R ∧ Returns (addState L R ctx.isAnalysisingUnstructured) s := by
  obtain ⟨L, hL, h⟩ := returns_bind h
  obtain ⟨R, hR, h⟩ := returns_bind h
  obtain ⟨-, h⟩ := returns_assert_bind h
  exact ⟨L, R, hL, hR, h⟩

theorem Tracks.no_modulo (h : Tracks v s) : s.anyModulo = false :=
  plain_anyModulo h.follows.plain

end Visit

end TritonCpu.AnalysisStructured
