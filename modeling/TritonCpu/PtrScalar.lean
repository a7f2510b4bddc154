import TritonCpu.PtrVisit
import TritonCpu.PtrLoops

/-!
# The scalar of a state

A state with dimensions and a scalar should denote that scalar at every index,
so that a product may replace it by the scalar. Every producer keeps this but
three: the remainder of a scalar gets a modulo, a loop replaces the offsets of
a state without its scalar, and a new dimension of a tensor of rank zero has
the offset zero.
-/

set_option autoImplicit false

namespace TritonCpu.AnalysisStructured
open Builder TritonIR OpFoldResult List

/-- The state denotes `c` at every index. -/
structure ConstantTensor (s : PtrState) (c : Value) : Prop where
  no_modulo : s.anyModulo = false
  strides : ∀ ρ, ∀ d ∈ s.dims, d.stride.eval ρ = 0
  offsets : ∀ ρ, s.offsetSum ρ = c.eval ρ []
  address : ∀ ρ idx, idx.length = s.rank → s.address ρ idx = s.sourceValue ρ + c.eval ρ []

def Coherent (s : PtrState) : Prop := ∀ c, s.scalar = some c → 0 < s.rank → ConstantTensor s c

/-- What is kept of a scalar: an index, and the sum of plain offsets without
strides. -/
structure Uniform (s : PtrState) (c : Value) : Prop where
  index : c.ty = Ty.index
  plain : ∀ d ∈ s.dims, Plain d
  strides : ∀ ρ, ∀ d ∈ s.dims, d.stride.eval ρ = 0
  offsets : s.dims ≠ [] → ∀ ρ, s.offsetSum ρ = c.eval ρ []

def UniformScalar (s : PtrState) : Prop := ∀ c, s.scalar = some c → Uniform s c

theorem dot_eq_zero {a : List ℤ} (h : ∀ x ∈ a, x = 0) (idx : List ℕ) : dot a idx = 0 := by
  induction a generalizing idx with
  | nil => rfl
  | cons x xs ih =>
    cases idx with
    | nil => rfl
    | cons i is =>
      rw [dot, h x mem_cons_self, ih fun y hy => h y (mem_cons_of_mem _ hy)]
      ring

theorem UniformScalar.coherent {s : PtrState} (h : UniformScalar s) : Coherent s := by
  intro c hc hrank
  have hu := h c hc
  have hne : s.dims ≠ [] := fun e => by simp [PtrState.rank, e] at hrank
  constructor
  · exact plain_anyModulo hu.plain
  · exact hu.strides
  · exact hu.offsets hne
  · intro ρ idx hidx
    have hdot : dot (s.strides ρ) idx = 0 := by
      apply dot_eq_zero
      intro x hx
      obtain ⟨d, hd, rfl⟩ := mem_map.mp hx
      exact hu.strides ρ d hd
    rw [address_plain ρ s idx hu.plain hidx.symm, hdot, PtrState.base, if_neg hne,
      hu.offsets hne ρ]
    ring

theorem uniform_of_none {s : PtrState} (h : s.scalar = none) : UniformScalar s := by
  intro c hc
  rw [h] at hc
  cases hc

theorem uniform_of_empty {s : PtrState} (hdims : s.dims = [])
    (h : ∀ c, s.scalar = some c → c.ty = Ty.index) : UniformScalar s := by
  intro c hc
  constructor
  · exact h c hc
  · simp [hdims]
  · simp [hdims]
  · intro hne
    exact absurd hdims hne

section Producers

variable {ctx : Context} {L R s t : PtrState}

theorem uniform_splat {src : Value} {shape : List ℕ} (ht : UniformScalar t) (hnil : t.dims = [])
    (h : Returns (visitOperandSplat src shape (pure t)) s) : UniformScalar s := by
  rw [visitOperandSplat, returns_pure_bind] at h
  split_ifs at h
  · exact absurd h not_returns_fail
  obtain ⟨dims, hdims, h⟩ := returns_bind h
  have h := returns_rejectModulo h
  subst h
  rw [hnil, nil_append] at hdims
  obtain ⟨hplain, -, heval⟩ := setFirstOffset_splat (fun c hc => (ht c hc).index) hdims
  intro c hc
  have hc : t.scalar = some c := hc
  constructor
  · exact (ht c hc).index
  · exact hplain
  · intro ρ d hd
    have hmem : d.stride.eval ρ ∈ dims.map fun e => e.stride.eval ρ := mem_map_of_mem hd
    rw [(heval ρ).2] at hmem
    obtain ⟨n, -, hn⟩ := mem_map.mp hmem
    exact hn.symm
  · intro _ ρ
    show (dims.map fun d => d.offset.eval ρ).sum = _
    rw [(heval ρ).1, hc]
    rfl

theorem uniform_constSplat {ty : Ty} {value : ℤ}
    (h : Returns (visitOperandConstSplat ty value) s) : UniformScalar s := by
  have hfollows := (follows_constant h).1
  intro c hc
  have hstrides : ∀ ρ, s.strides ρ = (ty.shape.getD []).map fun _ => 0 := hfollows.strides
  constructor
  · exact hfollows.scalarIndex c hc
  · exact hfollows.plain
  · intro ρ d hd
    have hmem : d.stride.eval ρ ∈ s.strides ρ := mem_map_of_mem hd
    rw [hstrides ρ] at hmem
    obtain ⟨n, -, hn⟩ := mem_map.mp hmem
    exact hn.symm
  · intro hne ρ
    have hbase := hfollows.base ρ
    have hscalar := hfollows.scalar ρ
    rw [hc] at hscalar
    rw [PtrState.base, if_neg hne, PtrState.sourceValue, (follows_constant h).2.2] at hbase
    simp only [Affine.splat, Affine.constant, Option.map_some, Option.some.injEq, Option.map_none,
      Option.getD_none] at hbase hscalar
    linarith

theorem uniform_expandDims {axis : ℕ} (ht : UniformScalar t)
    (hzero : t.dims = [] → ∀ c, t.scalar = some c → ∀ ρ, c.eval ρ [] = 0)
    (h : Returns (visitOperandExpandDims axis (pure t)) s) : UniformScalar s := by
  rw [visitOperandExpandDims, returns_pure_bind] at h
  have h := returns_rejectModulo h
  subst h
  intro c hc
  have hc : t.scalar = some c := hc
  have hu := ht c hc
  constructor
  · exact hu.index
  · intro d hd
    rcases eq_or_mem_of_mem_insertIdx hd with rfl | hd
    · exact ⟨trivial, trivial, rfl⟩
    · exact hu.plain d hd
  · intro ρ d hd
    rcases eq_or_mem_of_mem_insertIdx hd with rfl | hd
    · rfl
    · exact hu.strides ρ d hd
  · intro _ ρ
    show (List.map _ (t.dims.insertIdx axis _)).sum = _
    rw [map_insertIdx]
    show (List.insertIdx _ axis 0).sum = _
    rw [sum_insertIdx_zero]
    by_cases hnil : t.dims = []
    · rw [hnil, hzero hnil c hc ρ]
      rfl
    · exact hu.offsets hnil ρ

theorem uniform_broadcast {src : Value} {shape : List ℕ} (ht : UniformScalar t)
    (h : Returns (visitOperandBroadcast src shape (pure t)) s) : UniformScalar s := by
  unfold visitOperandBroadcast at h
  split at h
  · exact absurd h not_returns_fail
  rw [returns_pure_bind] at h
  obtain ⟨dims, hdims, h⟩ := returns_bind h
  rw [returns_pure] at h
  subst h
  have hsame := (broadcastDims_spec hdims).1
  obtain ⟨hplain, hoffsets, hstrides⟩ := lists_of_same hsame
  intro c hc
  have hu := ht c hc
  constructor
  · exact hu.index
  · exact hplain hu.plain
  · intro ρ d hd
    have hmem : d.stride ∈ dims.map Dim.stride := mem_map_of_mem hd
    rw [hstrides] at hmem
    obtain ⟨e, he, heq⟩ := mem_map.mp hmem
    rw [← heq]
    exact hu.strides ρ e he
  · intro hne ρ
    have hnil : t.dims ≠ [] := fun e => hne (length_eq_zero_iff.mp (by
      rw [← hsame.length_eq, e]
      rfl))
    rw [← hu.offsets hnil ρ]
    have hlist := congrArg (fun l => (List.map (OFR.eval ρ) l).sum) hoffsets
    simpa [PtrState.offsetSum, Function.comp_def] using hlist

theorem zipWith_add_zero {a b : List ℤ} (ha : ∀ x ∈ a, x = 0) (hb : ∀ x ∈ b, x = 0) :
    ∀ x ∈ List.zipWith (· + ·) a b, x = 0 := by
  induction a generalizing b with
  | nil => simp
  | cons x xs ih =>
    cases b with
    | nil => simp
    | cons y ys =>
      rw [forall_mem_cons] at ha hb
      rw [zipWith_cons_cons, forall_mem_cons]
      constructor
      · rw [ha.1, hb.1, add_zero]
      · exact ih ha.2 hb.2

theorem strides_zero {c : Value} (h : Uniform s c) (ρ : Env) :
    ∀ x ∈ s.dims.map fun d => d.stride.eval ρ, x = 0 := by
  intro x hx
  obtain ⟨d, hd, rfl⟩ := mem_map.mp hx
  exact h.strides ρ d hd

theorem uniform_one {mode : Bool} {steps : List (OFR × OFR)} {shapes : List OFR}
    (hl : UniformScalar L) (hr : UniformScalar R) (h : Added mode L R s steps shapes)
    (hnone : L.scalar = none ∨ R.scalar = none) : UniformScalar s := by
  have hscalar := h.scalars.other hnone
  split_ifs at hscalar with hrank
  · have hnil : L.dims = [] := length_eq_zero_iff.mp hrank
    apply uniform_of_empty
    · rw [h.dims, hnil]
      simp
    · intro c hc
      rw [hscalar] at hc
      cases hls : L.scalar with
      | some l =>
        rw [hls] at hc
        cases hc
        exact (hl c hls).index
      | none =>
        rw [hls] at hc
        exact (hr c hc).index
  · exact uniform_of_none hscalar

theorem uniform_addState {mode : Bool} (hl : UniformScalar L) (hr : UniformScalar R)
    (h : Returns (addState L R mode) s) : UniformScalar s := by
  obtain ⟨steps, shapes, h⟩ := returns_addState h
  have hlen : L.dims.length = R.dims.length := h.rank
  cases hls : L.scalar with
  | some l =>
    cases hrs : R.scalar with
    | some r =>
      -- two scalars: both sides are plain, and so is the sum
      have hlu := hl l hls
      have hru := hr r hrs
      obtain ⟨id, hscalar⟩ := h.scalars.both l r hls hrs
      have hshapes := addShapes_plain h.rank hlu.plain hru.plain
        (h.modulo.left (plain_anyModulo hru.plain))
      subst hshapes
      have hsum := sumOf_steps h.rank hlu.plain hru.plain h.steps
      rw [← h.dims] at hsum
      have hsize := congrArg List.length hsum.sizes
      rw [length_map, length_map] at hsize
      intro c hc
      rw [hscalar] at hc
      cases hc
      constructor
      · exact hlu.index
      · exact hsum.plain
      · intro ρ d hd
        have hmem : d.stride.eval ρ ∈ s.dims.map fun e => e.stride.eval ρ := mem_map_of_mem hd
        rw [hsum.strides ρ] at hmem
        exact zipWith_add_zero (strides_zero hlu ρ) (strides_zero hru ρ) _ hmem
      · intro hne ρ
        have hlne : L.dims ≠ [] := fun e => hne (length_eq_zero_iff.mp (by rw [hsize, e]; rfl))
        have hrne : R.dims ≠ [] := fun e => hlne (length_eq_zero_iff.mp (by rw [hlen, e]; rfl))
        have hoffsets : s.offsetSum ρ = L.offsetSum ρ + R.offsetSum ρ := hsum.offsets ρ
        rw [hoffsets, hlu.offsets hlne ρ, hru.offsets hrne ρ]
        rfl
    | none => exact uniform_one hl hr h (.inr hrs)
  | none => exact uniform_one hl hr h (.inl hls)

theorem uniform_mulState {mode : Bool} (hl : UniformScalar L) (hr : UniformScalar R)
    (h : Returns (mulState L R mode) s) : UniformScalar s := by
  obtain ⟨other, factor, h⟩ := returns_mulState h
  cases hls : L.scalar with
  | none => exact uniform_of_none (h.scalars.other (.inl hls))
  | some l =>
    cases hrs : R.scalar with
    | none => exact uniform_of_none (h.scalars.other (.inr hrs))
    | some r =>
      obtain ⟨id, hscalar⟩ := h.scalars.both l r hls hrs
      obtain ⟨rfl, hfactor⟩ : other = L ∧ factor = r := by
        rcases h.sides with ⟨ho, hf⟩ | ⟨-, hnone, -⟩
        · rw [hrs] at hf
          exact ⟨ho, (Option.some.inj hf).symm⟩
        · rw [hrs] at hnone
          cases hnone
      subst hfactor
      have hlu := hl l hls
      have hdims := mulDims_plain (hr factor hrs).index hlu.plain h.dims
      intro c hc
      rw [hscalar] at hc
      cases hc
      constructor
      · exact hlu.index
      · exact scaled_plain hdims
      · intro ρ d hd
        have hmem : d.stride.eval ρ ∈ s.dims.map fun e => e.stride.eval ρ := mem_map_of_mem hd
        rw [(scaled_lists hdims ρ).2.2] at hmem
        obtain ⟨x, hx, heq⟩ := mem_map.mp hmem
        rw [← heq, strides_zero hlu ρ x hx, zero_mul]
      · intro hne ρ
        have hone : other.dims ≠ [] := fun e => hne (length_eq_zero_iff.mp (by
          rw [← hdims.length_eq, e]
          rfl))
        show (s.dims.map fun d => d.offset.eval ρ).sum = _
        rw [(scaled_lists hdims ρ).2.1]
        show other.offsetSum ρ * factor.eval ρ [] = _
        rw [hlu.offsets hone ρ]
        rfl

theorem uniform_reconcile {index : ℕ} {bind : ℕ → Build Value}
    (hrank : 0 < t.rank → t.scalar = none)
    (hbind : t.rank = 0 → ∀ v, Returns (bind (index + 1)) v → v.ty = Ty.index)
    (h : Returns (reconcileLoopPtrState index t bind) s) : UniformScalar s := by
  unfold reconcileLoopPtrState at h
  dsimp only at h
  split_ifs at h with hzero
  · obtain ⟨-, h⟩ := returns_assert_bind h
    obtain ⟨v, hv, h⟩ := returns_bind h
    rw [returns_pure] at h
    subst h
    apply uniform_of_empty (s := { t with scalar := some v }) (length_eq_zero_iff.mp hzero)
    intro c hc
    cases hc
    exact hbind hzero v hv
  · obtain ⟨dims, -, h⟩ := returns_bind h
    obtain ⟨dims', -, h⟩ := returns_bind h
    rw [returns_pure] at h
    subst h
    exact uniform_of_none (hrank (Nat.pos_of_ne_zero hzero))

theorem scalar_rebuildAsGatherScatter {op : Value} {dim : ℕ}
    (h : Returns (t.rebuildAsGatherScatter op dim) s) : s.scalar = t.scalar := by
  unfold PtrState.rebuildAsGatherScatter at h
  split_ifs at h
  · exact absurd h not_returns_fail
  · exact absurd h not_returns_fail
  split at h
  · exact absurd h (not_returns_stop _ _)
  split at h
  · exact absurd h (not_returns_stop _ _)
  split_ifs at h
  · exact absurd h not_returns_fail
  rw [returns_pure] at h
  rw [h]

theorem uniform_unsupported {operand : Value}
    (h : Returns (PtrState.empty.rebuildAsUnsupportedOp operand) s) : UniformScalar s := by
  apply uniform_of_none
  unfold PtrState.rebuildAsUnsupportedOp at h
  split at h
  · exact absurd h not_returns_fail
  split at h
  · exact absurd h not_returns_fail
  split at h
  · exact absurd h (not_returns_stop _ _)
  split at h
  · exact absurd h not_returns_fail
  rw [returns_pure] at h
  rw [h]
  rfl

theorem uniform_rebuild {op : Value} {dim : ℕ} (ht : UniformScalar t) (hmod : t.anyModulo = true)
    (h : Returns (t.rebuildAsGatherScatter op dim) s) : UniformScalar s := by
  apply uniform_of_none
  rw [scalar_rebuildAsGatherScatter h]
  cases hc : t.scalar with
  | none => rfl
  | some c =>
    rw [plain_anyModulo (ht c hc).plain] at hmod
    cases hmod

theorem uniform_clearModulo {lhs rhs : Value} {p : PtrState × PtrState} (hl : UniformScalar L)
    (hr : UniformScalar R) (h : Returns (clearModulo ctx lhs rhs L R) p) :
    UniformScalar p.1 ∧ UniformScalar p.2 := by
  obtain ⟨clearRhs, hclear, h⟩ := returns_bind h
  have hclear := returns_hasModuloIf hclear
  split at h
  · next hc =>
    split at h
    · exact absurd h not_returns_fail
    obtain ⟨dim, -, h⟩ := returns_bind h
    obtain ⟨R', hR', h⟩ := returns_bind h
    rw [returns_pure] at h
    subst h
    rw [hclear, Bool.and_eq_true] at hc
    exact ⟨hl, uniform_rebuild hr hc.2 hR'⟩
  · obtain ⟨lhsModulo, hlm, h⟩ := returns_bind h
    obtain ⟨rfl, -⟩ := returns_hasModulo hlm
    split at h
    · next hm =>
      split at h
      · exact absurd h not_returns_fail
      obtain ⟨dim, -, h⟩ := returns_bind h
      obtain ⟨L', hL', h⟩ := returns_bind h
      rw [returns_pure] at h
      subst h
      rw [Bool.and_eq_true] at hm
      exact ⟨uniform_rebuild hl hm.1 hL', hr⟩
    · rw [returns_pure] at h
      subst h
      exact ⟨hl, hr⟩

theorem uniform_addOperands {lhs rhs : Value} (hl : UniformScalar L) (hr : UniformScalar R)
    (h : Returns (addOperands ctx lhs rhs L R) s) : UniformScalar s := by
  obtain ⟨lhsModulo, -, h⟩ := returns_bind h
  obtain ⟨rhsModulo, -, h⟩ := returns_bind h
  split_ifs at h
  · exact absurd h not_returns_fail
  obtain ⟨p, hp, h⟩ := returns_bind h
  obtain ⟨hp1, hp2⟩ := uniform_clearModulo hl hr hp
  exact uniform_addState hp1 hp2 h

theorem uniform_mul {lhs rhs : Value} (hl : UniformScalar L) (hr : UniformScalar R)
    (h : Returns (visitOperandMul ctx lhs rhs (pure L) (pure R)) s) : UniformScalar s := by
  rw [visitOperandMul, returns_pure_bind, returns_pure_bind] at h
  obtain ⟨p, hp, h⟩ := returns_bind h
  obtain ⟨hp1, hp2⟩ := uniform_clearModulo hl hr hp
  exact uniform_mulState hp1 hp2 h

theorem scalar_rem {remOp : Value} (h : Returns (visitOperandRem ctx remOp (pure L) (pure R)) s)
    (hmode : ctx.isAnalysisingUnstructured = false) : s.scalar = L.scalar := by
  rw [visitOperandRem, if_neg (by simp [hmode]), returns_pure_bind] at h
  split at h
  · exact absurd h not_returns_fail
  next scalar hscalar =>
  rw [returns_pure_bind] at h
  split_ifs at h
  · obtain ⟨dim, -, h⟩ := returns_bind h
    exact scalar_rebuildAsGatherScatter h
  · obtain ⟨modulo, -, h⟩ := returns_bind h
    split_ifs at h
    · exact scalar_rebuildAsGatherScatter h
    · exact absurd h not_returns_fail
    · rw [returns_pure] at h
      rw [h]
      rfl
    · split at h
      · rw [returns_pure] at h
        rw [h]
        rfl
      · rw [returns_pure] at h
        rw [h]
        rfl
      · exact absurd h not_returns_fail
    · exact absurd h not_returns_fail

theorem uniform_rem {remOp : Value}
    (hmet : ctx.isAnalysisingUnstructured = false → L.scalar = none)
    (h : Returns (visitOperandRem ctx remOp (pure L) (pure R)) s) : UniformScalar s := by
  cases hmode : ctx.isAnalysisingUnstructured with
  | true =>
    rw [visitOperandRem, if_pos hmode] at h
    exact uniform_unsupported h
  | false => exact uniform_of_none ((scalar_rem h hmode).trans (hmet hmode))

end Producers

/-- What produces a state from the states of its operands. -/
inductive Producer where
  | scalar (operand : Value)
  | source (operand : Value)
  | makeRange (start count : ℕ)
  | constSplat (ty : Ty) (value : ℤ)
  | unsupported (operand : Value)
  | splat (src : Value) (shape : List ℕ)
  | expandDims (axis : ℕ)
  | broadcast (src : Value) (shape : List ℕ)
  | rem (remOp : Value)
  | add (lhs rhs : Value)
  | mul (lhs rhs : Value)
  | addptr
  | addState
  | mulState
  | reconcile (index : ℕ) (bind : ℕ → Build Value)

namespace Producer

def run (ctx : Context) : Producer → List PtrState → Build PtrState
  | .scalar operand, [] => scalarState operand
  | .source operand, [] => sourceState operand
  | .makeRange start count, [] => visitOperandMakeRange start count
  | .constSplat ty value, [] => visitOperandConstSplat ty value
  | .unsupported operand, [] => PtrState.empty.rebuildAsUnsupportedOp operand
  | .splat src shape, [t] => visitOperandSplat src shape (pure t)
  | .expandDims axis, [t] => visitOperandExpandDims axis (pure t)
  | .broadcast src shape, [t] => visitOperandBroadcast src shape (pure t)
  | .rem remOp, [l, r] => visitOperandRem ctx remOp (pure l) (pure r)
  | .add lhs rhs, [l, r] => addOperands ctx lhs rhs l r
  | .mul lhs rhs, [l, r] => visitOperandMul ctx lhs rhs (pure l) (pure r)
  | .addptr, [l, r] => visitOperandAddptr ctx (pure l) (pure r)
  | .addState, [l, r] => AnalysisStructured.addState l r ctx.isAnalysisingUnstructured
  | .mulState, [l, r] => AnalysisStructured.mulState l r ctx.isAnalysisingUnstructured
  | .reconcile index bind, [t] => reconcileLoopPtrState index t bind
  | _, _ => fail ""

/-- The operand of a splat is a scalar, and so is the operand of `scalar`. -/
def Typed : Producer → List PtrState → Prop
  | .scalar operand, _ => operand.ty.shape = none ∧ operand.ty.elt ≠ .ptr
  | .splat _ _, [t] => t.rank = 0
  | _, _ => True

/-- No remainder of a state with a scalar, no new dimension for a scalar other
than zero, and no loop around a state with dimensions and a scalar. -/
def Met (ctx : Context) : Producer → List PtrState → Prop
  | .rem _, [l, _] => ctx.isAnalysisingUnstructured = false → l.scalar = none
  | .expandDims _, [t] => t.rank = 0 → ∀ c, t.scalar = some c → ∀ ρ, c.eval ρ [] = 0
  | .reconcile index bind, [t] => (0 < t.rank → t.scalar = none) ∧
      (t.rank = 0 → ∀ v, Returns (bind (index + 1)) v → v.ty = Ty.index)
  | _, _ => True

end Producer

/-- The states of runs in which every step is in `P`. -/
inductive Reached (ctx : Context) (P : Producer → List PtrState → Prop) : PtrState → Prop
  | step (op : Producer) (inputs : List PtrState) (s : PtrState)
      (hinputs : ∀ t ∈ inputs, Reached ctx P t) (hP : P op inputs)
      (hs : Returns (op.run ctx inputs) s) : Reached ctx P s

theorem uniform_step {ctx : Context} {op : Producer} {inputs : List PtrState} {s : PtrState}
    (hinputs : ∀ t ∈ inputs, UniformScalar t) (htyped : op.Typed inputs)
    (hmet : op.Met ctx inputs) (h : Returns (op.run ctx inputs) s) : UniformScalar s := by
  unfold Producer.run at h
  split at h
  · obtain ⟨c, rfl, hty, -⟩ := returns_scalarState htyped.1 htyped.2 h
    apply uniform_of_empty rfl
    intro c' hc
    cases hc
    exact hty
  · rw [sourceState, returns_pure] at h
    exact uniform_of_none (by rw [h]; rfl)
  · rw [visitOperandMakeRange, returns_pure] at h
    exact uniform_of_none (by rw [h])
  · exact uniform_constSplat h
  · exact uniform_unsupported h
  · exact uniform_splat (hinputs _ mem_cons_self) (length_eq_zero_iff.mp htyped) h
  · exact uniform_expandDims (hinputs _ mem_cons_self)
      (fun hnil => hmet (length_eq_zero_iff.mpr hnil)) h
  · exact uniform_broadcast (hinputs _ mem_cons_self) h
  · exact uniform_rem hmet h
  · exact uniform_addOperands (hinputs _ (by simp)) (hinputs _ (by simp)) h
  · exact uniform_mul (hinputs _ (by simp)) (hinputs _ (by simp)) h
  · obtain ⟨L, R, hL, hR, hsum⟩ := returns_visitOperandAddptr h
    rw [returns_pure] at hL hR
    exact uniform_addState (hL ▸ hinputs _ (by simp)) (hR ▸ hinputs _ (by simp)) hsum
  · exact uniform_addState (hinputs _ (by simp)) (hinputs _ (by simp)) h
  · exact uniform_mulState (hinputs _ (by simp)) (hinputs _ (by simp)) h
  · exact uniform_reconcile hmet.1 hmet.2 h
  · exact absurd h not_returns_fail

theorem reached_uniform {ctx : Context} {s : PtrState}
    (h : Reached ctx (fun op inputs => op.Typed inputs ∧ op.Met ctx inputs) s) :
    UniformScalar s := by
  induction h with
  | step op inputs s _ hP hs ih => exact uniform_step ih hP.1 hP.2 hs

/-- In every run whose steps all meet the condition, every state with a scalar
and a positive rank denotes that scalar. -/
theorem reached_coherent (ctx : Context) {s : PtrState}
    (h : Reached ctx (fun op inputs => op.Typed inputs ∧ op.Met ctx inputs) s) : Coherent s :=
  (reached_uniform h).coherent

def constant4 (id : ℕ) (value : ℤ) : PtrState :=
  ⟨[⟨.value (.constant id Ty.index value), .attr 4, .attr 0, .attr 0⟩], [], none,
    some (.constant id Ty.index value)⟩

theorem reached_constant4 {P : Producer → List PtrState → Prop} (id : ℕ) (value : ℤ)
    (hP : P (.constSplat ⟨some [4], .int 32⟩ value) []) :
    Reached plainContext P (constant4 id value) :=
  .step (.constSplat ⟨some [4], .int 32⟩ value) [] _ (by simp) hP ⟨id, id + 1, rfl⟩

theorem reached_coherent_product :
    Coherent ⟨[⟨.attr 15, .attr 4, .attr 0, .attr 0⟩], [], none,
      some (.binary 2 .muli (.constant 0 Ty.index 5) (.constant 1 Ty.index 3))⟩ := by
  apply reached_coherent plainContext
  apply Reached.step .mulState [constant4 0 5, constant4 1 3]
  · intro t ht
    rw [mem_pair] at ht
    rcases ht with rfl | rfl
    · exact reached_constant4 0 5 ⟨trivial, trivial⟩
    · exact reached_constant4 1 3 ⟨trivial, trivial⟩
  · exact ⟨trivial, trivial⟩
  · exact ⟨2, 3, rfl⟩

/-- `5 % 3` on tensors: the scalar is still five. -/
def modulo5 : PtrState := setShape (constant4 0 5) 0 (.constant 1 Ty.index 3)

def carried5 : PtrState :=
  ⟨[⟨.value (.iterArg 0 1 Ty.index), .attr 4, .value (.iterArg 0 2 Ty.index), .attr 0⟩], [], none,
    some (.constant 0 Ty.index 5)⟩

def rankZero5 : PtrState := ⟨[], [], none, some (.constant 0 Ty.index 5)⟩

def expanded5 : PtrState :=
  ⟨[⟨.attr 0, .attr 1, .attr 0, .attr 0⟩], [], none, some (.constant 0 Ty.index 5)⟩

theorem reached_modulo5 : Reached plainContext Producer.Typed modulo5 := by
  apply Reached.step (.rem (.binary 9 .remsi (.constant 7 ⟨some [4], .int 32⟩ 5)
    (.constant 8 ⟨some [4], .int 32⟩ 3))) [constant4 0 5, constant4 1 3]
  · intro t ht
    rw [mem_pair] at ht
    rcases ht with rfl | rfl
    · exact reached_constant4 0 5 trivial
    · exact reached_constant4 1 3 trivial
  · trivial
  · exact ⟨0, 0, rfl⟩

theorem reached_carried5 : Reached plainContext Producer.Typed carried5 := by
  apply Reached.step (.reconcile 0 fun i => pure (.iterArg 0 i Ty.index)) [constant4 0 5]
  · intro t ht
    rw [mem_singleton] at ht
    subst ht
    exact reached_constant4 0 5 trivial
  · trivial
  · exact ⟨0, 0, rfl⟩

theorem reached_expanded5 : Reached plainContext Producer.Typed expanded5 := by
  apply Reached.step (.expandDims 0) [rankZero5]
  · intro t ht
    rw [mem_singleton] at ht
    subst ht
    exact .step (.constSplat ⟨some [], .int 32⟩ 5) [] _ (by simp) trivial ⟨0, 1, rfl⟩
  · trivial
  · exact ⟨0, 0, rfl⟩

/-- A remainder, a loop and a new dimension break the coherence. -/
theorem reached_not_coherent :
    (Reached plainContext Producer.Typed modulo5 ∧ ¬ Coherent modulo5) ∧
      (Reached plainContext Producer.Typed carried5 ∧ ¬ Coherent carried5) ∧
      (Reached plainContext Producer.Typed expanded5 ∧ ¬ Coherent expanded5) := by
  refine ⟨⟨reached_modulo5, fun h => ?_⟩, ⟨reached_carried5, fun h => ?_⟩, reached_expanded5,
    fun h => ?_⟩
  · have hmod := (h _ rfl (by decide)).no_modulo
    revert hmod
    decide
  · have hoffsets := (h _ rfl (by decide)).offsets emptyEnv
    revert hoffsets
    decide
  · have hoffsets := (h _ rfl (by decide)).offsets emptyEnv
    revert hoffsets
    decide

section Visits

variable {ctx : Context} {v : Value} {s t : PtrState}

def ReachedFor (ctx : Context) (v : Value) (s : PtrState) : Prop :=
  Reached ctx Producer.Typed s ∧ (v.ty.shape = none → s.rank = 0)

theorem reached_nil (op : Producer) (htyped : op.Typed []) (h : Returns (op.run ctx []) s) :
    Reached ctx Producer.Typed s := .step op [] s (by simp) htyped h

theorem reached_one (op : Producer) (ht : Reached ctx Producer.Typed t) (htyped : op.Typed [t])
    (h : Returns (op.run ctx [t]) s) : Reached ctx Producer.Typed s :=
  .step op [t] s (by simpa using ht) htyped h

theorem reached_two (op : Producer) {l r : PtrState} (hl : Reached ctx Producer.Typed l)
    (hr : Reached ctx Producer.Typed r) (htyped : op.Typed [l, r])
    (h : Returns (op.run ctx [l, r]) s) : Reached ctx Producer.Typed s :=
  .step op [l, r] s (by simpa using ⟨hl, hr⟩) htyped h

theorem reached_dispatch {pointer tensor : Build PtrState}
    (hknown : ctx.knownPtrs v = some s → ReachedFor ctx v s)
    (hpointer : Returns pointer s → Reached ctx Producer.Typed s ∧ s.rank = 0)
    (htensor : Returns tensor s → Reached ctx Producer.Typed s)
    (h : Returns (dispatch ctx v pointer tensor) s) : ReachedFor ctx v s := by
  rcases returns_dispatch h with hk | ⟨hshape, helt, hs⟩ | ⟨hty, hp⟩ | ⟨hty, ht⟩
  · exact hknown hk
  · obtain ⟨c, hc, -⟩ := returns_scalarState hshape helt hs
    exact ⟨reached_nil (.scalar v) ⟨hshape, helt⟩ hs, fun _ => by rw [hc]; rfl⟩
  · exact ⟨(hpointer hp).1, fun _ => (hpointer hp).2⟩
  · exact ⟨htensor ht, fun hnone => by simp [hnone] at hty⟩

theorem reached_source (h : Returns (sourceState v) s) :
    Reached ctx Producer.Typed s ∧ s.rank = 0 := by
  constructor
  · exact reached_nil (.source v) trivial h
  · rw [sourceState, returns_pure] at h
    rw [h]
    rfl

theorem reached_unsupported (h : Returns (visitUnsupported ctx v) s) :
    Reached ctx Producer.Typed s := by
  unfold visitUnsupported at h
  split at h
  · exact absurd h not_returns_fail
  · exact reached_nil (.unsupported v) trivial h

theorem reached_blockArg (hknown : ctx.knownPtrs v = some s → ReachedFor ctx v s)
    (h : Returns (visitBlockArg ctx v) s) : Reached ctx Producer.Typed s := by
  unfold visitBlockArg at h
  split at h
  · exact reached_nil (.unsupported v) trivial h
  · split at h
    · next state hstate =>
      rw [returns_pure] at h
      subst h
      exact (hknown hstate).1
    · exact absurd h not_returns_fail

theorem reached_loopInitArg {fuel loop index : ℕ}
    (hknown : ∀ w t, ctx.knownPtrs w = some t → ReachedFor ctx w t)
    (h : Returns (getLoopInitArgPtrState ctx.knownPtrs ctx.loops fuel loop index) s) :
    Reached ctx Producer.Typed s := by
  induction fuel generalizing loop index s with
  | zero => exact absurd h not_returns_fail
  | succ fuel ih =>
    unfold getLoopInitArgPtrState at h
    split at h
    · exact absurd h (not_returns_stop _ _)
    split at h
    · next state hstate =>
      rw [returns_pure] at h
      subst h
      obtain ⟨pointer, -, hp⟩ := Option.bind_eq_some_iff.mp hstate
      exact (hknown pointer s hp).1
    split at h
    · obtain ⟨state, hstate, h⟩ := returns_bind h
      split at h
      · exact absurd h not_returns_fail
      · exact reached_one (.reconcile index _) (ih hstate) trivial h
    · split at h
      · next state hstate =>
        obtain ⟨-, h⟩ := returns_assert_bind h
        rw [returns_pure] at h
        subst h
        exact (hknown _ s hstate).1
      · exact absurd h not_returns_fail

theorem reached_loopResult {loop index : ℕ}
    (hknown : ∀ w t, ctx.knownPtrs w = some t → ReachedFor ctx w t)
    (h : Returns (getLoopResultPtrState ctx.knownPtrs ctx.loops loop index) s) :
    Reached ctx Producer.Typed s := by
  obtain ⟨state, hstate, h⟩ := returns_bind h
  split at h
  · exact absurd h not_returns_fail
  · exact reached_one (.reconcile index _) (reached_loopInitArg hknown hstate) trivial h

theorem rank_addState {mode : Bool} {L R : PtrState} (hl : L.rank = 0)
    (h : Returns (addState L R mode) s) : s.rank = 0 := by
  obtain ⟨steps, shapes, h⟩ := returns_addState h
  have hnil : L.dims = [] := length_eq_zero_iff.mp hl
  rw [PtrState.rank, h.dims, hnil]
  simp

theorem reached_broadcast {src : Value} {shape : List ℕ} {visitSrc : Build PtrState}
    (hsrc : ∀ t, Returns visitSrc t → Reached ctx Producer.Typed t)
    (h : Returns (visitOperandBroadcast src shape visitSrc) s) :
    Reached ctx Producer.Typed s := by
  unfold visitOperandBroadcast at h
  split at h
  · exact absurd h not_returns_fail
  next srcShape hshape =>
  obtain ⟨t, ht, h⟩ := returns_bind h
  apply reached_one (.broadcast src shape) (hsrc t ht) trivial
  show Returns (visitOperandBroadcast src shape (pure t)) s
  rw [visitOperandBroadcast, hshape]
  exact h

theorem reached_rem {remOp : Value} {visitLhs visitRhs : Build PtrState}
    (hlhs : ∀ t, Returns visitLhs t → Reached ctx Producer.Typed t)
    (hrhs : ∀ t, Returns visitRhs t → Reached ctx Producer.Typed t)
    (h : Returns (visitOperandRem ctx remOp visitLhs visitRhs) s) :
    Reached ctx Producer.Typed s := by
  unfold visitOperandRem at h
  split at h
  · exact reached_nil (.unsupported remOp) trivial h
  next hmode =>
  obtain ⟨R, hR, h⟩ := returns_bind h
  split at h
  · exact absurd h not_returns_fail
  next scalar hscalar =>
  obtain ⟨L, hL, h⟩ := returns_bind h
  apply reached_two (.rem remOp) (hlhs L hL) (hrhs R hR) trivial
  show Returns (visitOperandRem ctx remOp (pure L) (pure R)) s
  rw [visitOperandRem, if_neg hmode, returns_pure_bind, hscalar]
  exact h

/-- What `visitOperand` returns is a state of a run, whatever steps it takes. -/
theorem visitOperand_reached (hver : v.Verified)
    (hknown : ∀ w t, ctx.knownPtrs w = some t → ReachedFor ctx w t)
    (h : Returns (visitOperand ctx v) s) : ReachedFor ctx v s := by
  have hunexpected : ∀ {t}, Returns unexpectedPointer t →
      Reached ctx Producer.Typed t ∧ t.rank = 0 :=
    fun hp => absurd hp not_returns_unexpectedPointer
  induction v generalizing s with
  | blockArg id ty =>
    exact reached_dispatch (hknown _ s) reached_source (reached_blockArg (hknown _ s)) h
  | iterArg loop index ty =>
    exact reached_dispatch (hknown _ s) reached_source (reached_blockArg (hknown _ s)) h
  | pointerOp id ty =>
    exact reached_dispatch (hknown _ s) reached_source reached_unsupported h
  | unknown id ty => exact reached_dispatch (hknown _ s) hunexpected reached_unsupported h
  | structuredState id original ty =>
    exact reached_dispatch (hknown _ s) hunexpected reached_unsupported h
  | forResult loop index ty =>
    exact reached_dispatch (hknown _ s) hunexpected (reached_loopResult hknown) h
  | constant id ty value =>
    exact reached_dispatch (hknown _ s) hunexpected
      (reached_nil (.constSplat ty value) trivial) h
  | makeRange id start count =>
    exact reached_dispatch (hknown _ s) hunexpected
      (reached_nil (.makeRange start count) trivial) h
  | splat id src shape ih =>
    refine reached_dispatch (hknown _ s) hunexpected (fun ht => ?_) h
    obtain ⟨t, ht, hs⟩ := returns_bind ht
    obtain ⟨hreached, hrank⟩ := ih hver.1 ht
    exact reached_one (.splat src shape) hreached (hrank hver.2) hs
  | expandDims id src axis ih =>
    refine reached_dispatch (hknown _ s) hunexpected (fun ht => ?_) h
    obtain ⟨t, ht, hs⟩ := returns_bind ht
    exact reached_one (.expandDims axis) (ih hver.1 ht).1 trivial hs
  | broadcast id src shape ih =>
    exact reached_dispatch (hknown _ s) hunexpected
      (reached_broadcast fun t ht => (ih hver.1 ht).1) h
  | reshape id src shape ih =>
    exact reached_dispatch (hknown _ s) hunexpected reached_unsupported h
  | binary id op lhs rhs ihl ihr =>
    have hl : ∀ t, Returns (visitOperand ctx lhs) t → Reached ctx Producer.Typed t :=
      fun t ht => (ihl hver.1 ht).1
    have hr : ∀ t, Returns (visitOperand ctx rhs) t → Reached ctx Producer.Typed t :=
      fun t ht => (ihr hver.2.1 ht).1
    cases op with
    | addi =>
      refine reached_dispatch (hknown _ s) hunexpected (fun ht => ?_) h
      obtain ⟨L, hL, ht⟩ := returns_bind ht
      obtain ⟨R, hR, ht⟩ := returns_bind ht
      exact reached_two (.add lhs rhs) (hl L hL) (hr R hR) trivial ht
    | muli =>
      refine reached_dispatch (hknown _ s) hunexpected (fun ht => ?_) h
      obtain ⟨L, hL, ht⟩ := returns_bind ht
      obtain ⟨R, hR, ht⟩ := returns_bind ht
      exact reached_two (.mul lhs rhs) (hl L hL) (hr R hR) trivial ht
    | remsi => exact reached_dispatch (hknown _ s) hunexpected (reached_rem hl hr) h
    | _ => exact reached_dispatch (hknown _ s) hunexpected reached_unsupported h
  | cast id op src elt ih =>
    have hsrc : Returns (visitOperand ctx src) s → Reached ctx Producer.Typed s :=
      fun ht => (ih hver.1 ht).1
    cases op with
    | extSI => exact reached_dispatch (hknown _ s) hunexpected hsrc h
    | extUI => exact reached_dispatch (hknown _ s) hunexpected hsrc h
    | _ => exact reached_dispatch (hknown _ s) hunexpected reached_unsupported h
  | cmpi id pred lhs rhs ihl ihr =>
    exact reached_dispatch (hknown _ s) hunexpected reached_unsupported h
  | select id cond trueValue falseValue ihc iht ihf =>
    exact reached_dispatch (hknown _ s) hunexpected reached_unsupported h
  | addptr id ptr offset ihp iho =>
    obtain ⟨hpv, hov, -, -⟩ := hver
    have hsum : Returns (visitOperandAddptr ctx (visitOperand ctx ptr) (visitOperand ctx offset))
        s → Reached ctx Producer.Typed s ∧ (ptr.ty.shape = none → s.rank = 0) := by
      intro ht
      obtain ⟨L, hL, ht⟩ := returns_bind ht
      obtain ⟨R, hR, ht⟩ := returns_bind ht
      obtain ⟨hl, hrank⟩ := ihp hpv hL
      constructor
      · exact reached_two .addptr hl (iho hov hR).1 trivial ht
      · exact fun hnone => rank_addState (hrank hnone) (returns_assert_bind ht).2
    rcases returns_dispatch h with hk | ⟨hshape, helt, hs⟩ | ⟨hty, hp⟩ | ⟨hty, ht⟩
    · exact hknown _ s hk
    · exact reached_dispatch (hknown _ s) (fun hp => ⟨(hsum hp).1, (hsum hp).2 hshape⟩)
        (fun ht => (hsum ht).1) h
    · exact ⟨(hsum hp).1, fun hnone => (hsum hp).2 hnone⟩
    · exact ⟨(hsum ht).1, fun hnone => (hsum ht).2 hnone⟩

theorem visitOperand_reached_sum :
    let v : Value := .binary 2 .addi (.makeRange 6 0 4) (.constant 7 ⟨some [4], .int 32⟩ 5)
    ∃ s, Returns (visitOperand plainContext v) s ∧ ReachedFor plainContext v s := by
  intro v
  have h : Returns (visitOperand plainContext v) _ := ⟨0, _, rfl⟩
  exact ⟨_, h, visitOperand_reached (by simp [v, Value.Verified, Value.ty])
    (fun _ _ hknown => by cases hknown) h⟩

end Visits

end TritonCpu.AnalysisStructured
