import Mathlib.Algebra.Order.Ring.Int
import Mathlib.Tactic.Ring
import Mathlib.Tactic.Linarith
import TritonCpu.PtrStateSpec
import TritonCpu.PtrAnalysis

/-!
# What a pointer state denotes

A state denotes an address at a multi-index: its source and the contributions
of its dimensions, `(offset + stride * i) mod shape` for a structured one and
`offset[i] * stride` for an unstructured one. A structured expression is affine
in the index; `affine` reads its constant term and its strides off the tree,
with the part the analysis keeps although it is not in the value.
-/

set_option autoImplicit false

namespace TritonCpu.AnalysisStructured
open Builder TritonIR OpFoldResult List

def emptyEnv : Env := ⟨fun _ _ => 0, fun _ _ _ => 0, fun _ _ _ => 0⟩

/-- `Σ s * i` over the dimensions. -/
def dot : List ℤ → List ℕ → ℤ
  | s :: ss, i :: is => s * i + dot ss is
  | _, _ => 0

def elementAt (ρ : Env) (ofr : OFR) (i : ℕ) : ℤ :=
  match ofr with
  | .attr value => value
  | .value v => v.eval ρ (unravel v.shape i)

def Dim.term (ρ : Env) (d : Dim) (i : ℕ) : ℤ :=
  if d.isStructured then d.offset.eval ρ + d.stride.eval ρ * i
  else elementAt ρ d.offset i * d.stride.eval ρ

def Dim.contribution (ρ : Env) (d : Dim) (i : ℕ) : ℤ :=
  if d.hasModulo then (d.term ρ i).tmod (d.shape.eval ρ) else d.term ρ i

def contributions (ρ : Env) : List Dim → List ℕ → ℤ
  | d :: ds, i :: is => d.contribution ρ i + contributions ρ ds is
  | _, _ => 0

attribute [local simp] dot contributions

namespace PtrState

def sourceValue (ρ : Env) (s : PtrState) : ℤ := (s.source.map fun v => v.eval ρ []).getD 0

def scalarValue (ρ : Env) (s : PtrState) : ℤ := (s.scalar.map fun v => v.eval ρ []).getD 0

/-- The address at a multi-index; a state of rank zero has its offset in
`scalar`. -/
def address (ρ : Env) (s : PtrState) (idx : List ℕ) : ℤ :=
  s.sourceValue ρ + if s.dims = [] then s.scalarValue ρ else contributions ρ s.dims idx

def offsetSum (ρ : Env) (s : PtrState) : ℤ := (s.dims.map fun d => d.offset.eval ρ).sum

def base (ρ : Env) (s : PtrState) : ℤ :=
  s.sourceValue ρ + if s.dims = [] then s.scalarValue ρ else s.offsetSum ρ

def strides (ρ : Env) (s : PtrState) : List ℤ := s.dims.map fun d => d.stride.eval ρ

end PtrState

abbrev IsScalar : OFR → Prop := OfType fun ty => ty.shape = none

theorem structured_iff (d : Dim) : d.isStructured = true ↔ IsScalar d.offset := by
  unfold Dim.isStructured isNotStructured IsScalar
  cases d.offset with
  | attr k => simp [OfType]
  | value v => simp [OfType]

theorem no_modulo_of_state {s : PtrState} (h : s.anyModulo = false) :
    ∀ d ∈ s.dims, d.hasModulo = false := by
  rw [PtrState.anyModulo, any_eq_false] at h
  exact fun d hd => by simpa using h d hd

theorem structured_of_state {s : PtrState} (h : s.isStructured = true) :
    ∀ d ∈ s.dims, d.isStructured = true := by
  rwa [PtrState.isStructured, all_eq_true] at h

/-- A dimension with index offset and stride and no modulo. -/
structure Plain (d : Dim) : Prop where
  offset : IsIndex d.offset
  stride : IsIndex d.stride
  shape : d.shape = .attr 0

theorem Plain.structured {d : Dim} (h : Plain d) : d.isStructured = true := by
  have hoffset := h.offset
  unfold Dim.isStructured isNotStructured
  cases ho : d.offset with
  | attr k => rfl
  | value v =>
    rw [ho] at hoffset
    simp [show v.ty = Ty.index from hoffset, Ty.index]

theorem Plain.no_modulo {d : Dim} (h : Plain d) : d.hasModulo = false := by
  simp [Dim.hasModulo, h.shape, getIntAttr]

theorem Plain.contribution {d : Dim} (h : Plain d) (ρ : Env) (i : ℕ) :
    d.contribution ρ i = d.offset.eval ρ + d.stride.eval ρ * i := by
  simp [Dim.contribution, Dim.term, h.structured, h.no_modulo]

theorem contributions_plain (ρ : Env) (dims : List Dim) (idx : List ℕ)
    (hplain : ∀ d ∈ dims, Plain d) (h : dims.length = idx.length) :
    contributions ρ dims idx = (dims.map fun d => d.offset.eval ρ).sum +
      dot (dims.map fun d => d.stride.eval ρ) idx := by
  induction dims generalizing idx with
  | nil => simp [contributions, dot]
  | cons d ds ih =>
    cases idx with
    | nil => simp at h
    | cons i is =>
      rw [contributions, (hplain d mem_cons_self).contribution,
        ih is (fun e he => hplain e (mem_cons_of_mem _ he)) (by simpa using h)]
      simp only [map_cons, sum_cons, dot]
      ring

theorem address_plain (ρ : Env) (s : PtrState) (idx : List ℕ) (hplain : ∀ d ∈ s.dims, Plain d)
    (h : s.dims.length = idx.length) : s.address ρ idx = s.base ρ + dot (s.strides ρ) idx := by
  unfold PtrState.address PtrState.base PtrState.offsetSum PtrState.strides
  split_ifs with hnil
  · simp [hnil, dot]
  · rw [contributions_plain ρ s.dims idx hplain h]
    ring

theorem added_source {mode : Bool} {L R s : PtrState} {steps : List (OFR × OFR)}
    {shapes : List OFR} (h : Added mode L R s steps shapes) (ρ : Env) :
    s.sourceValue ρ = L.sourceValue ρ + R.sourceValue ρ := by
  unfold PtrState.sourceValue
  rw [h.source]
  rcases h.one_source with hs | hs <;> rw [hs]
  · simp
  · cases L.source <;> simp

theorem inBounds_length {shape idx : List ℕ} (h : InBounds shape idx) :
    shape.length = idx.length := List.Forall₂.length_eq h

theorem dot_zipWith (a b : List ℤ) (idx : List ℕ) (h : a.length = b.length) :
    dot (List.zipWith (· + ·) a b) idx = dot a idx + dot b idx := by
  induction a generalizing b idx with
  | nil => cases b <;> simp_all [dot]
  | cons x xs ih =>
    cases b with
    | nil => simp at h
    | cons y ys =>
      cases idx with
      | nil => simp [dot]
      | cons i is =>
        simp only [zipWith_cons_cons, dot, ih ys is (by simpa using h)]
        ring

theorem dot_scale (a : List ℤ) (c : ℤ) (idx : List ℕ) :
    dot (a.map (· * c)) idx = dot a idx * c := by
  induction a generalizing idx with
  | nil => simp [dot]
  | cons x xs ih =>
    cases idx with
    | nil => simp [dot]
    | cons i is =>
      simp only [map_cons, dot, ih is]
      ring

theorem dot_zeros (shape idx : List ℕ) : dot (shape.map fun _ => 0) idx = 0 := by
  induction shape generalizing idx with
  | nil => simp [dot]
  | cons d ds ih =>
    cases idx with
    | nil => simp [dot]
    | cons i is =>
      rw [map_cons, dot, ih is]
      ring

theorem dot_insertIdx (axis : ℕ) (a : List ℤ) (idx : List ℕ) (h : axis ≤ a.length) :
    dot (a.insertIdx axis 0) idx = dot a (idx.eraseIdx axis) := by
  induction axis generalizing a idx with
  | zero => cases idx <;> cases a <;> simp [dot]
  | succ axis ih =>
    cases a with
    | nil => simp at h
    | cons x xs =>
      cases idx with
      | nil => simp [dot]
      | cons i is =>
        rw [insertIdx_succ_cons, eraseIdx_cons_succ, dot, dot,
          ih xs is (by simpa using h)]

theorem inBounds_eraseIdx (axis : ℕ) (shape idx : List ℕ) (haxis : axis ≤ shape.length)
    (h : InBounds (shape.insertIdx axis 1) idx) : InBounds shape (idx.eraseIdx axis) := by
  induction axis generalizing shape idx with
  | zero =>
    rw [insertIdx_zero] at h
    cases h with
    | cons _ h => exact h
  | succ axis ih =>
    cases shape with
    | nil => simp at haxis
    | cons d ds =>
      rw [insertIdx_succ_cons] at h
      cases h with
      | cons hd h =>
        rw [eraseIdx_cons_succ]
        exact .cons hd (ih ds _ (by simpa using haxis) h)

theorem inBounds_broadcast (src dst idx : List ℕ)
    (hs : List.Forall₂ (fun d e => d = e ∨ d = 1) src dst) (h : InBounds dst idx) :
    InBounds src (broadcastIndex src idx) := by
  induction hs generalizing idx with
  | nil =>
    cases h
    exact .nil
  | @cons d e src dst hde hs ih =>
    cases h with
    | cons hi h =>
      refine .cons ?_ (ih _ h)
      dsimp only
      split_ifs with hd
      · omega
      · rcases hde with rfl | rfl
        · exact hi
        · exact absurd rfl hd

def broadcastLost (src dst : List ℕ) (strides lost : List ℤ) : List ℤ :=
  List.zipWith (fun p q => if p.1 = p.2 then q.2 else q.1) (src.zip dst) (strides.zip lost)

theorem dot_broadcast (src dst idx : List ℕ) (strides lost : List ℤ)
    (hs : List.Forall₂ (fun d e => d = e ∨ d = 1) src dst) (h : InBounds dst idx)
    (hstrides : strides.length = src.length) (hlost : lost.length = src.length) :
    dot strides (broadcastIndex src idx) - dot lost (broadcastIndex src idx) =
      dot strides idx - dot (broadcastLost src dst strides lost) idx := by
  induction hs generalizing idx strides lost with
  | nil =>
    cases h
    simp [broadcastIndex, broadcastLost, dot]
  | @cons d e src dst hde hs ih =>
    cases h with
    | @cons _ i _ is hi h =>
      cases strides with
      | nil => simp at hstrides
      | cons x xs =>
        cases lost with
        | nil => simp at hlost
        | cons y ys =>
          have hrest := ih is xs ys h (by simpa using hstrides) (by simpa using hlost)
          have hhead : x * ((if d = 1 then 0 else i : ℕ) : ℤ) - y * ((if d = 1 then 0 else i : ℕ) : ℤ)
              = x * i - (if d = e then y else x) * i := by
            rcases hde with rfl | rfl
            · rw [if_pos (rfl : d = d)]
              by_cases hd : d = 1
              · have hzero : i = 0 := by omega
                simp [hzero]
              · rw [if_neg hd]
            · by_cases he : 1 = e
              · have hzero : i = 0 := by omega
                simp [hzero]
              · simp [he]
          change _ + dot xs (broadcastIndex src is) - (_ + dot ys (broadcastIndex src is)) =
            _ + dot xs is - (_ + dot (broadcastLost src dst xs ys) is)
          linarith

/-- An affine reading of a value: the constant term and the strides the state
gets, the part of them that is not in the value, and the value of the scalar
the state is given. -/
structure Affine where
  start : ℤ
  strides : List ℤ
  lost : List ℤ
  lostStart : ℤ
  scalar : Option ℤ

namespace Affine

def add (a b : Affine) : Affine where
  start := a.start + b.start
  strides := List.zipWith (· + ·) a.strides b.strides
  lost := List.zipWith (· + ·) a.lost b.lost
  lostStart := a.lostStart + b.lostStart
  scalar :=
    match a.scalar, b.scalar with
    | some x, some y => some (x + y)
    | x, y => if a.strides = [] then x <|> y else none

def scale (a : Affine) (c : ℤ) : Affine where
  start := a.start * c
  strides := a.strides.map (· * c)
  lost := a.lost.map (· * c)
  lostStart := a.lostStart * c
  scalar := a.scalar.map (· * c)

def mul (a b : Affine) : Affine :=
  match b.scalar, a.scalar with
  | some c, _ => a.scale c
  | none, some c => b.scale c
  | none, none => a

/-- A scalar that was never an offset is lost when a dimension is inserted. -/
def expandDims (a : Affine) (axis : ℕ) : Affine where
  start := a.start
  strides := a.strides.insertIdx axis 0
  lost := a.lost.insertIdx axis 0
  lostStart := a.lostStart + if a.strides = [] then a.scalar.getD 0 else 0
  scalar := a.scalar

def splat (a : Affine) (shape : List ℕ) : Affine where
  start := a.start
  strides := shape.map fun _ => 0
  lost := shape.map fun _ => 0
  lostStart := a.lostStart
  scalar := a.scalar

def constant (value : ℤ) : Affine := ⟨value, [], [], 0, some value⟩

end Affine

def affine (ρ : Env) (v : Value) : Affine :=
  if v.ty.shape = none ∧ v.ty.elt ≠ .ptr then Affine.constant (v.eval ρ [])
  else
    match v with
    | .makeRange _ start _ => ⟨start, [1], [0], 0, none⟩
    | .constant _ ty value => (Affine.constant value).splat (ty.shape.getD [])
    | .splat _ src shape => (affine ρ src).splat shape
    | .expandDims _ src axis => (affine ρ src).expandDims axis
    | .broadcast _ src shape =>
      { affine ρ src with
        lost := broadcastLost src.shape shape (affine ρ src).strides (affine ρ src).lost }
    | .binary _ .addi lhs rhs => (affine ρ lhs).add (affine ρ rhs)
    | .binary _ .muli lhs rhs => (affine ρ lhs).mul (affine ρ rhs)
    | .cast _ _ src _ => affine ρ src
    | .addptr _ ptr offset => (affine ρ ptr).add (affine ρ offset)
    | v => ⟨v.eval ρ [], [], [], 0, none⟩

end TritonCpu.AnalysisStructured
