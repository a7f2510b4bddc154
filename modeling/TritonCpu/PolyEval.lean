import TritonCpu.PolyAlgebra
import Mathlib.Data.BitVec

/-!
# The polynomial of an integer expression

An address is read off the operations that compute it: scalars that are no sum, difference
or product are atoms, and so are the two lane indices of a tile. The coefficients are 64 bit
numbers, so a polynomial stands for a value modulo 2^64; where the coefficients fit it stands
for the value itself.
-/

set_option autoImplicit false

namespace TritonCpu.PolyEval
open PolyAlgebra List

/-! ### Polynomials built by the operations -/

inductive PolyExpr (A : Type) where
  | cst (c : ℤ)
  | atom (a : A)
  | add (e f : PolyExpr A)
  | neg (e : PolyExpr A)
  | sub (e f : PolyExpr A)
  | mul (e f : PolyExpr A)

namespace PolyExpr

variable {A : Type}

def value (σ : A → ℤ) : PolyExpr A → ℤ
  | cst c => c
  | atom a => σ a
  | add e f => value σ e + value σ f
  | neg e => -value σ e
  | sub e f => value σ e - value σ f
  | mul e f => value σ e * value σ f

noncomputable def toMv : PolyExpr A → MvPolynomial A ℤ
  | cst c => .C c
  | atom a => .X a
  | add e f => toMv e + toMv f
  | neg e => -toMv e
  | sub e f => toMv e - toMv f
  | mul e f => toMv e * toMv f

variable (R : Type) [LinearOrder A] [CommRing R] [DecidableEq R]

def build : PolyExpr A → Poly A R
  | cst c => .cst (c : R)
  | atom a => .atom a
  | add e f => (build e).add (build f)
  | neg e => (build e).neg
  | sub e f => (build e).sub (build f)
  | mul e f => (build e).mul (build f)

theorem toMv_build (e : PolyExpr A) :
    (e.build R).toMv = MvPolynomial.map (Int.castRingHom R) e.toMv := by
  induction e with
  | cst c => simp [build, toMv, Poly.toMv_cst]
  | atom a => simp [build, toMv, Poly.toMv_atom]
  | add e f ihe ihf => simp [build, toMv, Poly.toMv_add, ihe, ihf]
  | neg e ih => simp [build, toMv, Poly.toMv_neg, ih]
  | sub e f ihe ihf => simp [build, toMv, Poly.toMv_sub, ihe, ihf]
  | mul e f ihe ihf => simp [build, toMv, Poly.toMv_mul, ihe, ihf]

theorem toMv_build_int (e : PolyExpr A) : (e.build ℤ).toMv = e.toMv := by
  rw [toMv_build, show Int.castRingHom ℤ = RingHom.id ℤ from rfl, MvPolynomial.map_id]

omit [LinearOrder A] in
theorem eval_toMv (σ : A → ℤ) (e : PolyExpr A) : MvPolynomial.eval σ e.toMv = e.value σ := by
  induction e with
  | cst c => simp [toMv, value]
  | atom a => simp [toMv, value]
  | add e f ihe ihf => simp [toMv, value, ihe, ihf]
  | neg e ih => simp [toMv, value, ih]
  | sub e f ihe ihf => simp [toMv, value, ihe, ihf]
  | mul e f ihe ihf => simp [toMv, value, ihe, ihf]

theorem canonical_build [Nontrivial R] (e : PolyExpr A) : Canonical (e.build R).terms := by
  induction e with
  | cst c => exact Poly.canonical_cst _
  | atom a => exact Poly.canonical_atom a
  | add e f ihe ihf => exact Poly.canonical_add ihe ihf.sorted
  | neg e ih => exact Poly.canonical_neg ih
  | sub e f ihe ihf => exact Poly.canonical_sub ihe ihf
  | mul e f => exact Poly.canonical_mul _ _

theorem beq_build_iff [Nontrivial R] (e f : PolyExpr A) :
    (e.build R).beq (f.build R) = true ↔
      MvPolynomial.map (Int.castRingHom R) e.toMv =
        MvPolynomial.map (Int.castRingHom R) f.toMv := by
  rw [Poly.beq_iff (canonical_build R e) (canonical_build R f), toMv_build, toMv_build]

end PolyExpr

/-! ### Coefficients that fit into 64 bits -/

instance instNontrivialWord : Nontrivial (BitVec 64) := ⟨0, 1, by decide⟩

section Fits

variable {A : Type} [LinearOrder A]

/-- The number that `w` bits hold as a signed one. -/
def Signed (w : ℕ) (n : ℤ) : Prop := n.bmod (2 ^ w) = n

instance (w : ℕ) (n : ℤ) : Decidable (Signed w n) := inferInstanceAs (Decidable (_ = _))

theorem Signed.toInt_cast {w : ℕ} {n : ℤ} (h : Signed w n) : ((n : BitVec w)).toInt = n := by
  rw [show (n : BitVec w) = BitVec.ofInt w n from rfl, BitVec.toInt_ofInt]
  exact h

theorem Signed.cast_injective {w : ℕ} {m n : ℤ} (hm : Signed w m) (hn : Signed w n)
    (h : (m : BitVec w) = n) : m = n := by
  rw [← hm.toInt_cast, h, hn.toInt_cast]

def CoeffsFit (p : Poly A ℤ) : Prop := ∀ t ∈ p.terms, Signed 64 t.2

def signed (p : Poly A (BitVec 64)) : Poly A ℤ := p.mapCoeffs BitVec.toInt

theorem canonical_signed {p : Poly A (BitVec 64)} (hp : Canonical p.terms) :
    Canonical (signed p).terms where
  keys := pairwise_map.mpr hp.keys
  sorted := by
    intro t ht
    obtain ⟨u, hu, rfl⟩ := mem_map.mp ht
    exact hp.sorted u hu
  nonzero := by
    intro t ht
    obtain ⟨u, hu, rfl⟩ := mem_map.mp ht
    intro hzero
    exact hp.nonzero u hu (BitVec.toInt_inj.mp hzero)

theorem split_signed {p : Poly A (BitVec 64)} (hp : Canonical p.terms) {a : A}
    {coeff rest : Poly A (BitVec 64)} (h : p.split a = some (coeff, rest)) :
    coeff.mentions a = false ∧ rest.mentions a = false ∧
      (signed p).toMv = (signed coeff).toMv * MvPolynomial.X a + (signed rest).toMv := by
  obtain ⟨hcoeff, hrest, -⟩ := Poly.split_spec hp h
  have hsigned : (signed p).split a = some (signed coeff, signed rest) := by
    rw [signed, Poly.split_mapCoeffs, h]
    rfl
  exact ⟨Poly.mentions_eq_false.mpr hcoeff.free, Poly.mentions_eq_false.mpr hrest.free,
    (Poly.split_spec (canonical_signed hp) hsigned).2.2⟩

namespace PolyExpr

theorem coeff_signed {e : PolyExpr A} (h : CoeffsFit (e.build ℤ)) (d : A →₀ ℕ) :
    Signed 64 (MvPolynomial.coeff d e.toMv) := by
  rw [← toMv_build_int, Poly.toMv]
  by_cases hd : ∃ t ∈ (e.build ℤ).terms, degrees t.1 = d
  · obtain ⟨t, ht, rfl⟩ := hd
    rw [(canonical_build ℤ e).coeff_eq ht]
    exact h t ht
  · rw [coeff_denote_of_ne fun t ht heq => hd ⟨t, ht, heq⟩]
    decide

theorem beq_build_iff_int {e f : PolyExpr A} (he : CoeffsFit (e.build ℤ))
    (hf : CoeffsFit (f.build ℤ)) :
    (e.build (BitVec 64)).beq (f.build (BitVec 64)) = true ↔ e.toMv = f.toMv := by
  rw [beq_build_iff]
  constructor
  · intro h
    ext d
    refine (coeff_signed he d).cast_injective (coeff_signed hf d) ?_
    simpa [MvPolynomial.coeff_map] using congrArg (MvPolynomial.coeff d) h
  · intro h
    rw [h]

theorem build_eq_map {e : PolyExpr A} (h : CoeffsFit (e.build ℤ)) :
    (e.build (BitVec 64)).terms =
      (e.build ℤ).terms.map fun t => (t.1, (t.2 : BitVec 64)) := by
  have hint := canonical_build ℤ e
  have hmap : Canonical ((e.build ℤ).terms.map fun t => (t.1, (t.2 : BitVec 64))) := by
    refine ⟨pairwise_map.mpr hint.keys, fun t ht => ?_, fun t ht => ?_⟩
    · obtain ⟨u, hu, rfl⟩ := mem_map.mp ht
      exact hint.sorted u hu
    · obtain ⟨u, hu, rfl⟩ := mem_map.mp ht
      intro hzero
      refine hint.nonzero u hu ((h u hu).cast_injective (by decide) ?_)
      simpa using hzero
  refine (canonical_build (BitVec 64) e).eq_of_denote_eq hmap ?_
  have hdenote := toMv_build (BitVec 64) e
  rw [Poly.toMv] at hdenote
  rw [hdenote, ← toMv_build_int, Poly.toMv]
  generalize (e.build ℤ).terms = ts
  induction ts with
  | nil => simp
  | cons t ts ih => simp [ih, MvPolynomial.map_monomial]

theorem signed_build {e : PolyExpr A} (h : CoeffsFit (e.build ℤ)) :
    signed (e.build (BitVec 64)) = e.build ℤ := by
  have hterm : ∀ t ∈ (e.build ℤ).terms,
      ((t.1, ((t.2 : BitVec 64)).toInt) : Mono A × ℤ) = id t := by
    intro t ht
    rw [(h t ht).toInt_cast, id]
  rw [signed, Poly.mapCoeffs, build_eq_map h, map_map]
  have hmap := map_congr_left hterm
  rw [map_id] at hmap
  exact congrArg Poly.mk hmap

end PolyExpr

end Fits

/-! ### The expressions -/

inductive IntType where
  | index
  | int (width : ℕ)
  deriving DecidableEq, Repr

def IntType.width : IntType → ℕ
  | .index => 64
  | .int width => width

inductive BinaryOp where
  | addI
  | subI
  | mulI
  deriving DecidableEq, Repr

def BinaryOp.apply : BinaryOp → ℤ → ℤ → ℤ
  | .addI, x, y => x + y
  | .subI, x, y => x - y
  | .mulI, x, y => x * y

/-- A scalar by the operation that defines it: a constant, an arithmetic operation, a cast
(`arith.extsi` and `arith.index_cast`), any other integer, or no integer at all. -/
inductive Scalar (V : Type) where
  | constant (type : IntType) (c : ℤ)
  | binary (op : BinaryOp) (type : IntType) (a b : Scalar V)
  | extSI (type : IntType) (a : Scalar V)
  | indexCast (type : IntType) (a : Scalar V)
  | value (type : IntType) (v : V)
  | other

/-- A tensor by the operation that defines it; `other` is a tensor defined by anything
else, of integer elements if it has an element type here. -/
inductive Tensor (V : Type) where
  | constant (shape : List ℕ) (type : IntType) (c : ℤ)
  | makeRange (start stop : ℤ)
  | splat (shape : List ℕ) (a : Scalar V)
  | broadcast (shape : List ℕ) (a : Tensor V)
  | expandDims (axis : ℕ) (a : Tensor V)
  | binary (op : BinaryOp) (a b : Tensor V)
  | other (shape : List ℕ) (type : Option IntType)

inductive Operand (V : Type) where
  | scalar (a : Scalar V)
  | tensor (a : Tensor V)

/-- The lane indices of a tile: rows and columns. -/
inductive Dim where
  | I
  | J
  deriving DecidableEq, Repr

inductive Atom (V : Type) where
  | dim (d : Dim)
  | value (v : V)
  deriving DecidableEq, Repr

variable {V : Type}

def Scalar.type : Scalar V → Option IntType
  | .constant type _ => some type
  | .binary _ type _ _ => some type
  | .extSI type _ => some type
  | .indexCast type _ => some type
  | .value type _ => some type
  | .other => none

def Tensor.shape : Tensor V → List ℕ
  | .constant shape _ _ => shape
  | .makeRange start stop => [(stop - start).toNat]
  | .splat shape _ => shape
  | .broadcast shape _ => shape
  | .expandDims axis a => a.shape.insertIdx axis 1
  | .binary _ a _ => a.shape
  | .other shape _ => shape

def Tensor.elementType : Tensor V → Option IntType
  | .constant _ type _ => some type
  | .makeRange _ _ => some (.int 32)
  | .splat _ a => a.type
  | .broadcast _ a => a.elementType
  | .expandDims _ a => a.elementType
  | .binary _ a _ => a.elementType
  | .other _ type => type

/-! ### `PolyEval` -/

section Eval

variable (R : Type) [LinearOrder (Atom V)] [CommRing R] [DecidableEq R]

def applyPoly : BinaryOp → Poly (Atom V) R → Poly (Atom V) R → Poly (Atom V) R
  | .addI, p, q => p.add q
  | .subI, p, q => p.sub q
  | .mulI, p, q => p.mul q

def scalar : Scalar V → Option (Poly (Atom V) R)
  | .constant _ c => some (.cst (c : R))
  | .binary op _ a b => do
      let p ← scalar a
      let q ← scalar b
      some (applyPoly R op p q)
  | .extSI _ a => scalar a
  | .indexCast _ a => scalar a
  | .value _ v => some (.atom (.value v))
  | .other => none

/-- The elements are integers, not indices, and the rank is at most 2. -/
def evaluable (a : Tensor V) : Bool :=
  (match a.elementType with
    | some (.int _) => true
    | _ => false) && a.shape.length ≤ 2

/-- `getStart()` is an unsigned number of 32 bits. -/
def getStart (start : ℤ) : ℤ := start % 2 ^ 32

def tensor : Tensor V → Dim → Option (Poly (Atom V) R)
  | .constant shape type c, _ =>
      if evaluable (.constant shape type c : Tensor V) then some (.cst (c : R)) else none
  | .makeRange start _, lane =>
      some ((Poly.cst (getStart start : R)).add (.atom (.dim lane)))
  | .splat shape a, _ => if evaluable (.splat shape a) then scalar R a else none
  | .broadcast shape a, lane =>
      if evaluable (.broadcast shape a) then tensor a lane else none
  | .expandDims axis a, _ =>
      if evaluable (.expandDims axis a) then
        if (Tensor.expandDims axis a).shape.length ≠ 2 then none
        else tensor a (if axis = 1 then .I else .J)
      else none
  | .binary op a b, lane =>
      if evaluable (.binary op a b) then do
        let p ← tensor a lane
        let q ← tensor b lane
        some (applyPoly R op p q)
      else none
  | .other _ _, _ => none

def operand : Operand V → Dim → Option (Poly (Atom V) R)
  | .scalar a, _ => scalar R a
  | .tensor a, lane => tensor R a lane

end Eval

/-! ### What the expressions compute -/

section Values

/-- The result of an operation of this type, unless it overflows. -/
def checked (type : IntType) (n : ℤ) : Option ℤ :=
  if Signed type.width n then some n else none

def Scalar.eval (σ : V → ℤ) : Scalar V → Option ℤ
  | .constant _ c => some c
  | .binary op type a b => do
      let x ← a.eval σ
      let y ← b.eval σ
      checked type (op.apply x y)
  | .extSI _ a => a.eval σ
  | .indexCast type a => a.eval σ >>= checked type
  | .value _ v => some (σ v)
  | .other => none

def sourceIndex (dim i : ℕ) : ℕ := if dim = 1 then 0 else i

def Tensor.elem (σ : V → ℤ) : Tensor V → List ℕ → Option ℤ
  | .constant _ _ c, _ => some c
  | .makeRange start _, idx => some (start + idx.headD 0)
  | .splat _ a, _ => a.eval σ
  | .broadcast _ a, idx =>
      a.elem σ (List.zipWith sourceIndex a.shape idx)
  | .expandDims axis a, idx => a.elem σ (idx.eraseIdx axis)
  | .binary op a b, idx => do
      let x ← a.elem σ idx
      let y ← b.elem σ idx
      a.elementType.bind fun type => checked type (op.apply x y)
  | .other _ _, _ => none

def Tensor.WellFormed : Tensor V → Prop
  | .makeRange start stop => start ≤ stop ∧ Signed 32 start ∧ Signed 32 stop
  | .broadcast shape a =>
      a.WellFormed ∧ List.Forall₂ (fun dim dim' => dim = 1 ∨ dim = dim') a.shape shape
  | .expandDims axis a => a.WellFormed ∧ axis ≤ a.shape.length
  | .binary _ a b => a.WellFormed ∧ b.WellFormed ∧ a.shape = b.shape
  | _ => True

/-- The lanes that index a tensor: the given one if it has one dimension. -/
def laneDims (lane : Dim) : ℕ → List Dim
  | 0 => []
  | 1 => [lane]
  | _ => [.I, .J]

/-- What an atom stands for: a scalar's value or a lane's number. -/
def valuation (σ : V → ℤ) (lanes : Dim → ℕ) : Atom V → ℤ
  | .dim d => lanes d
  | .value v => σ v

/-- Where the evaluation is right: ranges start at no negative number, and no broadcast
stretches a dimension of size one whose lane the polynomial of its source mentions. -/
def Tensor.Regular (R : Type) [LinearOrder (Atom V)] [CommRing R] [DecidableEq R] :
    Tensor V → Dim → Prop
  | .makeRange start _, _ => 0 ≤ start
  | .broadcast shape a, lane =>
      a.Regular R lane ∧ ∀ p, tensor R a lane = some p →
        ∀ t ∈ (laneDims lane a.shape.length).zip (a.shape.zip shape),
          t.2.1 = 1 → t.2.2 ≠ 1 → p.mentions (.dim t.1) = false
  | .expandDims axis a, _ => a.Regular R (if axis = 1 then .I else .J)
  | .binary _ a b, lane => a.Regular R lane ∧ b.Regular R lane
  | _, _ => True

end Values

/-! ### The polynomial's value is the expression's -/

section Sound

variable {R : Type} [LinearOrder (Atom V)] [CommRing R] [DecidableEq R]
  (σ : V → ℤ)

def ringValuation (R : Type) [CommRing R] (σ : V → ℤ) (lanes : Dim → ℕ) (a : Atom V) : R :=
  (valuation σ lanes a : ℤ)

theorem applyPoly_eval (op : BinaryOp) {p q : Poly (Atom V) R} {ρ : Atom V → R} {x y : ℤ}
    (hp : p.eval ρ = x) (hq : q.eval ρ = y) : (applyPoly R op p q).eval ρ = op.apply x y := by
  rw [Poly.eval_eq] at hp hq
  cases op with
  | addI => simp [applyPoly, BinaryOp.apply, Poly.eval_eq, Poly.toMv_add, hp, hq]
  | subI => simp [applyPoly, BinaryOp.apply, Poly.eval_eq, Poly.toMv_sub, hp, hq]
  | mulI => simp [applyPoly, BinaryOp.apply, Poly.eval_eq, Poly.toMv_mul, hp, hq]

theorem checked_eq_some {type : IntType} {n x : ℤ} (h : checked type n = some x) : x = n := by
  by_cases hs : Signed type.width n
  · simpa [checked, hs] using h.symm
  · simp [checked, hs] at h

omit [LinearOrder (Atom V)] in
theorem cst_eval (c : ℤ) (ρ : Atom V → R) : (Poly.cst (c : R)).eval ρ = c := by
  simp [Poly.eval_eq, Poly.toMv_cst]

theorem scalar_eval {a : Scalar V} {p : Poly (Atom V) R} {x : ℤ} (lanes : Dim → ℕ)
    (h : scalar R a = some p) (hx : a.eval σ = some x) :
    p.eval (ringValuation R σ lanes) = x := by
  induction a generalizing p x with
  | constant type c =>
    obtain rfl := Option.some.inj h
    obtain rfl := Option.some.inj hx
    exact cst_eval c _
  | binary op type a b iha ihb =>
    simp only [scalar, Option.bind_eq_bind, Option.bind_eq_some_iff, Option.some.injEq] at h
    obtain ⟨pa, hpa, pb, hpb, rfl⟩ := h
    simp only [Scalar.eval, Option.bind_eq_bind, Option.bind_eq_some_iff] at hx
    obtain ⟨xa, hxa, xb, hxb, hx⟩ := hx
    rw [checked_eq_some hx]
    exact applyPoly_eval op (iha hpa hxa) (ihb hpb hxb)
  | extSI type a ih => exact ih h hx
  | indexCast type a ih =>
    simp only [Scalar.eval, Option.bind_eq_bind, Option.bind_eq_some_iff] at hx
    obtain ⟨xa, hxa, hx⟩ := hx
    rw [checked_eq_some hx]
    exact ih h hxa
  | value type v =>
    obtain rfl := Option.some.inj h
    obtain rfl := Option.some.inj hx
    simp [Poly.eval_eq, Poly.toMv_atom, ringValuation, valuation]
  | other => simp [scalar] at h

omit [DecidableEq R] in
/-- A lane may be set to zero when its number is zero already or the polynomial does not
mention it. -/
theorem eval_squeeze {p : Poly (Atom V) R} {lanes lanes' : Dim → ℕ}
    (h : ∀ d, lanes' d = lanes d ∨ p.mentions (.dim d) = false) :
    p.eval (ringValuation R σ lanes) = p.eval (ringValuation R σ lanes') := by
  refine Poly.eval_congr fun a ha => ?_
  cases a with
  | value v => rfl
  | dim d =>
    rcases h d with heq | hfree
    · simp only [ringValuation, valuation, heq]
    · rw [hfree] at ha
      exact absurd ha (by decide)

theorem sourceIndex_lt {dim dim' i : ℕ} (hdim : dim = 1 ∨ dim = dim') (hi : i < dim') :
    sourceIndex dim i < dim := by
  by_cases h : dim = 1
  · simp [sourceIndex, h]
  · rw [sourceIndex, if_neg h]
    omega

theorem sourceIndex_eq_or {dim dim' i : ℕ} {free : Prop} (hi : i < dim')
    (hfree : dim = 1 → dim' ≠ 1 → free) : sourceIndex dim i = i ∨ free := by
  by_cases h : dim = 1
  · by_cases h' : dim' = 1
    · left
      rw [sourceIndex, if_pos h]
      omega
    · exact .inr (hfree h h')
  · exact .inl (if_neg h)

omit [DecidableEq R] in
theorem broadcast_eval {lane : Dim} {lanes : Dim → ℕ} {dims dims' : List ℕ}
    {p : Poly (Atom V) R} (hdims : List.Forall₂ (fun dim dim' => dim = 1 ∨ dim = dim') dims dims')
    (hrank : dims.length ≤ 2)
    (hidx : List.Forall₂ (· < ·) ((laneDims lane dims.length).map lanes) dims')
    (hfree : ∀ t ∈ (laneDims lane dims.length).zip (dims.zip dims'),
      t.2.1 = 1 → t.2.2 ≠ 1 → p.mentions (.dim t.1) = false) :
    ∃ lanes' : Dim → ℕ,
      List.zipWith sourceIndex dims ((laneDims lane dims.length).map lanes) =
        (laneDims lane dims.length).map lanes' ∧
      List.Forall₂ (· < ·) ((laneDims lane dims.length).map lanes') dims ∧
      p.eval (ringValuation R σ lanes) = p.eval (ringValuation R σ lanes') := by
  cases hdims with
  | nil => exact ⟨lanes, rfl, .nil, rfl⟩
  | @cons m n ms ns hm hms =>
    cases hms with
    | nil =>
      simp only [length_singleton, laneDims, map_cons, map_nil,
        forall₂_cons, zip_cons_cons, zip_nil_left, forall_mem_singleton]
        at hidx hfree ⊢
      refine ⟨fun d => if d = lane then sourceIndex m (lanes lane) else lanes d, ?_, ?_, ?_⟩
      · simp
      · simpa using sourceIndex_lt hm hidx.1
      · refine eval_squeeze σ fun d => ?_
        by_cases hd : d = lane
        · simpa [hd] using sourceIndex_eq_or hidx.1 hfree
        · simp [hd]
    | @cons m' n' ms ns hm' hms =>
      have hnil : ms = [] := by
        cases ms with
        | nil => rfl
        | cons => simp at hrank
      subst hnil
      cases hms
      simp only [length_cons, length_nil, laneDims, map_cons, map_nil,
        forall₂_cons, zip_cons_cons, zip_nil_left, forall_mem_cons]
        at hidx hfree ⊢
      refine ⟨fun d => match d with
        | .I => sourceIndex m (lanes .I)
        | .J => sourceIndex m' (lanes .J), rfl, ?_, ?_⟩
      · exact ⟨sourceIndex_lt hm hidx.1, sourceIndex_lt hm' hidx.2.1, .nil⟩
      · refine eval_squeeze σ fun d => ?_
        cases d with
        | I => exact sourceIndex_eq_or hidx.1 hfree.1
        | J => exact sourceIndex_eq_or hidx.2.1 hfree.2.1

theorem getStart_eq {start : ℤ} (h : 0 ≤ start) (hs : Signed 32 start) :
    getStart start = start := by
  have hlt : start < 2 ^ 31 := by
    rw [← hs]
    have := Int.bmod_lt (x := start) (m := 2 ^ 32) (by decide)
    exact this
  rw [getStart]
  omega

theorem tensor_eval {a : Tensor V} {lane : Dim} {p : Poly (Atom V) R} {x : ℤ}
    {lanes : Dim → ℕ} (h : tensor R a lane = some p) (hwf : a.WellFormed)
    (hreg : a.Regular R lane)
    (hidx : List.Forall₂ (· < ·) ((laneDims lane a.shape.length).map lanes) a.shape)
    (hx : a.elem σ ((laneDims lane a.shape.length).map lanes) = some x) :
    p.eval (ringValuation R σ lanes) = x := by
  induction a generalizing lane p x lanes with
  | constant shape type c =>
    simp only [tensor, Option.ite_none_right_eq_some, Option.some.injEq] at h
    obtain ⟨-, rfl⟩ := h
    obtain rfl := Option.some.inj hx
    exact cst_eval c _
  | makeRange start stop =>
    obtain rfl := Option.some.inj h
    obtain rfl := Option.some.inj hx
    rw [getStart_eq hreg hwf.2.1, Poly.eval_eq, Poly.toMv_add, map_add, ← Poly.eval_eq,
      cst_eval, Poly.toMv_atom]
    simp [ringValuation, valuation, Tensor.shape, laneDims]
  | splat shape a =>
    simp only [tensor, Option.ite_none_right_eq_some] at h
    exact scalar_eval σ lanes h.2 hx
  | broadcast shape a ih =>
    simp only [tensor, Option.ite_none_right_eq_some, evaluable, Bool.and_eq_true,
      decide_eq_true_eq] at h
    obtain ⟨⟨-, hrank⟩, h⟩ := h
    obtain ⟨hwf, hdims⟩ := hwf
    obtain ⟨hreg, hfree⟩ := hreg
    have hlen : shape.length = a.shape.length := hdims.length_eq.symm
    simp only [Tensor.shape, Tensor.elem, hlen] at hidx hx hrank
    obtain ⟨lanes', hsource, hidx', heq⟩ :=
      broadcast_eval σ hdims hrank hidx (hfree p h)
    rw [hsource] at hx
    rw [heq]
    exact ih h hwf hreg hidx' hx
  | expandDims axis a ih =>
    simp only [tensor, Option.ite_none_right_eq_some, Option.ite_none_left_eq_some] at h
    obtain ⟨-, hrank, h⟩ := h
    rw [not_not] at hrank
    obtain ⟨hwf, haxis⟩ := hwf
    have hone : a.shape.length = 1 := by
      simp only [Tensor.shape, length_insertIdx_of_le_length haxis] at hrank
      omega
    obtain ⟨n, hshape⟩ := length_eq_one_iff.mp hone
    simp only [hrank, Tensor.elem, laneDims] at hidx hx
    simp only [Tensor.shape, hshape] at hidx haxis
    rw [length_singleton] at haxis
    have hone' : axis = 0 ∨ axis = 1 := by omega
    rcases hone' with rfl | rfl
    · simp only [insertIdx_zero, map_cons, map_nil, forall₂_cons] at hidx
      refine ih h hwf hreg ?_ ?_
      · simpa [hshape, laneDims] using hidx.2.1
      · simpa [hshape, laneDims] using hx
    · simp only [insertIdx_succ_cons, insertIdx_zero, map_cons, map_nil,
        forall₂_cons] at hidx
      refine ih h hwf hreg ?_ ?_
      · simpa [hshape, laneDims] using hidx.1
      · simpa [hshape, laneDims] using hx
  | binary op a b iha ihb =>
    simp only [tensor, Option.ite_none_right_eq_some, Option.bind_eq_bind,
      Option.bind_eq_some_iff, Option.some.injEq] at h
    obtain ⟨-, pa, hpa, pb, hpb, rfl⟩ := h
    obtain ⟨hwfa, hwfb, hshape⟩ := hwf
    simp only [Tensor.elem, Tensor.shape, Option.bind_eq_bind, Option.bind_eq_some_iff] at hx hidx
    obtain ⟨xa, hxa, xb, hxb, type, -, hx⟩ := hx
    rw [checked_eq_some hx]
    exact applyPoly_eval op (iha hpa hwfa hreg.1 hidx hxa)
      (ihb hpb hwfb hreg.2 (hshape ▸ hidx) (hshape ▸ hxb))
  | other shape type => simp [tensor] at h

end Sound

/-! ### Scalars and tensors -/

section Operands

def Operand.shape : Operand V → List ℕ
  | .scalar _ => []
  | .tensor a => a.shape

def Operand.elem (σ : V → ℤ) : Operand V → List ℕ → Option ℤ
  | .scalar a, _ => a.eval σ
  | .tensor a, idx => a.elem σ idx

def Operand.WellFormed : Operand V → Prop
  | .scalar _ => True
  | .tensor a => a.WellFormed

variable [LinearOrder (Atom V)]

def Operand.Regular (R : Type) [CommRing R] [DecidableEq R] : Operand V → Dim → Prop
  | .scalar _, _ => True
  | .tensor a, lane => a.Regular R lane

/-- The numbers of the lanes as the index of an operand of this shape. -/
def index (lane : Dim) (lanes : Dim → ℕ) (shape : List ℕ) : List ℕ :=
  (laneDims lane shape.length).map lanes

theorem operand_eval {R : Type} [CommRing R] [DecidableEq R] (σ : V → ℤ) {a : Operand V}
    {lane : Dim} {p : Poly (Atom V) R} {x : ℤ} {lanes : Dim → ℕ}
    (h : operand R a lane = some p) (hwf : a.WellFormed) (hreg : a.Regular R lane)
    (hidx : List.Forall₂ (· < ·) (index lane lanes a.shape) a.shape)
    (hx : a.elem σ (index lane lanes a.shape) = some x) :
    p.eval (ringValuation R σ lanes) = x := by
  cases a with
  | scalar a => exact scalar_eval σ lanes h hx
  | tensor a => exact tensor_eval σ h hwf hreg hidx hx

def applyExpr : BinaryOp → PolyExpr (Atom V) → PolyExpr (Atom V) → PolyExpr (Atom V)
  | .addI, e, f => .add e f
  | .subI, e, f => .sub e f
  | .mulI, e, f => .mul e f

theorem build_applyExpr (R : Type) [CommRing R] [DecidableEq R] (op : BinaryOp)
    (e f : PolyExpr (Atom V)) :
    (applyExpr op e f).build R = applyPoly R op (e.build R) (f.build R) := by
  cases op <;> rfl

theorem scalar_built (a : Scalar V) :
    (∀ (R : Type) [CommRing R] [DecidableEq R], scalar R a = none) ∨
      ∃ e : PolyExpr (Atom V), ∀ (R : Type) [CommRing R] [DecidableEq R],
        scalar R a = some (e.build R) := by
  induction a with
  | constant type c => exact .inr ⟨.cst c, fun R _ _ => rfl⟩
  | binary op type a b iha ihb =>
    rcases iha with ha | ⟨e, he⟩
    · exact .inl fun R _ _ => by simp [scalar, ha]
    · rcases ihb with hb | ⟨f, hf⟩
      · exact .inl fun R _ _ => by simp [scalar, hb]
      · exact .inr ⟨applyExpr op e f, fun R _ _ => by
          simp [scalar, he, hf, build_applyExpr]⟩
  | extSI type a ih => exact ih
  | indexCast type a ih => exact ih
  | value type v => exact .inr ⟨.atom (.value v), fun R _ _ => rfl⟩
  | other => exact .inl fun R _ _ => rfl

theorem tensor_built (a : Tensor V) (lane : Dim) :
    (∀ (R : Type) [CommRing R] [DecidableEq R], tensor R a lane = none) ∨
      ∃ e : PolyExpr (Atom V), ∀ (R : Type) [CommRing R] [DecidableEq R],
        tensor R a lane = some (e.build R) := by
  induction a generalizing lane with
  | constant shape type c =>
    by_cases hev : evaluable (.constant shape type c : Tensor V)
    · exact .inr ⟨.cst c, fun R _ _ => by simp [tensor, hev, PolyExpr.build]⟩
    · exact .inl fun R _ _ => by simp [tensor, hev]
  | makeRange start stop =>
    exact .inr ⟨.add (.cst (getStart start)) (.atom (.dim lane)), fun R _ _ => rfl⟩
  | splat shape a =>
    by_cases hev : evaluable (.splat shape a)
    · simpa only [tensor, if_pos hev] using scalar_built a
    · exact .inl fun R _ _ => by simp [tensor, hev]
  | broadcast shape a ih =>
    by_cases hev : evaluable (.broadcast shape a)
    · simpa only [tensor, if_pos hev] using ih lane
    · exact .inl fun R _ _ => by simp [tensor, hev]
  | expandDims axis a ih =>
    by_cases hev : evaluable (.expandDims axis a)
    · by_cases hrank : (Tensor.expandDims axis a).shape.length ≠ 2
      · exact .inl fun R _ _ => by simp only [tensor, if_pos hev, if_pos hrank]
      · simpa only [tensor, if_pos hev, if_neg hrank] using ih (if axis = 1 then .I else .J)
    · exact .inl fun R _ _ => by simp [tensor, hev]
  | binary op a b iha ihb =>
    by_cases hev : evaluable (.binary op a b)
    · rcases iha lane with ha | ⟨e, he⟩
      · exact .inl fun R _ _ => by simp [tensor, ha]
      · rcases ihb lane with hb | ⟨f, hf⟩
        · exact .inl fun R _ _ => by simp [tensor, hb]
        · exact .inr ⟨applyExpr op e f, fun R _ _ => by
            simp [tensor, hev, he, hf, build_applyExpr]⟩
    · exact .inl fun R _ _ => by simp [tensor, hev]
  | other shape type => exact .inl fun R _ _ => rfl

theorem operand_built {R : Type} [CommRing R] [DecidableEq R] {a : Operand V} {lane : Dim}
    {p : Poly (Atom V) R} (h : operand R a lane = some p) :
    ∃ e : PolyExpr (Atom V), ∀ (R : Type) [CommRing R] [DecidableEq R],
      operand R a lane = some (e.build R) := by
  cases a with
  | scalar a =>
    refine (scalar_built a).resolve_left fun hnone => ?_
    have hp : scalar R a = some p := h
    rw [hnone R] at hp
    cases hp
  | tensor a =>
    refine (tensor_built a lane).resolve_left fun hnone => ?_
    have hp : tensor R a lane = some p := h
    rw [hnone R] at hp
    cases hp

/-- Where the coefficients fit into 64 bits, the polynomial is the one over the integers,
and its value is the expression's. -/
theorem operand_eval_signed (σ : V → ℤ) {a : Operand V} {lane : Dim}
    {p : Poly (Atom V) (BitVec 64)} {q : Poly (Atom V) ℤ} {x : ℤ} {lanes : Dim → ℕ}
    (h : operand (BitVec 64) a lane = some p) (hq : operand ℤ a lane = some q)
    (hfit : CoeffsFit q) (hwf : a.WellFormed) (hreg : a.Regular ℤ lane)
    (hidx : List.Forall₂ (· < ·) (index lane lanes a.shape) a.shape)
    (hx : a.elem σ (index lane lanes a.shape) = some x) :
    (signed p).eval (valuation σ lanes) = x := by
  obtain ⟨e, he⟩ := operand_built h
  obtain rfl : e.build (BitVec 64) = p := Option.some.inj ((he (BitVec 64)).symm.trans h)
  obtain rfl : e.build ℤ = q := Option.some.inj ((he ℤ).symm.trans hq)
  rw [PolyExpr.signed_build hfit]
  exact operand_eval σ hq hwf hreg hidx hx

end Operands

end TritonCpu.PolyEval
