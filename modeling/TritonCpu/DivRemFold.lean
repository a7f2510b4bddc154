import Mathlib.Data.Int.ModEq
import Mathlib.Data.List.Sort
import Mathlib.Algebra.BigOperators.Group.List.Basic
import Mathlib.Tactic.Ring

/-!
# Folding a division and its remainder back together

The offset of an `addptr` may hold `k * (x / c) * c + k * (x % c)` among its addends.
`foldDivRemReconstruct` replaces the two by `k * x`, and the pass applies it until
nothing folds. The arithmetic wraps, and a leg may be extended from a narrower type.
-/

set_option autoImplicit false

namespace TritonCpu.DivRemFold

open List

/-! The values. -/

/-- An integer, or a tensor of them. -/
structure Ty where
  shape : List ℕ
  width : ℕ
  deriving DecidableEq

structure OverflowFlags where
  nsw : Bool
  nuw : Bool
  deriving DecidableEq

def OverflowFlags.none : OverflowFlags := ⟨false, false⟩

inductive ArithOp where
  | addi | muli
  deriving DecidableEq

inductive DivRemOp where
  | divsi | remsi
  deriving DecidableEq

/-- A value: the address of its operation or block argument, and how it is defined. -/
inductive Value where
  | other (pointer : ℕ) (type : Ty)
  | arith (pointer : ℕ) (op : ArithOp) (flags : OverflowFlags) (lhs rhs : Value)
  | divRem (pointer : ℕ) (op : DivRemOp) (lhs rhs : Value)
  | extsi (pointer : ℕ) (type : Ty) (src : Value)
  deriving DecidableEq

namespace Value

def pointer : Value → ℕ
  | other pointer _ | arith pointer _ _ _ _ | divRem pointer _ _ _ | extsi pointer _ _ => pointer

def type : Value → Ty
  | other _ type => type
  | arith _ _ _ lhs _ => lhs.type
  | divRem _ _ lhs _ => lhs.type
  | extsi _ type _ => type

def Verified : Value → Prop
  | other _ _ => True
  | arith _ _ _ lhs rhs => lhs.Verified ∧ rhs.Verified ∧ lhs.type = rhs.type
  | divRem _ _ lhs rhs => lhs.Verified ∧ rhs.Verified ∧ lhs.type = rhs.type
  | extsi _ type src => src.Verified ∧ src.type.shape = type.shape ∧ src.type.width < type.width

/-- The number of operations in the expression, with those used twice counted twice. -/
def size : Value → ℕ
  | other _ _ => 1
  | arith _ _ _ lhs rhs | divRem _ _ lhs rhs => lhs.size + rhs.size + 1
  | extsi _ _ src => src.size + 1

end Value

/-! What the operations compute, at one position of a tensor. -/

/-- The signed integer that is left of `z` in `width` bits. -/
def wrap (width : ℕ) (z : ℤ) : ℤ := z.bmod (2 ^ width)

def ArithOp.apply : ArithOp → ℤ → ℤ → ℤ
  | addi => (· + ·)
  | muli => (· * ·)

def DivRemOp.apply : DivRemOp → ℤ → ℤ → ℤ
  | divsi => Int.tdiv
  | remsi => Int.tmod

section Semantics

variable (env : ℕ → ℤ)

def value : Value → ℤ
  | .other pointer type => wrap type.width (env pointer)
  | .arith _ op _ lhs rhs => wrap lhs.type.width (op.apply (value lhs) (value rhs))
  | .divRem _ op lhs rhs => wrap lhs.type.width (op.apply (value lhs) (value rhs))
  | .extsi _ _ src => value src

/-- No division by zero, and none of the smallest integer by `-1`. -/
def Defined : Value → Prop
  | .other _ _ => True
  | .arith _ _ _ lhs rhs => Defined lhs ∧ Defined rhs
  | .divRem _ _ lhs rhs => Defined lhs ∧ Defined rhs ∧ value env rhs ≠ 0 ∧
      ¬ (value env lhs = -2 ^ (lhs.type.width - 1) ∧ value env rhs = -1)
  | .extsi _ _ src => Defined src

end Semantics

/-! The pass. -/

/-- The leaves of a tree of one operation; a flagged operation fails. -/
def collectLeaves (op : ArithOp) (v : Value) : Option (List Value) :=
  match v with
  | .arith _ op' flags lhs rhs =>
    if op' = op then
      if flags = OverflowFlags.none then do
        let l ← collectLeaves op lhs
        let r ← collectLeaves op rhs
        return l ++ r
      else none
    else some [v]
  | _ => some [v]

def collectAddends : Value → Option (List Value) := collectLeaves .addi

def collectMulFactors : Value → Option (List Value) := collectLeaves .muli

structure DivRemLeg where
  isDiv : Bool
  x : Value
  c : Value
  factors : List Value
  innerType : Ty
  addendType : Ty
  isExtended : Bool

def sortByPointer (vals : List Value) : List Value := vals.mergeSort (·.pointer ≤ ·.pointer)

/-- The operands of a `divsi` or a `remsi`, and which of them it is. -/
def divRemOperands : Value → Option (DivRemOp × Value × Value)
  | .divRem _ op lhs rhs => some (op, lhs, rhs)
  | _ => none

def stripExtension : Value → Value × Bool
  | .extsi _ _ src => (src, true)
  | v => (v, false)

def classifyLeg (addend : Value) : Option DivRemLeg := do
  let (inner, isExtended) := stripExtension addend
  let factors ← collectMulFactors inner
  match factors.zipIdx.filter fun f => (divRemOperands f.1).isSome with
  | [(core, coreIdx)] =>
    let (op, x, c) ← divRemOperands core
    let rest := factors.eraseIdx coreIdx
    if op = .divsi then
      if c ∈ rest then
        return ⟨true, x, c, sortByPointer (rest.erase c), inner.type, addend.type, isExtended⟩
      else none
    else return ⟨false, x, c, sortByPointer rest, inner.type, addend.type, isExtended⟩
  | _ => none

def legsMatch (a b : DivRemLeg) : Bool :=
  a.x = b.x ∧ a.c = b.c ∧ a.innerType = b.innerType ∧ a.addendType = b.addendType ∧
    a.isExtended = b.isExtended ∧ a.factors = b.factors

section Builder

/-! The builder puts its operations at addresses of its own; `created` counts them. -/

variable (address : ℕ → ℕ)

def createArith (op : ArithOp) (s : Value × ℕ) (rhs : Value) : Value × ℕ :=
  (.arith (address s.2) op OverflowFlags.none s.1 rhs, s.2 + 1)

def rebuildDivRemLeg (leg : DivRemLeg) (created : ℕ) : Option (Value × ℕ) :=
  if leg.isExtended ∧ leg.factors ≠ [] then none
  else if leg.x.type ≠ leg.innerType then none
  else if ∃ factor ∈ leg.factors, factor.type ≠ leg.innerType then none
  else
    let s := leg.factors.foldl (createArith address .muli) (leg.x, created)
    if s.1.type ≠ leg.addendType then some (.extsi (address s.2) leg.addendType s.1, s.2 + 1)
    else some s

/-- The addends but those at `i` and `j`. -/
def otherAddends (addends : List Value) (i j : ℕ) : List Value :=
  (addends.zipIdx.filter fun a => a.2 ≠ i ∧ a.2 ≠ j).map Prod.fst

def foldDivRemReconstruct (root : Value) (created : ℕ) : Option (Value × ℕ) := do
  let addends ← collectAddends root
  if addends.length < 2 then none
  else
    let legs := addends.map classifyLeg
    (List.range addends.length).findSome? fun i => do
      let legI ← (legs[i]?).join
      if !legI.isDiv then none
      else
        (List.range addends.length).findSome? fun j => do
          let legJ ← (legs[j]?).join
          if i = j ∨ legJ.isDiv ∨ !legsMatch legI legJ then none
          else
            let rebuilt ← rebuildDivRemLeg address legI created
            return (otherAddends addends i j).foldl (createArith address .addi) rebuilt

def isAddIOp : Value → Bool
  | .arith _ .addi _ _ _ => true
  | _ => false

/-- The loop of the pass over one offset, with at most `fuel` folds; without an answer it
has not ended. -/
def foldLoop : ℕ → Value → ℕ → Option Value
  | 0, _, _ => none
  | fuel + 1, offset, created =>
    if isAddIOp offset then
      match foldDivRemReconstruct address offset created with
      | some (folded, created) => foldLoop fuel folded created
      | none => some offset
    else some offset

end Builder

/-! Arithmetic with wrap-around. -/

section Wrap

variable {width : ℕ} {a b x c : ℤ}

theorem wrap_modEq (width : ℕ) (z : ℤ) : wrap width z ≡ z [ZMOD 2 ^ width] := by
  have h := Int.bmod_emod (x := z) (m := 2 ^ width)
  rw [Nat.cast_pow, Nat.cast_ofNat] at h
  exact h

theorem wrap_congr (h : a ≡ b [ZMOD 2 ^ width]) : wrap width a = wrap width b := by
  rw [wrap, wrap, ← Int.emod_bmod, ← Int.emod_bmod (x := b), Nat.cast_pow, Nat.cast_ofNat, h]

theorem wrap_wrap (width : ℕ) (z : ℤ) : wrap width (wrap width z) = wrap width z :=
  wrap_congr (wrap_modEq width z)

def Signed (width : ℕ) (z : ℤ) : Prop := wrap width z = z

theorem Signed.eq_of_modEq (ha : Signed width a) (hb : Signed width b)
    (h : a ≡ b [ZMOD 2 ^ width]) : a = b := by
  rw [← ha, ← hb, wrap_congr h]

theorem Signed.bounds (h : Signed width a) : -(2 ^ width / 2) ≤ a ∧ a < (2 ^ width + 1) / 2 := by
  have hpos : 0 < 2 ^ width := Nat.two_pow_pos width
  have hlow := Int.le_bmod (x := a) hpos
  have hhigh := Int.bmod_lt (x := a) hpos
  have heq : a.bmod (2 ^ width) = a := h
  rw [heq, Nat.cast_pow, Nat.cast_ofNat] at hlow hhigh
  exact ⟨hlow, hhigh⟩

theorem signed_of_bounds (h : -(2 ^ width / 2) ≤ a ∧ a < (2 ^ width + 1) / 2) : Signed width a := by
  refine Int.bmod_eq_of_le ?_ ?_
  · rw [Nat.cast_pow, Nat.cast_ofNat]
    exact h.1
  · rw [Nat.cast_pow, Nat.cast_ofNat]
    exact h.2

theorem Signed.mono {wide : ℕ} (h : Signed width a) (hlt : width < wide) : Signed wide a := by
  have hbounds := h.bounds
  have hpow : (2 : ℤ) ^ width ≤ 2 ^ wide := by
    exact_mod_cast Nat.pow_le_pow_right (n := 2) (by decide) hlt.le
  exact signed_of_bounds (by omega)

theorem Signed.between (h : Signed width x) (hab : 0 ≤ a ∧ a ≤ x ∨ x ≤ a ∧ a ≤ 0) :
    Signed width a := by
  have hbounds := h.bounds
  have hpos : (0 : ℤ) < 2 ^ width := by exact_mod_cast Nat.two_pow_pos width
  exact signed_of_bounds (by omega)

theorem tmod_le (hx : 0 ≤ x) (c : ℤ) : 0 ≤ x.tmod c ∧ x.tmod c ≤ x := by
  have hnonneg := Int.tmod_nonneg c hx
  have habs := Int.natAbs_tmod x c
  have hle := Nat.mod_le x.natAbs c.natAbs
  omega

theorem tmod_between (x c : ℤ) : 0 ≤ x.tmod c ∧ x.tmod c ≤ x ∨ x ≤ x.tmod c ∧ x.tmod c ≤ 0 := by
  rcases le_total 0 x with hx | hx
  · exact .inl (tmod_le hx c)
  · have hneg := tmod_le (Int.neg_nonneg_of_nonpos hx) c
    rw [Int.neg_tmod] at hneg
    omega

theorem quotient_add_remainder (hx : Signed width x) (ha : Signed width a) (hb : Signed width b)
    (hquotient : a ≡ x.tdiv c * c [ZMOD 2 ^ width]) (hremainder : b ≡ x.tmod c [ZMOD 2 ^ width]) :
    a + b = x := by
  have hbetween := tmod_between x c
  have hsum := Int.tdiv_mul_add_tmod x c
  have hb' : b = x.tmod c := hb.eq_of_modEq (hx.between hbetween) hremainder
  have ha' : a = x.tdiv c * c := ha.eq_of_modEq (hx.between (by omega)) hquotient
  rw [ha', hb', hsum]

end Wrap

/-! Trees of one operation. -/

section Trees

variable {D : Prop} {env : ℕ → ℤ} {v : Value} {leaves : List Value} {op : ArithOp}

theorem value_signed (env : ℕ → ℤ) {v : Value} (hv : v.Verified) :
    Signed v.type.width (value env v) := by
  induction v with
  | other pointer type => exact wrap_wrap _ _
  | arith pointer op flags lhs rhs => exact wrap_wrap _ _
  | divRem pointer op lhs rhs => exact wrap_wrap _ _
  | extsi pointer type src ih => exact (ih hv.1).mono hv.2.2

def ArithOp.total : ArithOp → List ℤ → ℤ
  | addi => List.sum
  | muli => List.prod

theorem total_append (op : ArithOp) (l r : List ℤ) :
    op.total (l ++ r) = op.apply (op.total l) (op.total r) := by
  cases op
  · exact sum_append
  · exact prod_append

theorem total_singleton (op : ArithOp) (z : ℤ) : op.total [z] = z := by
  cases op
  · exact sum_singleton
  · exact prod_singleton

theorem total_perm (op : ArithOp) {l r : List ℤ} (h : l.Perm r) : op.total l = op.total r := by
  cases op
  · exact h.sum_eq
  · exact h.prod_eq

theorem apply_modEq (op : ArithOp) {a b c d m : ℤ} (h : a ≡ b [ZMOD m]) (h' : c ≡ d [ZMOD m]) :
    op.apply a c ≡ op.apply b d [ZMOD m] := by
  cases op
  · exact h.add h'
  · exact h.mul h'

/-- A value of a type, as the verifier wants it, and the division rules too where `D` holds. -/
structure Proper (env : ℕ → ℤ) (D : Prop) (type : Ty) (v : Value) : Prop where
  type : v.type = type
  verified : v.Verified
  defined : D → Defined env v

/-- The leaves of a tree have its type, make up its value, and are smaller together. -/
structure Leaves (env : ℕ → ℤ) (D : Prop) (op : ArithOp) (v : Value) (leaves : List Value) : Prop where
  proper : ∀ leaf ∈ leaves, Proper env D v.type leaf
  total : op.total (leaves.map (value env)) ≡ value env v [ZMOD 2 ^ v.type.width]
  size : (leaves.map fun leaf => leaf.size + 1).sum = v.size + 1

theorem Leaves.self {type : Ty} (h : Proper env D type v) : Leaves env D op v [v] where
  proper := by
    rintro leaf hleaf
    rw [mem_singleton.mp hleaf]
    exact ⟨rfl, h.verified, h.defined⟩
  total := by rw [map_singleton, total_singleton]
  size := sum_singleton

theorem collectLeaves_spec (hv : v.Verified) (hdefined : D → Defined env v)
    (h : collectLeaves op v = some leaves) : Leaves env D op v leaves := by
  induction v generalizing leaves with
  | other pointer type =>
    obtain rfl := Option.some.inj h
    exact .self ⟨rfl, hv, hdefined⟩
  | divRem pointer op' lhs rhs =>
    obtain rfl := Option.some.inj h
    exact .self ⟨rfl, hv, hdefined⟩
  | extsi pointer type src =>
    obtain rfl := Option.some.inj h
    exact .self ⟨rfl, hv, hdefined⟩
  | arith pointer op' flags lhs rhs ihl ihr =>
    rw [collectLeaves] at h
    split_ifs at h with hop hflags
    · obtain ⟨l, hl, h⟩ := Option.bind_eq_some_iff.mp h
      obtain ⟨r, hr, h⟩ := Option.bind_eq_some_iff.mp h
      obtain rfl := Option.some.inj h
      subst hop
      have hleft := ihl hv.1 (fun d => (hdefined d).1) hl
      have hright := ihr hv.2.1 (fun d => (hdefined d).2) hr
      refine ⟨?_, ?_, ?_⟩
      · intro leaf hleaf
        rcases mem_append.mp hleaf with hleaf | hleaf
        · exact hleft.proper leaf hleaf
        · obtain ⟨htype, hverified, hdef⟩ := hright.proper leaf hleaf
          exact ⟨htype.trans hv.2.2.symm, hverified, hdef⟩
      · rw [map_append, total_append]
        have hwidth := hright.total
        rw [← hv.2.2] at hwidth
        exact (apply_modEq _ hleft.total hwidth).trans (wrap_modEq _ _).symm
      · rw [map_append, sum_append, hleft.size, hright.size]
        show _ = lhs.size + rhs.size + 1 + 1
        omega
    · obtain rfl := Option.some.inj h
      exact .self ⟨rfl, hv, hdefined⟩

end Trees

/-! One leg. -/

section Legs

variable {D : Prop} {env : ℕ → ℤ} {v addend inner x c core : Value} {factors leaves : List Value}
  {op : DivRemOp} {leg : DivRemLeg} {i : ℕ}

def DivRemLeg.unscaled (env : ℕ → ℤ) (leg : DivRemLeg) : ℤ :=
  if leg.isDiv then (value env leg.x).tdiv (value env leg.c) * value env leg.c
  else (value env leg.x).tmod (value env leg.c)

def DivRemLeg.scale (env : ℕ → ℤ) (leg : DivRemLeg) : ℤ := (leg.factors.map (value env)).prod

/-- The size of `x` with its factors, as a product. -/
def DivRemLeg.size (leg : DivRemLeg) : ℕ :=
  leg.x.size + (leg.factors.map fun factor => factor.size + 1).sum

/-- What a leg says of a value of its inner type. -/
structure LegOf (env : ℕ → ℤ) (D : Prop) (inner : Value) (leg : DivRemLeg) : Prop where
  type : inner.type = leg.innerType
  x : Proper env D leg.innerType leg.x
  factors : ∀ factor ∈ leg.factors, Proper env D leg.innerType factor
  product : value env inner ≡ leg.unscaled env * leg.scale env [ZMOD 2 ^ leg.innerType.width]
  size : leg.size < inner.size

theorem divRemOperands_eq (h : divRemOperands v = some (op, x, c)) :
    ∃ pointer, v = .divRem pointer op x c := by
  cases v with
  | divRem pointer op' lhs rhs =>
    cases h
    exact ⟨pointer, rfl⟩
  | other pointer type => cases h
  | arith pointer op' flags lhs rhs => cases h
  | extsi pointer type src => cases h

theorem perm_core (h : (factors.zipIdx.filter fun f => (divRemOperands f.1).isSome) = [(core, i)]) :
    factors.Perm (core :: factors.eraseIdx i) := by
  have hmem : (core, i) ∈ factors.zipIdx :=
    mem_of_mem_filter (h ▸ mem_singleton.mpr rfl)
  obtain ⟨hi, hcore⟩ := List.getElem?_eq_some_iff.mp (mem_zipIdx_iff_getElem?.mp hmem)
  have hcore' : factors[i] = core := hcore
  rw [← hcore']
  exact (getElem_cons_eraseIdx_perm hi).symm

theorem sortByPointer_perm (vals : List Value) : (sortByPointer vals).Perm vals :=
  mergeSort_perm _ _

theorem LegOf.of_leaves {isDiv : Bool} {addendType : Ty} {isExtended : Bool}
    (extra : List Value) (hleaves : Leaves env D .muli inner leaves)
    (hcore : divRemOperands core = some (op, x, c))
    (hperm : leaves.Perm (core :: (extra ++ factors)))
    (hisDiv : isDiv = true ∧ op = .divsi ∧ extra = [c] ∨ isDiv = false ∧ op = .remsi ∧ extra = []) :
    LegOf env D inner ⟨isDiv, x, c, factors, inner.type, addendType, isExtended⟩ := by
  obtain ⟨pointer, rfl⟩ := divRemOperands_eq hcore
  have hproper := fun leaf hleaf => hleaves.proper leaf (hperm.mem_iff.mpr hleaf)
  obtain ⟨htype, hverified, hdefined⟩ := hproper _ mem_cons_self
  have htotal := hleaves.total
  have hsize := hleaves.size
  rw [total_perm .muli (hperm.map _)] at htotal
  rw [(hperm.map _).sum_eq] at hsize
  have htype' : x.type = inner.type := htype
  have hcoreValue : value env (.divRem pointer op x c) ≡ op.apply (value env x) (value env c)
      [ZMOD 2 ^ inner.type.width] := by
    rw [← htype']
    exact wrap_modEq _ _
  refine ⟨rfl, ⟨htype, hverified.1, fun d => (hdefined d).1⟩, fun factor hfactor => hproper factor
    (mem_cons_of_mem _ (mem_append_right _ hfactor)), ?_, ?_⟩
  · refine htotal.symm.trans ?_
    rw [map_cons, map_append, ← singleton_append, total_append, total_append,
      total_singleton]
    refine (apply_modEq .muli hcoreValue rfl).trans ?_
    rcases hisDiv with ⟨rfl, rfl, rfl⟩ | ⟨rfl, rfl, rfl⟩
    · rw [map_singleton, total_singleton, DivRemLeg.unscaled, if_pos rfl]
      show (_ * (_ * _) : ℤ) ≡ _ [ZMOD _]
      rw [← mul_assoc]
      rfl
    · rw [DivRemLeg.unscaled, if_neg Bool.false_ne_true]
      show (_ * (1 * _) : ℤ) ≡ _ [ZMOD _]
      rw [one_mul]
      rfl
  · rw [map_cons, sum_cons, map_append, sum_append] at hsize
    have hcoreSize : (Value.divRem pointer op x c).size = x.size + c.size + 1 := rfl
    show x.size + (factors.map fun factor => factor.size + 1).sum < inner.size
    omega

/-- The value that a leg is about: the addend, or what the addend extends. -/
structure Stripped (addend inner : Value) (isExtended : Bool) : Prop where
  verified : inner.Verified
  extended : isExtended = false ∧ inner = addend ∨
    isExtended = true ∧ ∃ pointer type, addend = .extsi pointer type inner

theorem stripExtension_spec (hv : addend.Verified) :
    Stripped addend (stripExtension addend).1 (stripExtension addend).2 := by
  cases addend with
  | extsi pointer type src => exact ⟨hv.1, .inr ⟨rfl, pointer, type, rfl⟩⟩
  | other pointer type => exact ⟨hv, .inl ⟨rfl, rfl⟩⟩
  | arith pointer op flags lhs rhs => exact ⟨hv, .inl ⟨rfl, rfl⟩⟩
  | divRem pointer op lhs rhs => exact ⟨hv, .inl ⟨rfl, rfl⟩⟩

theorem Stripped.defined {isExtended : Bool} (h : Stripped addend inner isExtended)
    (hdefined : D → Defined env addend) : D → Defined env inner := by
  rcases h.extended with ⟨-, rfl⟩ | ⟨-, pointer, type, rfl⟩
  · exact hdefined
  · exact hdefined

theorem classifyLeg_spec (hv : addend.Verified) (hdefined : D → Defined env addend)
    (h : classifyLeg addend = some leg) : leg.addendType = addend.type ∧
      ∃ inner, Stripped addend inner leg.isExtended ∧ LegOf env D inner leg := by
  have hstripped := stripExtension_spec hv
  rw [classifyLeg] at h
  obtain ⟨factors, hfactors, h⟩ := Option.bind_eq_some_iff.mp h
  have hleaves := collectLeaves_spec hstripped.verified (hstripped.defined hdefined) hfactors
  split at h
  case h_2 => cases h
  case h_1 core coreIdx hcores =>
    have hperm := perm_core hcores
    obtain ⟨⟨op, x, c⟩, hcore, h⟩ := Option.bind_eq_some_iff.mp h
    cases op with
    | divsi =>
      simp only [if_true] at h
      split_ifs at h with hc
      obtain rfl := Option.some.inj h
      refine ⟨rfl, _, hstripped, .of_leaves [c] hleaves hcore ?_
        (.inl ⟨rfl, rfl, rfl⟩)⟩
      have hsorted := sortByPointer_perm ((factors.eraseIdx coreIdx).erase c)
      exact hperm.trans (((perm_cons_erase hc).trans (hsorted.symm.cons c)).cons core)
    | remsi =>
      obtain rfl := Option.some.inj h
      refine ⟨rfl, _, hstripped, .of_leaves [] hleaves hcore ?_
        (.inr ⟨rfl, rfl, rfl⟩)⟩
      exact hperm.trans ((sortByPointer_perm _).symm.cons core)

end Legs

/-! What the builder makes. -/

section Rebuild

variable {D : Prop} {env : ℕ → ℤ} {address : ℕ → ℕ} {type : Ty} {l : List Value} {s : Value × ℕ}
  {legI legJ : DivRemLeg} {addendI addendJ rebuilt : Value} {created next : ℕ}

theorem apply_assoc (op : ArithOp) (a b c : ℤ) :
    op.apply (op.apply a b) c = op.apply a (op.apply b c) := by
  cases op
  · exact add_assoc a b c
  · exact mul_assoc a b c

theorem apply_total_nil (op : ArithOp) (a : ℤ) : op.apply a (op.total []) = a := by
  cases op
  · exact add_zero a
  · exact mul_one a

theorem createArith_proper (op : ArithOp) (hs : Proper env D type s.1) {a : Value}
    (ha : Proper env D type a) : Proper env D type (createArith address op s a).1 :=
  ⟨hs.type, ⟨hs.verified, ha.verified, hs.type.trans ha.type.symm⟩,
    fun d => ⟨hs.defined d, ha.defined d⟩⟩

theorem foldl_createArith (op : ArithOp) (hs : Proper env D type s.1)
    (hl : ∀ a ∈ l, Proper env D type a) :
    Proper env D type (l.foldl (createArith address op) s).1 ∧
      value env (l.foldl (createArith address op) s).1 ≡
        op.apply (value env s.1) (op.total (l.map (value env))) [ZMOD 2 ^ type.width] := by
  induction l generalizing s with
  | nil =>
    refine ⟨hs, ?_⟩
    rw [map_nil, apply_total_nil]
    rfl
  | cons a l ih =>
    have ha := hl a mem_cons_self
    obtain ⟨hproper, hvalue⟩ := ih (s := createArith address op s a) (createArith_proper op hs ha)
      fun b hb => hl b (mem_cons_of_mem a hb)
    refine ⟨hproper, hvalue.trans ?_⟩
    have hfirst : value env (createArith address op s a).1 ≡
        op.apply (value env s.1) (value env a) [ZMOD 2 ^ type.width] := by
      rw [← hs.type]
      exact wrap_modEq _ _
    refine (apply_modEq op hfirst rfl).trans ?_
    rw [apply_assoc, map_cons, ← singleton_append, total_append, total_singleton]

theorem size_foldl_createArith (op : ArithOp) (l : List Value) (s : Value × ℕ) :
    (l.foldl (createArith address op) s).1.size = s.1.size + (l.map fun a => a.size + 1).sum := by
  induction l generalizing s with
  | nil => rfl
  | cons a l ih =>
    rw [foldl_cons, ih, map_cons, sum_cons]
    show s.1.size + a.size + 1 + _ = _
    omega

/-- Two matching legs of one value: the quotient leg and the remainder leg. -/
structure LegPair (env : ℕ → ℤ) (D : Prop) (innerI innerJ : Value) (leg : DivRemLeg) : Prop where
  quotient : LegOf env D innerI leg
  typeJ : innerJ.type = leg.innerType
  valueI : value env innerI ≡
    (value env leg.x).tdiv (value env leg.c) * value env leg.c * leg.scale env
      [ZMOD 2 ^ leg.innerType.width]
  valueJ : value env innerJ ≡ (value env leg.x).tmod (value env leg.c) * leg.scale env
    [ZMOD 2 ^ leg.innerType.width]

theorem legPair {innerI innerJ : Value} (hI : LegOf env D innerI legI) (hJ : LegOf env D innerJ legJ)
    (hdiv : legI.isDiv = true) (hrem : legJ.isDiv = false) (hmatch : legsMatch legI legJ = true) :
    LegPair env D innerI innerJ legI := by
  obtain ⟨hx, hc, hinner, -, -, hfactors⟩ := of_decide_eq_true hmatch
  have hproductI := hI.product
  have hproductJ := hJ.product
  rw [DivRemLeg.unscaled, hdiv, if_pos rfl] at hproductI
  rw [DivRemLeg.unscaled, hrem, if_neg Bool.false_ne_true, DivRemLeg.scale, ← hx, ← hc, ← hfactors,
    ← hinner] at hproductJ
  exact ⟨hI, hJ.type.trans hinner.symm, hproductI, hproductJ⟩

theorem LegPair.sum {innerI innerJ : Value} (h : LegPair env D innerI innerJ legI) :
    value env innerI + value env innerJ ≡ value env legI.x * legI.scale env
      [ZMOD 2 ^ legI.innerType.width] := by
  refine (h.valueI.add h.valueJ).trans ?_
  rw [← add_mul, Int.tdiv_mul_add_tmod]

theorem LegPair.sum_extended {innerI innerJ : Value} (h : LegPair env D innerI innerJ legI)
    (hI : innerI.Verified) (hJ : innerJ.Verified) (hfactors : legI.factors = []) :
    value env innerI + value env innerJ = value env legI.x := by
  have hscale : legI.scale env = 1 := by rw [DivRemLeg.scale, hfactors, map_nil, prod_nil]
  have hvalueI := h.valueI
  have hvalueJ := h.valueJ
  rw [hscale, mul_one] at hvalueI hvalueJ
  have hx := value_signed env h.quotient.x.verified
  have hsignedI := value_signed env hI
  have hsignedJ := value_signed env hJ
  rw [h.quotient.x.type] at hx
  rw [h.quotient.type] at hsignedI
  rw [h.typeJ] at hsignedJ
  exact quotient_add_remainder hx hsignedI hsignedJ hvalueI hvalueJ

theorem rebuild_spec (hI : Proper env D type addendI) (hJ : Proper env D type addendJ)
    (hlegI : classifyLeg addendI = some legI) (hlegJ : classifyLeg addendJ = some legJ)
    (hdiv : legI.isDiv = true) (hrem : legJ.isDiv = false) (hmatch : legsMatch legI legJ = true)
    (h : rebuildDivRemLeg address legI created = some (rebuilt, next)) :
    Proper env D type rebuilt ∧ rebuilt.size ≤ addendI.size ∧
      value env rebuilt ≡ value env addendI + value env addendJ [ZMOD 2 ^ type.width] := by
  have hextended : legI.isExtended = legJ.isExtended := (of_decide_eq_true hmatch).2.2.2.2.1
  obtain ⟨htypeI, innerI, hstripI, hlegOfI⟩ := classifyLeg_spec hI.verified hI.defined hlegI
  obtain ⟨-, innerJ, hstripJ, hlegOfJ⟩ := classifyLeg_spec hJ.verified hJ.defined hlegJ
  have hpair := legPair hlegOfI hlegOfJ hdiv hrem hmatch
  obtain ⟨hproper, hvalue⟩ := @foldl_createArith D env address _ _ (legI.x, created) .muli
    hlegOfI.x hlegOfI.factors
  have hsize := @size_foldl_createArith address .muli legI.factors (legI.x, created)
  have hlegSize := hlegOfI.size
  have haddendType : legI.addendType = type := htypeI.trans hI.type
  simp only [rebuildDivRemLeg] at h
  rcases hstripI.extended with ⟨hplain, rfl⟩ | ⟨hext, pointer, wide, rfl⟩
  · have hinner : legI.innerType = type := hlegOfI.type.symm.trans hI.type
    rcases hstripJ.extended with ⟨-, rfl⟩ | ⟨hext, -⟩
    · split_ifs at h with hfactors hx hmismatch hwider
      · exact absurd (hproper.type.trans (hinner.trans haddendType.symm)) hwider
      · rw [Option.some.inj h] at hproper hvalue hsize
        rw [hinner] at hproper hvalue
        have hsum := hpair.sum
        rw [hinner] at hsum
        exact ⟨hproper, hsize ▸ hlegSize.le, hvalue.trans hsum.symm⟩
    · rw [← hextended, hplain] at hext
      exact absurd hext Bool.false_ne_true
  · have hwide : wide = type := hI.type
    subst hwide
    rcases hstripJ.extended with ⟨hplain, -⟩ | ⟨-, pointerJ, wideJ, rfl⟩
    · rw [← hextended, hext] at hplain
      exact absurd hplain.symm Bool.false_ne_true
    · have hnarrower : legI.innerType.shape = wide.shape ∧ legI.innerType.width < wide.width :=
        hlegOfI.type ▸ hI.verified.2
      split_ifs at h with hfactors hx hmismatch hwider
      · have hnil : legI.factors = [] := by
          by_contra hne
          exact hfactors ⟨hext, hne⟩
        rw [hnil] at h
        obtain rfl : Value.extsi _ legI.addendType legI.x = rebuilt :=
          congrArg Prod.fst (Option.some.inj h)
        rw [haddendType]
        have hx := hlegOfI.x
        have hsum := hpair.sum_extended hstripI.verified hstripJ.verified hnil
        refine ⟨⟨rfl, ⟨hx.verified, ?_⟩, hx.defined⟩, ?_, ?_⟩
        · rw [hx.type]
          exact hnarrower
        · rw [DivRemLeg.size, hnil, map_nil, sum_nil] at hlegSize
          show legI.x.size + 1 ≤ innerI.size + 1
          omega
        · show value env legI.x ≡ value env innerI + value env innerJ [ZMOD _]
          rw [hsum]
      · rw [not_not, hproper.type, haddendType] at hwider
        exact absurd (congrArg Ty.width hwider) hnarrower.2.ne

end Rebuild

/-! One fold, and the loop. -/

section Fold

variable {D : Prop} {env : ℕ → ℤ} {address : ℕ → ℕ} {root folded offset result : Value} {created next : ℕ}
  {addends : List Value} {i j : ℕ} {a b : Value}

theorem otherAddends_perm (hij : i ≠ j) (hi : addends[i]? = some a) (hj : addends[j]? = some b) :
    addends.Perm (a :: b :: otherAddends addends i j) := by
  have hnodup : addends.zipIdx.Nodup := by
    refine List.Nodup.of_map Prod.snd ?_
    rw [zipIdx_map_snd]
    exact nodup_range'
  have htwo : (addends.zipIdx.filter fun x => !decide (x.2 ≠ i ∧ x.2 ≠ j)).Perm
      [(a, i), (b, j)] := by
    refine (perm_ext_iff_of_nodup (hnodup.filter _) (by simp [hij])).mpr ?_
    rintro ⟨x, k⟩
    rw [mem_filter, mem_zipIdx_iff_getElem?]
    simp only [mem_cons, Prod.mk.injEq, not_mem_nil, or_false]
    constructor
    · rintro ⟨hx, hk⟩
      by_cases hki : k = i
      · subst hki
        rw [hi] at hx
        exact .inl ⟨(Option.some.inj hx).symm, rfl⟩
      · have hkj : k = j := by simpa [hki] using hk
        subst hkj
        rw [hj] at hx
        exact .inr ⟨(Option.some.inj hx).symm, rfl⟩
    · rintro (⟨rfl, rfl⟩ | ⟨rfl, rfl⟩)
      · exact ⟨hi, by simp⟩
      · exact ⟨hj, by simp⟩
  have hsplit := filter_append_perm (fun x : Value × ℕ => decide (x.2 ≠ i ∧ x.2 ≠ j))
    addends.zipIdx
  have hall := (hsplit.symm.trans (htwo.append_left _)).trans perm_append_comm
  have hvalues := hall.map Prod.fst
  rw [zipIdx_map_fst] at hvalues
  exact hvalues

theorem leg_at {leg : DivRemLeg} (h : ((addends.map classifyLeg)[i]?).join = some leg) :
    ∃ addend, addends[i]? = some addend ∧ classifyLeg addend = some leg := by
  rw [List.getElem?_map] at h
  cases hget : addends[i]? with
  | none => simp [hget] at h
  | some addend => exact ⟨addend, rfl, by simpa [hget] using h⟩

theorem fold_spec (hroot : Proper env D root.type root)
    (h : foldDivRemReconstruct address root created = some (folded, next)) :
    Proper env D root.type folded ∧ value env folded = value env root ∧
      folded.size < root.size := by
  obtain ⟨addends, haddends, h⟩ := Option.bind_eq_some_iff.mp h
  have hleaves := collectLeaves_spec hroot.verified hroot.defined haddends
  split_ifs at h with hlength
  obtain ⟨i, -, h⟩ := exists_of_findSome?_eq_some h
  obtain ⟨legI, hlegI, h⟩ := Option.bind_eq_some_iff.mp h
  split_ifs at h with hdiv
  obtain ⟨j, -, h⟩ := exists_of_findSome?_eq_some h
  obtain ⟨legJ, hlegJ, h⟩ := Option.bind_eq_some_iff.mp h
  split_ifs at h with hskip
  obtain ⟨rebuilt, hrebuilt, h⟩ := Option.bind_eq_some_iff.mp h
  obtain ⟨a, ha, hclassI⟩ := leg_at hlegI
  obtain ⟨b, hb, hclassJ⟩ := leg_at hlegJ
  rw [not_or, not_or] at hskip
  obtain ⟨hij, hrem, hmatch⟩ := hskip
  have hperm := otherAddends_perm hij ha hb
  have hproper : ∀ v ∈ a :: b :: otherAddends addends i j, Proper env D root.type v :=
    fun v hv => hleaves.proper v (hperm.mem_iff.mpr hv)
  have hothers : ∀ v ∈ otherAddends addends i j, Proper env D root.type v := fun v hv =>
    hproper v (mem_cons_of_mem _ (mem_cons_of_mem _ hv))
  obtain ⟨hrebuiltProper, hrebuiltSize, hrebuiltValue⟩ := rebuild_spec
    (hproper a mem_cons_self) (hproper b (mem_cons_of_mem _ mem_cons_self))
    hclassI hclassJ (by simpa using hdiv) (by simpa using hrem) (by simpa using hmatch) hrebuilt
  have hfold := @foldl_createArith D env address root.type _ _ .addi hrebuiltProper hothers
  have hfoldSize := @size_foldl_createArith address .addi (otherAddends addends i j) rebuilt
  rw [Option.some.inj h] at hfold hfoldSize
  have htotal := hleaves.total
  have hsize := hleaves.size
  rw [total_perm .addi (hperm.map _)] at htotal
  rw [(hperm.map _).sum_eq] at hsize
  refine ⟨hfold.1, ?_, ?_⟩
  · have hsigned := value_signed env hfold.1.verified
    rw [hfold.1.type] at hsigned
    refine hsigned.eq_of_modEq (value_signed env hroot.verified) (hfold.2.trans ?_)
    refine (apply_modEq .addi hrebuiltValue rfl).trans (.trans ?_ htotal)
    show (_ + _ + _ : ℤ) ≡ _ [ZMOD _]
    rw [add_assoc]
    rfl
  · have hfolded : folded.size = _ := hfoldSize
    simp only [map_cons, sum_cons] at hsize
    omega

/-- The loop of the pass ends within as many rounds as the offset has operations. It leaves
an offset of the same value that does not fold. -/
theorem foldLoop_spec (fuel : ℕ) (offset : Value) (created : ℕ)
    (hoffset : Proper env D offset.type offset) (hfuel : offset.size ≤ fuel) :
    ∃ result, foldLoop address fuel offset created = some result ∧
      Proper env D offset.type result ∧ value env result = value env offset ∧
      (isAddIOp result = true → ∃ created, foldDivRemReconstruct address result created = none) := by
  induction fuel generalizing offset created with
  | zero =>
    have hpos : 0 < offset.size := by cases offset <;> exact Nat.succ_pos _
    omega
  | succ fuel ih =>
    rw [foldLoop]
    split_ifs with hadd
    · split
      case h_1 folded next hfold =>
        obtain ⟨hproper, hvalue, hsize⟩ := fold_spec hoffset hfold
        obtain ⟨result, hresult, hresultProper, hresultValue, hdone⟩ :=
          ih folded next (by rwa [hproper.type]) (by omega)
        rw [hproper.type] at hresultProper
        exact ⟨result, hresult, hresultProper, hresultValue.trans hvalue, hdone⟩
      case h_2 hfold => exact ⟨offset, rfl, hoffset, rfl, fun _ => ⟨created, hfold⟩⟩
    · exact ⟨offset, rfl, hoffset, rfl, fun h => absurd h hadd⟩

/-- What the pass may put in place of an offset. -/
structure Replaces (root new : Value) : Prop where
  verified : new.Verified
  type : new.type = root.type
  value : ∀ env, Defined env root → Defined env new ∧ value env new = value env root

/-- A folded offset has the value of the original one in the width of its type, for all
values of the operands, and the loop that folds ends. -/
theorem foldDivRemReconstruct_sound (address : ℕ → ℕ) (root : Value) (hroot : root.Verified)
    (created : ℕ) :
    (∀ folded next, foldDivRemReconstruct address root created = some (folded, next) →
      Replaces root folded) ∧
    ∃ result, foldLoop address root.size root created = some result ∧ Replaces root result ∧
      (isAddIOp result = true → ∃ created, foldDivRemReconstruct address result created = none) := by
  have hproper : ∀ env, Proper env (Defined env root) root.type root := fun env => ⟨rfl, hroot, id⟩
  constructor
  · intro folded next hfold
    obtain ⟨⟨htype, hverified, -⟩, -⟩ := fold_spec (hproper fun _ => 0) hfold
    refine ⟨hverified, htype, fun env hdefined => ?_⟩
    obtain ⟨hfolded, hvalue, -⟩ := fold_spec (hproper env) hfold
    exact ⟨hfolded.defined hdefined, hvalue⟩
  · obtain ⟨result, hresult, ⟨htype, hverified, -⟩, -, hdone⟩ :=
      foldLoop_spec root.size root created (hproper fun _ => 0) le_rfl
    refine ⟨result, hresult, ⟨hverified, htype, fun env hdefined => ?_⟩, hdone⟩
    obtain ⟨result', hresult', hproper', hvalue', -⟩ :=
      foldLoop_spec root.size root created (hproper env) le_rfl
    obtain rfl := Option.some.inj (hresult.symm.trans hresult')
    exact ⟨hproper'.defined hdefined, hvalue'⟩

/-- `(x / c) * c + x % c` in 32 bits. -/
def sampleX : Value := .other 1 ⟨[128], 32⟩

def sampleC : Value := .other 2 ⟨[128], 32⟩

def sampleOffset : Value :=
  .arith 6 .addi .none (.arith 4 .muli .none (.divRem 3 .divsi sampleX sampleC) sampleC)
    (.divRem 5 .remsi sampleX sampleC)

theorem fold_sampleOffset (address : ℕ → ℕ) (created : ℕ) :
    foldDivRemReconstruct address sampleOffset created = some (sampleX, created) := by
  have hsort : sortByPointer [] = [] := mergeSort_nil
  have hdiv : classifyLeg (.arith 4 .muli .none (.divRem 3 .divsi sampleX sampleC) sampleC) =
      some ⟨true, sampleX, sampleC, sortByPointer [], ⟨[128], 32⟩, ⟨[128], 32⟩, false⟩ := rfl
  have hrem : classifyLeg (.divRem 5 .remsi sampleX sampleC) =
      some ⟨false, sampleX, sampleC, sortByPointer [], ⟨[128], 32⟩, ⟨[128], 32⟩, false⟩ := rfl
  rw [hsort] at hdiv hrem
  have haddends : collectAddends sampleOffset = some
      [.arith 4 .muli .none (.divRem 3 .divsi sampleX sampleC) sampleC,
        .divRem 5 .remsi sampleX sampleC] := rfl
  rw [foldDivRemReconstruct, haddends]
  simp only [Option.bind_eq_bind, Option.bind_some, map_cons, map_nil, hdiv, hrem]
  rfl

theorem foldDivRemReconstruct_sound_sample :
    foldDivRemReconstruct id sampleOffset 0 = some (sampleX, 0) ∧ Replaces sampleOffset sampleX :=
  ⟨fold_sampleOffset id 0, (foldDivRemReconstruct_sound id sampleOffset
    ⟨⟨⟨trivial, trivial, rfl⟩, trivial, rfl⟩, ⟨trivial, trivial, rfl⟩, rfl⟩ 0).1 _ _
    (fold_sampleOffset id 0)⟩

end Fold

end TritonCpu.DivRemFold
