import Mathlib.Tactic.Common
import TritonCpu.Builder
import TritonCpu.TritonIR

/-!
# Folded results

An `OpFoldResult` is a constant index attribute or a value. The helpers fold
constants and create operations for the rest. Each has one lemma: what it
returns evaluates to the operation it is named after.
-/

set_option autoImplicit false

namespace TritonCpu.OpFoldResult
open Builder TritonIR

/-- Why an analysis stops: it fails with a remark, or it trips an assertion. -/
inductive Stop where
  | failure (remark : String)
  | assertion (text : String)
  deriving DecidableEq, Repr

abbrev Build (α : Type) := BuildM Stop α

def assertThat (p : Prop) [Decidable p] (text : String) : Build Unit :=
  if p then pure () else stop (.assertion text)

inductive OFR where
  | attr (value : ℤ)
  | value (v : Value)
  deriving DecidableEq, Repr

def getIntAttr : OFR → Option ℤ
  | .attr value => some value
  | .value _ => none

/-- The constant of a scalar `arith.constant`. -/
def scalarConstant : Value → Option ℤ
  | .constant _ ⟨none, _⟩ value => some value
  | _ => none

def hasConstZero : OFR → Bool
  | .attr value => value = 0
  | .value v => scalarConstant v = some 0

def create (mk : ℕ → Value) : Build Value := mk <$> fresh

def createConstant (value : ℤ) : Build Value := create fun id => .constant id Ty.index value

def Ty.isIntOrIndex : Ty → Bool
  | ⟨none, .int _⟩ | ⟨none, .index⟩ => true
  | _ => false

def ofrToIndexValue : OFR → Build Value
  | .attr value => createConstant value
  | .value v => do
    assertThat (Ty.isIntOrIndex v.ty = true) "val.getType().isIntOrIndex()"
    if v.ty.elt = .index then return v else create fun id => .cast id .indexCast v .index

def ElementType.isInt : ElementType → Bool
  | .int _ => true
  | _ => false

def intCast (v : Value) (targetTy : ElementType) : Build Value := do
  assertThat (ElementType.isInt targetTy ∧ ElementType.isInt v.ty.elt) "cast<IntegerType>"
  if targetTy.width > v.ty.elt.width then create fun id => .cast id .extSI v targetTy
  else create fun id => .cast id .truncI v targetTy

def indexTypeCast (v : Value) (targetTy : ElementType) : Build Value :=
  if targetTy = .index ∨ v.ty.elt = .index then do
    assertThat (ElementType.isInt targetTy ∨ ElementType.isInt v.ty.elt)
      "Only cast between index type and integer type"
    create fun id => .cast id .indexCast v targetTy
  else intCast v targetTy

def castElement (v : Value) (targetTy : ElementType) : Build Value :=
  if targetTy ≠ v.ty.elt then indexTypeCast v targetTy else return v

def materialize : OFR → Build Value
  | .attr value => createConstant value
  | .value v => return v

def expandOFRIndex (ofr targetForTy : OFR) : Build OFR :=
  match targetForTy with
  | .attr _ => return ofr
  | .value target => do
    let v ← materialize ofr
    if target.ty = v.ty then return ofr
    else
      match target.ty.shape, v.ty.shape with
      | some shape, none => do
        let v ← castElement v target.ty.elt
        return .value (← create fun id => .splat id v shape)
      | some shape, some vShape =>
        if shape ≠ vShape then do
          assertThat (target.ty.elt = v.ty.elt) "Only cast between same element type shaped types"
          return .value (← create fun id => .reshape id v shape)
        else return .value (← indexTypeCast v target.ty.elt)
      | none, some _ => stop (.assertion "src type rank should be >= target type rank")
      | none, none => return .value (← indexTypeCast v target.ty.elt)

def addOFRs (lhs rhs : OFR) : Build OFR :=
  match lhs, rhs with
  | .attr l, .attr r => return .attr (l + r)
  | .value l, .attr 0 => return .value l
  | .attr 0, .value r => return .value r
  | lhs, rhs => do
    let l ← materialize lhs
    let r ← materialize rhs
    return .value (← create fun id => .binary id .addi l r)

def subOFRs (lhs rhs : OFR) : Build OFR :=
  match lhs, rhs with
  | .attr l, .attr r => return .attr (l - r)
  | .value l, .attr 0 => return .value l
  | lhs, rhs => do
    let l ← materialize lhs
    let r ← materialize rhs
    return .value (← create fun id => .binary id .subi l r)

/-- The constant `mulOFRs` sees: also that of a value defined by
`arith.constant`, which it casts to an integer attribute. -/
def mulConstant : OFR → Build (Option ℤ)
  | .attr value => return some value
  | .value (.constant _ ⟨none, _⟩ value) => return some value
  | .value (.constant _ ⟨some _, _⟩ _) => stop (.assertion "cast<IntegerAttr>")
  | .value _ => return none

def mulOperand (ofr : OFR) : Option ℤ → Build Value
  | some value => createConstant value
  | none => materialize ofr

def mulOFRs (lhs rhs : OFR) : Build OFR := do
  let l ← mulConstant lhs
  let r ← mulConstant rhs
  if l = some 0 then return lhs
  else if l = some 1 then return rhs
  else if r = some 0 then return rhs
  else if r = some 1 then return lhs
  else
    match l, r with
    | some l, some r => return .attr (l * r)
    | l, r => do
      let lhsValue ← mulOperand lhs l
      let rhsValue ← mulOperand rhs r
      return .value (← create fun id => .binary id .muli lhsValue rhsValue)

/-- `minOFRs` and `maxOFRs` differ in the operation only. -/
def foldOFRs (op : BinaryOp) (lhs rhs : OFR) : Build OFR :=
  match lhs, rhs with
  | .attr l, .attr r => return .attr (op.eval l r)
  | lhs, rhs => do
    let l ← materialize lhs
    let r ← materialize rhs
    return .value (← create fun id => .binary id op l r)

def minOFRs : OFR → OFR → Build OFR := foldOFRs .minsi

def maxOFRs : OFR → OFR → Build OFR := foldOFRs .maxsi

/-- The comparison of two constants, where the unsigned predicates compare
like the signed ones. -/
def foldPredicate : CmpIPredicate → ℤ → ℤ → Bool
  | .eq, x, y => x = y
  | .ne, x, y => x ≠ y
  | .slt, x, y | .ult, x, y => x < y
  | .sle, x, y | .ule, x, y => x ≤ y
  | .sgt, x, y | .ugt, x, y => x > y
  | .sge, x, y | .uge, x, y => x ≥ y

def compareOFRs (lhs rhs : OFR) (pred : CmpIPredicate) (trueOFR falseOFR : OFR) : Build OFR :=
  match lhs, rhs with
  | .attr l, .attr r => return if foldPredicate pred l r then trueOFR else falseOFR
  | lhs, rhs => do
    let l ← ofrToIndexValue lhs
    let r ← ofrToIndexValue rhs
    let t ← ofrToIndexValue trueOFR
    let f ← ofrToIndexValue falseOFR
    let cmp ← create fun id => .cmpi id pred l r
    return .value (← create fun id => .select id cmp t f)

/-! What the helpers return, for constants and index values. -/

def OFR.eval (ρ : Env) : OFR → ℤ
  | .attr k => k
  | .value v => v.eval ρ []

/-- A value of a type in `P`; a constant is an index in any case. -/
def OfType (P : Ty → Prop) : OFR → Prop
  | .attr _ => True
  | .value v => P v.ty

abbrev IsIndex : OFR → Prop := OfType (· = Ty.index)

/-- `x` has a type in `P`, and its value is given by `f` in every environment. -/
def Computes (P : Ty → Prop) (x : OFR) (f : Env → ℤ) : Prop := OfType P x ∧ ∀ ρ, x.eval ρ = f ρ

theorem returns_create {mk : ℕ → Value} {v : Value} (h : Returns (create mk) v) :
    ∃ id, v = mk id := by
  obtain ⟨id, -, h⟩ := returns_map h
  exact ⟨id, h⟩

theorem returns_assertThat {p : Prop} [Decidable p] {text : String} {u : Unit}
    (h : Returns (assertThat p text) u) : p := by
  unfold assertThat at h
  split_ifs at h with hp
  · exact hp
  · exact absurd h (not_returns_stop _ _)

theorem hasConstZero_eval {ofr : OFR} (h : hasConstZero ofr = true) (ρ : Env) :
    ofr.eval ρ = 0 := by
  cases ofr with
  | attr k => simpa [hasConstZero, OFR.eval] using h
  | value v =>
    rw [hasConstZero, decide_eq_true_eq] at h
    unfold scalarConstant at h
    split at h
    · cases h
      rfl
    · cases h

theorem returns_mulConstant {ofr : OFR} {c : Option ℤ} (h : Returns (mulConstant ofr) c) :
    ∀ k, c = some k → ∀ ρ, ofr.eval ρ = k := by
  unfold mulConstant at h
  split at h
  · rw [returns_pure] at h
    subst h
    rintro k ⟨⟩ ρ
    rfl
  · rw [returns_pure] at h
    subst h
    rintro k ⟨⟩ ρ
    rfl
  · exact absurd h (not_returns_stop _ _)
  · rw [returns_pure] at h
    subst h
    rintro k ⟨⟩

section Folds

variable {P : Ty → Prop} (hindex : P Ty.index)

include hindex

theorem returns_materialize {ofr : OFR} {v : Value} (h : Returns (materialize ofr) v) :
    (OfType P ofr → P v.ty) ∧ ∀ ρ, v.eval ρ [] = ofr.eval ρ := by
  cases ofr with
  | attr value =>
    obtain ⟨id, rfl⟩ := returns_create h
    exact ⟨fun _ => hindex, fun ρ => rfl⟩
  | value w =>
    rw [materialize, returns_pure] at h
    subst h
    exact ⟨id, fun ρ => rfl⟩

theorem returns_binary {op : BinaryOp} {lhs rhs x : OFR} (hl : OfType P lhs)
    (h : Returns (do
      let l ← materialize lhs
      let r ← materialize rhs
      return OFR.value (← create fun id => .binary id op l r)) x) :
    Computes P x fun ρ => op.eval (lhs.eval ρ) (rhs.eval ρ) := by
  obtain ⟨l, hl', h⟩ := returns_bind h
  obtain ⟨r, hr', h⟩ := returns_bind h
  obtain ⟨v, hv, h⟩ := returns_bind h
  obtain ⟨id, rfl⟩ := returns_create hv
  rw [returns_pure] at h
  subst h
  have hlm := returns_materialize hindex hl'
  have hrm := returns_materialize hindex hr'
  refine ⟨hlm.1 hl, fun ρ => ?_⟩
  show _ = op.eval (lhs.eval ρ) (rhs.eval ρ)
  rw [← hlm.2 ρ, ← hrm.2 ρ]
  rfl

theorem returns_addOFRs {lhs rhs x : OFR} (hl : OfType P lhs) (hr : OfType P rhs)
    (h : Returns (addOFRs lhs rhs) x) : Computes P x fun ρ => lhs.eval ρ + rhs.eval ρ := by
  unfold addOFRs at h
  split at h
  · rw [returns_pure] at h
    subst h
    exact ⟨trivial, fun ρ => rfl⟩
  · rw [returns_pure] at h
    subst h
    exact ⟨hl, fun ρ => (add_zero _).symm⟩
  · rw [returns_pure] at h
    subst h
    exact ⟨hr, fun ρ => (zero_add _).symm⟩
  · exact returns_binary hindex hl h

theorem returns_subOFRs {lhs rhs x : OFR} (hl : OfType P lhs)
    (h : Returns (subOFRs lhs rhs) x) : Computes P x fun ρ => lhs.eval ρ - rhs.eval ρ := by
  unfold subOFRs at h
  split at h
  · rw [returns_pure] at h
    subst h
    exact ⟨trivial, fun ρ => rfl⟩
  · rw [returns_pure] at h
    subst h
    exact ⟨hl, fun ρ => (sub_zero _).symm⟩
  · exact returns_binary hindex hl h

theorem returns_foldOFRs {op : BinaryOp} {lhs rhs x : OFR} (hl : OfType P lhs)
    (h : Returns (foldOFRs op lhs rhs) x) :
    Computes P x fun ρ => op.eval (lhs.eval ρ) (rhs.eval ρ) := by
  unfold foldOFRs at h
  split at h
  · rw [returns_pure] at h
    subst h
    exact ⟨trivial, fun ρ => rfl⟩
  · exact returns_binary hindex hl h

theorem returns_minOFRs {lhs rhs x : OFR} (hl : OfType P lhs) (h : Returns (minOFRs lhs rhs) x) :
    Computes P x fun ρ => min (lhs.eval ρ) (rhs.eval ρ) := returns_foldOFRs hindex hl h

theorem returns_maxOFRs {lhs rhs x : OFR} (hl : OfType P lhs) (h : Returns (maxOFRs lhs rhs) x) :
    Computes P x fun ρ => max (lhs.eval ρ) (rhs.eval ρ) := returns_foldOFRs hindex hl h

theorem returns_mulOperand {ofr : OFR} {c : Option ℤ} {v : Value}
    (hc : ∀ k, c = some k → ∀ ρ, ofr.eval ρ = k) (h : Returns (mulOperand ofr c) v) :
    (OfType P ofr → P v.ty) ∧ ∀ ρ, v.eval ρ [] = ofr.eval ρ := by
  cases c with
  | none => exact returns_materialize hindex h
  | some k =>
    obtain ⟨id, rfl⟩ := returns_create h
    exact ⟨fun _ => hindex, fun ρ => (hc k rfl ρ).symm⟩

theorem returns_mulOFRs {lhs rhs x : OFR} (hl : OfType P lhs) (hr : OfType P rhs)
    (h : Returns (mulOFRs lhs rhs) x) : Computes P x fun ρ => lhs.eval ρ * rhs.eval ρ := by
  obtain ⟨l, hlc, h⟩ := returns_bind h
  obtain ⟨r, hrc, h⟩ := returns_bind h
  have hlv := returns_mulConstant hlc
  have hrv := returns_mulConstant hrc
  split_ifs at h with h0 h1 h2 h3
  · rw [returns_pure] at h
    subst h
    exact ⟨hl, fun ρ => by simp [hlv 0 h0 ρ]⟩
  · rw [returns_pure] at h
    subst h
    exact ⟨hr, fun ρ => by simp [hlv 1 h1 ρ]⟩
  · rw [returns_pure] at h
    subst h
    exact ⟨hr, fun ρ => by simp [hrv 0 h2 ρ]⟩
  · rw [returns_pure] at h
    subst h
    exact ⟨hl, fun ρ => by simp [hrv 1 h3 ρ]⟩
  · split at h
    · rw [returns_pure] at h
      subst h
      refine ⟨trivial, fun ρ => ?_⟩
      show _ = lhs.eval ρ * rhs.eval ρ
      rw [hlv _ rfl ρ, hrv _ rfl ρ]
      rfl
    · obtain ⟨lv, hlm, h⟩ := returns_bind h
      obtain ⟨rv, hrm, h⟩ := returns_bind h
      obtain ⟨v, hv, h⟩ := returns_bind h
      obtain ⟨id, rfl⟩ := returns_create hv
      rw [returns_pure] at h
      subst h
      have hlm := returns_mulOperand hindex hlv hlm
      have hrm := returns_mulOperand hindex hrv hrm
      refine ⟨hlm.1 hl, fun ρ => ?_⟩
      show _ = lhs.eval ρ * rhs.eval ρ
      rw [← hlm.2 ρ, ← hrm.2 ρ]
      rfl

end Folds

/-! The values do not depend on the types. -/

theorem ofType_true (ofr : OFR) : OfType (fun _ => True) ofr := by
  cases ofr with
  | attr k => trivial
  | value v => trivial

section Values

variable {lhs rhs x : OFR}

theorem eval_addOFRs (h : Returns (addOFRs lhs rhs) x) (ρ : Env) :
    x.eval ρ = lhs.eval ρ + rhs.eval ρ :=
  (returns_addOFRs trivial (ofType_true lhs) (ofType_true rhs) h).2 ρ

theorem eval_subOFRs (h : Returns (subOFRs lhs rhs) x) (ρ : Env) :
    x.eval ρ = lhs.eval ρ - rhs.eval ρ := (returns_subOFRs trivial (ofType_true lhs) h).2 ρ

theorem eval_minOFRs (h : Returns (minOFRs lhs rhs) x) (ρ : Env) :
    x.eval ρ = min (lhs.eval ρ) (rhs.eval ρ) := (returns_minOFRs trivial (ofType_true lhs) h).2 ρ

theorem eval_maxOFRs (h : Returns (maxOFRs lhs rhs) x) (ρ : Env) :
    x.eval ρ = max (lhs.eval ρ) (rhs.eval ρ) := (returns_maxOFRs trivial (ofType_true lhs) h).2 ρ

theorem eval_ofrToIndexValue {ofr : OFR} {v : Value} (h : Returns (ofrToIndexValue ofr) v)
    (ρ : Env) : v.eval ρ [] = ofr.eval ρ := by
  cases ofr with
  | attr k =>
    obtain ⟨id, rfl⟩ := returns_create h
    rfl
  | value w =>
    obtain ⟨u, -, h⟩ := returns_bind h
    split_ifs at h
    · rw [returns_pure] at h
      rw [h]
      rfl
    · obtain ⟨id, rfl⟩ := returns_create h
      rfl

/-- The comparison of two constants is folded, and only then may it differ
from the operation. -/
theorem eval_compareOFRs {pred : CmpIPredicate} {t f : OFR}
    (hfold : ∀ l r, lhs = .attr l → rhs = .attr r → foldPredicate pred l r = pred.holds l r)
    (h : Returns (compareOFRs lhs rhs pred t f) x) (ρ : Env) :
    x.eval ρ = if pred.holds (lhs.eval ρ) (rhs.eval ρ) then t.eval ρ else f.eval ρ := by
  unfold compareOFRs at h
  split at h
  next l r =>
    rw [returns_pure] at h
    rw [h, hfold l r rfl rfl]
    show OFR.eval ρ (if pred.holds l r = true then t else f) = if pred.holds l r = true then _ else _
    by_cases hp : pred.holds l r = true
    · rw [if_pos hp, if_pos hp]
    · rw [if_neg hp, if_neg hp]
  · obtain ⟨l, hl, h⟩ := returns_bind h
    obtain ⟨r, hr, h⟩ := returns_bind h
    obtain ⟨tv, ht, h⟩ := returns_bind h
    obtain ⟨fv, hf, h⟩ := returns_bind h
    obtain ⟨cmp, hcmp, h⟩ := returns_bind h
    obtain ⟨v, hv, h⟩ := returns_bind h
    obtain ⟨id, rfl⟩ := returns_create hcmp
    obtain ⟨id', rfl⟩ := returns_create hv
    rw [returns_pure] at h
    subst h
    rw [← eval_ofrToIndexValue hl ρ, ← eval_ofrToIndexValue hr ρ, ← eval_ofrToIndexValue ht ρ,
      ← eval_ofrToIndexValue hf ρ]
    show (if (if pred.holds (l.eval ρ []) (r.eval ρ []) = true then (-1 : ℤ) else 0) ≠ 0
      then tv.eval ρ [] else fv.eval ρ []) = _
    by_cases hp : pred.holds (l.eval ρ []) (r.eval ρ []) = true
    · rw [if_pos hp, if_pos hp, if_pos (by decide)]
    · rw [if_neg hp, if_neg hp, if_neg (by decide)]

end Values

end TritonCpu.OpFoldResult
