import Mathlib.Data.Prod.Lex
import Mathlib.Tactic.IntervalCases
import Mathlib.Tactic.Positivity
import TritonCpu.AxisCmp
import TritonCpu.ReduceLowering

/-!
# `argmax` and `argmin`

ArgMaxConverter and ArgMinConverter recognise the combine region of `tl.argmax`
and `tl.argmin` operation by operation, and build a `linalg.reduce` that keeps
the region. Its accumulators begin with the least, or the greatest, value and
the index `-1`.
-/

set_option autoImplicit false

namespace TritonCpu.ArgMinMax

open TritonIR Reduce List

inductive CmpFPredicate where
  | oeq
  | ogt
  | olt
  | other
  deriving DecidableEq

/-- The types of the values of a region. -/
inductive Ty where
  | int (width : ℕ)
  | float
  deriving DecidableEq

/-- An operation of a combine region; operands `0` to `3` are the arguments of its
block, and the operation at position `i` defines `4 + i`. -/
inductive RegionOp where
  | cmpf (predicate : CmpFPredicate) (lhs rhs : ℕ)
  | cmpi (predicate : CmpIPredicate) (lhs rhs : ℕ)
  | andi (lhs rhs : ℕ)
  | ori (lhs rhs : ℕ)
  | select (condition trueValue falseValue : ℕ)
  | reduceReturn (operands : List ℕ)
  | other (results : List Ty)
  deriving DecidableEq

/-- The block of a combine region. The last operation is its terminator. -/
structure Block where
  numArguments : ℕ
  ops : List RegionOp

def result (it : ℕ) : ℕ := 4 + it

/-- What ArgMaxConverter and ArgMinConverter differ in. -/
structure Converter where
  floatPredicate : CmpFPredicate
  intPredicate : CmpIPredicate
  getIntBaseReductionValue : ℕ → ℤ

/-- `llvm::minIntN` -/
def minIntN (bitWidth : ℕ) : ℤ := -2 ^ (bitWidth - 1)

/-- `llvm::maxIntN` -/
def maxIntN (bitWidth : ℕ) : ℤ := 2 ^ (bitWidth - 1) - 1

def ArgMaxConverter : Converter := ⟨.ogt, .sgt, minIntN⟩

def ArgMinConverter : Converter := ⟨.olt, .slt, maxIntN⟩

section Match

variable (block : Block) (currValue currIndex reduceValue reduceIndex : ℕ)

/-- `eqResult` and the iterator behind it. -/
def matchEq (it : ℕ) : Option (ℕ × ℕ) :=
  match block.ops[it]? with
  | some (.cmpf predicate lhs rhs) =>
    if predicate = .oeq ∧ currValue = lhs ∧ reduceValue = rhs then some (result it, it + 1)
    else none
  | some (.cmpi predicate lhs rhs) =>
    if predicate = .eq ∧ currValue = lhs ∧ reduceValue = rhs then some (result it, it + 1)
    else none
  | _ => none

def matchSlt (it : ℕ) : Option (ℕ × ℕ) :=
  match block.ops[it]? with
  | some (.cmpi predicate lhs rhs) =>
    if predicate = .slt ∧ currIndex = lhs ∧ reduceIndex = rhs then some (result it, it + 1)
    else none
  | _ => none

def matchTieBreakResult (it : ℕ) : Option (ℕ × ℕ) := do
  let (eqResult, it) ← matchEq block currValue reduceValue it
  let (sltCmpOp, it) ← matchSlt block currIndex reduceIndex it
  match block.ops[it]? with
  | some (.andi lhs rhs) =>
    if lhs = eqResult ∧ rhs = sltCmpOp then some (result it, it + 1) else none
  | _ => none

variable (T : Converter)

/-- `T::matchComparisonResult` -/
def Converter.matchComparisonResult (it : ℕ) : Option (ℕ × ℕ) :=
  match block.ops[it]? with
  | some (.cmpf predicate lhs rhs) =>
    if predicate = T.floatPredicate ∧ currValue = lhs ∧ reduceValue = rhs then
      some (result it, it + 1)
    else none
  | some (.cmpi predicate lhs rhs) =>
    if predicate = T.intPredicate ∧ currValue = lhs ∧ reduceValue = rhs then
      some (result it, it + 1)
    else none
  | _ => none

def matchShouldUpdateValue (it : ℕ) : Option (ℕ × ℕ) := do
  let (tieResult, it) ← matchTieBreakResult block currValue currIndex reduceValue reduceIndex it
  let (comparisonResult, it) ← T.matchComparisonResult block currValue reduceValue it
  match block.ops[it]? with
  | some (.ori lhs rhs) =>
    if lhs = comparisonResult ∧ rhs = tieResult then some (result it, it + 1) else none
  | _ => none

def matchSelect (condition trueValue falseValue it : ℕ) : Option (ℕ × ℕ) :=
  match block.ops[it]? with
  | some (.select c t f) =>
    if c = condition ∧ trueValue = t ∧ falseValue = f then some (result it, it + 1) else none
  | _ => none

/-- `match`, for a reduction with this combine block. -/
def Converter.matches : Bool :=
  if block.numArguments ≠ 4 then false
  else
    Option.isSome do
      let (shouldUpdate, it) ← matchShouldUpdateValue block 0 1 2 3 T 0
      let (valueSelectOp, it) ← matchSelect block shouldUpdate 0 2 it
      let (indexSelectOp, it) ← matchSelect block shouldUpdate 1 3 it
      match block.ops[it]? with
      | some (.reduceReturn operands) =>
        if it + 1 = block.ops.length ∧ operands = [valueSelectOp, indexSelectOp] then some ()
        else none
      | _ => none

end Match

section Region

/-- What the verifiers of the operations ask for, and the types of the results. -/
def RegionOp.verify (types : List Ty) : RegionOp → Option (List Ty)
  | .cmpf _ lhs rhs =>
    if types[lhs]? = some .float ∧ types[rhs]? = some .float then some [.int 1] else none
  | .cmpi _ lhs rhs =>
    match types[lhs]?, types[rhs]? with
    | some (.int w), some (.int w') => if w = w' then some [.int 1] else none
    | _, _ => none
  | .andi lhs rhs | .ori lhs rhs =>
    match types[lhs]?, types[rhs]? with
    | some (.int w), some (.int w') => if w = w' then some [.int w] else none
    | _, _ => none
  | .select c t f =>
    match types[c]?, types[t]?, types[f]? with
    | some (.int 1), some ty, some ty' => if ty = ty' then some [ty] else none
    | _, _, _ => none
  | .reduceReturn _ => some []
  | .other results => some results

def verifyOps : List RegionOp → List Ty → Bool
  | [], _ => true
  | op :: ops, types =>
    match op.verify types with
    | some results => verifyOps ops (types ++ results)
    | none => false

/-- The block verifies for values of `w` bits and indices of `n` bits. -/
def Block.verify (block : Block) (w n : ℕ) : Bool :=
  verifyOps block.ops [.int w, .int n, .int w, .int n]

def bit (b : Bool) : Word := ⟨1, BitVec.ofBool b⟩

def RegionOp.eval (env : List Word) : RegionOp → Option Word
  | .cmpi predicate lhs rhs =>
    match env[lhs]?, env[rhs]? with
    | some a, some b =>
      some (bit (AxisAnalysis.cmpi predicate a.bits (b.bits.setWidth a.width)))
    | _, _ => none
  | .andi lhs rhs =>
    match env[lhs]?, env[rhs]? with
    | some a, some b => some ⟨a.width, a.bits &&& b.bits.setWidth a.width⟩
    | _, _ => none
  | .ori lhs rhs =>
    match env[lhs]?, env[rhs]? with
    | some a, some b => some ⟨a.width, a.bits ||| b.bits.setWidth a.width⟩
    | _, _ => none
  | .select c t f =>
    match env[c]?, env[t]?, env[f]? with
    | some c, some t, some f => some (if c.bits = 0 then f else t)
    | _, _, _ => none
  | .cmpf _ _ _ | .reduceReturn _ | .other _ => none

def runBlock : List RegionOp → List Word → Option (List Word)
  | [], _ => none
  | [.reduceReturn operands], env => operands.mapM (env[·]?)
  | op :: ops, env => do
    let value ← op.eval env
    runBlock ops (env ++ [value])

end Region

/-- What a `linalg.reduce` may leave in an accumulator for some elements: it takes
them in any order, and may join what it has for two parts of them. -/
inductive Reduces {α : Type} (f : α → α → Option α) (init : α) : List α → α → Prop
  | init : Reduces f init [] init
  | step {x acc acc' : α} {xs : List α} (h : Reduces f init xs acc) (hf : f x acc = some acc') :
      Reduces f init (x :: xs) acc'
  | join {acc acc' acc'' : α} {xs xs' : List α} (h : Reduces f init xs acc)
      (h' : Reduces f init xs' acc') (hf : f acc acc' = some acc'') :
      Reduces f init (xs ++ xs') acc''
  | perm {acc : α} {xs xs' : List α} (hperm : xs.Perm xs') (h : Reduces f init xs acc) :
      Reduces f init xs' acc

/-- `tt.reduce` over a tensor of integers and one of indices. -/
structure ReduceOp where
  width : ℕ
  indexWidth : ℕ
  width_pos : 0 < width
  indexWidth_pos : 0 < indexWidth
  shape : List ℕ
  axis : ℕ
  axis_lt : axis < shape.length
  block : Block
  verified : block.verify width indexWidth = true

namespace ReduceOp

variable (op : ReduceOp) (T : Converter)

/-- An element of both tensors. -/
abbrev Lane : Type := BitVec op.width × BitVec op.indexWidth

/-- The region as the `linalg.reduce` has it: the elements of the inputs come
first, then the accumulators. -/
def payload (x acc : op.Lane) : Option op.Lane :=
  match runBlock op.block.ops [⟨op.width, x.1⟩, ⟨op.indexWidth, x.2⟩, ⟨op.width, acc.1⟩,
    ⟨op.indexWidth, acc.2⟩] with
  | some [value, index] => some (value.bits.setWidth op.width, index.bits.setWidth op.indexWidth)
  | _ => none

/-- `valuesAccBaseVal` -/
def baseValue : BitVec op.width := BitVec.ofInt op.width (T.getIntBaseReductionValue op.width)

/-- `valuesAccBaseVal` and `indicesAccBaseVal` -/
def init : op.Lane := (op.baseValue T, BitVec.ofInt op.indexWidth (-1))

/-- `out` is an index of the results. -/
def InResult (out : List ℕ) : Prop := List.Forall₂ (· < ·) out (op.shape.eraseIdx op.axis)

def size : ℕ := op.shape.getD op.axis 0

variable (values : List ℕ → BitVec op.width) (indices : List ℕ → BitVec op.indexWidth)

/-- The elements along the axis that belong to an index of the results. -/
def line (out : List ℕ) : List op.Lane :=
  (List.range op.size).map fun k =>
    (values (out.insertIdx op.axis k), indices (out.insertIdx op.axis k))

/-- The extremum of a line with the first index at which it occurs. -/
def Leftmost (out : List ℕ) (r : op.Lane) : Prop :=
  ∃ k < op.size, r.1 = values (out.insertIdx op.axis k) ∧ r.2.toInt = k ∧
    (∀ j < op.size, AxisAnalysis.cmpi T.intPredicate (values (out.insertIdx op.axis j)) r.1 = false) ∧
    ∀ j < k, values (out.insertIdx op.axis j) ≠ r.1

/-- Whatever the order, the `linalg.reduce` has a result at `out` and it is right. -/
structure Correct (out : List ℕ) : Prop where
  returns : ∃ r, Reduces op.payload (op.init T) (op.line values indices out) r
  leftmost : ∀ r, Reduces op.payload (op.init T) (op.line values indices out) r →
    op.Leftmost T values out r

end ReduceOp

section Order

variable {α β : Type} [LinearOrder β] {f : α → α → Option α} {init : α} {xs : List α} {a : α}

theorem Reduces.greatest {key : α → β} (hf : ∀ x a, f x a = some (if key a < key x then x else a))
    (h : Reduces f init xs a) : a ∈ init :: xs ∧ ∀ x ∈ init :: xs, key x ≤ key a := by
  induction h with
  | init => simp
  | @step x acc acc' xs h hstep ih =>
    obtain ⟨hmem, hle⟩ := ih
    rw [hf, Option.some_inj] at hstep
    rw [forall_mem_cons] at hle
    subst hstep
    split_ifs with hlt
    · exact ⟨by simp, by
        simp only [forall_mem_cons]
        exact ⟨hle.1.trans hlt.le, le_rfl, fun y hy => (hle.2 y hy).trans hlt.le⟩⟩
    · refine ⟨?_, ?_⟩
      · rcases mem_cons.mp hmem with rfl | hmem
        · exact mem_cons_self
        · exact mem_cons_of_mem _ (mem_cons_of_mem _ hmem)
      · simp only [forall_mem_cons]
        exact ⟨hle.1, not_lt.mp hlt, hle.2⟩
  | @join acc acc' acc'' xs xs' h h' hjoin ih ih' =>
    obtain ⟨hmem, hle⟩ := ih
    obtain ⟨hmem', hle'⟩ := ih'
    rw [hf, Option.some_inj] at hjoin
    rw [forall_mem_cons] at hle hle'
    subst hjoin
    have hfrom : ∀ y ∈ init :: xs, y ∈ init :: (xs ++ xs') := by simp +contextual [or_imp]
    have hfrom' : ∀ y ∈ init :: xs', y ∈ init :: (xs ++ xs') := by simp +contextual [or_imp]
    split_ifs with hlt
    · refine ⟨hfrom _ hmem, ?_⟩
      simp only [forall_mem_cons, forall_mem_append]
      exact ⟨hle.1, hle.2, fun y hy => (hle'.2 y hy).trans hlt.le⟩
    · refine ⟨hfrom' _ hmem', ?_⟩
      simp only [forall_mem_cons, forall_mem_append]
      exact ⟨hle'.1, fun y hy => (hle.2 y hy).trans (not_lt.mp hlt), hle'.2⟩
  | perm hperm h ih =>
    have hcons := hperm.cons init
    exact ⟨hcons.mem_iff.mp ih.1, fun y hy => ih.2 y (hcons.mem_iff.mpr hy)⟩

theorem exists_reduces (hf : ∀ x a, (f x a).isSome) (xs : List α) : ∃ a, Reduces f init xs a := by
  induction xs with
  | nil => exact ⟨init, .init⟩
  | cons x xs ih =>
    obtain ⟨a, ha⟩ := ih
    obtain ⟨b, hb⟩ := Option.isSome_iff_exists.mp (hf x a)
    exact ⟨b, .step ha hb⟩

end Order

section Matched

variable {block : Block} {T : Converter}

theorem matchEq_some {cv rv it : ℕ} {r : ℕ × ℕ} (h : matchEq block cv rv it = some r) :
    r = (result it, it + 1) ∧ (block.ops[it]? = some (.cmpf .oeq cv rv) ∨
      block.ops[it]? = some (.cmpi .eq cv rv)) := by
  unfold matchEq at h
  split at h
  · next hop =>
    split_ifs at h with hcond
    obtain ⟨rfl, rfl, rfl⟩ := hcond
    exact ⟨(Option.some.inj h).symm, Or.inl hop⟩
  · next hop =>
    split_ifs at h with hcond
    obtain ⟨rfl, rfl, rfl⟩ := hcond
    exact ⟨(Option.some.inj h).symm, Or.inr hop⟩
  · cases h

theorem matchSlt_some {ci ri it : ℕ} {r : ℕ × ℕ} (h : matchSlt block ci ri it = some r) :
    r = (result it, it + 1) ∧ block.ops[it]? = some (.cmpi .slt ci ri) := by
  unfold matchSlt at h
  split at h
  · next hop =>
    split_ifs at h with hcond
    obtain ⟨rfl, rfl, rfl⟩ := hcond
    exact ⟨(Option.some.inj h).symm, hop⟩
  · cases h

theorem matchTieBreakResult_some {cv ci rv ri it : ℕ} {r : ℕ × ℕ}
    (h : matchTieBreakResult block cv ci rv ri it = some r) :
    r = (result (it + 2), it + 3) ∧ (block.ops[it]? = some (.cmpf .oeq cv rv) ∨
      block.ops[it]? = some (.cmpi .eq cv rv)) ∧
      block.ops[it + 1]? = some (.cmpi .slt ci ri) ∧
      block.ops[it + 2]? = some (.andi (result it) (result (it + 1))) := by
  unfold matchTieBreakResult at h
  obtain ⟨_, hcall, h⟩ := Option.bind_eq_some_iff.mp h
  obtain ⟨rfl, heq⟩ := matchEq_some hcall
  obtain ⟨_, hcall, h⟩ := Option.bind_eq_some_iff.mp h
  obtain ⟨rfl, hslt⟩ := matchSlt_some hcall
  simp only at h
  split at h
  · next hop =>
    split_ifs at h with hcond
    obtain ⟨rfl, rfl⟩ := hcond
    exact ⟨(Option.some.inj h).symm, heq, hslt, hop⟩
  · cases h

theorem matchComparisonResult_some {cv rv it : ℕ} {r : ℕ × ℕ}
    (h : T.matchComparisonResult block cv rv it = some r) : r = (result it, it + 1) ∧
      (block.ops[it]? = some (.cmpf T.floatPredicate cv rv) ∨
        block.ops[it]? = some (.cmpi T.intPredicate cv rv)) := by
  unfold Converter.matchComparisonResult at h
  split at h
  · next hop =>
    split_ifs at h with hcond
    obtain ⟨rfl, rfl, rfl⟩ := hcond
    exact ⟨(Option.some.inj h).symm, Or.inl hop⟩
  · next hop =>
    split_ifs at h with hcond
    obtain ⟨rfl, rfl, rfl⟩ := hcond
    exact ⟨(Option.some.inj h).symm, Or.inr hop⟩
  · cases h

theorem matchShouldUpdateValue_some {cv ci rv ri it : ℕ} {r : ℕ × ℕ}
    (h : matchShouldUpdateValue block cv ci rv ri T it = some r) :
    r = (result (it + 4), it + 5) ∧ (block.ops[it]? = some (.cmpf .oeq cv rv) ∨
      block.ops[it]? = some (.cmpi .eq cv rv)) ∧
      block.ops[it + 1]? = some (.cmpi .slt ci ri) ∧
      block.ops[it + 2]? = some (.andi (result it) (result (it + 1))) ∧
      (block.ops[it + 3]? = some (.cmpf T.floatPredicate cv rv) ∨
        block.ops[it + 3]? = some (.cmpi T.intPredicate cv rv)) ∧
      block.ops[it + 4]? = some (.ori (result (it + 3)) (result (it + 2))) := by
  unfold matchShouldUpdateValue at h
  obtain ⟨_, htie, h⟩ := Option.bind_eq_some_iff.mp h
  obtain ⟨rfl, heq, hslt, hand⟩ := matchTieBreakResult_some htie
  obtain ⟨_, hcall, h⟩ := Option.bind_eq_some_iff.mp h
  obtain ⟨rfl, hcmp⟩ := matchComparisonResult_some hcall
  simp only at h
  split at h
  · next hop =>
    split_ifs at h with hcond
    obtain ⟨rfl, rfl⟩ := hcond
    exact ⟨(Option.some.inj h).symm, heq, hslt, hand, hcmp, hop⟩
  · cases h

theorem matchSelect_some {c t f it : ℕ} {r : ℕ × ℕ} (h : matchSelect block c t f it = some r) :
    r = (result it, it + 1) ∧ block.ops[it]? = some (.select c t f) := by
  unfold matchSelect at h
  split at h
  · next hop =>
    split_ifs at h with hcond
    obtain ⟨rfl, rfl, rfl⟩ := hcond
    exact ⟨(Option.some.inj h).symm, hop⟩
  · cases h

theorem matches_ops (h : T.matches block = true) : ∃ eq cmp,
    (eq = .cmpf .oeq 0 2 ∨ eq = .cmpi .eq 0 2) ∧
    (cmp = .cmpf T.floatPredicate 0 2 ∨ cmp = .cmpi T.intPredicate 0 2) ∧
    block.ops = [eq, .cmpi .slt 1 3, .andi 4 5, cmp, .ori 7 6, .select 8 0 2, .select 8 1 3,
      .reduceReturn [9, 10]] := by
  unfold Converter.matches at h
  split_ifs at h
  obtain ⟨_, h⟩ := Option.isSome_iff_exists.mp h
  obtain ⟨_, hupdate, h⟩ := Option.bind_eq_some_iff.mp h
  obtain ⟨rfl, heq, hslt, hand, hcmp, hor⟩ := matchShouldUpdateValue_some hupdate
  obtain ⟨_, hcall, h⟩ := Option.bind_eq_some_iff.mp h
  obtain ⟨rfl, hvalue⟩ := matchSelect_some hcall
  obtain ⟨_, hcall, h⟩ := Option.bind_eq_some_iff.mp h
  obtain ⟨rfl, hindex⟩ := matchSelect_some hcall
  simp only at h
  split at h
  · next hop =>
    split_ifs at h with hcond
    obtain ⟨hlength, rfl⟩ := hcond
    obtain ⟨eq, heq', heq⟩ : ∃ eq, (eq = .cmpf .oeq 0 2 ∨ eq = .cmpi .eq 0 2) ∧
        block.ops[0]? = some eq := by
      rcases heq with heq | heq
      · exact ⟨_, Or.inl rfl, heq⟩
      · exact ⟨_, Or.inr rfl, heq⟩
    obtain ⟨cmp, hcmp', hcmp⟩ : ∃ cmp,
        (cmp = .cmpf T.floatPredicate 0 2 ∨ cmp = .cmpi T.intPredicate 0 2) ∧
          block.ops[3]? = some cmp := by
      rcases hcmp with hcmp | hcmp
      · exact ⟨_, Or.inl rfl, hcmp⟩
      · exact ⟨_, Or.inr rfl, hcmp⟩
    refine ⟨eq, cmp, heq', hcmp', ext_getElem? fun i => ?_⟩
    match i with
    | 0 => exact heq
    | 1 => exact hslt
    | 2 => exact hand
    | 3 => exact hcmp
    | 4 => exact hor
    | 5 => exact hvalue
    | 6 => exact hindex
    | 7 => exact hop
    | i + 8 =>
      rw [List.getElem?_eq_none (by omega), List.getElem?_eq_none (by simp)]
  · cases h

theorem matches_ops_int {w n : ℕ} (h : T.matches block = true) (hverify : block.verify w n = true) :
    block.ops = [.cmpi .eq 0 2, .cmpi .slt 1 3, .andi 4 5, .cmpi T.intPredicate 0 2, .ori 7 6,
      .select 8 0 2, .select 8 1 3, .reduceReturn [9, 10]] := by
  obtain ⟨eq, cmp, heq, hcmp, hops⟩ := matches_ops h
  rw [Block.verify, hops] at hverify
  rcases heq with rfl | rfl
  · simp [verifyOps, RegionOp.verify] at hverify
  · rcases hcmp with rfl | rfl
    · simp [verifyOps, RegionOp.verify] at hverify
    · exact hops

def beats (T : Converter) {w n : ℕ} (x acc : BitVec w × BitVec n) : Bool :=
  AxisAnalysis.cmpi T.intPredicate x.1 acc.1 || (x.1 == acc.1 && x.2.slt acc.2)

theorem shouldUpdate_eq_zero_iff (p q r : Bool) :
    (bit p).bits ||| ((bit q).bits &&& (bit r).bits.setWidth (bit q).width).setWidth (bit p).width = 0 ↔
      (p || (q && r)) = false := by
  cases p <;> cases q <;> cases r <;> decide

theorem payload_eq {op : ReduceOp} (h : T.matches op.block = true) (x acc : op.Lane) :
    op.payload x acc = some (if beats T x acc then x else acc) := by
  have hops := matches_ops_int h op.verified
  have hcmpi : AxisAnalysis.cmpi .eq x.1 acc.1 = (x.1 == acc.1) := by
    rw [AxisAnalysis.cmpi]
    rfl
  rw [ReduceOp.payload, hops, beats]
  simp only [runBlock, RegionOp.eval, List.getElem?_cons_zero, List.getElem?_cons_succ,
    cons_append, nil_append, Option.bind_eq_bind, Option.bind_some, BitVec.setWidth_eq,
    mapM_cons, mapM_nil, hcmpi, shouldUpdate_eq_zero_iff]
  change _ = some (if (AxisAnalysis.cmpi T.intPredicate x.1 acc.1 ||
    (x.1 == acc.1 && AxisAnalysis.cmpi .slt x.2 acc.2)) = true then x else acc)
  cases (AxisAnalysis.cmpi T.intPredicate x.1 acc.1 ||
    (x.1 == acc.1 && AxisAnalysis.cmpi .slt x.2 acc.2)) <;> simp

end Matched

section Ranks

variable {w : ℕ} {T : Converter}

/-- The comparison of a converter is that of ranks, and its base value has the
least rank. -/
structure Converter.Ranks (T : Converter) (rank : BitVec w → ℤ) : Prop where
  cmpi_eq : ∀ a b, AxisAnalysis.cmpi T.intPredicate a b = decide (rank b < rank a)
  injective : Function.Injective rank
  base_le : ∀ a, rank (BitVec.ofInt w (T.getIntBaseReductionValue w)) ≤ rank a

theorem two_pow_pred (hw : 0 < w) : (2 : ℤ) ^ w = 2 * 2 ^ (w - 1) := by
  rw [← pow_succ', Nat.sub_add_cancel hw]

theorem toInt_ofInt_of_lt (hw : 0 < w) {x : ℤ} (hle : -2 ^ (w - 1) ≤ x) (hlt : x < 2 ^ (w - 1)) :
    (BitVec.ofInt w x).toInt = x := by
  have hpow := two_pow_pred hw
  rw [BitVec.toInt_ofInt]
  apply Int.bmod_eq_of_le_mul_two <;> push_cast <;> omega

theorem toInt_bounds (a : BitVec w) :
    -2 ^ (w - 1) ≤ a.toInt ∧ a.toInt < 2 ^ (w - 1) :=
  ⟨BitVec.le_toInt a, BitVec.toInt_lt⟩

theorem ranks_argMax (hw : 0 < w) : ArgMaxConverter.Ranks fun a : BitVec w => a.toInt where
  cmpi_eq a b := BitVec.slt_eq_decide
  injective _ _ := BitVec.eq_of_toInt_eq
  base_le a := by
    have hpos : (0 : ℤ) < 2 ^ (w - 1) := by positivity
    have hbase : (BitVec.ofInt w (minIntN w)).toInt = minIntN w :=
      toInt_ofInt_of_lt hw le_rfl (by rw [minIntN]; omega)
    exact hbase.trans_le (toInt_bounds a).1

theorem ranks_argMin (hw : 0 < w) :
    ArgMinConverter.Ranks fun a : BitVec w => -a.toInt where
  cmpi_eq a b := by
    simp only [neg_lt_neg_iff]
    exact BitVec.slt_eq_decide
  injective a b h := BitVec.eq_of_toInt_eq (neg_injective h)
  base_le a := by
    have hpos : (0 : ℤ) < 2 ^ (w - 1) := by positivity
    have hbase : (BitVec.ofInt w (maxIntN w)).toInt = maxIntN w :=
      toInt_ofInt_of_lt hw (by rw [maxIntN]; omega) (by rw [maxIntN]; omega)
    have hlt := (toInt_bounds a).2
    show -(BitVec.ofInt w (maxIntN w)).toInt ≤ -a.toInt
    rw [hbase, maxIntN]
    omega

/-- A greater rank beats, and of equal ranks the smaller index does. -/
def key {n : ℕ} (rank : BitVec w → ℤ) (x : BitVec w × BitVec n) : ℤ ×ₗ ℤ :=
  toLex (rank x.1, -x.2.toInt)

theorem beats_iff {n : ℕ} {rank : BitVec w → ℤ} (h : T.Ranks rank) (x acc : BitVec w × BitVec n) :
    beats T x acc = true ↔ key rank acc < key rank x := by
  rw [beats, h.cmpi_eq, Bool.or_eq_true, Bool.and_eq_true, decide_eq_true_eq, beq_iff_eq,
    BitVec.slt_iff_toInt_lt, key, key, Prod.Lex.toLex_lt_toLex, neg_lt_neg_iff, ← h.injective.eq_iff]
  constructor
  · rintro (hlt | ⟨heq, hlt⟩)
    · exact Or.inl hlt
    · exact Or.inr ⟨heq.symm, hlt⟩
  · rintro (hlt | ⟨heq, hlt⟩)
    · exact Or.inl hlt
    · exact Or.inr ⟨heq.symm, hlt⟩

end Ranks

section Correctness

variable {op : ReduceOp} {T : Converter} {values : List ℕ → BitVec op.width}
  {indices : List ℕ → BitVec op.indexWidth} {rank : BitVec op.width → ℤ} {out : List ℕ}

theorem payload_key (hrank : T.Ranks rank) (hmatch : T.matches op.block = true) (x acc : op.Lane) :
    op.payload x acc = some (if key rank acc < key rank x then x else acc) := by
  rw [payload_eq hmatch]
  congr 1
  exact if_congr (beats_iff hrank x acc) rfl rfl

theorem mem_line {x : op.Lane} : x ∈ op.line values indices out ↔
    ∃ k < op.size, (values (out.insertIdx op.axis k), indices (out.insertIdx op.axis k)) = x := by
  simp [ReduceOp.line]

theorem toInt_init : (op.init T).2.toInt = -1 := by
  have hpos : (0 : ℤ) < 2 ^ (op.indexWidth - 1) := by positivity
  exact toInt_ofInt_of_lt op.indexWidth_pos (by omega) (by omega)

theorem correct_of_ne (hrank : T.Ranks rank) (hmatch : T.matches op.block = true)
    (hindices : ∀ k < op.size, (indices (out.insertIdx op.axis k)).toInt = k)
    (hne : ∃ k < op.size, values (out.insertIdx op.axis k) ≠ op.baseValue T) :
    op.Correct T values indices out where
  returns := exists_reduces (fun x acc => by rw [payload_key hrank hmatch]; rfl) _
  leftmost r hr := by
    obtain ⟨hmem, hle⟩ := hr.greatest (payload_key hrank hmatch)
    have hline : ∀ j < op.size, key rank (values (out.insertIdx op.axis j),
        indices (out.insertIdx op.axis j)) ≤ key rank r := fun j hj =>
      hle _ (mem_cons_of_mem _ (mem_line.mpr ⟨j, hj, rfl⟩))
    obtain ⟨k₀, hk₀, hk₀ne⟩ := hne
    have hseed : r ≠ op.init T := by
      rintro rfl
      rcases Prod.Lex.toLex_le_toLex.mp (hline k₀ hk₀) with hlt | ⟨heq, -⟩
      · exact absurd (hrank.base_le _) (not_le.mpr hlt)
      · exact hk₀ne (hrank.injective heq)
    obtain ⟨k, hk, rfl⟩ := mem_line.mp ((mem_cons.mp hmem).resolve_left hseed)
    refine ⟨k, hk, rfl, hindices k hk, fun j hj => ?_, fun j hj heq => ?_⟩
    · rw [hrank.cmpi_eq, decide_eq_false_iff_not, not_lt]
      rcases Prod.Lex.toLex_le_toLex.mp (hline j hj) with hlt | ⟨heq, -⟩
      · exact hlt.le
      · exact heq.le
    · have hj' := hj.trans hk
      rcases Prod.Lex.toLex_le_toLex.mp (hline j hj') with hlt | ⟨-, hge⟩
      · simp only at heq hlt
        rw [heq] at hlt
        exact lt_irrefl _ hlt
      · simp only [hindices j hj', hindices k hk] at hge
        omega

theorem exists_ne_of_correct (hrank : T.Ranks rank) (hmatch : T.matches op.block = true)
    (h : op.Correct T values indices out) :
    ∃ k < op.size, values (out.insertIdx op.axis k) ≠ op.baseValue T := by
  by_contra hall
  push Not at hall
  obtain ⟨r, hr⟩ := h.returns
  obtain ⟨k, hk, hvalue, hindex, -⟩ := h.leftmost r hr
  have hle := (hr.greatest (payload_key hrank hmatch)).2 (op.init T) mem_cons_self
  rcases Prod.Lex.toLex_le_toLex.mp hle with hlt | ⟨-, hge⟩
  · rw [hvalue, hall k hk] at hlt
    exact lt_irrefl _ hlt
  · simp only [toInt_init, hindex] at hge
    omega

theorem exists_ranks {w : ℕ} (hw : 0 < w) (hT : T = ArgMaxConverter ∨ T = ArgMinConverter) :
    ∃ rank : BitVec w → ℤ, T.Ranks rank := by
  rcases hT with rfl | rfl
  · exact ⟨_, ranks_argMax hw⟩
  · exact ⟨_, ranks_argMin hw⟩

/-- A reduction that ArgMaxConverter or ArgMinConverter matches is right exactly
where no line has only the base value. -/
theorem reduce_correct_iff_exists_ne (op : ReduceOp) (T : Converter)
    (hT : T = ArgMaxConverter ∨ T = ArgMinConverter) (hmatch : T.matches op.block = true)
    (values : List ℕ → BitVec op.width) (indices : List ℕ → BitVec op.indexWidth)
    (hindices : ∀ out, op.InResult out → ∀ k < op.size,
      (indices (out.insertIdx op.axis k)).toInt = k) :
    (∀ out, op.InResult out → op.Correct T values indices out) ↔
      ∀ out, op.InResult out →
        ∃ k < op.size, values (out.insertIdx op.axis k) ≠ op.baseValue T := by
  obtain ⟨rank, hrank⟩ := exists_ranks op.width_pos hT
  exact ⟨fun h out hout => exists_ne_of_correct hrank hmatch (h out hout),
    fun h out hout => correct_of_ne hrank hmatch (hindices out hout) (h out hout)⟩

end Correctness

section Runs

/-- The block of `_argmax_combine`, from the comment above the converters, over
integers. -/
def argmaxCombine : Block where
  numArguments := 4
  ops := [.cmpi .eq 0 2, .cmpi .slt 1 3, .andi 4 5, .cmpi .sgt 0 2, .ori 7 6, .select 8 0 2,
    .select 8 1 3, .reduceReturn [9, 10]]

/-- `tl.argmax` of a tensor of `i8`. -/
def argmaxBytes (n : ℕ) : ReduceOp where
  width := 8
  indexWidth := 32
  width_pos := by decide
  indexWidth_pos := by decide
  shape := [n]
  axis := 0
  axis_lt := by simp
  block := argmaxCombine
  verified := by decide

def places (idx : List ℕ) : BitVec 32 := BitVec.ofNat 32 (idx.getD 0 0)

theorem reduce_correct_iff_exists_ne_bytes :
    (∀ out, (argmaxBytes 2).InResult out → (argmaxBytes 2).Correct ArgMaxConverter
      (fun idx => BitVec.ofNat 8 (idx.getD 0 0)) places out) ↔
      ∀ out, (argmaxBytes 2).InResult out → ∃ k < (argmaxBytes 2).size,
        BitVec.ofNat 8 ((out.insertIdx 0 k).getD 0 0) ≠
          (argmaxBytes 2).baseValue ArgMaxConverter :=
  reduce_correct_iff_exists_ne (argmaxBytes 2) ArgMaxConverter (Or.inl rfl) (by decide)
    (fun idx => BitVec.ofNat 8 (idx.getD 0 0)) places (by
      intro out hout k hk
      have hnil : out = [] := forall₂_nil_right_iff.mp hout
      subst hnil
      have hk' : k < 2 := hk
      interval_cases k <;> decide)

/-- One element that is the least `i8`: the index of the result is `-1`. -/
theorem argmaxBytes_seed_escapes :
    ArgMaxConverter.matches argmaxCombine = true ∧ (argmaxBytes 1).InResult [] ∧
      (∀ k < (argmaxBytes 1).size, (places (([] : List ℕ).insertIdx 0 k)).toInt = k) ∧
      Reduces (argmaxBytes 1).payload ((argmaxBytes 1).init ArgMaxConverter)
        ((argmaxBytes 1).line (fun _ => -128) places []) (-128, -1) ∧
      ¬ (argmaxBytes 1).Correct ArgMaxConverter (fun _ => -128) places [] := by
  have hruns : Reduces (argmaxBytes 1).payload ((argmaxBytes 1).init ArgMaxConverter)
      ((argmaxBytes 1).line (fun _ => -128) places []) (-128, -1) :=
    .step .init (by decide)
  refine ⟨by decide, .nil, fun k hk => ?_, hruns, fun h => ?_⟩
  · have hk' : k < 1 := hk
    interval_cases k
    decide
  · obtain ⟨k, -, -, hindex, -⟩ := h.leftmost _ hruns
    have hneg : ((-1 : BitVec 32)).toInt = -1 := by decide
    have hindex' : ((-1 : BitVec 32)).toInt = k := hindex
    omega

end Runs

end TritonCpu.ArgMinMax
