import TritonCpu.CombineIR
import Mathlib.Data.List.ReduceOption
import Mathlib.Algebra.BigOperators.Group.List.Lemmas

/-!
# Combining operations

Each pattern looks at an operation and at those that define its operands. What
the matched operations compute holds in every state in which a program comes to
the operation. The select of a masked load moves the load past whatever is in
between; the reduction of a product of broadcasts is taken for a matrix
multiplication whatever its axis is.
-/

set_option autoImplicit false

namespace TritonCpu.Combine

open List

variable {R : Type}

section Patterns

variable [CommRing R] [DecidableEq R] (prog : List (Op R)) (uses : Value → ℕ)

def getDefiningOp (v : Value) : Option (Op R) := prog.find? fun op => v ∈ op.results

/-- `m_Zero` or `m_AnyZeroFloat`. -/
def isZeroCell : Cell R → Bool
  | ⟨.int _, n⟩ => decide (n = 0)
  | ⟨.float _, r⟩ => decide (r = 0)
  | ⟨.ptr _, _⟩ => false

def matchZero (v : Value) : Bool :=
  match getDefiningOp prog v with
  | some (.constant _ (.scalar element)) => isZeroCell element
  | some (.constant _ (.splat element)) => isZeroCell element
  | _ => false

def isZero (v : Value) : Bool :=
  matchZero prog v ||
    match getDefiningOp prog v with
    | some (.broadcast _ src) => matchZero prog src
    | _ => false

/-- `m_ConstantInt`. -/
def matchConstantInt (v : Value) : Option (Σ width, BitVec width) :=
  match getDefiningOp prog v with
  | some (.constant _ (.scalar ⟨.int width, n⟩)) => some ⟨width, n⟩
  | some (.constant _ (.splat ⟨.int width, n⟩)) => some ⟨width, n⟩
  | _ => none

def getConstantIntValue (v : Value) : Option (Σ width, BitVec width) :=
  match getDefiningOp prog v with
  | some (.splat _ src) => matchConstantInt prog src
  | _ => matchConstantInt prog v

def isAddPtrOffsetCombinable (first second : Value) : Bool :=
  if first.ty = second.ty then
    if first.ty.elem.getIntOrFloatBitWidth = 64 then true
    else
      match getConstantIntValue prog first, getConstantIntValue prog second with
      | some ⟨width, n⟩, some ⟨_, n'⟩ => !n.saddOverflow (n'.setWidth width)
      | _, _ => false
  else false

def isAddF32 : CombineOp → Bool
  | .addf ty => ty.getIntOrFloatBitWidth ≤ 32
  | .other => false

/-- One block of two operations, of which the first is an addition. -/
def isReduceAdd (combineOp : CombineRegion R) : Bool :=
  match combineOp.blocks with
  | [[first, _]] => isAddF32 first
  | _ => false

def mulfOperands (v : Value) : Option (Value × Value) :=
  match getDefiningOp prog v with
  | some (.mulf _ lhs rhs) => some (lhs, rhs)
  | _ => none

def broadcastSrc (v : Value) : Option Value :=
  match getDefiningOp prog v with
  | some (.broadcast _ src) => some src
  | _ => none

def expandDimsSrc (v : Value) : Option (Value × ℕ) :=
  match getDefiningOp prog v with
  | some (.expandDims _ src axis) => some (src, axis)
  | _ => none

/-- The reduction of a product of two tensors that were expanded and broadcast. -/
structure MulReduce (R : Type) where
  res : Value
  product : Value
  lhs : Value
  rhs : Value
  lhsSrc : Value
  rhsSrc : Value
  x : Value
  y : Value
  axis : ℕ
  combineOp : CombineRegion R

/-- What a pattern has matched; for a load, also what runs between it and the select. -/
inductive Match (R : Type) where
  | selectMaskedLoad (res cond loaded falseValue ptr mask : Value) (loadOther : Option Value)
      (attrs : LoadAttrs) (between : List (Op R))
  | broadcastMulReduce (m : MulReduce R)
  | dotAdd (res dotValue a b c d : Value) (inputPrecision : InputPrecision)
      (maxNumImpreciseAcc : ℕ)
  | addPtr (res first ptr idx0 idx1 : Value)
  | broadcastConstant (res src : Value) (element : Cell R)

def opsAfter (v : Value) : List (Op R) := (prog.dropWhile fun op => v ∉ op.results).tail

def combineSelectMaskedLoad : Op R → Option (Match R)
  | .select res cond trueValue falseValue =>
    match getDefiningOp prog trueValue with
    | some (.load _ ptr (some mask) other attrs) =>
      match getDefiningOp prog mask with
      | some (.splat _ splatCond) =>
        if splatCond = cond then
          some (.selectMaskedLoad res cond trueValue falseValue ptr mask other attrs
            (opsAfter prog trueValue))
        else none
      | _ => none
    | _ => none
  | _ => none

/-- The shape of the right operand is read from the left one, which has the same. A
reduction with more results cannot be replaced by the one of `tt.dot`. -/
def combineBroadcastMulReduce : Op R → Option (Match R)
  | .reduce [res] operands axis combineOp =>
    if isReduceAdd combineOp then do
      let product ← operands.head?
      let (lhs, rhs) ← mulfOperands prog product
      let lhsSrc ← broadcastSrc prog lhs
      let rhsSrc ← broadcastSrc prog rhs
      let (x, expandLhsAxis) ← expandDimsSrc prog lhsSrc
      let (y, expandRhsAxis) ← expandDimsSrc prog rhsSrc
      if expandLhsAxis ≠ 2 ∨ expandRhsAxis ≠ 0 then none
      else if lhs.ty.shape.getD 2 0 < 16 ∨ lhs.ty.shape.getD 0 0 < 16 then none
      else some (.broadcastMulReduce { res, product, lhs, rhs, lhsSrc, rhsSrc, x, y, axis, combineOp })
    else none
  | _ => none

/-- The sum of `dotValue` and `d`; only floats need full accumulation. -/
def combineDotAdd (float : Bool) (res dotValue d : Value) : Option (Match R) :=
  match getDefiningOp prog dotValue with
  | some (.dot _ a b c inputPrecision maxNumImpreciseAcc) =>
    if isZero prog c = true ∧ (float = true → maxNumImpreciseAcc = 0) ∧ uses dotValue = 1 then
      some (.dotAdd res dotValue a b c d inputPrecision maxNumImpreciseAcc)
    else none
  | _ => none

def combineDotAddI : Op R → Option (Match R)
  | .addi res d dotValue => combineDotAdd prog uses false res dotValue d
  | _ => none

def combineDotAddF : Op R → Option (Match R)
  | .addf res d dotValue => combineDotAdd prog uses true res dotValue d
  | _ => none

def combineDotAddIRev : Op R → Option (Match R)
  | .addi res dotValue d => combineDotAdd prog uses false res dotValue d
  | _ => none

def combineDotAddFRev : Op R → Option (Match R)
  | .addf res dotValue d => combineDotAdd prog uses true res dotValue d
  | _ => none

def combineAddPtr : Op R → Option (Match R)
  | .addptr res first idx1 =>
    match getDefiningOp prog first with
    | some (.addptr _ ptr idx0) =>
      if isAddPtrOffsetCombinable prog idx0 idx1 then some (.addPtr res first ptr idx0 idx1)
      else none
    | _ => none
  | _ => none

def combineBroadcastConstant : Op R → Option (Match R)
  | .broadcast res src =>
    match getDefiningOp prog src with
    | some (.constant _ (.scalar element)) => some (.broadcastConstant res src element)
    | some (.constant _ (.splat element)) => some (.broadcastConstant res src element)
    | _ => none
  | _ => none

def combineOps (op : Op R) : List (Match R) :=
  [combineDotAddI prog uses op, combineDotAddF prog uses op, combineDotAddIRev prog uses op,
    combineDotAddFRev prog uses op, combineSelectMaskedLoad prog op, combineAddPtr prog op,
    combineBroadcastConstant prog op, combineBroadcastMulReduce prog op].reduceOption

def MulReduce.newAccType (m : MulReduce R) : Ty :=
  ⟨[m.lhs.ty.shape.getD 0 0, m.lhs.ty.shape.getD 2 0], m.lhsSrc.ty.elem⟩

/-- What replaces the operation. New values get the numbers `k₀` and `k₁`; the result
takes the place of the old one. -/
def Match.replacement (k₀ k₁ : ℕ) : Match R → List (Op R)
  | .selectMaskedLoad res _ loaded falseValue ptr mask _ attrs _ =>
    [.load ⟨res.id, loaded.ty⟩ ptr (some mask) (some falseValue) attrs]
  | .broadcastMulReduce m =>
    let zero : Value := ⟨k₀, [], .float 32⟩
    let newAcc : Value := ⟨k₁, m.newAccType⟩
    [.constant zero (.scalar ⟨.float 32, (0 : R)⟩), .splat newAcc zero,
      .dot ⟨m.res.id, m.newAccType⟩ m.x m.y newAcc .tf32 0]
  | .dotAdd res _ a b _ d inputPrecision maxNumImpreciseAcc =>
    [.dot ⟨res.id, d.ty⟩ a b d inputPrecision maxNumImpreciseAcc]
  | .addPtr res _ ptr idx0 idx1 =>
    [.addi ⟨k₀, idx0.ty⟩ idx0 idx1, .addptr ⟨res.id, ptr.ty⟩ ptr ⟨k₀, idx0.ty⟩]
  | .broadcastConstant res _ element => [.constant res (.splat element)]

end Patterns

section Meaning

variable [CommRing R]

/-- The replacement is a valid program with the result of the operation, which has the
same elements, and does the same to the memory. -/
structure Preserves (op : Op R) (replacement : List (Op R)) (s : State R) : Prop where
  wellTyped : ∀ d ∈ replacement, d.WellTyped
  results : ∃ last, replacement.getLast? = some last ∧ last.results = op.results
  mem : (run replacement s).mem = (op.step s).mem
  volatileAccesses : (run replacement s).volatileAccesses = (op.step s).volatileAccesses
  values : ∀ v ∈ op.results, ∀ index, InBounds v.ty.shape index →
    (run replacement s).env v index = (op.step s).env v index

def MulReduce.ops (m : MulReduce R) : List (Op R) :=
  [.expandDims m.lhsSrc m.x 2, .expandDims m.rhsSrc m.y 0, .broadcast m.lhs m.lhsSrc,
    .broadcast m.rhs m.rhsSrc, .mulf m.product m.lhs m.rhs]

/-- What the matched operations make of the values of a state in which the operation
runs. -/
def Match.Holds (s : State R) : Match R → Prop
  | .selectMaskedLoad _ cond loaded _ ptr mask loadOther attrs between =>
    ∃ s₀, s = run (.load loaded ptr (some mask) loadOther attrs :: between) s₀ ∧
      (Op.splat mask cond : Op R).Holds s₀
  | .broadcastMulReduce m => ∀ op ∈ m.ops, op.Holds s
  | .dotAdd _ dotValue a b c _ inputPrecision maxNumImpreciseAcc =>
    (Op.dot dotValue a b c inputPrecision maxNumImpreciseAcc : Op R).Holds s ∧
      ∀ index, s.env c index = 0
  | .addPtr _ first ptr idx0 idx1 => (Op.addptr first ptr idx0 : Op R).Holds s ∧
      ∀ index, extend idx0.ty.elem (.int 64)
          (s.env idx0 index + extend idx1.ty.elem idx0.ty.elem (s.env idx1 index)) =
        extend idx0.ty.elem (.int 64) (s.env idx0 index) +
          extend idx1.ty.elem (.int 64) (s.env idx1 index)
  | .broadcastConstant _ src element =>
    ∀ index, s.env src index = extend element.1 src.ty.elem element.2

def MulReduce.combined (m : MulReduce R) (row : List R) : R :=
  cellAt (foldRows m.combineOp.apply (row.map fun r => [⟨.float 32, r⟩])) 0 (.float 32)

/-- The axis is the one that the tensors share, neither is repeated along another, and
the region adds up the elements along it, as often as they are repeated. -/
def MulReduce.Sums (m : MulReduce R) : Prop :=
  m.axis = 1 ∧ m.product.ty.elem = .float 32 ∧ ∃ rows columns size size',
    m.product.ty.shape = [rows, size, columns] ∧ m.x.ty.shape = [rows, size'] ∧
      m.y.ty.shape = [size', columns] ∧ ∀ p : ℕ → R,
        m.combined ((List.range size).map fun k => p (if size' = 1 then 0 else k)) =
          ((List.range size').map p).sum

/-- A select can read again what nothing has changed since, if the access is not volatile;
a product can be reduced by `tt.dot` if that is what the reduction does. -/
def Match.Condition : Match R → Prop
  | .selectMaskedLoad _ cond loaded _ ptr mask loadOther attrs between =>
    attrs.isVolatile = false ∧ ∀ s₀ : State R, (Op.splat mask cond : Op R).Holds s₀ →
      isTrue (s₀.env cond []) = true → ∀ index, InBounds loaded.ty.shape index →
        (run (.load loaded ptr (some mask) loadOther attrs :: between) s₀).mem.read
            (address (s₀.env ptr index)) loaded.ty.elem =
          s₀.mem.read (address (s₀.env ptr index)) loaded.ty.elem
  | .broadcastMulReduce m => m.Sums
  | _ => True

end Meaning

section Definitions

variable {prog : List (Op R)} {op : Op R} {v : Value}

theorem getDefiningOp_split (h : getDefiningOp prog v = some op) : v ∈ op.results ∧
    ∃ before, prog = before ++ op :: opsAfter prog v ∧ ∀ e ∈ before, v ∉ e.results := by
  obtain ⟨hv, before, after, rfl, hbefore⟩ := List.find?_eq_some_iff_append.mp h
  have hnot : ∀ e ∈ before, v ∉ e.results := by
    intro e he
    simpa using hbefore e he
  refine ⟨of_decide_eq_true hv, before, ?_, hnot⟩
  have hdrop : (before ++ op :: after).dropWhile (fun e => v ∉ e.results) = op :: after := by
    rw [dropWhile_append_of_pos (by simpa using hnot), dropWhile_cons_of_neg]
    simpa using hv
  rw [opsAfter, hdrop]
  rfl

theorem mem_of_getDefiningOp (h : getDefiningOp prog v = some op) : op ∈ prog ∧ v ∈ op.results :=
  ⟨mem_of_find?_eq_some h, (getDefiningOp_split h).1⟩

theorem mulfOperands_eq {lhs rhs : Value} (h : mulfOperands prog v = some (lhs, rhs)) :
    getDefiningOp prog v = some (.mulf v lhs rhs) := by
  unfold mulfOperands at h
  split at h
  · rename_i res l r hdef
    obtain ⟨rfl, rfl⟩ := Prod.mk.inj (Option.some.inj h)
    obtain rfl := mem_singleton.mp (mem_of_getDefiningOp hdef).2
    exact hdef
  · cases h

theorem broadcastSrc_eq {src : Value} (h : broadcastSrc prog v = some src) :
    getDefiningOp prog v = some (.broadcast v src) := by
  unfold broadcastSrc at h
  split at h
  · rename_i res e hdef
    obtain rfl := Option.some.inj h
    obtain rfl := mem_singleton.mp (mem_of_getDefiningOp hdef).2
    exact hdef
  · cases h

theorem expandDimsSrc_eq {src : Value} {axis : ℕ} (h : expandDimsSrc prog v = some (src, axis)) :
    getDefiningOp prog v = some (.expandDims v src axis) := by
  unfold expandDimsSrc at h
  split at h
  · rename_i res e a hdef
    obtain ⟨rfl, rfl⟩ := Prod.mk.inj (Option.some.inj h)
    obtain rfl := mem_singleton.mp (mem_of_getDefiningOp hdef).2
    exact hdef
  · cases h

theorem combineSelectMaskedLoad_eq {m : Match R} (h : combineSelectMaskedLoad prog op = some m) :
    ∃ res cond loaded falseValue ptr mask loadOther attrs,
      op = .select res cond loaded falseValue ∧
        m = .selectMaskedLoad res cond loaded falseValue ptr mask loadOther attrs
          (opsAfter prog loaded) ∧
        getDefiningOp prog loaded = some (.load loaded ptr (some mask) loadOther attrs) ∧
        getDefiningOp prog mask = some (.splat mask cond) := by
  unfold combineSelectMaskedLoad at h
  split at h
  · rename_i res cond loaded falseValue
    split at h
    · rename_i l ptr mask loadOther attrs hload
      split at h
      · rename_i e splatCond hsplat
        split at h
        · rename_i hcond
          subst hcond
          obtain rfl := mem_singleton.mp (mem_of_getDefiningOp hload).2
          obtain rfl := mem_singleton.mp (mem_of_getDefiningOp hsplat).2
          exact ⟨res, _, _, falseValue, ptr, _, loadOther, attrs, rfl, (Option.some.inj h).symm,
            hload, hsplat⟩
        · cases h
      · cases h
    · cases h
  · cases h

/-- The operations that a reduction of a product is matched with. -/
structure MulReduce.Defined (m : MulReduce R) (prog : List (Op R)) : Prop where
  product : getDefiningOp prog m.product = some (.mulf m.product m.lhs m.rhs)
  lhs : getDefiningOp prog m.lhs = some (.broadcast m.lhs m.lhsSrc)
  rhs : getDefiningOp prog m.rhs = some (.broadcast m.rhs m.rhsSrc)
  lhsSrc : getDefiningOp prog m.lhsSrc = some (.expandDims m.lhsSrc m.x 2)
  rhsSrc : getDefiningOp prog m.rhsSrc = some (.expandDims m.rhsSrc m.y 0)

theorem combineBroadcastMulReduce_eq {m : Match R} (h : combineBroadcastMulReduce prog op = some m) :
    ∃ (mr : MulReduce R) (rest : List Value), m = .broadcastMulReduce mr ∧
      op = .reduce [mr.res] (mr.product :: rest) mr.axis mr.combineOp ∧ mr.Defined prog ∧
      16 ≤ mr.lhs.ty.shape.getD 2 0 ∧ 16 ≤ mr.lhs.ty.shape.getD 0 0 := by
  unfold combineBroadcastMulReduce at h
  split at h
  · rename_i res operands axis combineOp
    split at h
    · obtain ⟨product, hproduct, h₁⟩ := Option.bind_eq_some_iff.mp h
      obtain ⟨⟨lhs, rhs⟩, hmul, h₂⟩ := Option.bind_eq_some_iff.mp h₁
      obtain ⟨lhsSrc, hlhs, h₃⟩ := Option.bind_eq_some_iff.mp h₂
      obtain ⟨rhsSrc, hrhs, h₄⟩ := Option.bind_eq_some_iff.mp h₃
      obtain ⟨⟨x, axisL⟩, hx, h₅⟩ := Option.bind_eq_some_iff.mp h₄
      obtain ⟨⟨y, axisR⟩, hy, hchecked⟩ := Option.bind_eq_some_iff.mp h₅
      clear h h₁ h₂ h₃ h₄ h₅
      dsimp only at hchecked
      split at hchecked
      · cases hchecked
      split at hchecked
      · cases hchecked
      rename_i haxes hsizes
      rw [not_or, not_not, not_not] at haxes
      rw [not_or, not_lt, not_lt] at hsizes
      obtain ⟨rfl, rfl⟩ := haxes
      obtain ⟨rest, rfl⟩ : ∃ rest, operands = product :: rest := by
        cases operands with
        | nil => cases hproduct
        | cons e rest => exact ⟨rest, by rw [Option.some.inj hproduct]⟩
      refine ⟨_, rest, (Option.some.inj hchecked).symm, rfl, ?_, hsizes.1, hsizes.2⟩
      constructor
      · exact mulfOperands_eq hmul
      · exact broadcastSrc_eq hlhs
      · exact broadcastSrc_eq hrhs
      · exact expandDimsSrc_eq hx
      · exact expandDimsSrc_eq hy
    · cases h
  · cases h

theorem combineDotAdd_eq [CommRing R] [DecidableEq R] {uses : Value → ℕ} {float : Bool}
    {res dotValue d : Value} {m : Match R}
    (h : combineDotAdd prog uses float res dotValue d = some m) :
    ∃ a b c inputPrecision maxNumImpreciseAcc,
      m = .dotAdd res dotValue a b c d inputPrecision maxNumImpreciseAcc ∧
        getDefiningOp prog dotValue = some (.dot dotValue a b c inputPrecision maxNumImpreciseAcc) ∧
        isZero prog c = true := by
  unfold combineDotAdd at h
  split at h
  · rename_i e a b c inputPrecision maxNumImpreciseAcc hdot
    split at h
    · rename_i hchecked
      obtain rfl := mem_singleton.mp (mem_of_getDefiningOp hdot).2
      exact ⟨a, b, c, _, _, (Option.some.inj h).symm, hdot, hchecked.1⟩
    · cases h
  · cases h

theorem combineAddPtr_eq {m : Match R} (h : combineAddPtr prog op = some m) :
    ∃ res first ptr idx0 idx1, op = .addptr res first idx1 ∧ m = .addPtr res first ptr idx0 idx1 ∧
      getDefiningOp prog first = some (.addptr first ptr idx0) ∧
      isAddPtrOffsetCombinable prog idx0 idx1 = true := by
  unfold combineAddPtr at h
  split at h
  · rename_i res first idx1
    split at h
    · rename_i e ptr idx0 hptr
      split at h
      · rename_i hchecked
        obtain rfl := mem_singleton.mp (mem_of_getDefiningOp hptr).2
        exact ⟨res, _, ptr, idx0, idx1, rfl, (Option.some.inj h).symm, hptr, hchecked⟩
      · cases h
    · cases h
  · cases h

theorem combineBroadcastConstant_eq {m : Match R} (h : combineBroadcastConstant prog op = some m) :
    ∃ res src element value, op = .broadcast res src ∧ m = .broadcastConstant res src element ∧
      getDefiningOp prog src = some (.constant src value) ∧
      (value = .scalar element ∨ value = .splat element) := by
  unfold combineBroadcastConstant at h
  split at h
  · rename_i res src
    split at h
    · rename_i e element hconstant
      obtain rfl := mem_singleton.mp (mem_of_getDefiningOp hconstant).2
      exact ⟨res, _, element, _, rfl, (Option.some.inj h).symm, hconstant, Or.inl rfl⟩
    · rename_i e element hconstant
      obtain rfl := mem_singleton.mp (mem_of_getDefiningOp hconstant).2
      exact ⟨res, _, element, _, rfl, (Option.some.inj h).symm, hconstant, Or.inr rfl⟩
    · cases h
  · cases h

end Definitions

section Runs

variable [CommRing R] {prog : List (Op R)} {op : Op R} {v : Value} {s : State R}

theorem signExtend_zero (width width' : ℕ) : (0 : BitVec width).signExtend width' = 0 := by
  show BitVec.ofInt width' (BitVec.ofNat width 0).toInt = 0
  rw [BitVec.toInt_zero]
  rfl

@[simp] theorem extend_zero (t t' : ElementType) : extend t t' (0 : t.Carrier R) = 0 := by
  cases t <;> cases t' <;> first | rfl | exact signExtend_zero _ _

theorem getDefiningOp_holds (hssa : Ssa prog) (h : getDefiningOp prog v = some op)
    (hpure : op.isPure = true) (s : State R) : (run prog s).env v = op.compute (run prog s) v :=
  run_holds hssa (mem_of_getDefiningOp h).1 hpure v (mem_of_getDefiningOp h).2

theorem matchConstantInt_sound (hssa : Ssa prog) (htyped : ∀ d ∈ prog, d.WellTyped) {width : ℕ}
    {n : BitVec width} (h : matchConstantInt prog v = some ⟨width, n⟩) :
    v.ty.elem = .int width ∧ ∀ (s : State R) (index : List ℕ),
      (run prog s).env v index = extend (.int width) v.ty.elem n := by
  unfold matchConstantInt at h
  split at h
  · rename_i res width' n' hdef
    obtain ⟨rfl, hn⟩ := Sigma.mk.inj (Option.some.inj h)
    obtain rfl := eq_of_heq hn
    obtain ⟨hmem, hres⟩ := mem_of_getDefiningOp hdef
    obtain rfl := mem_singleton.mp hres
    refine ⟨(htyped _ hmem).1.symm, fun s index => ?_⟩
    rw [getDefiningOp_holds hssa hdef rfl]
    rfl
  · rename_i res width' n' hdef
    obtain ⟨rfl, hn⟩ := Sigma.mk.inj (Option.some.inj h)
    obtain rfl := eq_of_heq hn
    obtain ⟨hmem, hres⟩ := mem_of_getDefiningOp hdef
    obtain rfl := mem_singleton.mp hres
    have helem : ElementType.int width' = v.ty.elem := htyped _ hmem
    refine ⟨helem.symm, fun s index => ?_⟩
    rw [getDefiningOp_holds hssa hdef rfl]
    rfl
  · cases h

theorem getConstantIntValue_sound (hssa : Ssa prog) (htyped : ∀ d ∈ prog, d.WellTyped) {width : ℕ}
    {n : BitVec width} (h : getConstantIntValue prog v = some ⟨width, n⟩) :
    v.ty.elem = .int width ∧ ∀ (s : State R) (index : List ℕ),
      (run prog s).env v index = extend (.int width) v.ty.elem n := by
  unfold getConstantIntValue at h
  split at h
  · rename_i res src hdef
    obtain ⟨hmem, hres⟩ := mem_of_getDefiningOp hdef
    obtain rfl := mem_singleton.mp hres
    obtain ⟨helem, hvalue⟩ := matchConstantInt_sound hssa htyped h
    have hsrc : src.ty = ⟨[], v.ty.elem⟩ := htyped _ hmem
    have htype : src.ty.elem = v.ty.elem := by rw [hsrc]
    refine ⟨htype ▸ helem, fun s index => ?_⟩
    rw [getDefiningOp_holds hssa hdef rfl]
    simp only [Op.compute]
    rw [hvalue, extend_extend helem.symm]
  · exact matchConstantInt_sound hssa htyped h

theorem signExtend_add {width : ℕ} {n n' : BitVec width} (h : ¬ n.saddOverflow n' = true) :
    (n + n').signExtend 64 = n.signExtend 64 + n'.signExtend 64 := by
  rw [BitVec.signExtend, BitVec.toInt_add_of_not_saddOverflow h, BitVec.ofInt_add]
  rfl

theorem isAddPtrOffsetCombinable_sound (hssa : Ssa prog) (htyped : ∀ d ∈ prog, d.WellTyped)
    {first second : Value} (hint : ∃ width, first.ty.elem = .int width)
    (h : isAddPtrOffsetCombinable prog first second = true) (s : State R) (index : List ℕ) :
    extend first.ty.elem (.int 64) ((run prog s).env first index +
        extend second.ty.elem first.ty.elem ((run prog s).env second index)) =
      extend first.ty.elem (.int 64) ((run prog s).env first index) +
        extend second.ty.elem (.int 64) ((run prog s).env second index) := by
  unfold isAddPtrOffsetCombinable at h
  split at h
  · rename_i htype
    have helem : second.ty.elem = first.ty.elem := congrArg Ty.elem htype.symm
    split at h
    · rename_i hwidth
      obtain ⟨width, hfirst⟩ := hint
      obtain rfl : width = 64 := by
        rw [hfirst] at hwidth
        exact hwidth
      rw [extend_add hfirst, extend_extend helem]
    · split at h
      · rename_i width n width' n' hn hn'
        obtain ⟨hfirst, hvalue⟩ := getConstantIntValue_sound hssa htyped hn
        obtain ⟨hsecond, hvalue'⟩ := getConstantIntValue_sound hssa htyped hn'
        obtain rfl : width' = width := by
          rw [hfirst, hsecond] at helem
          exact ElementType.int.inj helem
        rw [BitVec.setWidth_eq, Bool.not_eq_true'] at h
        rw [hvalue, hvalue', extend_extend hsecond.symm, extend_extend hsecond.symm,
          ← extend_add hfirst.symm, extend_extend hfirst.symm, extend_extend hfirst.symm]
        exact signExtend_add (by simp [h])
      · cases h
  · cases h

variable [DecidableEq R]

theorem isZeroCell_eq {element : Cell R} (h : isZeroCell element = true) : element.2 = 0 := by
  obtain ⟨t, x⟩ := element
  cases t with
  | int width => exact of_decide_eq_true h
  | float width => exact of_decide_eq_true h
  | ptr bytes => cases h

theorem matchZero_sound (hssa : Ssa prog) (h : matchZero prog v = true) (s : State R)
    (index : List ℕ) : (run prog s).env v index = 0 := by
  unfold matchZero at h
  split at h
  · rename_i res element hdef
    rw [getDefiningOp_holds hssa hdef rfl]
    simp only [Op.compute, Attribute.element]
    rw [isZeroCell_eq h, extend_zero]
  · rename_i res element hdef
    rw [getDefiningOp_holds hssa hdef rfl]
    simp only [Op.compute, Attribute.element]
    rw [isZeroCell_eq h, extend_zero]
  · cases h

theorem isZero_sound (hssa : Ssa prog) (h : isZero prog v = true) (s : State R) (index : List ℕ) :
    (run prog s).env v index = 0 := by
  rcases Bool.or_eq_true_iff.mp h with h | h
  · exact matchZero_sound hssa h s index
  · split at h
    · rename_i res src hdef
      rw [getDefiningOp_holds hssa hdef rfl]
      simp only [Op.compute]
      rw [matchZero_sound hssa h, extend_zero]
    · cases h

end Runs

section Cases

variable [CommRing R] [DecidableEq R] {prog : List (Op R)} {uses : Value → ℕ} {op : Op R} {m : Match R}

theorem combineOps_cases (h : m ∈ combineOps prog uses op) :
    (∃ float res dotValue d, combineDotAdd prog uses float res dotValue d = some m ∧
      ∃ lhs rhs, (op = .addi res lhs rhs ∨ op = .addf res lhs rhs) ∧
        (lhs = d ∧ rhs = dotValue ∨ lhs = dotValue ∧ rhs = d)) ∨
    combineSelectMaskedLoad prog op = some m ∨ combineAddPtr prog op = some m ∨
    combineBroadcastConstant prog op = some m ∨ combineBroadcastMulReduce prog op = some m := by
  have hmem := reduceOption_mem_iff.mp h
  simp only [mem_cons, not_mem_nil, or_false] at hmem
  rcases hmem with h | h | h | h | h | h | h | h
  · cases op with
    | addi res d dotValue =>
      exact Or.inl ⟨false, res, dotValue, d, h.symm, d, dotValue, Or.inl rfl, Or.inl ⟨rfl, rfl⟩⟩
    | _ => cases h
  · cases op with
    | addf res d dotValue =>
      exact Or.inl ⟨true, res, dotValue, d, h.symm, d, dotValue, Or.inr rfl, Or.inl ⟨rfl, rfl⟩⟩
    | _ => cases h
  · cases op with
    | addi res dotValue d =>
      exact Or.inl ⟨false, res, dotValue, d, h.symm, dotValue, d, Or.inl rfl, Or.inr ⟨rfl, rfl⟩⟩
    | _ => cases h
  · cases op with
    | addf res dotValue d =>
      exact Or.inl ⟨true, res, dotValue, d, h.symm, dotValue, d, Or.inr rfl, Or.inr ⟨rfl, rfl⟩⟩
    | _ => cases h
  · exact Or.inr (Or.inl h.symm)
  · exact Or.inr (Or.inr (Or.inl h.symm))
  · exact Or.inr (Or.inr (Or.inr (Or.inl h.symm)))
  · exact Or.inr (Or.inr (Or.inr (Or.inr h.symm)))

theorem holds_run (hssa : Ssa prog) (htyped : ∀ d ∈ prog, d.WellTyped)
    (h : m ∈ combineOps prog uses op) (s : State R) : m.Holds (run prog s) := by
  rcases combineOps_cases h with ⟨float, res, dotValue, d, hdot, -⟩ | hselect | haddptr | hconstant |
    hreduce
  · obtain ⟨a, b, c, p, i, rfl, hdef, hzero⟩ := combineDotAdd_eq hdot
    exact ⟨run_holds hssa (mem_of_getDefiningOp hdef).1 rfl, isZero_sound hssa hzero s⟩
  · obtain ⟨res, cond, loaded, falseValue, ptr, mask, loadOther, attrs, -, rfl, hload, hsplat⟩ :=
      combineSelectMaskedLoad_eq hselect
    obtain ⟨-, before, hprog, -⟩ := getDefiningOp_split hload
    refine ⟨run before s, ?_, ?_⟩
    · rw [← run_append, ← hprog]
    -- the mask is computed before the load that reads it
    have hsplatmem := (mem_of_getDefiningOp hsplat).1
    rw [hprog] at hssa hsplatmem
    rcases mem_append.mp hsplatmem with hbefore | hafter
    · exact run_holds hssa.of_append_left hbefore rfl
    · rcases mem_cons.mp hafter with heq | hafter
      · cases heq
      · have hmask : mask ∈ (Op.load loaded ptr (some mask) loadOther attrs : Op R).operands := by
          simp [Op.operands]
        exact absurd mem_cons_self (hssa.not_rebound (Or.inr hmask) _ hafter)
  · obtain ⟨res, first, ptr, idx0, idx1, -, rfl, hdef, hcombinable⟩ := combineAddPtr_eq haddptr
    obtain ⟨hmem, -⟩ := mem_of_getDefiningOp hdef
    refine ⟨run_holds hssa hmem rfl, ?_⟩
    exact isAddPtrOffsetCombinable_sound hssa htyped (htyped _ hmem).2.2.2 hcombinable s
  · obtain ⟨res, src, element, value, -, rfl, hdef, hvalue⟩ := combineBroadcastConstant_eq hconstant
    intro index
    rw [getDefiningOp_holds hssa hdef rfl]
    rcases hvalue with rfl | rfl <;> rfl
  · obtain ⟨mr, rest, rfl, -, hdefined, -⟩ := combineBroadcastMulReduce_eq hreduce
    intro d hd
    have hdef : ∃ v, getDefiningOp prog v = some d ∧ d.isPure = true := by
      simp only [MulReduce.ops, mem_cons, not_mem_nil, or_false] at hd
      rcases hd with rfl | rfl | rfl | rfl | rfl
      · exact ⟨_, hdefined.lhsSrc, rfl⟩
      · exact ⟨_, hdefined.rhsSrc, rfl⟩
      · exact ⟨_, hdefined.lhs, rfl⟩
      · exact ⟨_, hdefined.rhs, rfl⟩
      · exact ⟨_, hdefined.product, rfl⟩
    obtain ⟨v, hdef, hpure⟩ := hdef
    exact run_holds hssa (mem_of_getDefiningOp hdef).1 hpure

end Cases

section Preserved

variable [CommRing R] {s : State R} {op : Op R} {k₀ k₁ : ℕ}

theorem step_mem_of_isPure (h : op.isPure = true) : (op.step s).mem = s.mem := by
  cases op <;> first | rfl | cases h

theorem step_volatileAccesses_of_isPure (h : op.isPure = true) :
    (op.step s).volatileAccesses = s.volatileAccesses := by
  cases op <;> first | rfl | cases h

theorem run_singleton (op : Op R) (s : State R) : run [op] s = op.step s := rfl

theorem preserves_dotAdd {res dotValue a b c d lhs rhs : Value} {p : InputPrecision} {i : ℕ}
    (hop : op = .addi res lhs rhs ∨ op = .addf res lhs rhs)
    (hsides : lhs = d ∧ rhs = dotValue ∨ lhs = dotValue ∧ rhs = d) (htyped : op.WellTyped)
    (hdot : (Op.dot dotValue a b c p i : Op R).WellTyped)
    (h : (Match.dotAdd res dotValue a b c d p i : Match R).Holds s) :
    Preserves op ((Match.dotAdd res dotValue a b c d p i : Match R).replacement k₀ k₁) s := by
  obtain ⟨hsum, hzero⟩ := h
  have htypes : lhs.ty = res.ty ∧ rhs.ty = res.ty := by
    rcases hop with rfl | rfl <;> exact ⟨htyped.1, htyped.2.1⟩
  have hresults : op.results = [res] := by rcases hop with rfl | rfl <;> rfl
  have hpure : op.isPure = true := by rcases hop with rfl | rfl <;> rfl
  have hd : d.ty = res.ty ∧ dotValue.ty = res.ty := by
    rcases hsides with ⟨rfl, rfl⟩ | ⟨rfl, rfl⟩
    · exact htypes
    · exact ⟨htypes.2, htypes.1⟩
  have hvalue : ∀ v index, op.compute s v index =
      extend dotValue.ty.elem v.ty.elem (s.env dotValue index) +
        extend d.ty.elem v.ty.elem (s.env d index) := by
    intro v index
    rcases hop with rfl | rfl <;> rcases hsides with ⟨rfl, rfl⟩ | ⟨rfl, rfl⟩ <;>
      first | rfl | exact add_comm _ _
  obtain ⟨hdotType, hbits, hshapes⟩ := hdot
  obtain ⟨rid, rty⟩ := res
  obtain ⟨did, dty⟩ := d
  obtain ⟨vid, vty⟩ := dotValue
  obtain ⟨rfl, rfl⟩ : dty = rty ∧ vty = rty := hd
  constructor
  · intro e he
    obtain rfl := mem_singleton.mp he
    rw [show c.ty = vty from hdotType.symm] at hshapes
    exact ⟨rfl, hbits, hshapes⟩
  · exact ⟨_, rfl, hresults.symm⟩
  · rw [step_mem_of_isPure hpure]
    rfl
  · rw [step_volatileAccesses_of_isPure hpure]
    rfl
  · intro v hv index _
    rw [step_env_of_mem hv, hvalue]
    rw [hresults] at hv
    obtain rfl := mem_singleton.mp hv
    rw [Match.replacement, run_singleton, step_env_of_mem (mem_singleton.mpr rfl),
      hsum _ (mem_singleton.mpr rfl)]
    simp only [Op.compute, hzero, extend_zero, zero_add, extend_self]
    exact add_comm _ _

theorem preserves_broadcastConstant {res src : Value} {element : Cell R}
    (htyped : (Op.broadcast res src : Op R).WellTyped) (helem : element.1 = src.ty.elem)
    (h : (Match.broadcastConstant res src element).Holds s) :
    Preserves (.broadcast res src) ((Match.broadcastConstant res src element).replacement k₀ k₁) s := by
  constructor
  · intro e he
    obtain rfl := mem_singleton.mp he
    exact helem.trans htyped.1.symm
  · exact ⟨_, rfl, rfl⟩
  · rfl
  · rfl
  · intro v hv index _
    obtain rfl := mem_singleton.mp hv
    rw [Match.replacement, run_singleton, step_env_of_mem (mem_singleton.mpr rfl),
      step_env_of_mem hv]
    simp only [Op.compute, Attribute.element]
    rw [h, extend_extend helem]

theorem preserves_addPtr {res first ptr idx0 idx1 : Value}
    (htyped : (Op.addptr res first idx1 : Op R).WellTyped)
    (hfirst : (Op.addptr first ptr idx0 : Op R).WellTyped) (hsame : idx1.ty = idx0.ty)
    (hfresh : ptr.id ≠ k₀)
    (h : (Match.addPtr res first ptr idx0 idx1 : Match R).Holds s) :
    Preserves (.addptr res first idx1)
      ((Match.addPtr res first ptr idx0 idx1 : Match R).replacement k₀ k₁) s := by
  obtain ⟨hptr, hadd⟩ := h
  obtain ⟨hres, -⟩ := htyped
  obtain ⟨hfirstType, hshape, hbytes, hint⟩ := hfirst
  have hne : ptr ≠ ⟨k₀, idx0.ty⟩ := fun heq => hfresh (congrArg Value.id heq)
  obtain ⟨rid, rty⟩ := res
  obtain ⟨fid, fty⟩ := first
  obtain rfl : rty = fty := hres
  obtain rfl : rty = ptr.ty := hfirstType
  constructor
  · intro e he
    rcases mem_pair.mp he with rfl | rfl
    · exact ⟨rfl, hsame, hint⟩
    · exact ⟨rfl, hshape, hbytes, hint⟩
  · exact ⟨_, rfl, rfl⟩
  · rfl
  · rfl
  · intro v hv index _
    obtain rfl := mem_singleton.mp hv
    have hoffset : ((Op.addi ⟨k₀, idx0.ty⟩ idx0 idx1 : Op R).step s).env ⟨k₀, idx0.ty⟩ index =
        s.env idx0 index + extend idx1.ty.elem idx0.ty.elem (s.env idx1 index) := by
      rw [step_env_of_mem (mem_singleton.mpr rfl)]
      simp only [Op.compute, extend_self]
    have hbase : ((Op.addi ⟨k₀, idx0.ty⟩ idx0 idx1 : Op R).step s).env ptr = s.env ptr :=
      step_env_of_notMem fun hmem => hne (mem_singleton.mp hmem)
    rw [Match.replacement, run_cons, run_singleton, step_env_of_mem (mem_singleton.mpr rfl),
      step_env_of_mem hv]
    simp only [Op.compute]
    rw [hbase, hoffset, hadd, hptr _ (mem_singleton.mpr rfl)]
    obtain ⟨bytes, hbytes⟩ := hbytes
    have haddress : ∀ a, address (extend (.ptr 0) ptr.ty.elem a : ptr.ty.elem.Carrier R) = a := by
      rw [hbytes]
      exact fun _ => rfl
    simp only [Op.compute]
    rw [haddress]
    congr 1
    exact (congrArg _ (add_mul _ _ _)).trans (add_assoc _ _ _).symm

end Preserved

section Select

variable {prog : List (Op R)} {res cond loaded falseValue ptr mask : Value}
  {loadOther : Option Value} {attrs : LoadAttrs} {k₀ k₁ : ℕ}

theorem isTrue_extend [CommRing R] {t t' : ElementType} (h : t = t') (x : t.Carrier R) :
    isTrue (extend t t' x) = isTrue x := by
  subst h
  rw [extend_self]

/-- What a masked load and the program after it leave of the values the load and the
select read. -/
structure LoadedBefore (cond loaded ptr mask : Value) (load : Op R) (between : List (Op R)) : Prop where
  cond : ∀ op ∈ load :: between, cond ∉ op.results
  ptr : ∀ op ∈ load :: between, ptr ∉ op.results
  mask : ∀ op ∈ load :: between, mask ∉ op.results
  loaded : ∀ op ∈ between, loaded ∉ op.results

theorem loadedBefore (hssa : Ssa prog)
    (hload : getDefiningOp prog loaded = some (.load loaded ptr (some mask) loadOther attrs))
    (hsplat : getDefiningOp prog mask = some (.splat mask cond)) :
    LoadedBefore cond loaded ptr mask (.load loaded ptr (some mask) loadOther attrs)
      (opsAfter prog loaded) := by
  obtain ⟨-, before, hprog, -⟩ := getDefiningOp_split hload
  have hsplatmem := (mem_of_getDefiningOp hsplat).1
  rw [hprog] at hssa hsplatmem
  generalize opsAfter prog loaded = between at hssa hsplatmem ⊢
  generalize hop : (Op.load loaded ptr (some mask) loadOther attrs : Op R) = load
    at hssa hsplatmem ⊢
  have hresults : loaded ∈ load.results := by
    rw [← hop]
    exact mem_singleton.mpr rfl
  have hptr : ptr ∈ load.operands := by
    rw [← hop]
    exact mem_cons_self
  have hmask : mask ∈ load.operands := by
    rw [← hop]
    simp [Op.operands]
  have hself := hssa.1 load (by simp)
  have hoperand : ∀ v ∈ load.operands, ∀ op ∈ load :: between, v ∉ op.results := by
    intro v hv op hop'
    rcases mem_cons.mp hop' with rfl | hop'
    · exact fun hbound => hself v hbound hv
    · exact hssa.not_rebound (Or.inr hv) op hop'
  constructor
  · -- the splat runs before the load, and reads the condition
    have hbefore : (Op.splat mask cond : Op R) ∈ before := by
      rcases mem_append.mp hsplatmem with h | h
      · exact h
      rcases mem_cons.mp h with h | h
      · rw [← hop] at h
        cases h
      · exact absurd mem_cons_self (hssa.not_rebound (Or.inr hmask) _ h)
    obtain ⟨first, second, rfl⟩ := append_of_mem hbefore
    rw [append_assoc] at hssa
    intro op hop'
    exact hssa.not_rebound (Or.inr (mem_singleton.mpr rfl)) op (mem_append_right _ hop')
  · exact hoperand ptr hptr
  · exact hoperand mask hmask
  · exact hssa.not_rebound (Or.inl hresults)

variable [CommRing R] {s₀ : State R}

/-- The replacement and the select have the same value exactly when the addresses still
hold what the load has read, if the condition is true. -/
theorem select_value_iff {between : List (Op R)}
    (h : LoadedBefore cond loaded ptr mask (.load loaded ptr (some mask) loadOther attrs) between)
    (hsplat : (Op.splat mask cond : Op R).Holds s₀) (hcond : cond.ty = ⟨[], mask.ty.elem⟩)
    (hloaded : loaded.ty = res.ty) (hfalse : falseValue.ty = res.ty) (index : List ℕ) :
    (Op.load res ptr (some mask) (some falseValue) attrs).compute
        (run (.load loaded ptr (some mask) loadOther attrs :: between) s₀) res index =
      (Op.select res cond loaded falseValue).compute
        (run (.load loaded ptr (some mask) loadOther attrs :: between) s₀) res index ↔
    (isTrue (s₀.env cond []) = true →
      (run (.load loaded ptr (some mask) loadOther attrs :: between) s₀).mem.read
          (address (s₀.env ptr index)) loaded.ty.elem =
        s₀.mem.read (address (s₀.env ptr index)) loaded.ty.elem) := by
  have henvLoaded : (run (.load loaded ptr (some mask) loadOther attrs :: between) s₀).env loaded =
      (Op.load loaded ptr (some mask) loadOther attrs).compute s₀ loaded := by
    rw [run_cons, run_env_of_notMem h.loaded]
    exact step_env_of_mem (mem_singleton.mpr rfl)
  have hmask : isTrue (s₀.env mask index) = isTrue (s₀.env cond []) := by
    rw [hsplat mask (mem_singleton.mpr rfl)]
    exact isTrue_extend (congrArg Ty.elem hcond) _
  generalize hs : run (.load loaded ptr (some mask) loadOther attrs :: between) s₀ = s at henvLoaded ⊢
  have hcondEnv : s.env cond = s₀.env cond := by rw [← hs, run_env_of_notMem h.cond]
  have hptrEnv : s.env ptr = s₀.env ptr := by rw [← hs, run_env_of_notMem h.ptr]
  have hmaskEnv : s.env mask = s₀.env mask := by rw [← hs, run_env_of_notMem h.mask]
  have hshape : cond.ty.shape = [] := by rw [hcond]
  obtain ⟨id, ty⟩ := res
  subst hloaded
  simp only [Op.compute, masked, hmaskEnv, hptrEnv, hcondEnv, hmask, hshape, if_true, henvLoaded,
    extend_self]
  by_cases hc : isTrue (s₀.env cond []) = true
  · simp [hc]
  · simp [hc]

theorem selectMaskedLoad_iff (hssa : Ssa prog) (htyped : ∀ d ∈ prog, d.WellTyped)
    (hselect : (Op.select res cond loaded falseValue : Op R).WellTyped)
    (hload : getDefiningOp prog loaded = some (.load loaded ptr (some mask) loadOther attrs))
    (hsplat : getDefiningOp prog mask = some (.splat mask cond)) :
    (∀ s, (Match.selectMaskedLoad res cond loaded falseValue ptr mask loadOther attrs
        (opsAfter prog loaded)).Holds s → Preserves (.select res cond loaded falseValue)
          ((Match.selectMaskedLoad res cond loaded falseValue ptr mask loadOther attrs
            (opsAfter prog loaded)).replacement k₀ k₁) s) ↔
      (Match.selectMaskedLoad res cond loaded falseValue ptr mask loadOther attrs
        (opsAfter prog loaded)).Condition := by
  have hbefore := loadedBefore hssa hload hsplat
  have hcond : cond.ty = ⟨[], mask.ty.elem⟩ := htyped _ (mem_of_getDefiningOp hsplat).1
  obtain ⟨hptrTy, hmaskTy, hotherTy⟩ := htyped _ (mem_of_getDefiningOp hload).1
  obtain ⟨hloaded, hfalse, -, -⟩ := hselect
  have hres : (⟨res.id, loaded.ty⟩ : Value) = res := by rw [hloaded]
  simp only [Match.replacement, hres]
  generalize opsAfter prog loaded = between at hbefore ⊢
  constructor
  · intro h
    have hvolatile : attrs.isVolatile = false := by
      have hmem := (mem_of_getDefiningOp hsplat).1
      have hsplatSsa : Ssa [(Op.splat mask cond : Op R)] := by
        refine ⟨?_, pairwise_singleton _ _⟩
        intro op hop
        obtain rfl := mem_singleton.mp hop
        exact hssa.1 _ hmem
      have hholds : (Op.splat mask cond : Op R).Holds (run [.splat mask cond] (default : State R)) :=
        run_holds hsplatSsa mem_cons_self rfl
      have heq := (h _ ⟨_, rfl, hholds⟩).volatileAccesses
      cases hflag : attrs.isVolatile with
      | false => rfl
      | true =>
        rw [run_singleton] at heq
        simp [Op.step, hflag] at heq
    refine ⟨hvolatile, fun s₀ hs₀ hc index hindex => ?_⟩
    have hpreserves := h _ ⟨s₀, rfl, hs₀⟩
    have hvalue := hpreserves.values res (mem_singleton.mpr rfl) index (hloaded ▸ hindex)
    rw [run_singleton, step_env_of_mem (mem_singleton.mpr rfl),
      step_env_of_mem (mem_singleton.mpr rfl)] at hvalue
    exact (select_value_iff hbefore hs₀ hcond hloaded hfalse index).mp hvalue hc
  · rintro ⟨hvolatile, hsame⟩ s ⟨s₀, rfl, hs₀⟩
    constructor
    · intro e he
      obtain rfl := mem_singleton.mp he
      refine ⟨hloaded ▸ hptrTy, hloaded ▸ hmaskTy, ?_⟩
      rintro v hv
      obtain rfl := Option.some.inj hv
      exact hfalse
    · exact ⟨_, rfl, rfl⟩
    · rfl
    · show (if attrs.isVolatile = true then _ else _) = _
      rw [hvolatile]
      rfl
    · intro v hv index hindex
      obtain rfl := mem_singleton.mp hv
      rw [run_singleton, step_env_of_mem (mem_singleton.mpr rfl), step_env_of_mem hv]
      apply (select_value_iff hbefore hs₀ hcond hloaded hfalse index).mpr
      exact fun hc => hsame s₀ hs₀ hc index (hloaded ▸ hindex)

end Select

section Reductions

variable [CommRing R] {F : List R → R} {rows columns size size' : ℕ}

theorem sum_single (n j : ℕ) :
    ((List.range n).map fun k => if k = j then (1 : R) else 0).sum = if j < n then 1 else 0 := by
  induction n with
  | zero => rfl
  | succ n ih =>
    rw [range_succ, map_append, sum_append, ih]
    by_cases hj : j < n
    · have hne : n ≠ j := by omega
      have hlt : j < n + 1 := by omega
      simp [hj, hne, hlt]
    · by_cases heq : n = j
      · simp [heq]
      · have hge : ¬ j < n + 1 := by omega
        simp [hj, heq, hge]

/-- A matrix whose row 0 has products with its column 1 that are any numbers. -/
def productMatrix (p : ℕ → R) (i k : ℕ) : R :=
  if i = 0 then (if k = 1 then 1 else p k) else if i = 1 then p 1 else 1

theorem productMatrix_mul (p : ℕ → R) (k : ℕ) : productMatrix p 0 k * productMatrix p k 1 = p k := by
  unfold productMatrix
  by_cases h0 : k = 0
  · subst h0
    simp
  · by_cases h1 : k = 1
    · subst h1
      simp
    · simp [h0, h1]

/-- Along the axis that the tensors share, products of rows and columns are reduced to
their sum only if all lists are. -/
theorem shared_axis_sums (hrows : 16 ≤ rows) (hcolumns : 16 ≤ columns)
    (h : ∀ Z : ℕ → ℕ → R, ∀ i < rows, ∀ j < columns,
      F ((List.range size).map fun k =>
        Z i (if size' = 1 then 0 else k) * Z (if size' = 1 then 0 else k) j) =
        ((List.range size').map fun k => Z i k * Z k j).sum) (p : ℕ → R) :
    F ((List.range size).map fun k => p (if size' = 1 then 0 else k)) =
      ((List.range size').map p).sum := by
  have hp := h (productMatrix p) 0 (by omega) 1 (by omega)
  simpa only [productMatrix_mul] using hp

variable [Nontrivial R]

def unitRow (i k : ℕ) : R := if i = 1 then (if k = 2 then 1 else 0) else 1

theorem unitRow_sum_ne (hsize : 2 < size') {G : (ℕ → ℕ → R) → R}
    (h : ∀ Z, G Z = ((List.range size').map fun k => Z 1 k * Z k 0).sum) :
    G unitRow ≠ G fun _ _ => 0 := by
  have hsum : ((List.range size').map fun k => (unitRow 1 k : R) * unitRow k 0) =
      (List.range size').map fun k => if k = 2 then 1 else 0 := by
    apply map_congr_left
    intro k _
    by_cases hk : k = 2 <;> simp [unitRow, hk]
  rw [h, h, hsum, sum_single, if_pos hsize]
  simp

/-- An element of the product in row 1 does not depend on what the reduction along the
rows of the left tensor makes of it. -/
theorem first_axis_differs (hrows : 16 ≤ rows) (hcolumns : 16 ≤ columns) (hsize : size = rows)
    (hsize' : size' = 1 ∨ size' = size)
    (h : ∀ Z : ℕ → ℕ → R, ∀ i < size, ∀ j < columns,
      F ((List.range rows).map fun k =>
        Z k (if size' = 1 then 0 else i) * Z (if size' = 1 then 0 else i) j) =
        ((List.range size').map fun k => Z i k * Z k j).sum) : False := by
  by_cases hunit : size' = 1
  · subst hunit
    let Z : ℕ → ℕ → R := fun i k => if i = 0 then (if k = 2 then 1 else 0) else 1
    have hfirst := h Z 1 (by omega) 2 (by omega)
    have hsecond := h Z 0 (by omega) 2 (by omega)
    simp [Z] at hfirst hsecond
    rw [hfirst] at hsecond
    exact one_ne_zero hsecond
  · have heq : size' = size := hsize'.resolve_left hunit
    have hlt : 2 < size' := by omega
    apply unitRow_sum_ne hlt fun Z => h Z 1 (by omega) 0 (by omega)
    simp [unitRow, hunit]

theorem last_axis_differs (hrows : 16 ≤ rows) (hcolumns : 16 ≤ columns) (hsize : size = columns)
    (hsize' : size' = 1 ∨ size' = size)
    (h : ∀ Z : ℕ → ℕ → R, ∀ i < rows, ∀ j < size,
      F ((List.range columns).map fun k =>
        Z i (if size' = 1 then 0 else j) * Z (if size' = 1 then 0 else j) k) =
        ((List.range size').map fun k => Z i k * Z k j).sum) : False := by
  by_cases hunit : size' = 1
  · subst hunit
    let Z : ℕ → ℕ → R := fun i k => if i = 0 then (if k = 1 then 1 else 0) else 1
    have hfirst := h Z 1 (by omega) 1 (by omega)
    have hsecond := h Z 1 (by omega) 0 (by omega)
    simp [Z] at hfirst hsecond
    rw [hfirst] at hsecond
    exact one_ne_zero hsecond
  · have heq : size' = size := hsize'.resolve_left hunit
    have hlt : 2 < size' := by omega
    apply unitRow_sum_ne hlt fun Z => h Z 1 (by omega) 0 (by omega)
    simp [unitRow, hunit]

end Reductions

section Numbers

variable [CommRing R] {w w' : ℕ} {t t' : ElementType}

def num : (t : ElementType) → t.Carrier R → R
  | .float _, r => r
  | _, _ => 0

def ofNum : (t : ElementType) → R → t.Carrier R
  | .float _, r => r
  | _, _ => 0

theorem num_ofNum (h : t = .float w) (r : R) : num t (ofNum t r) = r := by
  subst h
  rfl

theorem num_inj (h : t = .float w) {x y : t.Carrier R} : num t x = num t y ↔ x = y := by
  subst h
  rfl

theorem num_extend (h : t = .float w) (h' : t' = .float w') (x : t.Carrier R) :
    num t' (extend t t' x) = num t x := by
  subst h
  subst h'
  rfl

theorem num_mul (h : t = .float w) (x y : t.Carrier R) : num t (x * y) = num t x * num t y := by
  subst h
  rfl

theorem num_sum (h : t = .float w) (l : List (t.Carrier R)) : num t l.sum = (l.map (num t)).sum := by
  subst h
  rw [show (l.map (num (.float w))) = l from map_id l]
  rfl

theorem cell_eq (h : t = .float w) (x : t.Carrier R) : (⟨t, x⟩ : Cell R) = ⟨.float w, num t x⟩ := by
  subst h
  rfl

theorem num_cellAt (h : t = .float w) (cells : List (Cell R)) (i : ℕ) :
    num t (cellAt cells i t) = cellAt cells i (.float w) := by
  subst h
  rfl

end Numbers

namespace MulReduce

variable {m : MulReduce R} {prog : List (Op R)} {rest : List Value}

/-- The types of a matched reduction. -/
structure Typed (m : MulReduce R) (width : ℕ) : Prop where
  elem : m.product.ty.elem = .float width
  lhs : m.lhs.ty = m.product.ty
  rhs : m.rhs.ty = m.product.ty
  lhsSrc : m.lhsSrc.ty = ⟨m.x.ty.shape.insertIdx 2 1, m.x.ty.elem⟩
  rhsSrc : m.rhsSrc.ty = ⟨m.y.ty.shape.insertIdx 0 1, m.y.ty.elem⟩
  rank : 2 ≤ m.x.ty.shape.length
  lhsElem : m.lhs.ty.elem = m.lhsSrc.ty.elem
  rhsElem : m.rhs.ty.elem = m.rhsSrc.ty.elem
  lhsShape : List.Forall₂ (fun size size' => size = 1 ∨ size = size') m.lhsSrc.ty.shape m.lhs.ty.shape
  rhsShape : List.Forall₂ (fun size size' => size = 1 ∨ size = size') m.rhsSrc.ty.shape m.rhs.ty.shape
  axis : m.axis < m.product.ty.shape.length
  res : m.res.ty = ⟨m.product.ty.shape.eraseIdx m.axis, m.product.ty.elem⟩

theorem Defined.typed (h : m.Defined prog) (htyped : ∀ d ∈ prog, d.WellTyped)
    (hop : (Op.reduce [m.res] (m.product :: rest) m.axis m.combineOp).WellTyped) :
    rest = [] ∧ ∃ width, m.Typed width := by
  obtain ⟨hlhs, hrhs, width, helem⟩ := htyped _ (mem_of_getDefiningOp h.product).1
  obtain ⟨hlhsElem, hlhsShape⟩ := htyped _ (mem_of_getDefiningOp h.lhs).1
  obtain ⟨hrhsElem, hrhsShape⟩ := htyped _ (mem_of_getDefiningOp h.rhs).1
  obtain ⟨hrank, hlhsSrc⟩ := htyped _ (mem_of_getDefiningOp h.lhsSrc).1
  obtain ⟨-, hrhsSrc⟩ := htyped _ (mem_of_getDefiningOp h.rhsSrc).1
  obtain ⟨-, hreduce⟩ := hop
  cases hreduce with
  | cons hhead htail =>
    cases htail
    exact ⟨rfl, width, helem, hlhs, hrhs, hlhsSrc, hrhsSrc, hrank, hlhsElem, hrhsElem, hlhsShape,
      hrhsShape, hhead.1, hhead.2⟩

section Typed

variable {w : ℕ} (h : m.Typed w)
include h

theorem Typed.lhsSrcElem : m.lhsSrc.ty.elem = .float w := by
  rw [← h.lhsElem, h.lhs, h.elem]

theorem Typed.rhsSrcElem : m.rhsSrc.ty.elem = .float w := by
  rw [← h.rhsElem, h.rhs, h.elem]

theorem Typed.xElem : m.x.ty.elem = .float w := by
  have helem := congrArg Ty.elem h.lhsSrc
  rw [h.lhsSrcElem] at helem
  exact helem.symm

theorem Typed.yElem : m.y.ty.elem = .float w := by
  have helem := congrArg Ty.elem h.rhsSrc
  rw [h.rhsSrcElem] at helem
  exact helem.symm

theorem Typed.resElem : m.res.ty.elem = .float w := by
  rw [h.res]
  exact h.elem

theorem Typed.x_rank : m.x.ty.shape.length + 1 = m.product.ty.shape.length := by
  have hlen := h.lhsShape.length_eq
  rw [h.lhsSrc, h.lhs] at hlen
  rw [← hlen]
  exact (length_insertIdx_of_le_length h.rank _).symm

theorem Typed.y_rank : m.y.ty.shape.length + 1 = m.product.ty.shape.length := by
  have hlen := h.rhsShape.length_eq
  rw [h.rhsSrc, h.rhs] at hlen
  rw [← hlen]
  rfl

variable [CommRing R] {s : State R}

theorem Typed.num_product (hs : ∀ op ∈ m.ops, op.Holds s) (index : List ℕ) :
    num m.product.ty.elem (s.env m.product index) =
      num m.x.ty.elem (s.env m.x ((broadcastIndex m.lhsSrc.ty.shape index).eraseIdx 2)) *
        num m.y.ty.elem (s.env m.y ((broadcastIndex m.rhsSrc.ty.shape index).eraseIdx 0)) := by
  have hmem : ∀ op ∈ m.ops, ∀ v, op.results = [v] → s.env v = op.compute s v := by
    intro op hop v hv
    exact hs op hop v (by rw [hv]; exact mem_singleton.mpr rfl)
  have hlhsElem : m.lhs.ty.elem = .float w := by rw [h.lhs, h.elem]
  have hrhsElem : m.rhs.ty.elem = .float w := by rw [h.rhs, h.elem]
  rw [hmem (.mulf m.product m.lhs m.rhs) (by simp [ops]) _ rfl]
  simp only [Op.compute]
  rw [num_mul h.elem, num_extend hlhsElem h.elem, num_extend hrhsElem h.elem,
    hmem (.broadcast m.lhs m.lhsSrc) (by simp [ops]) _ rfl,
    hmem (.broadcast m.rhs m.rhsSrc) (by simp [ops]) _ rfl]
  simp only [Op.compute]
  rw [num_extend h.lhsSrcElem hlhsElem, num_extend h.rhsSrcElem hrhsElem,
    hmem (.expandDims m.lhsSrc m.x 2) (by simp [ops]) _ rfl,
    hmem (.expandDims m.rhsSrc m.y 0) (by simp [ops]) _ rfl]
  simp only [Op.compute]
  rw [num_extend h.xElem h.lhsSrcElem, num_extend h.yElem h.rhsSrcElem]

end Typed

/-- The shapes that a matrix multiplication of the two tensors has. -/
structure Fits (m : MulReduce R) (rows columns size size' : ℕ) : Prop where
  product : m.product.ty.shape = [rows, size, columns]
  x : m.x.ty.shape = [rows, size']
  y : m.y.ty.shape = [size', columns]
  size : size' = 1 ∨ size' = size
  rows : 16 ≤ rows
  columns : 16 ≤ columns

section Values

variable {rows columns size size' : ℕ} {k₀ k₁ : ℕ}

theorem Typed.fits {w : ℕ} (h : m.Typed w) (hx : m.x.ty.shape = [m.lhs.ty.shape.getD 0 0, size'])
    (hy : m.y.ty.shape = [size', m.lhs.ty.shape.getD 2 0]) (hrows : 16 ≤ m.lhs.ty.shape.getD 0 0)
    (hcolumns : 16 ≤ m.lhs.ty.shape.getD 2 0) :
    m.Fits (m.lhs.ty.shape.getD 0 0) (m.lhs.ty.shape.getD 2 0) (m.lhs.ty.shape.getD 1 0) size' := by
  have hshape := h.lhsShape
  rw [h.lhsSrc, hx] at hshape
  have hlen : m.lhs.ty.shape.length = 3 := hshape.length_eq.symm
  obtain ⟨a, b, c, habc⟩ := length_eq_three.mp hlen
  refine ⟨?_, hx, hy, ?_, hrows, hcolumns⟩
  · rw [← h.lhs, habc]
    rfl
  · rw [habc] at hshape ⊢
    cases hshape with
    | cons _ hrest =>
      cases hrest with
      | cons hsize _ => exact hsize

variable [CommRing R] {s : State R}

theorem Typed.num_entry {w : ℕ} (h : m.Typed w) (hfits : m.Fits rows columns size size')
    (hs : ∀ op ∈ m.ops, op.Holds s) (i k j : ℕ) :
    num m.product.ty.elem (s.env m.product [i, k, j]) =
      num m.x.ty.elem (s.env m.x [i, if size' = 1 then 0 else k]) *
        num m.y.ty.elem (s.env m.y [if size' = 1 then 0 else k, j]) := by
  have hrows : rows ≠ 1 := by
    have := hfits.rows
    omega
  have hcolumns : columns ≠ 1 := by
    have := hfits.columns
    omega
  have hlhsSrc : m.lhsSrc.ty.shape = [rows, size', 1] := by
    rw [h.lhsSrc, hfits.x]
    rfl
  have hrhsSrc : m.rhsSrc.ty.shape = [1, size', columns] := by
    rw [h.rhsSrc, hfits.y]
    rfl
  rw [h.num_product hs, hlhsSrc, hrhsSrc]
  simp [broadcastIndex, hrows, hcolumns]

theorem Typed.num_reduced (h : m.Typed 32) (index : List ℕ) :
    num m.res.ty.elem ((Op.reduce [m.res] [m.product] m.axis m.combineOp).compute s m.res index) =
      m.combined ((List.range (m.product.ty.shape[m.axis]?.getD 0)).map fun k =>
        num m.product.ty.elem (s.env m.product (index.insertIdx m.axis k))) := by
  simp only [Op.compute, List.head?_cons, Option.map_some, Option.getD_some, map_cons,
    map_nil, idxOf_cons_self]
  rw [num_cellAt h.resElem, combined, map_map]
  congr 2
  apply map_congr_left
  intro k _
  rw [cell_eq h.elem]
  rfl

theorem Typed.num_dot (h : m.Typed 32) (hfits : m.Fits rows columns size size')
    (hx : m.x.id ≠ k₀ ∧ m.x.id ≠ k₁) (hy : m.y.id ≠ k₀ ∧ m.y.id ≠ k₁) {v : Value}
    (hv : v = ⟨m.res.id, m.newAccType⟩) (i j : ℕ) :
    num v.ty.elem ((run ((Match.broadcastMulReduce m).replacement k₀ k₁) s).env v [i, j]) =
      ((List.range size').map fun k =>
        num m.x.ty.elem (s.env m.x [i, k]) * num m.y.ty.elem (s.env m.y [k, j])).sum := by
  subst hv
  have hacc : m.newAccType.elem = .float 32 := h.lhsSrcElem
  have hne : ∀ (v : Value) (k : ℕ) (ty : Ty), v.id ≠ k → v ∉ [(⟨k, ty⟩ : Value)] := by
    intro v k ty hv hmem
    exact hv (congrArg Value.id (mem_singleton.mp hmem))
  have hzero : ∀ index, (run [Op.constant ⟨k₀, [], .float 32⟩ (.scalar ⟨.float 32, (0 : R)⟩),
      .splat ⟨k₁, m.newAccType⟩ ⟨k₀, [], .float 32⟩] s).env ⟨k₁, m.newAccType⟩ index = 0 := by
    intro index
    rw [run_cons, run_singleton, step_env_of_mem (mem_singleton.mpr rfl)]
    simp only [Op.compute]
    rw [step_env_of_mem (mem_singleton.mpr rfl)]
    exact extend_zero _ _
  have hkeep : ∀ v : Value, v.id ≠ k₀ ∧ v.id ≠ k₁ →
      (run [Op.constant ⟨k₀, [], .float 32⟩ (.scalar ⟨.float 32, (0 : R)⟩),
        .splat ⟨k₁, m.newAccType⟩ ⟨k₀, [], .float 32⟩] s).env v = s.env v := by
    intro v hv
    apply run_env_of_notMem
    intro op hop
    rcases mem_pair.mp hop with rfl | rfl
    · exact hne v k₀ _ hv.1
    · exact hne v k₁ _ hv.2
  have hsplit : (Match.broadcastMulReduce m : Match R).replacement k₀ k₁ =
      [Op.constant ⟨k₀, [], .float 32⟩ (.scalar ⟨.float 32, (0 : R)⟩),
        .splat ⟨k₁, m.newAccType⟩ ⟨k₀, [], .float 32⟩] ++
      [.dot ⟨m.res.id, m.newAccType⟩ m.x m.y ⟨k₁, m.newAccType⟩ .tf32 0] := rfl
  rw [hsplit, run_append, run_singleton, step_env_of_mem (mem_singleton.mpr rfl)]
  simp only [Op.compute]
  rw [hzero, hkeep m.x hx, hkeep m.y hy, extend_zero, zero_add, num_sum hacc, map_map, hfits.x]
  congr 1
  apply map_congr_left
  intro k _
  rw [Function.comp_apply, num_mul hacc, num_extend h.xElem hacc, num_extend h.yElem hacc]
  rfl

end Values

section States

variable {w : ℕ}

theorem Typed.ssa (h : m.Typed w) (hdef : m.Defined prog) : Ssa m.ops := by
  have hlhsLen : m.lhs.ty.shape.length = m.product.ty.shape.length := by rw [h.lhs]
  have hrhsLen : m.rhs.ty.shape.length = m.product.ty.shape.length := by rw [h.rhs]
  have hlhsSrcLen := h.lhsShape.length_eq.trans hlhsLen
  have hrhsSrcLen := h.rhsShape.length_eq.trans hrhsLen
  -- a tensor has one dimension less than the values it is the source of
  have hx : ∀ v : Value, v.ty.shape.length = m.product.ty.shape.length → v ≠ m.x := by
    rintro v hv rfl
    have := h.x_rank
    omega
  have hy : ∀ v : Value, v.ty.shape.length = m.product.ty.shape.length → v ≠ m.y := by
    rintro v hv rfl
    have := h.y_rank
    omega
  -- values with different definitions are different
  have hdiffer : ∀ {v v' : Value} {d d' : Op R}, getDefiningOp prog v = some d →
      getDefiningOp prog v' = some d' → d ≠ d' → v ≠ v' := by
    rintro v v' d d' hd hd' hne rfl
    exact hne (Option.some.inj (hd.symm.trans hd'))
  have hsrcs := hdiffer hdef.rhsSrc hdef.lhsSrc (by simp)
  have hlhsSrc := hdiffer hdef.lhs hdef.lhsSrc (by simp)
  have hlhsRhsSrc := hdiffer hdef.lhs hdef.rhsSrc (by simp)
  have hrhsLhsSrc := hdiffer hdef.rhs hdef.lhsSrc (by simp)
  have hrhsSrc := hdiffer hdef.rhs hdef.rhsSrc (by simp)
  have hsides := hdiffer hdef.rhs hdef.lhs (by simp [hsrcs])
  have hproductLhs := hdiffer hdef.product hdef.lhs (by simp)
  have hproductRhs := hdiffer hdef.product hdef.rhs (by simp)
  have hproductLhsSrc := hdiffer hdef.product hdef.lhsSrc (by simp)
  have hproductRhsSrc := hdiffer hdef.product hdef.rhsSrc (by simp)
  constructor
  · simp [ops, Op.results, Op.operands, hx _ hlhsSrcLen, hy _ hrhsSrcLen, hlhsSrc, hrhsSrc,
      hproductLhs, hproductRhs]
  · simp [ops, Op.results, Op.operands, hx _ hlhsLen, hx _ hrhsLen, hx _ hrhsSrcLen, hx _ rfl,
      hy _ hlhsLen, hy _ hrhsLen, hy _ rfl, hsrcs, hlhsSrc, hlhsRhsSrc, hrhsLhsSrc, hrhsSrc, hsides,
      hproductLhs, hproductRhs, hproductLhsSrc, hproductRhsSrc]

variable [CommRing R]

def initialState (m : MulReduce R) (Z : ℕ → ℕ → R) : State R :=
  { (default : State R) with
    env := fun v index =>
      if v = m.x ∨ v = m.y then ofNum v.ty.elem (Z (index.getD 0 0) (index.getD 1 0)) else 0 }

theorem Typed.exists_state (h : m.Typed w) (hdef : m.Defined prog) (Z : ℕ → ℕ → R) :
    ∃ s : State R, (∀ op ∈ m.ops, op.Holds s) ∧
      (∀ i k, num m.x.ty.elem (s.env m.x [i, k]) = Z i k) ∧
      ∀ k j, num m.y.ty.elem (s.env m.y [k, j]) = Z k j := by
  have hssa := h.ssa hdef
  have hkeep : ∀ v, v.ty.shape.length + 1 = m.product.ty.shape.length →
      (run m.ops (m.initialState Z)).env v = (m.initialState Z).env v := by
    intro v hv
    apply run_env_of_notMem
    have hlhsSrcLen := h.lhsShape.length_eq
    have hrhsSrcLen := h.rhsShape.length_eq
    rw [h.lhs] at hlhsSrcLen
    rw [h.rhs] at hrhsSrcLen
    have hne : ∀ e : Value, e.ty.shape.length = m.product.ty.shape.length → v ≠ e := by
      rintro e he rfl
      omega
    have hlhs : v ≠ m.lhs := hne _ (by rw [h.lhs])
    have hrhs : v ≠ m.rhs := hne _ (by rw [h.rhs])
    simp [ops, Op.results, hne _ hlhsSrcLen, hne _ hrhsSrcLen, hlhs, hrhs, hne m.product rfl]
  refine ⟨run m.ops (m.initialState Z), ?_, ?_, ?_⟩
  · intro op hop
    apply run_holds hssa hop
    simp only [ops, mem_cons, not_mem_nil, or_false] at hop
    rcases hop with rfl | rfl | rfl | rfl | rfl <;> rfl
  · intro i k
    rw [hkeep m.x h.x_rank]
    simp only [initialState, true_or, if_true]
    exact num_ofNum h.xElem _
  · intro k j
    rw [hkeep m.y h.y_rank]
    simp only [initialState, or_true, if_true]
    exact num_ofNum h.yElem _

end States

section Preserved

variable [CommRing R] {w k₀ k₁ : ℕ}

theorem Typed.preserves (h : m.Typed w) (hrows : 16 ≤ m.lhs.ty.shape.getD 0 0)
    (hcolumns : 16 ≤ m.lhs.ty.shape.getD 2 0) (hx : m.x.id ≠ k₀ ∧ m.x.id ≠ k₁)
    (hy : m.y.id ≠ k₀ ∧ m.y.id ≠ k₁) (hsums : m.Sums) {s : State R}
    (hs : ∀ op ∈ m.ops, op.Holds s) :
    Preserves (.reduce [m.res] [m.product] m.axis m.combineOp)
      ((Match.broadcastMulReduce m).replacement k₀ k₁) s := by
  obtain ⟨haxis, helem, rows, columns, size, size', hproduct, hxShape, hyShape, hsum⟩ := hsums
  obtain rfl : w = 32 := ElementType.float.inj (h.elem.symm.trans helem)
  have hlhsShape : m.lhs.ty.shape = [rows, size, columns] := by rw [h.lhs, hproduct]
  rw [hlhsShape] at hrows hcolumns
  have hfits : m.Fits rows columns size size' := by
    have hx' : m.x.ty.shape = [m.lhs.ty.shape.getD 0 0, size'] := by
      rw [hlhsShape, hxShape]
      rfl
    have hy' : m.y.ty.shape = [size', m.lhs.ty.shape.getD 2 0] := by
      rw [hlhsShape, hyShape]
      rfl
    have hfits := h.fits hx' hy' (by rw [hlhsShape]; exact hrows) (by rw [hlhsShape]; exact hcolumns)
    rwa [hlhsShape] at hfits
  have hacc : m.newAccType = ⟨[rows, columns], .float 32⟩ := by
    rw [newAccType, hlhsShape, h.lhsSrcElem]
    rfl
  have hresTy : m.res.ty = ⟨[rows, columns], .float 32⟩ := by
    rw [h.res, hproduct, haxis, h.elem]
    rfl
  have hres : m.res = ⟨m.res.id, m.newAccType⟩ := by
    rw [hacc, ← hresTy]
  constructor
  · intro e he
    have hcases : e = .constant ⟨k₀, [], .float 32⟩ (.scalar ⟨.float 32, (0 : R)⟩) ∨
        e = .splat ⟨k₁, m.newAccType⟩ ⟨k₀, [], .float 32⟩ ∨
        e = .dot ⟨m.res.id, m.newAccType⟩ m.x m.y ⟨k₁, m.newAccType⟩ .tf32 0 := by
      simpa [Match.replacement] using he
    rcases hcases with rfl | rfl | rfl
    · exact ⟨rfl, rfl⟩
    · show (⟨[], .float 32⟩ : Ty) = ⟨[], m.newAccType.elem⟩
      rw [hacc]
    · refine ⟨rfl, ?_, [], rows, columns, size', ?_, hxShape, hyShape⟩
      · rw [h.xElem, h.yElem]
      · rw [hacc]
        rfl
  · exact ⟨_, rfl, congrArg (fun v => [v]) hres.symm⟩
  · rfl
  · rfl
  · intro v hv index hindex
    obtain rfl := mem_singleton.mp hv
    rw [hresTy] at hindex
    obtain ⟨i, j, rfl⟩ : ∃ i j, index = [i, j] := length_eq_two.mp hindex.length_eq
    rw [step_env_of_mem hv, ← num_inj h.resElem, h.num_dot hfits hx hy hres, h.num_reduced, hproduct,
      haxis]
    show _ = m.combined ((List.range size).map fun k => num m.product.ty.elem (s.env m.product [i, k, j]))
    simp only [h.num_entry hfits hs]
    exact (hsum fun k => num m.x.ty.elem (s.env m.x [i, k]) * num m.y.ty.elem (s.env m.y [k, j])).symm

variable [Nontrivial R]

/-- A product that is replaced rightly for all elements is reduced along the axis the
tensors share, and to the sum. -/
theorem Typed.sums (h : m.Typed w) (hdef : m.Defined prog) (hrows : 16 ≤ m.lhs.ty.shape.getD 0 0)
    (hcolumns : 16 ≤ m.lhs.ty.shape.getD 2 0) (hx : m.x.id ≠ k₀ ∧ m.x.id ≠ k₁)
    (hy : m.y.id ≠ k₀ ∧ m.y.id ≠ k₁)
    (hpreserves : ∀ s : State R, (∀ op ∈ m.ops, op.Holds s) →
      Preserves (.reduce [m.res] [m.product] m.axis m.combineOp)
        ((Match.broadcastMulReduce m).replacement k₀ k₁) s) : m.Sums := by
  obtain ⟨s₀, hs₀, -, -⟩ := h.exists_state hdef fun _ _ => (0 : R)
  have hstatic := hpreserves s₀ hs₀
  have hsplat : (⟨[], .float 32⟩ : Ty) = ⟨[], m.newAccType.elem⟩ :=
    hstatic.wellTyped (.splat ⟨k₁, m.newAccType⟩ ⟨k₀, [], .float 32⟩) (by simp [Match.replacement])
  obtain rfl : w = 32 := by
    have helem := (congrArg Ty.elem hsplat).trans h.lhsSrcElem
    exact (ElementType.float.inj helem).symm
  obtain ⟨-, -, batch, a, b, size', hacc, hxShape, hyShape⟩ :=
    hstatic.wellTyped (.dot ⟨m.res.id, m.newAccType⟩ m.x m.y ⟨k₁, m.newAccType⟩ .tf32 0)
      (by simp [Match.replacement])
  obtain rfl : batch = [] := by
    have hlen := congrArg List.length hacc
    simp [newAccType] at hlen
    exact hlen
  obtain ⟨rfl, rfl⟩ : m.lhs.ty.shape.getD 0 0 = a ∧ m.lhs.ty.shape.getD 2 0 = b := by
    simpa [newAccType] using hacc
  have hfits := h.fits hxShape hyShape hrows hcolumns
  have hres : m.res = ⟨m.res.id, m.newAccType⟩ := by
    obtain ⟨last, hlast, hresults⟩ := hstatic.results
    obtain rfl := Option.some.inj hlast
    exact (singleton_inj.mp hresults).symm
  have hresShape : m.res.ty.shape = [m.lhs.ty.shape.getD 0 0, m.lhs.ty.shape.getD 2 0] := by
    rw [hres]
    rfl
  generalize m.lhs.ty.shape.getD 0 0 = rows at hfits hresShape hrows
  generalize m.lhs.ty.shape.getD 2 0 = columns at hfits hresShape hcolumns
  generalize m.lhs.ty.shape.getD 1 0 = size at hfits
  have hshapes : [rows, columns] = [rows, size, columns].eraseIdx m.axis := by
    rw [← hresShape, h.res, hfits.product]
  -- the values of the reduction and of the multiplication for any elements
  have haxis : m.axis < 3 := by
    have := h.axis
    rwa [hfits.product] at this
  have hvalues : ∀ Z : ℕ → ℕ → R, ∀ i < rows, ∀ j < columns,
      m.combined ((List.range ([rows, size, columns][m.axis]?.getD 0)).map fun k =>
        Z (([i, j].insertIdx m.axis k).getD 0 0)
            (if size' = 1 then 0 else ([i, j].insertIdx m.axis k).getD 1 0) *
          Z (if size' = 1 then 0 else ([i, j].insertIdx m.axis k).getD 1 0)
            (([i, j].insertIdx m.axis k).getD 2 0)) =
        ((List.range size').map fun k => Z i k * Z k j).sum := by
    intro Z i hi j hj
    obtain ⟨s, hs, hX, hY⟩ := h.exists_state hdef Z
    have hindex : InBounds m.res.ty.shape [i, j] := by
      rw [hresShape]
      exact .cons hi (.cons hj .nil)
    have hvalue := (hpreserves s hs).values m.res (mem_singleton.mpr rfl) [i, j] hindex
    rw [step_env_of_mem (mem_singleton.mpr rfl), ← num_inj h.resElem,
      h.num_dot hfits hx hy hres, h.num_reduced, hfits.product] at hvalue
    simp only [hX, hY] at hvalue
    rw [hvalue]
    congr 1
    apply map_congr_left
    intro k _
    have hlen : ([i, j].insertIdx m.axis k).length = 3 :=
      length_insertIdx_of_le_length (Nat.le_of_lt_succ haxis) k
    obtain ⟨a, b, c, habc⟩ := length_eq_three.mp hlen
    rw [habc, h.num_entry hfits hs, hX, hY]
    rfl
  have hcases : m.axis = 0 ∨ m.axis = 1 ∨ m.axis = 2 := by omega
  rcases hcases with h0 | h1 | h2
  · rw [h0] at hshapes hvalues
    obtain rfl : rows = size := (List.cons.inj hshapes).1
    exact (first_axis_differs hrows hcolumns rfl hfits.size hvalues).elim
  · rw [h1] at hvalues
    exact ⟨h1, h.elem, rows, columns, size, size', hfits.product, hfits.x, hfits.y,
      shared_axis_sums hrows hcolumns hvalues⟩
  · rw [h2] at hshapes hvalues
    obtain rfl : columns = size := (List.cons.inj (List.cons.inj hshapes).2).1
    exact (last_axis_differs hrows hcolumns rfl hfits.size hvalues).elim

end Preserved

end MulReduce

section Claim

variable [CommRing R] [Nontrivial R] [DecidableEq R] {prog : List (Op R)} {uses : Value → ℕ}
  {op : Op R} {m : Match R} {k₀ k₁ : ℕ}

/-- When a program comes to an operation that a pattern matches, what the matched operations
compute holds; and whenever it does, the replacement has the value of the operation and
the same effects, exactly when the match meets its condition. -/
theorem combine_preserves_iff (hssa : Ssa (prog ++ [op])) (htyped : ∀ d ∈ prog ++ [op], d.WellTyped)
    (hfresh : ∀ d ∈ prog ++ [op], ∀ v ∈ d.results ++ d.operands, v.id ≠ k₀ ∧ v.id ≠ k₁)
    (hmatch : m ∈ combineOps prog uses op) :
    (∀ s, m.Holds (run prog s)) ∧
      ((∀ s, m.Holds s → Preserves op (m.replacement k₀ k₁) s) ↔ m.Condition) := by
  have hprog := hssa.of_append_left
  have htypedProg : ∀ d ∈ prog, d.WellTyped := fun d hd => htyped d (mem_append_left _ hd)
  have htypedOp : op.WellTyped := htyped op (by simp)
  have hfreshOperand : ∀ {v : Value} {d : Op R}, getDefiningOp prog v = some d →
      ∀ e ∈ d.operands, e.id ≠ k₀ ∧ e.id ≠ k₁ := fun hdef e he =>
    hfresh _ (mem_append_left _ (mem_of_getDefiningOp hdef).1) e (mem_append_right _ he)
  refine ⟨holds_run hprog htypedProg hmatch, ?_⟩
  rcases combineOps_cases hmatch with ⟨float, res, dotValue, d, hdot, lhs, rhs, hop, hsides⟩ |
    hselect | haddptr | hconstant | hreduce
  · obtain ⟨a, b, c, p, i, rfl, hdef, -⟩ := combineDotAdd_eq hdot
    have hdotTyped := htypedProg _ (mem_of_getDefiningOp hdef).1
    exact ⟨fun _ => trivial, fun _ s hs => preserves_dotAdd hop hsides htypedOp hdotTyped hs⟩
  · obtain ⟨res, cond, loaded, falseValue, ptr, mask, loadOther, attrs, rfl, rfl, hload, hsplat⟩ :=
      combineSelectMaskedLoad_eq hselect
    exact selectMaskedLoad_iff hprog htypedProg htypedOp hload hsplat
  · obtain ⟨res, first, ptr, idx0, idx1, rfl, rfl, hdef, hcombinable⟩ := combineAddPtr_eq haddptr
    have hsame : idx1.ty = idx0.ty := by
      unfold isAddPtrOffsetCombinable at hcombinable
      split at hcombinable
      · exact Eq.symm ‹_›
      · cases hcombinable
    have hptrFresh := (hfreshOperand hdef ptr mem_cons_self).1
    have hfirst := htypedProg _ (mem_of_getDefiningOp hdef).1
    exact ⟨fun _ => trivial, fun _ s hs => preserves_addPtr htypedOp hfirst hsame hptrFresh hs⟩
  · obtain ⟨res, src, element, value, rfl, rfl, hdef, hvalue⟩ := combineBroadcastConstant_eq hconstant
    have helem : element.1 = src.ty.elem := by
      have hconstantTyped := htypedProg _ (mem_of_getDefiningOp hdef).1
      rcases hvalue with rfl | rfl
      · exact hconstantTyped.1
      · exact hconstantTyped
    exact ⟨fun _ => trivial, fun _ s hs => preserves_broadcastConstant htypedOp helem hs⟩
  · obtain ⟨mr, rest, rfl, rfl, hdefined, hcolumns, hrows⟩ := combineBroadcastMulReduce_eq hreduce
    obtain ⟨rfl, width, hmr⟩ := hdefined.typed htypedProg htypedOp
    have hx := hfreshOperand hdefined.lhsSrc mr.x mem_cons_self
    have hy := hfreshOperand hdefined.rhsSrc mr.y mem_cons_self
    exact ⟨hmr.sums hdefined hrows hcolumns hx hy,
      fun hsums s hs => hmr.preserves hrows hcolumns hx hy hsums hs⟩

end Claim

section Example

/-- Values of one element each: a pointer, a condition, the mask, what is loaded, stored and
selected. -/
def pointer : Value := ⟨0, [1], .ptr 4⟩
def condition : Value := ⟨1, [], .int 1⟩
def maskValue : Value := ⟨2, [1], .int 1⟩
def loadedValue : Value := ⟨3, [1], .float 32⟩
def storedValue : Value := ⟨4, [1], .float 32⟩
def otherValue : Value := ⟨5, [1], .float 32⟩
def selected : Value := ⟨6, [1], .float 32⟩

def plainAttrs : LoadAttrs := ⟨[], none, .none, .normal, false⟩

def loadThen (between : List (Op ℤ)) : List (Op ℤ) :=
  [.splat maskValue condition, .load loadedValue pointer (some maskValue) none plainAttrs] ++ between

def selectLoaded : Op ℤ := .select selected condition loadedValue otherValue

def selectMatch (between : List (Op ℤ)) : Match ℤ :=
  .selectMaskedLoad selected condition loadedValue otherValue pointer maskValue none plainAttrs between

def exampleState : State ℤ where
  env v _ := if v = condition ∨ v = storedValue then 1 else 0
  mem _ := ⟨.float 32, (0 : ℤ)⟩
  volatileAccesses := []

theorem loadThen_wellTyped (op : Op ℤ) (h : op ∈ loadThen [] ++ [selectLoaded]) : op.WellTyped := by
  simp only [loadThen, append_nil, cons_append, nil_append, mem_cons,
    not_mem_nil, or_false] at h
  rcases h with rfl | rfl | rfl
  · exact rfl
  · refine ⟨⟨4, rfl⟩, ?_, ?_⟩
    · rintro v hv
      obtain rfl := Option.some.inj hv
      rfl
    · rintro v ⟨⟩
  · exact ⟨rfl, rfl, rfl, Or.inl rfl⟩

/-- With nothing between the load and the select the memory is the one the load has read. -/
theorem nothing_between_preserved :
    selectMatch [] ∈ combineOps (loadThen []) (fun _ => 1) selectLoaded ∧
      ∀ s, Preserves selectLoaded ((selectMatch []).replacement 7 8) (run (loadThen []) s) := by
  have hmatch : selectMatch [] ∈ combineOps (loadThen []) (fun _ => 1) selectLoaded := by
    apply reduceOption_mem_iff.mpr
    simp only [mem_cons]
    exact Or.inr (Or.inr (Or.inr (Or.inr (Or.inl rfl))))
  have hssa : Ssa (loadThen [] ++ [selectLoaded]) := by
    constructor <;> simp [loadThen, selectLoaded, Op.results, Op.operands, maskValue, condition,
      loadedValue, pointer, selected, otherValue]
  have hfresh : ∀ d ∈ loadThen [] ++ [selectLoaded], ∀ v ∈ d.results ++ d.operands,
      v.id ≠ 7 ∧ v.id ≠ 8 := by
    simp [loadThen, selectLoaded, Op.results, Op.operands, maskValue, condition, loadedValue, pointer,
      selected, otherValue]
  obtain ⟨hholds, hpreserves⟩ := combine_preserves_iff hssa loadThen_wellTyped hfresh hmatch
  exact ⟨hmatch, fun s => hpreserves.mpr ⟨rfl, fun _ _ _ _ _ => rfl⟩ _ (hholds s)⟩

/-- The replacement loads what was stored after the load that it replaces. -/
theorem store_between_not_preserved :
    ∃ m ∈ combineOps (loadThen [.store pointer storedValue none]) (fun _ => 1) selectLoaded,
      ¬ Preserves selectLoaded (m.replacement 7 8)
        (run (loadThen [.store pointer storedValue none]) exampleState) := by
  refine ⟨selectMatch [.store pointer storedValue none], ?_, ?_⟩
  · apply reduceOption_mem_iff.mpr
    simp only [mem_cons]
    exact Or.inr (Or.inr (Or.inr (Or.inr (Or.inl rfl))))
  · intro h
    have hvalue := h.values selected (mem_singleton.mpr rfl) [0] (.cons (by decide) .nil)
    have hne : (1 : ℤ) = 0 := hvalue
    exact absurd hne (by decide)

end Example

end TritonCpu.Combine
