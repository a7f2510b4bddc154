import Mathlib.Data.BitVec
import Mathlib.Data.Fin.VecNotation
import Mathlib.Data.List.Forall2
import Mathlib.Data.List.GetD

/-!
# `tt.reduce` as a `linalg.reduce`

ReduceConverter keeps the combine region and has to choose the initial accumulators: a constant
looked up by the first operation that uses the accumulator, or, for an operation that is not in
the table, one element of the input that all outputs share. The reduction folds that value in
besides the elements of the line, so it is right exactly where the value is absorbed.
-/

namespace TritonCpu.Reduce

open List

/-- An integer with its width. -/
structure Word where
  width : ℕ
  bits : BitVec width

/-- The integer operations that getRedBaseConstOp tells apart; `other` is any operation without an
entry in its table, with what it computes. -/
inductive OpKind where
  | addi
  | minsi
  | minui
  | maxsi
  | maxui
  | xori
  | muli
  | andi
  | ori
  | other (f : List Word → Word)

/-- An operation of a combine region; the operands are the arguments of the region and then the
results of the operations before. -/
structure Operation where
  kind : OpKind
  operands : List ℕ

/-- `tt.reduce` over integers: the widths of its operands, their shape, the axis, and the region
with the operands of its terminator. -/
structure ReduceOp where
  numReductions : ℕ
  widths : Fin numReductions → ℕ
  shape : List ℕ
  axis : ℕ
  axis_lt : axis < shape.length
  ops : List Operation
  ret : Fin numReductions → ℕ

section Region

def binary (f : ∀ w, BitVec w → BitVec w → BitVec w) : List Word → Word
  | [a, b] => ⟨a.width, f a.width a.bits (b.bits.setWidth a.width)⟩
  | _ => ⟨0, 0⟩

def OpKind.fn : OpKind → (w : ℕ) → BitVec w → BitVec w → BitVec w
  | .addi, _, a, b => a + b
  | .minsi, _, a, b => if a.slt b then a else b
  | .minui, _, a, b => if a.ult b then a else b
  | .maxsi, _, a, b => if b.slt a then a else b
  | .maxui, _, a, b => if b.ult a then a else b
  | .xori, _, a, b => a ^^^ b
  | .muli, _, a, b => a * b
  | .andi, _, a, b => a &&& b
  | .ori, _, a, b => a ||| b
  | .other _, _, a, _ => a

def OpKind.eval : OpKind → List Word → Word
  | .other f => f
  | kind => binary kind.fn

def runOps : List Operation → List Word → List Word
  | [], env => env
  | o :: ops, env => runOps ops (env ++ [o.kind.eval (o.operands.map (env.getD · ⟨0, 0⟩))])

variable (r : ReduceOp)

/-- One element of every operand. -/
abbrev ReduceOp.Lane : Type := ∀ i : Fin r.numReductions, BitVec (r.widths i)

/-- The combine region: the elements of the inputs come first, then the accumulators. -/
def ReduceOp.combine (x acc : r.Lane) : r.Lane :=
  let args := List.ofFn (fun i => ⟨r.widths i, x i⟩) ++ List.ofFn (fun i => ⟨r.widths i, acc i⟩)
  fun i => ((runOps r.ops args).getD (r.ret i) ⟨0, 0⟩).bits.setWidth (r.widths i)

end Region

section Conversion

/-- The first operation that uses an argument of the region, or its terminator. -/
def findFirstAccumulatorUserAt (ops : List Operation) (accArgIdx : ℕ) : Option Operation :=
  ops.find? fun o => o.operands.contains accArgIdx

/-- The initial value for an accumulator; `none` is the placeholder that isPlaceholder finds. -/
def getRedBaseConstOp (redOp : Option Operation) (bitWidth : ℕ) : Option (BitVec bitWidth) :=
  match redOp.map Operation.kind with
  | none => some 0
  | some .addi => some 0
  | some .minsi => some (BitVec.intMax bitWidth)
  | some .minui => some (BitVec.allOnes bitWidth)
  | some .maxsi => some (BitVec.intMin bitWidth)
  | some .maxui => some 0
  | some .xori => some 0
  | some .muli => some 1
  | some .andi => some 1
  | some .ori => some 0
  | some (.other _) => none

def swapLast (l : List ℕ) : List ℕ :=
  match l.reverse with
  | b :: a :: rest => (a :: b :: rest).reverse
  | _ => l

variable (r : ReduceOp)

/-- A reduction along the last axis of a tensor of rank two or more is transposed. -/
def ReduceOp.transposes : Bool := r.axis == r.shape.length - 1 && r.shape.length != 1

/-- The axis of the `linalg.reduce`. -/
def ReduceOp.newAxis : ℕ := if r.transposes then r.shape.length - 2 else r.axis

variable (sources : List ℕ → r.Lane)

def ReduceOp.newSources : List ℕ → r.Lane :=
  if r.transposes then fun idx => sources (swapLast idx) else sources

/-- The shape of the sources after getTransposedValue. -/
def ReduceOp.newShape : List ℕ := if r.transposes then swapLast r.shape else r.shape

/-- The indices of getFirstElementAlongAxis. -/
def ReduceOp.firstElement : List ℕ := List.replicate r.shape.length r.newAxis

def ReduceOp.initVal : r.Lane := fun i =>
  (getRedBaseConstOp (findFirstAccumulatorUserAt r.ops (r.numReductions + i)) (r.widths i)).getD
    (r.newSources sources r.firstElement i)

/-- What the `linalg.reduce` leaves at an index of its result. -/
def ReduceOp.convertToLinalgReduce (out : List ℕ) : r.Lane :=
  (List.range (r.newShape.getD r.newAxis 0)).foldl
    (fun acc k => r.combine (r.newSources sources (out.insertIdx r.newAxis k)) acc)
    (r.initVal sources)

end Conversion

section Specification

variable (r : ReduceOp) (sources : List ℕ → r.Lane)

/-- The fold of a combine function over the elements of a list, each used once. -/
def fold₁ {α : Type} (f : α → α → α) : List α → Option α
  | [] => none
  | x :: xs => some (xs.foldl f x)

/-- The elements along the axis that belong to an index of the result. -/
def ReduceOp.line (out : List ℕ) : List r.Lane :=
  (List.range (r.shape.getD r.axis 0)).map fun k => sources (out.insertIdx r.axis k)

/-- `out` is an index of the result. -/
def ReduceOp.InResult (out : List ℕ) : Prop :=
  List.Forall₂ (· < ·) out (r.shape.eraseIdx r.axis)

/-- The extracted element exists, and every output is the fold of its line. -/
structure ReduceOp.Correct : Prop where
  inRange : List.Forall₂ (· < ·) r.firstElement r.newShape
  value : ∀ out, r.InResult out →
    some (r.convertToLinalgReduce sources out) = fold₁ r.combine (r.line sources out)

/-- The initial value changes nothing when it is combined with the fold of a line. -/
def ReduceOp.Absorbed (out : List ℕ) : Prop :=
  (fold₁ r.combine (r.line sources out)).map (r.combine (r.initVal sources)) =
    fold₁ r.combine (r.line sources out)

end Specification

section Correctness

theorem swapLast_append (l : List ℕ) (a b : ℕ) : swapLast (l ++ [a, b]) = l ++ [b, a] := by
  simp [swapLast]

theorem length_swapLast (l : List ℕ) : (swapLast l).length = l.length := by
  unfold swapLast
  split
  next b a rest h =>
    have hlen : l.reverse.length = l.length := length_reverse
    rw [← hlen, h]
    simp
  · rfl

theorem mem_swapLast (l : List ℕ) (d : ℕ) : d ∈ swapLast l ↔ d ∈ l := by
  unfold swapLast
  split
  next b a rest h =>
    have hmem : d ∈ l.reverse ↔ d ∈ l := mem_reverse
    rw [← hmem, h]
    exact (reverse_perm _).mem_iff.trans (List.Perm.swap b a rest).mem_iff
  · rfl

theorem exists_append_two {l : List ℕ} (h : 2 ≤ l.length) : ∃ m a b, l = m ++ [a, b] := by
  cases hl : l.reverse with
  | nil => simp_all
  | cons b rest =>
    cases rest with
    | nil =>
      have hlen := congrArg List.length hl
      simp only [length_reverse, length_singleton] at hlen
      omega
    | cons a m =>
      refine ⟨m.reverse, a, b, ?_⟩
      rw [← reverse_reverse l, hl]
      simp

theorem insertIdx_length_append (m : List ℕ) (a k : ℕ) :
    (m ++ [a]).insertIdx m.length k = m ++ [k, a] := by
  induction m with
  | nil => rfl
  | cons b m ih =>
    rw [cons_append, length_cons, insertIdx_succ_cons, ih]
    rfl

variable {r : ReduceOp} {sources : List ℕ → r.Lane}

theorem transposes_spec (h : r.transposes = true) :
    2 ≤ r.shape.length ∧ r.axis = r.shape.length - 1 ∧ r.newAxis = r.shape.length - 2 := by
  have haxis := r.axis_lt
  have hnew : r.newAxis = r.shape.length - 2 := by rw [ReduceOp.newAxis, if_pos h]
  simp only [ReduceOp.transposes, Bool.and_eq_true, beq_iff_eq, bne_iff_ne] at h
  exact ⟨by omega, h.1, hnew⟩

theorem length_newShape : r.newShape.length = r.shape.length := by
  unfold ReduceOp.newShape
  split
  · exact length_swapLast _
  · rfl

theorem mem_newShape (d : ℕ) : d ∈ r.newShape ↔ d ∈ r.shape := by
  unfold ReduceOp.newShape
  split
  · exact mem_swapLast _ _
  · rfl

theorem size_newAxis : r.newShape.getD r.newAxis 0 = r.shape.getD r.axis 0 := by
  by_cases h : r.transposes = true
  · obtain ⟨hlen, haxis, hnew⟩ := transposes_spec h
    obtain ⟨m, a, b, hshape⟩ := exists_append_two hlen
    rw [ReduceOp.newShape, if_pos h, hnew, haxis, hshape, swapLast_append]
    simp
  · rw [ReduceOp.newShape, ReduceOp.newAxis, if_neg h, if_neg h]

theorem length_out {out : List ℕ} (h : r.InResult out) : out.length = r.shape.length - 1 := by
  rw [h.length_eq, length_eraseIdx, if_pos r.axis_lt]

theorem newSources_insertIdx {out : List ℕ} (h : r.InResult out) (k : ℕ) :
    r.newSources sources (out.insertIdx r.newAxis k) = sources (out.insertIdx r.axis k) := by
  have hout := length_out h
  by_cases ht : r.transposes = true
  · obtain ⟨hlen, haxis, hnew⟩ := transposes_spec ht
    rw [ReduceOp.newSources, if_pos ht, hnew, haxis]
    rw [← dropLast_append_getLast (l := out) (by rintro rfl; simp at hout; omega)]
    generalize hm : out.dropLast = m
    generalize out.getLast _ = a
    have hlast : m.length = r.shape.length - 2 := by
      rw [← hm, length_dropLast]
      omega
    have hend : r.shape.length - 1 = (m ++ [a]).length := by
      rw [length_append, length_singleton]
      omega
    rw [← hlast, hend, insertIdx_length_append, insertIdx_length_self, swapLast_append,
      append_assoc]
    rfl
  · rw [ReduceOp.newSources, ReduceOp.newAxis, if_neg ht, if_neg ht]

theorem convertToLinalgReduce_eq {out : List ℕ} (h : r.InResult out) :
    r.convertToLinalgReduce sources out =
      (r.line sources out).foldl (fun acc x => r.combine x acc) (r.initVal sources) := by
  rw [ReduceOp.convertToLinalgReduce, ReduceOp.line, foldl_map, size_newAxis]
  congr 1
  funext acc k
  rw [newSources_insertIdx h]

theorem foldl_seed {α : Type} (f : α → α → α) [Std.Associative f] [Std.Commutative f] (seed x : α)
    (xs : List α) : (x :: xs).foldl (fun acc y => f y acc) seed = f seed (xs.foldl f x) := by
  have hflip : (fun acc y => f y acc) = f := by
    funext acc y
    exact Std.Commutative.comm y acc
  rw [hflip, foldl_cons, foldl_assoc]

theorem firstElement_inRange_iff :
    List.Forall₂ (· < ·) r.firstElement r.newShape ↔ ∀ d ∈ r.shape, r.newAxis < d := by
  rw [ReduceOp.firstElement, ← length_newShape, forall₂_iff_zip]
  simp only [length_replicate, true_and]
  constructor
  · intro h d hd
    have hd' := (mem_newShape d).mpr hd
    obtain ⟨j, hj, rfl⟩ := getElem_of_mem hd'
    exact h (mem_iff_getElem.mpr ⟨j, by simpa using hj, by simp⟩)
  · intro h a d hmem
    obtain ⟨ha, hd⟩ := of_mem_zip hmem
    obtain ⟨-, rfl⟩ := mem_replicate.mp ha
    exact h d ((mem_newShape d).mp hd)

end Correctness

section SingleOperation

/-- The reductions of one operand by one operation, such as `tl.sum` and `tl.max`. -/
abbrev singleOp (kind : OpKind) (w : ℕ) (shape : List ℕ) (axis : ℕ) (h : axis < shape.length) :
    ReduceOp where
  numReductions := 1
  widths := fun _ => w
  shape := shape
  axis := axis
  axis_lt := h
  ops := [⟨kind, [0, 1]⟩]
  ret := fun _ => 2

variable {w : ℕ} {shape : List ℕ} {axis : ℕ} {haxis : axis < shape.length} {kind : OpKind}

theorem singleOp_combine (hkind : kind.eval = binary kind.fn)
    (x acc : (singleOp kind w shape axis haxis).Lane) :
    (singleOp kind w shape axis haxis).combine x acc = fun i => kind.fn w (x i) (acc i) := by
  funext i
  have hi : i = (0 : Fin 1) := Subsingleton.elim _ _
  subst hi
  change (kind.eval [⟨w, x 0⟩, ⟨w, acc 0⟩]).bits.setWidth w = kind.fn w (x 0) (acc 0)
  rw [hkind]
  change (kind.fn w (x 0) ((acc 0).setWidth w)).setWidth w = _
  rw [BitVec.setWidth_eq, BitVec.setWidth_eq]

theorem singleOp_associative (hkind : kind.eval = binary kind.fn)
    (h : ∀ a b c : BitVec w, kind.fn w (kind.fn w a b) c = kind.fn w a (kind.fn w b c)) :
    Std.Associative (singleOp kind w shape axis haxis).combine where
  assoc x y z := by
    rw [singleOp_combine hkind, singleOp_combine hkind, singleOp_combine hkind,
      singleOp_combine hkind]
    exact funext fun i => h (x i) (y i) (z i)

theorem singleOp_commutative (hkind : kind.eval = binary kind.fn)
    (h : ∀ a b : BitVec w, kind.fn w a b = kind.fn w b a) :
    Std.Commutative (singleOp kind w shape axis haxis).combine where
  comm x y := by
    rw [singleOp_combine hkind, singleOp_combine hkind]
    exact funext fun i => h (x i) (y i)

theorem singleOp_initVal (sources : List ℕ → (singleOp kind w shape axis haxis).Lane)
    {c : BitVec w} (hconst : getRedBaseConstOp (some ⟨kind, [0, 1]⟩) w = some c) :
    (singleOp kind w shape axis haxis).initVal sources = fun _ => c := by
  funext i
  have hi : i = (0 : Fin 1) := Subsingleton.elim _ _
  subst hi
  simp [ReduceOp.initVal, findFirstAccumulatorUserAt, hconst]

theorem neutral (kind : OpKind) (hother : ∀ g, kind ≠ .other g) (hand : kind ≠ .andi) (w : ℕ) :
    kind.eval = binary kind.fn ∧ ∃ c, getRedBaseConstOp (some ⟨kind, [0, 1]⟩) w = some c ∧
      ∀ x : BitVec w, kind.fn w c x = x := by
  cases kind with
  | addi => exact ⟨rfl, _, rfl, fun x => BitVec.zero_add x⟩
  | minsi =>
    refine ⟨rfl, _, rfl, fun x => if_neg ?_⟩
    rw [BitVec.slt_iff_toInt_lt, BitVec.toInt_intMax]
    exact Int.not_lt.mpr BitVec.toInt_le
  | minui =>
    refine ⟨rfl, _, rfl, fun x => if_neg ?_⟩
    rw [BitVec.ult_eq_decide_lt, decide_eq_true_eq]
    exact BitVec.not_allOnes_lt
  | maxsi =>
    refine ⟨rfl, _, rfl, fun x => if_neg ?_⟩
    rw [BitVec.slt_iff_toInt_lt]
    exact Int.not_lt.mpr (BitVec.toInt_intMin_le x)
  | maxui =>
    refine ⟨rfl, 0, rfl, fun x => ?_⟩
    have hlt : ¬ x.ult 0 = true := by
      rw [BitVec.ult_eq_decide_lt, decide_eq_true_eq]
      exact BitVec.not_lt_zero
    exact (if_neg hlt : (if x.ult 0 then 0 else x) = x)
  | xori => exact ⟨rfl, _, rfl, fun x => BitVec.zero_xor⟩
  | muli => exact ⟨rfl, _, rfl, fun x => BitVec.one_mul x⟩
  | andi => exact absurd rfl hand
  | ori => exact ⟨rfl, _, rfl, fun x => BitVec.zero_or⟩
  | other g => exact absurd rfl (hother g)

variable (sources : List ℕ → (singleOp kind w shape axis haxis).Lane)

theorem absorbed_of_neutral (hother : ∀ g, kind ≠ .other g) (hand : kind ≠ .andi) (out : List ℕ) :
    (singleOp kind w shape axis haxis).Absorbed sources out := by
  obtain ⟨hkind, c, hconst, hneutral⟩ := neutral kind hother hand w
  rw [ReduceOp.Absorbed, singleOp_initVal sources hconst]
  cases fold₁ (singleOp kind w shape axis haxis).combine
      ((singleOp kind w shape axis haxis).line sources out) with
  | none => rfl
  | some total =>
    rw [Option.map_some, singleOp_combine hkind]
    exact congrArg some (funext fun i => hneutral (total i))

/-- `tl.sum(x, axis=1)` of a two by three tensor. -/
def sumRows : ReduceOp := singleOp .addi 32 [2, 3] 1 (by decide)

def allOf : ReduceOp := singleOp .andi 32 [1] 0 (by decide)

end SingleOperation

end TritonCpu.Reduce
