import Mathlib.Logic.Relation
import Mathlib.Data.BitVec

/-!
# Scalar pointer arithmetic from `tt.addptr` to `llvm.getelementptr`

TritonToPtr scales the offset of a `tt.addptr` by a `tptr.type_offset`, in the width of the
offset, and TPtrToLLVM undoes the scaling: the multiplication is stripped again and the pointee
type becomes the element type of a GEP, which scales in the width of an address. Between the two
passes the canonicaliser rewrites the product. It never folds the factor away, since the folder
of `type_offset` returns a type and the folders of a multiplication act on integers only.
-/

namespace TritonCpu.TPtrToLLVM

/-- The two operations that PtrAddConverter takes for a multiplication. -/
inductive MulOp where
  | muli
  | llvmMul
  deriving DecidableEq, Repr

/-- An integer of width `w` by the operation that defines it. A `value` is the result of any other
operation, or an argument. `τ` are the pointee types. -/
inductive Offset (τ : Type) (w : ℕ) where
  | value (v : ℕ)
  | constant (c : BitVec w)
  | typeOffset (baseType : τ)
  | mul (op : MulOp) (lhs rhs : Offset τ w)
  deriving DecidableEq, Repr

/-- A scalar pointer of the Triton program; `addptr` carries the pointee type of its result. -/
inductive TritonPtr (τ : Type) where
  | arg (p : ℕ)
  | addptr (pointee : τ) (ptr : TritonPtr τ) {w : ℕ} (offset : Offset τ w)
  | bitcast (src : TritonPtr τ)

/-- A pointer after TritonToPtr. -/
inductive Ptr (τ : Type) where
  | arg (p : ℕ)
  | ptradd (base : Ptr τ) {w : ℕ} (offset : Offset τ w)

/-- A pointer after TPtrToLLVM; no element type stands for `i8`. -/
inductive LLVMPtr (τ : Type) where
  | arg (p : ℕ)
  | gep (base : LLVMPtr τ) (elemTy : Option τ) {w : ℕ} (index : Offset τ w)

variable {τ : Type} {w : ℕ}

section Passes

/-- AddPtrConverter and BitCastConverter of TritonToPtr. -/
def toPtr : TritonPtr τ → Ptr τ
  | .arg p => .arg p
  | .addptr pointee ptr offset => .ptradd (toPtr ptr) (.mul .muli offset (.typeOffset pointee))
  | .bitcast src => toPtr src

/-- The element type that PtrAddConverter infers: that of a `type_offset` on the right. -/
def inferElemTy : Offset τ w → Option τ
  | .mul .llvmMul _ (.typeOffset baseType) => some baseType
  | .mul .muli _ (.typeOffset baseType) => some baseType
  | _ => none

/-- The index of PtrAddConverter: the left operand of any multiplication, whatever its right
operand is. -/
def elementIndex : Offset τ w → Offset τ w
  | .mul .llvmMul lhs _ => lhs
  | .mul .muli lhs _ => lhs
  | offset => offset

/-- PtrAddConverter of TPtrToLLVM. -/
def toLLVM : Ptr τ → LLVMPtr τ
  | .arg p => .arg p
  | .ptradd base offset => .gep (toLLVM base) (inferElemTy offset) (elementIndex offset)

end Passes

section Semantics

variable (sizeInBytes : τ → ℕ) (env : (w : ℕ) → ℕ → BitVec w) (args : ℕ → BitVec 64)

/-- The integer that an offset holds; TypeOffsetConverter makes `type_offset` the size. -/
def Offset.eval : Offset τ w → BitVec w
  | .value v => env w v
  | .constant c => c
  | .typeOffset baseType => BitVec.ofNat w (sizeInBytes baseType)
  | .mul _ lhs rhs => lhs.eval * rhs.eval

/-- The address that the Triton program means: offsets count pointees and are sign-extended. -/
def TritonPtr.address : TritonPtr τ → BitVec 64
  | .arg p => args p
  | .addptr pointee ptr offset =>
    ptr.address + (offset.eval sizeInBytes env).signExtend 64 *
      BitVec.ofNat 64 (sizeInBytes pointee)
  | .bitcast src => src.address

/-- GEP sign-extends its index to the width of an address and scales it by the element type. -/
def LLVMPtr.address : LLVMPtr τ → BitVec 64
  | .arg p => args p
  | .gep base elemTy index =>
    base.address + (index.eval sizeInBytes env).signExtend 64 *
      BitVec.ofNat 64 ((elemTy.map sizeInBytes).getD 1)

end Semantics

section Canonicaliser

/-- What the folder of a constant operation returns. -/
inductive Attr (τ : Type) (w : ℕ) where
  | integer (c : BitVec w)
  | type (baseType : τ)
  deriving DecidableEq, Repr

/-- `m_Constant`; TypeOffsetOp::fold returns the attribute of its base type. -/
def Offset.fold : Offset τ w → Option (Attr τ w)
  | .constant c => some (.integer c)
  | .typeOffset baseType => some (.type baseType)
  | _ => none

/-- MulIOp::fold: a product by zero, by one, or of two integer constants. -/
def foldMul (lhs rhs : Offset τ w) : Option (Offset τ w) :=
  match lhs.fold, rhs.fold with
  | _, some (.type _) => none
  | _, none => none
  | l, some (.integer b) =>
    if b = 0 then some (.constant b)
    else if b = 1 then some lhs
    else
      match l with
      | some (.integer a) => some (.constant (a * b))
      | _ => none

/-- What the canonicaliser and the lowering to LLVM may do to an offset, one rewrite at a time. -/
inductive Rewrites (sizeInBytes : τ → ℕ) (env : (w : ℕ) → ℕ → BitVec w) :
    Offset τ w → Offset τ w → Prop
  | folded {op lhs rhs e} (h : foldMul lhs rhs = some e) :
      Rewrites sizeInBytes env (.mul op lhs rhs) e
  /-- The constants of a commutative operation move to the right. -/
  | commuted {op lhs rhs} (hl : lhs.fold.isSome) (hr : rhs.fold.isNone) :
      Rewrites sizeInBytes env (.mul op lhs rhs) (.mul op rhs lhs)
  /-- MulIMulIConstant. -/
  | reassociated {op op' lhs a b} :
      Rewrites sizeInBytes env (.mul op (.mul op' lhs (.constant a)) (.constant b))
        (.mul op lhs (.constant (a * b)))
  /-- `arith.muli` becomes `llvm.mul`. -/
  | converted {lhs rhs} :
      Rewrites sizeInBytes env (.mul .muli lhs rhs) (.mul .llvmMul lhs rhs)
  /-- Any other operation is replaced by what computes the same value. -/
  | replaced {v e} (h : e.eval sizeInBytes env = env w v) : Rewrites sizeInBytes env (.value v) e
  | lhs {op lhs lhs' rhs} (h : Rewrites sizeInBytes env lhs lhs') :
      Rewrites sizeInBytes env (.mul op lhs rhs) (.mul op lhs' rhs)
  | rhs {op lhs rhs rhs'} (h : Rewrites sizeInBytes env rhs rhs') :
      Rewrites sizeInBytes env (.mul op lhs rhs) (.mul op lhs rhs')

/-- Every offset of a chain is rewritten any number of times. -/
inductive Canonicalised (sizeInBytes : τ → ℕ) (env : (w : ℕ) → ℕ → BitVec w) :
    Ptr τ → Ptr τ → Prop
  | arg (p) : Canonicalised sizeInBytes env (.arg p) (.arg p)
  | ptradd {base base' : Ptr τ} {w : ℕ} {offset offset' : Offset τ w}
      (hbase : Canonicalised sizeInBytes env base base')
      (h : Relation.ReflTransGen (Rewrites sizeInBytes env) offset offset') :
      Canonicalised sizeInBytes env (.ptradd base offset) (.ptradd base' offset')

variable {sizeInBytes : τ → ℕ} {env : (w : ℕ) → ℕ → BitVec w} {args : ℕ → BitVec 64}

theorem foldMul_typeOffset (lhs : Offset τ w) (baseType : τ) :
    foldMul lhs (.typeOffset baseType) = none := by
  cases lhs <;> rfl

theorem foldMul_eval {lhs rhs e : Offset τ w} (h : foldMul lhs rhs = some e) :
    e.eval sizeInBytes env = lhs.eval sizeInBytes env * rhs.eval sizeInBytes env := by
  cases rhs with
  | value v => cases lhs <;> simp [foldMul, Offset.fold] at h
  | typeOffset baseType => simp [foldMul_typeOffset] at h
  | mul op l r => cases lhs <;> simp [foldMul, Offset.fold] at h
  | constant b =>
    by_cases hzero : b = 0
    · subst hzero
      cases lhs <;> simp_all [foldMul, Offset.fold] <;> subst h <;> simp [Offset.eval]
    · by_cases hone : b = 1
      · subst hone
        cases lhs <;> simp_all [foldMul, Offset.fold] <;> subst h <;> simp [Offset.eval]
      · cases lhs <;> simp_all [foldMul, Offset.fold]
        subst h
        rfl

theorem Rewrites.eval {e e' : Offset τ w} (h : Rewrites sizeInBytes env e e') :
    e'.eval sizeInBytes env = e.eval sizeInBytes env := by
  induction h with
  | folded h => exact foldMul_eval h
  | commuted hl hr => exact BitVec.mul_comm _ _
  | reassociated => exact (BitVec.mul_assoc _ _ _).symm
  | converted => rfl
  | replaced h => exact h
  | lhs h ih => simp only [Offset.eval, ih]
  | rhs h ih => simp only [Offset.eval, ih]

/-- A product whose right operand is the `type_offset` of the pointee and whose left operand holds
the offset of the program. -/
def Scaled (sizeInBytes : τ → ℕ) (env : (w : ℕ) → ℕ → BitVec w) (pointee : τ) (offset : BitVec w)
    (e : Offset τ w) : Prop :=
  ∃ op lhs, e = .mul op lhs (.typeOffset pointee) ∧ lhs.eval sizeInBytes env = offset

theorem Scaled.step {pointee : τ} {offset : BitVec w} {e e' : Offset τ w}
    (hs : Scaled sizeInBytes env pointee offset e) (h : Rewrites sizeInBytes env e e') :
    Scaled sizeInBytes env pointee offset e' := by
  obtain ⟨op, lhs, rfl, heval⟩ := hs
  cases h with
  | folded h => simp [foldMul_typeOffset] at h
  | commuted hl hr => simp [Offset.fold] at hr
  | converted => exact ⟨.llvmMul, lhs, rfl, heval⟩
  | lhs h => exact ⟨op, _, rfl, h.eval.trans heval⟩
  | rhs h => cases h

theorem Scaled.run {pointee : τ} {offset : BitVec w} {e e' : Offset τ w}
    (hs : Scaled sizeInBytes env pointee offset e)
    (h : Relation.ReflTransGen (Rewrites sizeInBytes env) e e') :
    Scaled sizeInBytes env pointee offset e' := by
  induction h with
  | refl => exact hs
  | tail _ hstep ih => exact ih.step hstep

theorem Scaled.stripped {pointee : τ} {offset : BitVec w} {e : Offset τ w}
    (hs : Scaled sizeInBytes env pointee offset e) :
    inferElemTy e = some pointee ∧ (elementIndex e).eval sizeInBytes env = offset := by
  obtain ⟨op, lhs, rfl, heval⟩ := hs
  cases op <;> exact ⟨rfl, heval⟩

/-- Whatever the canonicaliser does in between, the address of a chain of `tt.addptr` after both
passes is the base plus every sign-extended offset times the size of its pointee. -/
theorem toLLVM_address (ptr : TritonPtr τ) {lowered : Ptr τ}
    (h : Canonicalised sizeInBytes env (toPtr ptr) lowered) :
    (toLLVM lowered).address sizeInBytes env args = ptr.address sizeInBytes env args := by
  induction ptr generalizing lowered with
  | arg p =>
    cases h
    rfl
  | addptr pointee ptr offset ih =>
    cases h with
    | ptradd hbase hrewrites =>
      have hscaled : Scaled sizeInBytes env pointee (offset.eval sizeInBytes env)
          (.mul .muli offset (.typeOffset pointee)) := ⟨.muli, offset, rfl, rfl⟩
      obtain ⟨helem, hindex⟩ := (hscaled.run hrewrites).stripped
      simp only [toLLVM, LLVMPtr.address, TritonPtr.address, ih hbase, helem, hindex,
        Option.map_some, Option.getD_some]
  | bitcast src ih => exact ih h

/-- `p - 3` for a pointer to `f32`. -/
def previousElement : TritonPtr Unit := .addptr () (.arg 0) (.value 0 : Offset Unit 32)

/-- The offset was found to be a constant, and its product became an `llvm.mul`. -/
theorem toLLVM_address_previousElement :
    (toLLVM (.ptradd (.arg 0)
      (.mul .llvmMul (.constant (-3) : Offset Unit 32) (.typeOffset ())))).address (fun _ => 4)
        (fun w _ => BitVec.ofInt w (-3)) (fun _ => 100) = 88 :=
  have h : Canonicalised (fun _ => 4) (fun w _ => BitVec.ofInt w (-3)) (toPtr previousElement)
      (.ptradd (.arg 0) (.mul .llvmMul (.constant (-3)) (.typeOffset ()))) :=
    .ptradd (.arg 0) ((Relation.ReflTransGen.single (.lhs (.replaced rfl))).tail .converted)
  (toLLVM_address previousElement h).trans rfl

end Canonicaliser

end TritonCpu.TPtrToLLVM
