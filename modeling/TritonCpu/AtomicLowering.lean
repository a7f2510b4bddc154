import Mathlib.Data.List.Perm.Basic
import Mathlib.Data.BitVec
import Mathlib.Logic.Function.Basic

/-!
# Atomics after ReconcilePtrCasts

A scalar atomic becomes one `memref.atomic_rmw`, under an `scf.if` when it has a mask, or one
`memref.generic_atomic_rmw` for a compare-and-swap. A tensor becomes a loop nest over its lanes.
The loop nest of `tt.atomic_rmw` drops the mask, and the kind is looked up for the type of the
whole value, so that a tensor of floats never gets the float variant of a maximum.
-/

namespace TritonCpu.ReconcilePtrCasts

/-- The kinds of `tt.atomic_rmw`. -/
inductive RMWOp where
  | and
  | or
  | xor
  | add
  | fadd
  | max
  | min
  | umax
  | umin
  | xchg
  deriving DecidableEq, Repr

/-- The kinds of `memref.atomic_rmw` that are used. -/
inductive AtomicRMWKind where
  | andi
  | ori
  | addi
  | addf
  | maximumf
  | maxs
  | minimumf
  | mins
  | maxu
  | minu
  | assign
  deriving DecidableEq, Repr

/-- Arithmetic of a float type on its bit patterns. -/
structure FloatArith (w : ℕ) where
  addf : BitVec w → BitVec w → BitVec w
  maximumf : BitVec w → BitVec w → BitVec w
  minimumf : BitVec w → BitVec w → BitVec w

/-- A memory whose accesses read and write whole elements. -/
structure Memory (M : Type) (w : ℕ) where
  load : M → ℤ → BitVec w
  store : M → ℤ → BitVec w → M

/-- The pointer that a `tt.addptr` starts from. -/
inductive BasePtr where
  | cast (memref : ℤ)
  | fromMemref (memref : ℤ)
  | other (address : ℤ)

/-- A scalar pointer by the operation that defines it; offsets count elements. -/
inductive ScalarPtr where
  | fromMemref (memref : ℤ)
  | castAddPtr (ptr : BasePtr) (offset : ℤ)
  | castPtrAdd (address : ℤ)
  | castOther (address : ℤ)
  | addPtr (ptr : BasePtr) (offset : ℤ)
  | ptrAdd (address : ℤ)
  | other (address : ℤ)

/-- A pointer or a tensor of pointers of a static shape. -/
inductive Ptr where
  | scalar (ptr : ScalarPtr)
  | tensor (shape : List ℕ) (ptrs : List ℕ → ℤ)

/-- What a lane does at its pointer; the operands are given lane by lane, and the only lane of a
scalar has no index. -/
inductive Op (w : ℕ) where
  | atomicRMW (kind : RMWOp) (val : List ℕ → BitVec w) (mask : Option (List ℕ → Bool))
  | atomicCAS (cmp val : List ℕ → BitVec w)

/-- `tt.atomic_rmw` or `tt.atomic_cas` on elements of `w` bits. -/
structure Atomic (w : ℕ) where
  isFloat : Bool
  ptr : Ptr
  op : Op w

variable {w : ℕ}

section Meaning

def loopNest : List ℕ → List (List ℕ)
  | [] => [[]]
  | n :: shape => (List.range n).flatMap fun i => (loopNest shape).map (i :: ·)

def Ptr.isTensor : Ptr → Bool
  | .scalar _ => false
  | .tensor _ _ => true

def Ptr.lanes : Ptr → List (List ℕ)
  | .scalar _ => [[]]
  | .tensor shape _ => loopNest shape

def BasePtr.address : BasePtr → ℤ
  | .cast memref => memref
  | .fromMemref memref => memref
  | .other address => address

/-- The address of a scalar pointer to elements of a size in bytes. -/
def ScalarPtr.address (size : ℕ) : ScalarPtr → ℤ
  | .fromMemref memref => memref
  | .castAddPtr ptr offset => ptr.address + offset * size
  | .castPtrAdd address => address
  | .castOther address => address
  | .addPtr ptr offset => ptr.address + offset * size
  | .ptrAdd address => address
  | .other address => address

def sizeInBytes (w : ℕ) : ℕ := (w + 7) / 8

def Ptr.address (w : ℕ) : Ptr → List ℕ → ℤ
  | .scalar ptr, _ => ptr.address (sizeInBytes w)
  | .tensor _ ptrs, i => ptrs i

def signedMax (a b : BitVec w) : BitVec w := if a.slt b then b else a
def signedMin (a b : BitVec w) : BitVec w := if b.slt a then b else a
def unsignedMax (a b : BitVec w) : BitVec w := if a.ult b then b else a
def unsignedMin (a b : BitVec w) : BitVec w := if b.ult a then b else a

variable (fl : FloatArith w)

/-- `op(old, val)` of a Triton kind, where the kind is one of the element type. -/
def RMWOp.fn (isFloat : Bool) : RMWOp → Option (BitVec w → BitVec w → BitVec w)
  | .and => if isFloat then none else some (· &&& ·)
  | .or => if isFloat then none else some (· ||| ·)
  | .xor => if isFloat then none else some (· ^^^ ·)
  | .add => if isFloat then none else some (· + ·)
  | .fadd => if isFloat then some fl.addf else none
  | .max => some (if isFloat then fl.maximumf else signedMax)
  | .min => some (if isFloat then fl.minimumf else signedMin)
  | .umax => if isFloat then none else some unsignedMax
  | .umin => if isFloat then none else some unsignedMin
  | .xchg => some fun _ val => val

def Atomic.update (a : Atomic w) : Option (List ℕ → BitVec w → BitVec w) :=
  match a.op with
  | .atomicRMW kind val _ => (kind.fn fl a.isFloat).map fun f i old => f old (val i)
  | .atomicCAS cmp val => some fun i old => if old = cmp i then val i else old

def Atomic.activeLanes (a : Atomic w) : List (List ℕ) :=
  match a.op with
  | .atomicRMW _ _ (some mask) => a.ptr.lanes.filter mask
  | _ => a.ptr.lanes

end Meaning

section Execution

variable {M : Type} (memory : Memory M w)

/-- The memory, the old values that were returned, and the lanes that accessed memory, in the
order of their accesses. -/
structure Run (M : Type) (w : ℕ) where
  mem : M
  result : List ℕ → BitVec w
  performed : List (List ℕ)

def Run.access (f : List ℕ → BitVec w → BitVec w) (address : List ℕ → ℤ) (s : Run M w)
    (i : List ℕ) : Run M w where
  mem := memory.store s.mem (address i) (f i (memory.load s.mem (address i)))
  result := Function.update s.result i (memory.load s.mem (address i))
  performed := s.performed ++ [i]

def perform (f : List ℕ → BitVec w → BitVec w) (address : List ℕ → ℤ) (mem : M)
    (order : List (List ℕ)) : Run M w :=
  order.foldl (Run.access memory f address) ⟨mem, fun _ => 0, []⟩

end Execution

section Lowering

/-- `memref.atomic_rmw` or `memref.generic_atomic_rmw`, with the operands of each lane. -/
inductive Body (w : ℕ) where
  | atomicRMW (kind : AtomicRMWKind) (val : List ℕ → BitVec w)
  | genericAtomicRMW (cmp val : List ℕ → BitVec w)

/-- The lowered code: a loop nest over the lanes, or one access to an element of a memref, which
may be under an `scf.if`. -/
inductive Lowered (w : ℕ) where
  | nest (shape : List ℕ) (ptrs : List ℕ → ℤ) (body : Body w)
  | ifThen (mask : Bool) (memref index : ℤ) (body : Body w)
  | direct (memref index : ℤ) (body : Body w)

def mapTritonToMLIR (triKind : RMWOp) (isFloat : Bool) : Option AtomicRMWKind :=
  match triKind with
  | .and => some .andi
  | .or => some .ori
  | .xor => none
  | .add => some .addi
  | .fadd => some .addf
  | .max => some (if isFloat then .maximumf else .maxs)
  | .min => some (if isFloat then .minimumf else .mins)
  | .umax => some .maxu
  | .umin => some .minu
  | .xchg => some .assign

/-- The memref and the index for the base and the offset of a `tt.addptr`. -/
def resolvePtr (ptr : BasePtr) (offset : ℤ) : Option (ℤ × ℤ) :=
  match ptr with
  | .cast memref => some (memref, offset)
  | .fromMemref memref => some (memref, offset)
  | .other _ => none

/-- The memref and the index of a scalar `tt.atomic_rmw`; a `tptr.ptradd` is made a memref. -/
def rmwMemref : ScalarPtr → Option (ℤ × ℤ)
  | .fromMemref memref => some (memref, 0)
  | .castAddPtr ptr offset => resolvePtr ptr offset
  | .castPtrAdd address => some (address, 0)
  | .castOther _ => none
  | .addPtr ptr offset => resolvePtr ptr offset
  | .ptrAdd address => some (address, 0)
  | .other _ => none

def AtomicrmwConverter (isFloat : Bool) (ptr : Ptr) (kind : RMWOp) (val : List ℕ → BitVec w)
    (mask : Option (List ℕ → Bool)) : Option (Lowered w) :=
  -- `isa<FloatType>(val.getType())`: the type of a tensor is not a float type
  (mapTritonToMLIR kind (isFloat && !ptr.isTensor)).bind fun kindAttr =>
    match ptr with
    | .tensor shape ptrs => some (.nest shape ptrs (.atomicRMW kindAttr val))
    | .scalar ptr =>
      (rmwMemref ptr).map fun memref =>
        match mask with
        | some mask => .ifThen (mask []) memref.1 memref.2 (.atomicRMW kindAttr val)
        | none => .direct memref.1 memref.2 (.atomicRMW kindAttr val)

/-- The memref of a scalar `tt.atomic_cas`; its index is 0. -/
def casMemref (size : ℕ) : ScalarPtr → Option ℤ
  | .fromMemref memref => some memref
  | .castAddPtr ptr offset => some ((ScalarPtr.castAddPtr ptr offset).address size)
  | .castPtrAdd address => some address
  | .castOther address => some address
  | .addPtr _ _ => none
  | .ptrAdd _ => none
  | .other _ => none

def AtomicCASOpConversion (ptr : Ptr) (cmp val : List ℕ → BitVec w) : Option (Lowered w) :=
  match ptr with
  | .tensor shape ptrs => some (.nest shape ptrs (.genericAtomicRMW cmp val))
  | .scalar ptr =>
    (casMemref (sizeInBytes w) ptr).map fun memref =>
      .direct memref 0 (.genericAtomicRMW cmp val)

def Atomic.convert (a : Atomic w) : Option (Lowered w) :=
  match a.op with
  | .atomicRMW kind val mask => AtomicrmwConverter a.isFloat a.ptr kind val mask
  | .atomicCAS cmp val => AtomicCASOpConversion a.ptr cmp val

variable (fl : FloatArith w)

/-- What a `memref.atomic_rmw` computes; its verifier rejects the kinds of other types. -/
def AtomicRMWKind.fn (isFloat : Bool) : AtomicRMWKind → Option (BitVec w → BitVec w → BitVec w)
  | .andi => if isFloat then none else some (· &&& ·)
  | .ori => if isFloat then none else some (· ||| ·)
  | .addi => if isFloat then none else some (· + ·)
  | .addf => if isFloat then some fl.addf else none
  | .maximumf => if isFloat then some fl.maximumf else none
  | .maxs => if isFloat then none else some signedMax
  | .minimumf => if isFloat then some fl.minimumf else none
  | .mins => if isFloat then none else some signedMin
  | .maxu => if isFloat then none else some unsignedMax
  | .minu => if isFloat then none else some unsignedMin
  | .assign => some fun _ val => val

/-- What the access of a lane writes; the operands of a comparison of floats are bit patterns. -/
def Body.fn (isFloat : Bool) : Body w → Option (List ℕ → BitVec w → BitVec w)
  | .atomicRMW kind val => (kind.fn fl isFloat).map fun f i old => f old (val i)
  | .genericAtomicRMW cmp val => some fun i old => if old = cmp i then val i else old

variable {M : Type} (memory : Memory M w)

def Lowered.run (isFloat : Bool) (mem : M) : Lowered w → Option (Run M w)
  | .nest shape ptrs body =>
    (body.fn fl isFloat).map fun f => perform memory f ptrs mem (loopNest shape)
  | .ifThen mask memref index body =>
    (body.fn fl isFloat).map fun f =>
      if mask then perform memory f (fun _ => memref + index * sizeInBytes w) mem [[]]
      else ⟨mem, fun _ => 0, []⟩
  | .direct memref index body =>
    (body.fn fl isFloat).map fun f =>
      perform memory f (fun _ => memref + index * sizeInBytes w) mem [[]]

end Lowering

section Correctness

variable {M : Type} (memory : Memory M w) (fl : FloatArith w)

/-- The lowered code performs the lanes that the operation is for, and no others, in some order:
it leaves the memory and returns the old values of that order. -/
def LaneWise (a : Atomic w) (mem : M) : Prop :=
  ∃ code f r order, a.convert = some code ∧ a.update fl = some f ∧
    code.run fl memory a.isFloat mem = some r ∧ order.Perm a.activeLanes ∧ r.performed = order ∧
    r.mem = (perform memory f (a.ptr.address w) mem order).mem ∧
    ∀ i ∈ order, r.result i = (perform memory f (a.ptr.address w) mem order).result i

/-- Not a tensor with a lane whose mask is false, and not a maximum or minimum of float tensors. -/
def Atomic.Kept (a : Atomic w) : Prop :=
  match a.op with
  | .atomicRMW kind _ mask => a.ptr.isTensor = true →
      (∀ m ∈ mask, ∀ i ∈ a.ptr.lanes, m i = true) ∧
        (a.isFloat = true → kind ≠ .max ∧ kind ≠ .min)
  | .atomicCAS _ _ => True

variable {memory fl}

theorem perform_performed (f : List ℕ → BitVec w → BitVec w) (address : List ℕ → ℤ) (mem : M)
    (order : List (List ℕ)) : (perform memory f address mem order).performed = order := by
  have hrun : ∀ s : Run M w, (order.foldl (Run.access memory f address) s).performed =
      s.performed ++ order := by
    induction order with
    | nil => intro s; simp
    | cons i order ih =>
      intro s
      rw [List.foldl_cons, ih]
      simp [Run.access]
  rw [perform, hrun, List.nil_append]

theorem mapTritonToMLIR_fn {kind : RMWOp} {isFloat : Bool} {k : AtomicRMWKind}
    (h : mapTritonToMLIR kind isFloat = some k) : k.fn fl isFloat = kind.fn fl isFloat := by
  cases kind <;> simp only [mapTritonToMLIR, Option.some.injEq, reduceCtorEq] at h <;> subst h <;>
    cases isFloat <;> rfl

theorem mapTritonToMLIR_tensor {kind : RMWOp} {isFloat : Bool} {k : AtomicRMWKind}
    (h : mapTritonToMLIR kind false = some k) (hkind : (kind.fn fl isFloat).isSome = true) :
    (isFloat = true → kind ≠ .max ∧ kind ≠ .min) ∧ k.fn fl isFloat = kind.fn fl isFloat ∨
      ¬ (isFloat = true → kind ≠ .max ∧ kind ≠ .min) ∧ k.fn fl isFloat = none := by
  cases kind <;> simp only [mapTritonToMLIR, Option.some.injEq, reduceCtorEq] at h <;> subst h <;>
    cases isFloat <;> simp_all [RMWOp.fn, AtomicRMWKind.fn]

theorem rmwMemref_address {ptr : ScalarPtr} {memref : ℤ × ℤ} (h : rmwMemref ptr = some memref)
    (size : ℕ) : memref.1 + memref.2 * size = ptr.address size := by
  have base : ∀ {p : BasePtr} {offset : ℤ}, resolvePtr p offset = some memref →
      memref.1 + memref.2 * size = p.address + offset * size := by
    intro p offset hp
    cases p <;> simp only [resolvePtr, Option.some.injEq, reduceCtorEq] at hp <;> subst hp <;> rfl
  cases ptr with
  | castAddPtr p offset => exact base h
  | addPtr p offset => exact base h
  | castOther address => simp [rmwMemref] at h
  | other address => simp [rmwMemref] at h
  | _ =>
    obtain rfl := Option.some.inj h
    simp [ScalarPtr.address]

theorem casMemref_address {ptr : ScalarPtr} {memref : ℤ} {size : ℕ}
    (h : casMemref size ptr = some memref) : memref = ptr.address size := by
  cases ptr <;> simp only [casMemref, Option.some.injEq, reduceCtorEq] at h <;> exact h.symm

theorem laneWise_of_perform {a : Atomic w} {mem : M} {code : Lowered w}
    {f : List ℕ → BitVec w → BitVec w} (order : List (List ℕ)) (hcode : a.convert = some code)
    (hf : a.update fl = some f)
    (hrun : code.run fl memory a.isFloat mem =
      some (perform memory f (a.ptr.address w) mem order))
    (horder : order.Perm a.activeLanes) : LaneWise memory fl a mem :=
  ⟨code, f, _, order, hcode, hf, hrun, horder, perform_performed f _ mem order, rfl, fun _ _ => rfl⟩

theorem perm_of_laneWise {a : Atomic w} {mem : M} {code : Lowered w}
    {f : List ℕ → BitVec w → BitVec w} {address : List ℕ → ℤ} {order : List (List ℕ)}
    (h : LaneWise memory fl a mem) (hcode : a.convert = some code)
    (hrun : code.run fl memory a.isFloat mem = some (perform memory f address mem order)) :
    order.Perm a.activeLanes := by
  obtain ⟨code', -, r, order', hcode', -, hrun', hperm, hperformed, -⟩ := h
  obtain rfl : code = code' := Option.some.inj (hcode.symm.trans hcode')
  obtain rfl : perform memory f address mem order = r := Option.some.inj (hrun.symm.trans hrun')
  rw [perform_performed] at hperformed
  exact hperformed ▸ hperm

theorem perm_filter_iff {lanes : List (List ℕ)} {mask : List ℕ → Bool} :
    lanes.Perm (lanes.filter mask) ↔ ∀ i ∈ lanes, mask i = true := by
  constructor
  · intro h
    exact List.filter_eq_self.mp (List.filter_sublist.eq_of_length h.length_eq.symm)
  · intro h
    rw [List.filter_eq_self.mpr h]

theorem scalar_address {ptr : ScalarPtr} {memref : ℤ × ℤ} (h : rmwMemref ptr = some memref) :
    (fun _ : List ℕ => memref.1 + memref.2 * (sizeInBytes w : ℤ)) =
      (Ptr.scalar ptr).address w :=
  funext fun _ => rmwMemref_address h _

theorem tensor_laneWise_iff {isFloat : Bool} {shape : List ℕ} {ptrs : List ℕ → ℤ} {kind : RMWOp}
    {val : List ℕ → BitVec w} {mask : Option (List ℕ → Bool)} (mem : M)
    (hconv : (Atomic.convert ⟨isFloat, .tensor shape ptrs, .atomicRMW kind val mask⟩).isSome = true)
    (hkind : (kind.fn fl isFloat).isSome = true) :
    LaneWise memory fl ⟨isFloat, .tensor shape ptrs, .atomicRMW kind val mask⟩ mem ↔
      (∀ m ∈ mask, ∀ i ∈ loopNest shape, m i = true) ∧
        (isFloat = true → kind ≠ .max ∧ kind ≠ .min) := by
  obtain ⟨code, hcode⟩ := Option.isSome_iff_exists.mp hconv
  obtain ⟨f, hf⟩ := Option.isSome_iff_exists.mp hkind
  have hconvert := hcode
  simp only [Atomic.convert, AtomicrmwConverter, Ptr.isTensor, Bool.not_true, Bool.and_false,
    Option.bind_eq_some_iff, Option.some.injEq] at hconvert
  obtain ⟨k, hk, rfl⟩ := hconvert
  obtain ⟨hkept, hfn⟩ | ⟨hlost, hfn⟩ := mapTritonToMLIR_tensor hk hkind
  · have hrun : (Lowered.nest shape ptrs (.atomicRMW k val)).run fl memory isFloat mem =
        some (perform memory (fun i old => f old (val i)) ptrs mem (loopNest shape)) := by
      rw [Lowered.run, Body.fn, hfn, hf]
      rfl
    have hactive : (loopNest shape).Perm (Atomic.activeLanes
        ⟨isFloat, .tensor shape ptrs, .atomicRMW kind val mask⟩) ↔
          ∀ m ∈ mask, ∀ i ∈ loopNest shape, m i = true := by
      cases mask with
      | none => simp [Atomic.activeLanes, Ptr.lanes]
      | some m => simp [Atomic.activeLanes, Ptr.lanes, perm_filter_iff]
    rw [← hactive, and_iff_left hkept]
    constructor
    · intro h
      exact perm_of_laneWise h hcode hrun
    · intro h
      exact laneWise_of_perform _ hcode (by simp [Atomic.update, hf]) hrun h
  · have hrun : (Lowered.nest shape ptrs (.atomicRMW k val)).run fl memory isFloat mem = none := by
      rw [Lowered.run, Body.fn, hfn]
      rfl
    constructor
    · rintro ⟨code', -, r, -, hcode', -, hrun', -⟩
      obtain rfl := Option.some.inj (hcode.symm.trans hcode')
      simp [hrun] at hrun'
    · intro h
      exact absurd h.2 hlost

theorem scalar_laneWise {isFloat : Bool} {ptr : ScalarPtr} {kind : RMWOp} {val : List ℕ → BitVec w}
    {mask : Option (List ℕ → Bool)} (mem : M)
    (hconv : (Atomic.convert ⟨isFloat, .scalar ptr, .atomicRMW kind val mask⟩).isSome = true)
    (hkind : (kind.fn fl isFloat).isSome = true) :
    LaneWise memory fl ⟨isFloat, .scalar ptr, .atomicRMW kind val mask⟩ mem := by
  obtain ⟨code, hcode⟩ := Option.isSome_iff_exists.mp hconv
  obtain ⟨f, hf⟩ := Option.isSome_iff_exists.mp hkind
  have hconvert := hcode
  simp only [Atomic.convert, AtomicrmwConverter, Ptr.isTensor, Bool.not_false, Bool.and_true,
    Option.bind_eq_some_iff, Option.map_eq_some_iff] at hconvert
  obtain ⟨k, hk, memref, hmemref, rfl⟩ := hconvert
  have hfn : k.fn fl isFloat = some f := (mapTritonToMLIR_fn hk).trans hf
  have hupdate : Atomic.update fl ⟨isFloat, .scalar ptr, .atomicRMW kind val mask⟩ =
      some fun i old => f old (val i) := by simp [Atomic.update, hf]
  cases mask with
  | none =>
    refine laneWise_of_perform [[]] hcode hupdate ?_ (List.Perm.refl _)
    rw [Lowered.run, Body.fn, hfn, scalar_address hmemref]
    rfl
  | some m =>
    by_cases hm : m [] = true
    · refine laneWise_of_perform [[]] hcode hupdate ?_ ?_
      · rw [Lowered.run, Body.fn, hfn, scalar_address hmemref]
        simp [hm]
      · simp [Atomic.activeLanes, Ptr.lanes, hm]
    · refine laneWise_of_perform [] hcode hupdate ?_ ?_
      · rw [Lowered.run, Body.fn, hfn]
        simp [hm, perform]
      · simp [Atomic.activeLanes, Ptr.lanes, hm]

theorem cas_laneWise {isFloat : Bool} {ptr : Ptr} {cmp val : List ℕ → BitVec w} (mem : M)
    (hconv : (Atomic.convert ⟨isFloat, ptr, .atomicCAS cmp val⟩).isSome = true) :
    LaneWise memory fl ⟨isFloat, ptr, .atomicCAS cmp val⟩ mem := by
  obtain ⟨code, hcode⟩ := Option.isSome_iff_exists.mp hconv
  have hconvert := hcode
  cases ptr with
  | tensor shape ptrs =>
    simp only [Atomic.convert, AtomicCASOpConversion, Option.some.injEq] at hconvert
    subst hconvert
    exact laneWise_of_perform _ hcode rfl rfl (List.Perm.refl _)
  | scalar ptr =>
    simp only [Atomic.convert, AtomicCASOpConversion, Option.map_eq_some_iff] at hconvert
    obtain ⟨memref, hmemref, rfl⟩ := hconvert
    refine laneWise_of_perform [[]] hcode rfl ?_ (List.Perm.refl _)
    rw [Lowered.run, casMemref_address hmemref, Int.zero_mul, Int.add_zero]
    rfl

/-- Whatever the memory, the lowered atomic is lane-wise and respects its mask exactly if it is
not a tensor `tt.atomic_rmw` with a false mask or with a maximum or minimum of floats. -/
theorem atomic_laneWise_iff (a : Atomic w) (mem : M) (hconv : a.convert.isSome = true)
    (hkind : (a.update fl).isSome = true) : LaneWise memory fl a mem ↔ a.Kept := by
  obtain ⟨isFloat, ptr, op⟩ := a
  cases op with
  | atomicCAS cmp val => exact iff_of_true (cas_laneWise mem hconv) trivial
  | atomicRMW kind val mask =>
    rw [Atomic.update, Option.isSome_map] at hkind
    cases ptr with
    | scalar ptr =>
      refine iff_of_true (scalar_laneWise mem hconv hkind) ?_
      simp [Atomic.Kept, Ptr.isTensor]
    | tensor shape ptrs =>
      rw [tensor_laneWise_iff mem hconv hkind]
      simp [Atomic.Kept, Ptr.isTensor, Ptr.lanes]

def wordMemory : Memory (ℤ → BitVec 32) 32 where
  load mem address := mem address
  store mem address value := Function.update mem address value

def someFloats : FloatArith 32 := ⟨fun a _ => a, fun a _ => a, fun a _ => a⟩

/-- `tl.atomic_add(p + tl.arange(0, 2), 1, mask)` -/
def atomicAdd (mask : List ℕ → Bool) : Atomic 32 where
  isFloat := false
  ptr := .tensor [2] fun i => 4 * (i.headD 0 : ℤ)
  op := .atomicRMW .add (fun _ => 1) (some mask)

theorem atomicAdd_unmasked : LaneWise wordMemory someFloats (atomicAdd fun _ => true) fun _ => 0 :=
  (atomic_laneWise_iff (atomicAdd fun _ => true) (fun _ => 0) rfl rfl).mpr fun _ =>
    ⟨by simp, by simp [atomicAdd]⟩

/-- Only the first lane is active, but both are performed. -/
theorem atomicAdd_masked : (atomicAdd fun i => i == [0]).convert.isSome = true ∧
    ((atomicAdd fun i => i == [0]).update someFloats).isSome = true ∧
      ¬ LaneWise wordMemory someFloats (atomicAdd fun i => i == [0]) fun _ => 0 := by
  refine ⟨rfl, rfl, fun h => ?_⟩
  have hmask := ((tensor_laneWise_iff (fun _ => 0) rfl rfl).mp h).1
  exact absurd (hmask _ rfl [1] (by decide)) (by decide)

end Correctness

end TritonCpu.ReconcilePtrCasts
