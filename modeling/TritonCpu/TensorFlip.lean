import TritonCpu.FlatTensor
import TritonCpu.BitPositions
import Mathlib.Data.Nat.Bits

/-!
# Reversing the last dimension

`flip` views the tensor with all dimensions two and reverses one bit of the
position a round: it multiplies by the exchange matrix on a new axis and sums
the old one away.
-/

set_option autoImplicit false

namespace TritonCpu.TensorFlip
open TritonIR BlockTensor FlatTensor BitPositions List

/-- `_is_power_of_two` of the standard library. -/
def isPositivePowerOfTwo (i : ℕ) : Bool := i &&& (i - 1) == 0 && i != 0

/-- `_get_flip_dim`. -/
def getFlipDim (dim : Option ℕ) (shape : List ℕ) : Except LanguageError ℕ :=
  let dim := dim.getD (shape.length - 1)
  if dim + 1 = shape.length then .ok dim
  else .error (.staticAssert "Currently only support flipping the last dimension")

/-- `arange(0, 2)[:, None] == 1 - arange(0, 2)`. -/
def exchange : Except LanguageError (Tensor (BitVec IntType.int1.bits)) := do
  let column ← arange 0 2
  let column ← expandDims column 1
  let row ← arange 0 2
  let row ← elementwise (· - ·) (scalar 1) row
  elementwise (fun a b => BitVec.ofBool (a == b)) column row

def exchangeAt (flip : Tensor (BitVec IntType.int1.bits)) (steps i : ℕ) :
    Except LanguageError (Tensor (BitVec IntType.int1.bits)) :=
  (List.range (steps + 1)).foldlM
    (fun flip2 j => if j ≠ i ∧ j ≠ i + 1 then expandDims flip2 j else .ok flip2) flip

theorem integerPromote_int1 (ty : IntType) : integerPromote ty .int1 = ty := by
  cases ty <;> rfl

/-- One round of the loop of `flip`. -/
def flipStep (ty : IntType) (flip : Tensor (BitVec IntType.int1.bits)) (steps : ℕ)
    (y : Tensor (BitVec ty.bits)) (i : ℕ) : Except LanguageError (Tensor (BitVec ty.bits)) := do
  let flip2 ← exchangeAt flip steps i
  let product ← arithmetic ty .int1 (integerPromote_int1 ty) (· * ·) y flip2
  let sum ← reduce (· + ·) product (i + 1)
  expandDims sum (i + 1)

def flip (ty : IntType) (x : Tensor (BitVec ty.bits)) (dim : Option ℕ) :
    Except LanguageError (Tensor (BitVec ty.bits)) := do
  let last ← getFlipDim dim x.shape
  staticAssert (isPositivePowerOfTwo (x.shape.getD last 0))
  staticAssert (isPositivePowerOfTwo x.numel)
  let steps := log2 x.numel
  let start := log2 x.numel - log2 (x.shape.getD last 0)
  let y ← reshape x (List.replicate steps 2)
  let y ← expandDims y start
  let exchange ← exchange
  let y ← (List.range' start (steps - start)).foldlM (flipStep ty exchange steps) y
  reshape y x.shape

/-! The exchange matrix. -/

def exchangeBit (k : ℕ) : BitVec IntType.int1.bits := BitVec.ofBool (k / 2 == 1 - k % 2)

theorem exchange_computes : Computes exchange [2, 2] exchangeBit := by
  refine ⟨_, rfl, rfl, ?_⟩
  decide

theorem exchangeAt_append (flip : Tensor (BitVec IntType.int1.bits)) (i r : ℕ) :
    exchangeAt flip (i + 1 + r) i =
      (List.range i).foldlM expandDims flip >>= (List.range' (i + 2) r).foldlM expandDims := by
  have hrange : List.range (i + 1 + r + 1) = List.range i ++ [i, i + 1] ++ List.range' (i + 2) r := by
    rw [show i + 1 + r + 1 = i + 2 + r by omega, range_eq_range', ← List.range'_append_1,
      ← List.range'_append_1, range_eq_range', Nat.zero_add, Nat.zero_add]
    rfl
  have hfront : ∀ j ∈ List.range i, j ≠ i ∧ j ≠ i + 1 := fun j hj => by
    rw [mem_range] at hj
    omega
  have hback : ∀ j ∈ List.range' (i + 2) r, j ≠ i ∧ j ≠ i + 1 := fun j hj => by
    rw [mem_range'_1] at hj
    omega
  have hskip : ∀ {js : List ℕ} (_ : ∀ j ∈ js, j ≠ i ∧ j ≠ i + 1)
      (x : Tensor (BitVec IntType.int1.bits)),
      js.foldlM (fun flip2 j => if j ≠ i ∧ j ≠ i + 1 then expandDims flip2 j else .ok flip2) x =
        js.foldlM expandDims x := by
    intro js
    induction js with
    | nil => intro _ x; rfl
    | cons j js ih =>
      intro hjs x
      rw [foldlM_cons, foldlM_cons, if_pos (hjs j mem_cons_self)]
      exact bind_congr fun y => ih (fun k hk => hjs k (mem_cons_of_mem _ hk)) y
  rw [exchangeAt, hrange, foldlM_append, foldlM_append, hskip hfront, bind_assoc]
  refine bind_congr fun y => ?_
  simp only [foldlM_cons, foldlM_nil, ne_eq, not_true, and_false, false_and, if_false]
  exact hskip hback y

theorem frontAxes_computes {flip : Tensor (BitVec IntType.int1.bits)} {shape : List ℕ}
    {f : ℕ → BitVec IntType.int1.bits} (h : Flat flip shape f) (i : ℕ) :
    Computes ((List.range i).foldlM expandDims flip) (List.replicate i 1 ++ shape) f := by
  induction i with
  | zero => exact computes_ok h
  | succ i ih =>
    have hstep : ∀ x, Flat x (List.replicate i 1 ++ shape) f →
        Computes (expandDims x i) (List.replicate (i + 1) 1 ++ shape) f := fun x hx => by
      have := computes_expandDims _ _ hx
      rwa [length_replicate, ← singleton_append, ← append_assoc,
        ← replicate_succ'] at this
    rw [range_succ, foldlM_append]
    refine ih.bind fun x hx => ?_
    simpa using (hstep x hx)

theorem backAxes_computes {flip : Tensor (BitVec IntType.int1.bits)} {shape : List ℕ}
    {f : ℕ → BitVec IntType.int1.bits} (h : Flat flip shape f) (r : ℕ) :
    Computes ((List.range' shape.length r).foldlM expandDims flip) (shape ++ List.replicate r 1) f := by
  induction r generalizing flip shape with
  | zero =>
    rw [replicate_zero, append_nil]
    exact computes_ok h
  | succ r ih =>
    have hstep : Computes (expandDims flip shape.length) (shape ++ [1]) f :=
      computes_expandDims _ [] ((append_nil shape).symm ▸ h)
    rw [List.range'_succ, foldlM_cons]
    refine hstep.bind fun x hx => ?_
    have hrest := ih hx
    rwa [length_append, length_singleton, append_assoc] at hrest

theorem exchangeAt_computes {flip : Tensor (BitVec IntType.int1.bits)}
    (h : Flat flip [2, 2] exchangeBit) (i r : ℕ) :
    Computes (exchangeAt flip (i + 1 + r) i)
      (List.replicate i 1 ++ [2, 2] ++ List.replicate r 1) exchangeBit := by
  rw [exchangeAt_append]
  refine (frontAxes_computes h i).bind fun x hx => ?_
  have hback := backAxes_computes hx r
  rwa [length_append, length_replicate] at hback

/-! The rounds. -/

theorem prod_twos (n : ℕ) : (List.replicate n 2).prod = 2 ^ n := prod_replicate n 2

theorem valid_twos {shape : List ℕ} (h : ∀ d ∈ shape, d = 2)
    (hsmall : shape.prod ≤ tritonMaxTensorNumel) : ValidBlockShape shape :=
  ⟨fun d hd => h d hd ▸ isPowerOfTwo_two_pow 1, hsmall⟩

theorem cast_bool (ty : IntType) (b : Bool) :
    BlockTensor.cast .int1 ty (BitVec.ofBool b) = if b then 1 else 0 := by
  cases ty <;> cases b <;> rfl

theorem exchange_sum (ty : IntType) {q : ℕ} (f : ℕ → BitVec ty.bits) {a b c : ℕ} (hb : b < 2) (hc : c < q) :
    BlockTensor.cast ty ty (f ((a * 2 + 0) * q + c)) * BlockTensor.cast .int1 ty (exchangeBit (b * 2 + 0)) +
      BlockTensor.cast ty ty (f ((a * 2 + 1) * q + c)) * BlockTensor.cast .int1 ty (exchangeBit (b * 2 + 1)) =
    f (flipBit q ((a * 2 + b) * q + c)) := by
  rw [flipBit_row hb hc]
  simp only [exchangeBit, cast_bool, cast_self]
  obtain rfl | rfl : b = 0 ∨ b = 1 := by omega
  · simp
  · simp

section Positions

variable {i r a b j c : ℕ}

theorem position_lt (ha : a < 2 ^ i) (hb : b < 2) : a * 2 + b < (List.replicate i 2 ++ [2]).prod := by
  rw [prod_append, prod_twos, prod_singleton]
  omega

theorem product_position_lt (ha : a < 2 ^ i) (hb : b < 2) (hj : j < 2) (hc : c < 2 ^ r) :
    ((a * 2 + b) * 2 + j) * 2 ^ r + c <
      (List.replicate i 2 ++ [2] ++ 2 :: List.replicate r 2).prod := by
  have hrow : (((a * 2 + b) * 2 + j) + 1) * 2 ^ r ≤ 2 ^ i * 2 * 2 * 2 ^ r :=
    Nat.mul_le_mul_right _ (by omega)
  rw [Nat.succ_mul] at hrow
  have hprod : (List.replicate i 2 ++ [2] ++ 2 :: List.replicate r 2).prod = 2 ^ i * 2 * 2 * 2 ^ r := by
    simp only [prod_append, prod_cons, prod_nil, prod_twos]
    ring
  omega

theorem project_element (ha : a < 2 ^ i) (hb : b < 2) (hj : j < 2) (hc : c < 2 ^ r) :
    project (List.replicate i 2 ++ [1] ++ 2 :: List.replicate r 2)
        (List.replicate i 2 ++ [2] ++ 2 :: List.replicate r 2)
        (((a * 2 + b) * 2 + j) * 2 ^ r + c) =
      (a * 2 + j) * 2 ^ r + c := by
  have hback : (2 :: List.replicate r 2).prod = 2 * 2 ^ r := by rw [prod_cons, prod_twos]
  have hlow : j * 2 ^ r + c < 2 * 2 ^ r := by
    have := Nat.mul_le_mul_right (2 ^ r) (Nat.le_of_lt_succ hj)
    omega
  have hsplit : ((a * 2 + b) * 2 + j) * 2 ^ r + c = (a * 2 + b) * (2 * 2 ^ r) + (j * 2 ^ r + c) := by
    ring
  rw [project_append _ _ (by simp) _ _ _ (product_position_lt ha hb hj hc), hback, hsplit,
    (split_row hlow _).1, (split_row hlow _).2, project_self (hback ▸ hlow),
    project_append _ _ rfl _ _ _ (position_lt ha hb), prod_singleton, (split_row hb a).1,
    (split_row hb a).2, project_self ((prod_twos i).symm ▸ ha)]
  show (a * 1 + project [1] [2] b) * (2 * 2 ^ r) + _ = _
  rw [show ([1] : List ℕ) = List.replicate 1 1 from rfl, project_ones]
  ring

theorem project_exchange (ha : a < 2 ^ i) (hb : b < 2) (hj : j < 2) (hc : c < 2 ^ r) :
    project (List.replicate i 1 ++ [2, 2] ++ List.replicate r 1)
        (List.replicate i 2 ++ [2] ++ 2 :: List.replicate r 2)
        (((a * 2 + b) * 2 + j) * 2 ^ r + c) =
      b * 2 + j := by
  have hshape : List.replicate i 2 ++ [2] ++ 2 :: List.replicate r 2 =
      List.replicate i 2 ++ [2, 2] ++ List.replicate r 2 := by simp
  have hlt := product_position_lt ha hb hj hc
  have hlow : b * 2 + j < [2, 2].prod := by
    show b * 2 + j < 4
    omega
  have hhigh : (a * 2 + b) * 2 + j = a * [2, 2].prod + (b * 2 + j) := by
    show _ = a * 4 + _
    ring
  have hfront : (a * 2 + b) * 2 + j < (List.replicate i 2 ++ [2, 2]).prod := by
    rw [prod_append, prod_twos]
    show _ < 2 ^ i * 4
    omega
  rw [hshape] at hlt ⊢
  rw [project_append _ _ (by simp) _ _ _ hlt, prod_twos, (split_row hc _).1, project_ones,
    project_append _ _ (by simp) _ _ _ hfront, project_ones, hhigh, (split_row hlow a).2,
    project_self hlow, prod_replicate, Nat.one_pow]
  omega

end Positions

theorem joins_exchange (i r : ℕ) :
    Joins (List.replicate i 2 ++ [1] ++ 2 :: List.replicate r 2)
      (List.replicate i 1 ++ [2, 2] ++ List.replicate r 1)
      (List.replicate i 2 ++ [2] ++ 2 :: List.replicate r 2) := by
  have hfront := Joins.ones_right (List.replicate i 2)
  have hback := Joins.ones_right (List.replicate r 2)
  rw [length_replicate] at hfront hback
  have := (hfront.append (.left 2 (.same 2 .nil))).append hback
  simpa using this

theorem flipStep_computes (ty : IntType) {flip : Tensor (BitVec IntType.int1.bits)}
    (hflip : Flat flip [2, 2] exchangeBit) {y : Tensor (BitVec ty.bits)} {f : ℕ → BitVec ty.bits}
    (i r : ℕ) (hy : Flat y (List.replicate i 2 ++ 1 :: 2 :: List.replicate r 2) f)
    (hvalid : ValidBlockShape (List.replicate i 2 ++ 2 :: 2 :: List.replicate r 2)) :
    Computes (flipStep ty flip (i + 1 + r) y i)
      (List.replicate (i + 1) 2 ++ 1 :: List.replicate r 2) fun k => f (flipBit (2 ^ r) k) := by
  have hprod := prod_twos r
  have hexchange := exchangeAt_computes hflip i r
  have hsource : List.replicate i 2 ++ 1 :: 2 :: List.replicate r 2 =
      List.replicate i 2 ++ [1] ++ 2 :: List.replicate r 2 := by simp
  have htarget : List.replicate i 2 ++ 2 :: 2 :: List.replicate r 2 =
      List.replicate i 2 ++ [2] ++ 2 :: List.replicate r 2 := by simp
  have haxis : (List.replicate i 2 ++ [2]).length = i + 1 := by simp
  rw [hsource] at hy
  rw [htarget] at hvalid
  rw [flipStep, replicate_succ']
  refine hexchange.bind fun flip2 hflip2 => ?_
  refine (computes_elementwise hy hflip2 (joins_exchange i r) (by simp) hvalid _).bind fun product hproduct => ?_
  refine ((haxis ▸ computes_reduce _ _ hproduct two_pos (by simp) _).bind fun sum hsum => ?_)
  refine (haxis ▸ computes_expandDims _ _ hsum).congr fun k hk => ?_
  have hk' : k < 2 ^ i * 2 * 2 ^ r := by
    simpa [prod_append, Nat.mul_assoc] using hk
  obtain ⟨a, b, c, hb, hc, rfl⟩ := exists_row (Nat.two_pow_pos r) k
  have ha : a < 2 ^ i := high_lt hk'
  rw [← exchange_sum ty f hb hc, hprod, (split_row hc _).1, (split_row hc _).2]
  rw [foldAxis_two, project_element ha hb two_pos hc, project_element ha hb one_lt_two hc,
    project_exchange ha hb two_pos hc, project_exchange ha hb one_lt_two hc]

theorem flipStep_too_large (ty : IntType) {flip : Tensor (BitVec IntType.int1.bits)}
    (hflip : Flat flip [2, 2] exchangeBit) {y : Tensor (BitVec ty.bits)} {f : ℕ → BitVec ty.bits}
    (i r : ℕ) (hy : Flat y (List.replicate i 2 ++ 1 :: 2 :: List.replicate r 2) f)
    (hlarge : tritonMaxTensorNumel < 2 ^ (i + 1 + r + 1)) :
    ∃ error, flipStep ty flip (i + 1 + r) y i = .error error := by
  obtain ⟨flip2, hexchange, hflip2⟩ := exchangeAt_computes hflip i r
  have hsource : List.replicate i 2 ++ 1 :: 2 :: List.replicate r 2 =
      List.replicate i 2 ++ [1] ++ 2 :: List.replicate r 2 := by simp
  have hinvalid : ¬ ValidBlockShape (List.replicate i 2 ++ [2] ++ 2 :: List.replicate r 2) := by
    rintro ⟨-, hsmall⟩
    have hprod : (List.replicate i 2 ++ [2] ++ 2 :: List.replicate r 2).prod = 2 ^ (i + 1 + r + 1) := by
      simp only [prod_append, prod_cons, prod_nil, prod_twos]
      ring
    omega
  rw [hsource] at hy
  refine ⟨shapeError (List.replicate i 2 ++ [2] ++ 2 :: List.replicate r 2), ?_⟩
  rw [flipStep, hexchange]
  simp only [bind, Except.bind, arithmetic,
    elementwise_invalid hy hflip2 (joins_exchange i r) (by simp) hinvalid]

theorem rounds_computes (ty : IntType) {flip : Tensor (BitVec IntType.int1.bits)}
    (hflip : Flat flip [2, 2] exchangeBit) (i e : ℕ) {y : Tensor (BitVec ty.bits)}
    {f : ℕ → BitVec ty.bits} (hy : Flat y (List.replicate i 2 ++ 1 :: List.replicate e 2) f)
    (hvalid : 0 < e → 2 ^ (i + e + 1) ≤ tritonMaxTensorNumel) :
    Computes ((List.range' i e).foldlM (flipStep ty flip (i + e)) y)
      (List.replicate (i + e) 2 ++ [1]) fun k => f (mirror (2 ^ e) k) := by
  induction e generalizing i y f with
  | zero =>
    refine (computes_ok hy).congr fun k _ => ?_
    rw [mirror, Nat.pow_zero, Nat.mod_one, Nat.div_one, Nat.mul_one]
    rfl
  | succ e ih =>
    have hshape : ValidBlockShape (List.replicate i 2 ++ 2 :: 2 :: List.replicate e 2) := by
      refine valid_twos (fun d hd => ?_) ?_
      · simp at hd
        tauto
      · simpa [pow_add, Nat.mul_assoc, Nat.mul_comm] using hvalid (Nat.succ_pos e)
    have hstep := flipStep_computes ty hflip i e hy hshape
    rw [List.range'_succ, foldlM_cons, show i + (e + 1) = i + 1 + e by omega]
    refine hstep.bind fun y' hy' => ?_
    refine (ih (i + 1) hy' fun _ => ?_).congr fun k _ => ?_
    · rw [show i + 1 + e + 1 = i + (e + 1) + 1 by omega]
      exact hvalid (Nat.succ_pos e)
    · rw [flipBit_mirror (Nat.two_pow_pos e), ← Nat.pow_succ']

/-! The whole tensor. -/

theorem isPositivePowerOfTwo_two_pow (m : ℕ) : isPositivePowerOfTwo (2 ^ m) = true := by
  simp [isPositivePowerOfTwo]

theorem prod_two_pow {shape : List ℕ} (h : ∀ d ∈ shape, ∃ e, d = 2 ^ e) : ∃ e, shape.prod = 2 ^ e := by
  induction shape with
  | nil => exact ⟨0, rfl⟩
  | cons d ds ih =>
    obtain ⟨e, rfl⟩ := h d mem_cons_self
    obtain ⟨e', he'⟩ := ih fun c hc => h c (mem_cons_of_mem _ hc)
    exact ⟨e + e', by rw [prod_cons, he', pow_add]⟩

/-- The tensor `flip` returns reads the last dimension backwards. -/
def Reverses (ty : IntType) (x : Tensor (BitVec ty.bits)) (dim : Option ℕ) (n : ℕ) : Prop :=
  ∃ y, flip ty x dim = .ok y ∧ y.shape = x.shape ∧
    ∀ idx k, InBounds x.shape (idx ++ [k]) → y.get (idx ++ [k]) = x.get (idx ++ [n - 1 - k])

section Whole

variable {ty : IntType} {x : Tensor (BitVec ty.bits)} {outer : List ℕ} {dim : Option ℕ} {m r : ℕ}

theorem flip_eq (hshape : x.shape = outer ++ [2 ^ m]) (hnumel : x.numel = 2 ^ (r + m))
    (hdim : dim = none ∨ dim = some outer.length) :
    flip ty x dim = (do
      let y ← reshape x (List.replicate (r + m) 2)
      let y ← expandDims y r
      let exchange ← exchange
      let y ← (List.range' r m).foldlM (flipStep ty exchange (r + m)) y
      reshape y x.shape) := by
  have hlength : x.shape.length = outer.length + 1 := by rw [hshape]; simp
  have hlast : getFlipDim dim x.shape = .ok outer.length := by
    rcases hdim with rfl | rfl <;> simp [getFlipDim, hlength]
  have hsize : x.shape.getD outer.length 0 = 2 ^ m := by rw [hshape]; simp [List.getD]
  simp only [flip, hlast, bind, Except.bind, hsize, hnumel, isPositivePowerOfTwo_two_pow,
    staticAssert, if_true, log2_two_pow, Nat.add_sub_cancel, Nat.add_sub_cancel_left]

theorem viewTwos_computes (hnumel : x.numel = 2 ^ (r + m)) (hpos : 0 < r + m) :
    Computes (reshape x (List.replicate (r + m) 2)) (List.replicate r 2 ++ List.replicate m 2)
      (elements x) := by
  have hprod : (List.replicate (r + m) 2).prod = x.shape.prod := by rw [prod_twos, ← hnumel]; rfl
  have htwos : ValidBlockShape (List.replicate (r + m) 2) :=
    valid_twos (fun d hd => eq_of_mem_replicate hd) (hprod ▸ x.valid.2)
  have hne : List.replicate (r + m) 2 ≠ [] := by
    simp [replicate_eq_nil_iff]
    omega
  rw [replicate_append_replicate]
  exact computes_reshape (flat_elements x) hne hprod htwos

theorem flip_computes (hshape : x.shape = outer ++ [2 ^ m]) (hnumel : x.numel = 2 ^ (r + m))
    (hdim : dim = none ∨ dim = some outer.length) (hpos : 0 < r + m)
    (hsmall : 0 < m → 2 ^ (r + m + 1) ≤ tritonMaxTensorNumel) :
    Computes (flip ty x dim) x.shape fun k => elements x (mirror (2 ^ m) k) := by
  rw [flip_eq hshape hnumel hdim]
  refine (viewTwos_computes hnumel hpos).bind fun y hy => ?_
  have hexpand := computes_expandDims _ _ hy
  rw [length_replicate] at hexpand
  refine hexpand.bind fun y hy => ?_
  refine exchange_computes.bind fun flip hflip => ?_
  refine (rounds_computes ty hflip r m hy hsmall).bind fun y hy => ?_
  refine computes_reshape hy (by rw [hshape]; simp) ?_ x.valid
  rw [prod_append, prod_twos, prod_singleton, Nat.mul_one]
  exact hnumel

theorem flip_scalar_shape (hshape : x.shape = outer ++ [2 ^ m]) (hnumel : x.numel = 2 ^ (r + m))
    (hdim : dim = none ∨ dim = some outer.length) (hzero : r + m = 0) :
    flip ty x dim = .error (.typeError "0d block_type is forbidden") := by
  have hone : x.numel = 1 := by rw [hnumel, hzero, Nat.pow_zero]
  have hreshape : reshape x (List.replicate (r + m) 2) =
      .error (.typeError "0d block_type is forbidden") := by
    rw [hzero, replicate_zero, reshape]
    simp [validateBlockShape, show ValidBlockShape [] by decide, bind, Except.bind, hone, block]
  rw [flip_eq hshape hnumel hdim, hreshape]
  rfl

theorem flip_too_large (hshape : x.shape = outer ++ [2 ^ m]) (hnumel : x.numel = 2 ^ (r + m))
    (hdim : dim = none ∨ dim = some outer.length) (hm : 0 < m)
    (hlarge : tritonMaxTensorNumel < 2 ^ (r + m + 1)) : ∃ error, flip ty x dim = .error error := by
  obtain ⟨m, rfl⟩ := Nat.exists_eq_succ_of_ne_zero hm.ne'
  obtain ⟨y, hreshape, hy⟩ := viewTwos_computes (r := r) (m := m + 1) hnumel (by omega)
  obtain ⟨y', hexpand, hy'⟩ := computes_expandDims _ _ hy
  rw [length_replicate] at hexpand
  obtain ⟨flip, hflip, hflat⟩ := exchange_computes
  obtain ⟨error, herror⟩ := flipStep_too_large ty hflat r m hy' (by rwa [Nat.add_right_comm r 1 m])
  refine ⟨error, ?_⟩
  rw [flip_eq hshape hnumel hdim, hreshape]
  simp only [bind, Except.bind, hexpand, hflip, List.range'_succ, foldlM_cons]
  rw [show r + (m + 1) = r + 1 + m by omega, herror]

theorem Reverses.of_computes {ty : IntType} {x : Tensor (BitVec ty.bits)} {dim : Option ℕ}
    {outer : List ℕ} {n : ℕ} (hshape : x.shape = outer ++ [n])
    (h : Computes (flip ty x dim) x.shape fun k => elements x (mirror n k)) :
    Reverses ty x dim n := by
  obtain ⟨y, hy, hflat⟩ := h
  refine ⟨y, hy, hflat.shape_eq, fun idx k hidx => ?_⟩
  rw [hshape] at hidx hflat
  obtain ⟨houter, hk⟩ := inBounds_concat.mp hidx
  have hx : Flat x (outer ++ [n]) (elements x) := hshape ▸ flat_elements x
  rw [hflat.get_row houter hk, mirror_row hk, hx.get_row houter (by omega)]

end Whole

/-- `flip` reverses every tensor but those of one element, which it cannot view
without dimensions, and the largest ones, whose product with the exchange
matrix is too large for a block. -/
theorem flip_reverses_iff (ty : IntType) (x : Tensor (BitVec ty.bits)) (outer : List ℕ) (n : ℕ)
    (hshape : x.shape = outer ++ [n]) (hpowers : ∀ d ∈ x.shape, ∃ e, d = 2 ^ e) (dim : Option ℕ)
    (hdim : dim = none ∨ dim = some outer.length) :
    Reverses ty x dim n ↔ x.numel ≠ 1 ∧ (n = 1 ∨ 2 * x.numel ≤ tritonMaxTensorNumel) := by
  rw [hshape] at hpowers
  obtain ⟨m, rfl⟩ := hpowers n (by simp)
  obtain ⟨r, hr⟩ := prod_two_pow fun d hd => hpowers d (mem_append_left _ hd)
  have hnumel : x.numel = 2 ^ (r + m) := by
    rw [Tensor.numel, hshape, prod_append, prod_singleton, hr, pow_add]
  have hdouble : 2 * 2 ^ (r + m) = 2 ^ (r + m + 1) := (Nat.pow_succ' ).symm
  rw [hnumel, hdouble]
  constructor
  · rintro ⟨y, hy, -⟩
    refine ⟨fun hone => ?_, ?_⟩
    · have hzero : r + m = 0 := by simpa using hone
      rw [flip_scalar_shape hshape hnumel hdim hzero] at hy
      cases hy
    · by_contra hcon
      rw [not_or, not_le] at hcon
      have hm : 0 < m := Nat.pos_of_ne_zero fun hz => hcon.1 (by rw [hz, Nat.pow_zero])
      obtain ⟨error, herror⟩ := flip_too_large hshape hnumel hdim hm hcon.2
      rw [herror] at hy
      cases hy
  · rintro ⟨hone, hsmall⟩
    have hpos : 0 < r + m := Nat.pos_of_ne_zero fun hz => hone (by rw [hz, Nat.pow_zero])
    refine Reverses.of_computes hshape (flip_computes hshape hnumel hdim hpos fun hm => ?_)
    exact hsmall.resolve_left (Nat.one_lt_two_pow hm.ne').ne'

def sampleTensor : Tensor (BitVec IntType.int32.bits) :=
  ⟨[2, 4], by decide, fun idx => BitVec.ofNat _ (ravel [2, 4] idx)⟩

theorem flip_reverses_sample : Reverses .int32 sampleTensor none 4 :=
  (flip_reverses_iff .int32 sampleTensor [2] 4 rfl
    (by
      intro d hd
      rcases mem_pair.mp hd with rfl | rfl
      · exact ⟨1, rfl⟩
      · exact ⟨2, rfl⟩) none (.inl rfl)).mpr (by decide)

def unitTensor : Tensor (BitVec IntType.int32.bits) := ⟨[1], by decide, fun _ => 7⟩

theorem flip_of_one_element : ¬ Reverses .int32 unitTensor none 1 := by
  rintro ⟨y, hy, -⟩
  have herror : flip .int32 unitTensor none = .error (.typeError "0d block_type is forbidden") :=
    flip_scalar_shape (x := unitTensor) (m := 0) (r := 0) (by rw [nil_append]; rfl) rfl
      (.inl rfl) rfl
  rw [herror] at hy
  cases hy

end TritonCpu.TensorFlip
