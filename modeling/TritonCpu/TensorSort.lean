import Mathlib
import TritonCpu.FlatTensor
import TritonCpu.BitonicNetwork

/-!
# Sorting the last dimension

`sort` runs a bitonic network on all rows at once. A round views the tensor with
the pairs on an axis of size two, takes the two partners out with masked sums and
recombines them bit by bit.
-/

set_option autoImplicit false

namespace TritonCpu.TensorSort
open TritonIR BlockTensor FlatTensor BitPositions BitonicNetwork

abbrev Block (ty : IntType) := Tensor (BitVec ty.bits)

/-- `where` on tensors of one element type. -/
def select {α : Type} (condition : Block .int1) (x y : Tensor α) : Except LanguageError (Tensor α) := do
  let (x, y) ← broadcastImplValue x y
  let (condition, x) ← broadcastImplValue condition x
  let (x, y) ← broadcastImplValue x y
  return ⟨x.shape, x.valid, fun idx => if condition.get idx = 1 then x.get idx else y.get idx⟩

/-- `arange(0, 2)[None, :, None]`. -/
def pairAxis : Except LanguageError (Block .int32) := do
  let mask ← arange 0 2
  let mask ← expandDims mask 0
  expandDims mask 2

/-- `broadcast_to(sum(y * mask, 1)[:, None, :], shape).to(y.dtype)`. -/
def slice (ty : IntType) (y : Block ty) (mask : Block .int32) (shape : List ℕ) :
    Except LanguageError (Block ty) := do
  let product ← arithmetic ty .int32 rfl (· * ·) y mask
  let sum ← reduce (· + ·) product 1
  let sum ← expandDims sum 1
  let sum ← broadcastTo sum shape
  return sum.map (BlockTensor.cast _ ty)

def toSigned (ty : IntType) (x : BitVec ty.bits) : BitVec ty.signedOfWidth.bits :=
  x.cast ty.bits_signedOfWidth.symm

def fromSigned (ty : IntType) (x : BitVec ty.signedOfWidth.bits) : BitVec ty.bits :=
  x.cast ty.bits_signedOfWidth

def compareAndSwap (ty : IntType) (x : Block ty) (flip : Block .int32) (i n_dims : ℕ) :
    Except LanguageError (Block ty) := do
  let n_outer := x.numel >>> n_dims
  let shape := [n_outer * 2 ^ i, 2, 2 ^ (n_dims - i - 1)]
  let y ← reshape x shape
  let mask ← pairAxis
  let others ← elementwise (· - ·) (scalar 1) mask
  let left ← slice ty y others shape
  let right ← slice ty y mask shape
  let left ← reshape left x.shape
  let right ← reshape right x.shape
  let ileft := left.map (toSigned ty)
  let iright := right.map (toSigned ty)
  let ix := x.map (toSigned ty)
  let greater ← elementwise (fun a b => BitVec.ofBool (greaterThan ty a b)) left right
  let condition ← arithmetic .int1 .int32 (r := .int32) rfl (fun a b => BitVec.ofBool (a != b))
    greater flip
  let difference ← elementwise (· ^^^ ·) ileft iright
  let zeros ← block ix.shape fun _ => 0
  let change ← select condition difference zeros
  let ret ← elementwise (· ^^^ ·) ix change
  return ret.map (fromSigned ty)

/-- The directions of a stage: `order` for all pairs, or alternating ones. -/
def directions (shape : List ℕ) (numel stage order n_dims : ℕ) : Except LanguageError (Block .int32) :=
  let n_outer := numel >>> n_dims
  if order = 2 then do
    let axis ← pairAxis
    let flip ← broadcastTo axis [n_outer * 2 ^ (n_dims - 1 - stage), 2, 2 ^ stage]
    reshape flip shape
  else .ok (scalar (BitVec.ofNat _ order))

def bitonicMerge (ty : IntType) (x : Block ty) (stage order n_dims : ℕ) :
    Except LanguageError (Block ty) := do
  staticAssert (stage ≤ n_dims)
  let flip ← directions x.shape x.numel stage order n_dims
  (List.range stage).foldlM (fun x i => compareAndSwap ty x flip (i + (n_dims - stage)) n_dims) x

def sort (ty : IntType) (x : Block ty) (dim : Option ℕ) (descending : Bool) :
    Except LanguageError (Block ty) := do
  let _dim := dim.getD (x.shape.length - 1)
  if _dim + 1 ≠ x.shape.length then
    .error (.staticAssert "only minor dimension is currently supported")
  else
    let n_dims := log2 (x.shape.getD _dim 0)
    (List.range' 1 n_dims).foldlM
      (fun x i => bitonicMerge ty x i (if i < n_dims then 2 else descending.toNat) n_dims) x

/-! The order of the elements. -/

def key (ty : IntType) (x : BitVec ty.bits) : ℤ := if ty.isSigned then x.toInt else x.toNat

theorem greaterThan_eq (ty : IntType) (x y : BitVec ty.bits) :
    greaterThan ty x y = decide (key ty y < key ty x) := by
  rw [greaterThan, key, key]
  split
  · rfl
  · simp [BitVec.ult]

/-! The slices. -/

theorem signExtend_narrow {v w : ℕ} (h : v ≤ w) (x : BitVec v) : (x.signExtend w).signExtend v = x := by
  rw [BitVec.signExtend_eq_setWidth_of_le _ h]
  ext i hi
  simp [BitVec.getLsbD_signExtend, hi]
  omega

theorem setWidth_narrow {v w : ℕ} (h : v ≤ w) (x : BitVec v) : (x.setWidth w).signExtend v = x := by
  rw [BitVec.signExtend_eq_setWidth_of_le _ h, BitVec.setWidth_setWidth_of_le _ h, BitVec.setWidth_eq]

theorem cast_promoted (ty : IntType) (x : BitVec ty.bits) :
    BlockTensor.cast (integerPromote ty .int32) ty (BlockTensor.cast ty _ x) = x := by
  cases ty with
  | int1 =>
    revert x
    decide
  | int8 | int16 => exact signExtend_narrow (by decide) x
  | uint8 | uint16 => exact setWidth_narrow (by decide) x
  | int32 => exact (cast_self .int32 _).trans (cast_self .int32 x)
  | int64 => exact (cast_self .int64 _).trans (cast_self .int64 x)
  | uint32 => exact (cast_self .uint32 _).trans (cast_self .uint32 x)
  | uint64 => exact (cast_self .uint64 _).trans (cast_self .uint64 x)

theorem cast_mask (ty : IntType) (b : Bool) :
    BlockTensor.cast .int32 (integerPromote ty .int32) (if b then 1 else 0) = if b then 1 else 0 := by
  cases ty <;> cases b <;> rfl

theorem pairAxis_computes : Computes pairAxis [1, 2, 1] fun k => BitVec.ofNat _ k := by
  refine ⟨_, rfl, rfl, ?_⟩
  decide

section Slices

variable {rows q a b c : ℕ}

theorem pair_position (hb : b < 2) (hc : c < q) (ha : a < rows) :
    (a * 2 + b) * q + c < [rows, 2, q].prod := by
  have hrow : (a * 2 + b + 1) * q ≤ rows * 2 * q := Nat.mul_le_mul_right q (by omega)
  have hprod : [rows, 2, q].prod = rows * 2 * q := by
    simp [Nat.mul_assoc]
  rw [Nat.succ_mul] at hrow
  omega

theorem project_pairAxis (hb : b < 2) (hc : c < q) (ha : a < rows) :
    project [1, 2, 1] [rows, 2, q] ((a * 2 + b) * q + c) = b := by
  have hrow := pair_position hb hc ha
  have hhigh : a * 2 + b < ([rows] ++ [2]).prod := by
    simp
    omega
  have hinner : project [1] [rows] a = 0 := project_ones 1 _ a
  have houter : project [1] [q] c = 0 := project_ones 1 _ c
  have h := project_append [1, 2] [rows, 2] rfl [1] [q] _ hrow
  have h' := project_append [1] [rows] rfl [2] [2] _ hhigh
  rw [List.prod_singleton, (split_row hb a).1, (split_row hb a).2, hinner,
    project_self (by simpa using hb)] at h'
  rw [List.prod_singleton, (split_row hc _).1, (split_row hc _).2, houter] at h
  refine h.trans ?_
  show project ([1] ++ [2]) ([rows] ++ [2]) (a * 2 + b) * 1 + 0 = b
  rw [h']
  omega

theorem project_slice (hb : b < 2) (hc : c < q) (ha : a < rows) :
    project [rows, 1, q] [rows, 2, q] ((a * 2 + b) * q + c) = a * q + c := by
  have hrow := pair_position hb hc ha
  have hhigh : a * 2 + b < ([rows] ++ [2]).prod := by
    simp
    omega
  have hinner : project [1] [2] b = 0 := project_ones 1 _ b
  have h := project_append [rows, 1] [rows, 2] rfl [q] [q] _ hrow
  have h' := project_append [rows] [rows] rfl [1] [2] _ hhigh
  rw [List.prod_singleton, (split_row hb a).1, (split_row hb a).2, hinner,
    project_self (by simpa using ha)] at h'
  rw [List.prod_singleton, (split_row hc _).1, (split_row hc _).2,
    project_self (by simpa using hc)] at h
  refine h.trans ?_
  show project ([rows] ++ [1]) ([rows] ++ [2]) (a * 2 + b) * q + c = a * q + c
  rw [h', List.prod_singleton, Nat.mul_one, Nat.add_zero]

/-- The partner with the bit of the weight equal to `s`. -/
def partner {α : Type} (q s : ℕ) (f : ℕ → α) (k : ℕ) : α := f (k / q / 2 * 2 * q + s * q + k % q)

theorem mask_sum (ty : IntType) {s : ℕ} (hs : s < 2) (x : ℕ → BitVec ty.bits) :
    BlockTensor.cast (integerPromote ty .int32) ty
        (BlockTensor.cast ty _ (x 0) * BlockTensor.cast .int32 _ (if 0 = s then 1 else 0) +
          BlockTensor.cast ty _ (x 1) * BlockTensor.cast .int32 _ (if 1 = s then 1 else 0)) =
      x s := by
  have hmask : ∀ j : ℕ, BlockTensor.cast .int32 (integerPromote ty .int32) (if j = s then 1 else 0) =
      if j = s then 1 else 0 := fun j => by
    simpa using cast_mask ty (decide (j = s))
  rw [hmask, hmask]
  obtain rfl | rfl : s = 0 ∨ s = 1 := by omega
  · simp [cast_promoted]
  · simp [cast_promoted]

theorem slice_computes (ty : IntType) {y : Block ty} {mask : Block .int32} {f : ℕ → BitVec ty.bits}
    {s : ℕ} (hs : s < 2) (hq : 0 < q) (hy : Flat y [rows, 2, q] f)
    (hmask : Flat mask [1, 2, 1] fun k => if k = s then 1 else 0) :
    Computes (slice ty y mask [rows, 2, q]) [rows, 2, q] (partner q s f) := by
  have hvalid := hy.valid
  have hproduct := computes_elementwise hy hmask
    (.right rows (.same 2 (.right q .nil)) : Joins _ _ [rows, 2, q]) (by simp) hvalid
    (fun u v => BlockTensor.cast ty (integerPromote ty .int32) u *
      BlockTensor.cast .int32 (integerPromote ty .int32) v)
  rw [slice]
  refine hproduct.bind fun product hproduct => ?_
  refine (computes_reduce [rows] [q] hproduct two_pos (by simp) _).bind
    fun sum hsum => ?_
  refine (computes_expandDims [rows] [q] hsum).bind fun sum hsum => ?_
  refine (computes_broadcastTo hsum
    (.same rows (.left 2 (.same q .nil)) : Joins _ _ [rows, 2, q]) (by simp) hvalid).bind
    fun sum hsum => ?_
  refine ⟨_, rfl, hsum.shape_eq, fun k hk => ?_⟩
  obtain ⟨a, b, c, hb, hc, rfl⟩ := exists_row hq k
  have ha : a < rows := high_lt (by simpa [Nat.mul_assoc] using hk)
  show BlockTensor.cast _ ty (sum.get _) = _
  have hread : ∀ j < 2, project [rows, 2, q] [rows, 2, q] ((a * 2 + j) * q + c) = (a * 2 + j) * q + c :=
    fun j hj => project_self (pair_position hj hc ha)
  have hsource : project ([rows] ++ [1, q]) [rows, 2, q] ((a * 2 + b) * q + c) = a * q + c :=
    project_slice hb hc ha
  rw [hsum.get_unravel _ hk, hsource, List.prod_singleton, (split_row hc a).1, (split_row hc a).2,
    foldAxis_two, hread 0 two_pos, hread 1 one_lt_two, project_pairAxis two_pos hc ha,
    project_pairAxis one_lt_two hc ha]
  refine (mask_sum ty hs fun j => f ((a * 2 + j) * q + c)).trans ?_
  rw [partner, (split_row hc _).1, (split_row hc _).2, (split_row hb a).1, Nat.add_mul]

theorem partner_zero {α : Type} (hq : 0 < q) (f : ℕ → α) (k : ℕ) :
    partner q 0 f k = f (lower q k) := by
  obtain ⟨a, b, c, hb, hc, rfl⟩ := exists_row hq k
  rw [partner, lower_row hb hc, (split_row hc _).1, (split_row hc _).2, (split_row hb a).1,
    Nat.zero_mul, Nat.add_zero]

theorem partner_one {α : Type} (hq : 0 < q) (f : ℕ → α) (k : ℕ) :
    partner q 1 f k = f (lower q k + q) := by
  obtain ⟨a, b, c, hb, hc, rfl⟩ := exists_row hq k
  rw [partner, lower_row hb hc, (split_row hc _).1, (split_row hc _).2, (split_row hb a).1,
    Nat.one_mul]
  congr 1
  omega

end Slices

/-! One round. -/

theorem select_computes {α : Type} {condition : Block .int1} {x y : Tensor α} {shape : List ℕ}
    {p : ℕ → Bool} {f g : ℕ → α} (hc : Flat condition shape fun k => BitVec.ofBool (p k))
    (hx : Flat x shape f) (hy : Flat y shape g) :
    Computes (select condition x y) shape fun k => if p k then f k else g k := by
  have hxy : x.shape = y.shape := hx.shape_eq.trans hy.shape_eq.symm
  have hcx : condition.shape = x.shape := hc.shape_eq.trans hx.shape_eq.symm
  refine ⟨⟨x.shape, x.valid, fun idx => if condition.get idx = 1 then x.get idx else y.get idx⟩, ?_,
    hx.shape_eq, fun k hk => ?_⟩
  · simp only [select, broadcastImplValue_same hxy, broadcastImplValue_same hcx, bind, Except.bind,
      pure, Except.pure]
  · show (if condition.get _ = 1 then x.get _ else y.get _) = _
    rw [hc.get_unravel k hk, hx.get_unravel k hk, hy.get_unravel k hk]
    cases p k <;> rfl

theorem recombine (ty : IntType) (x y z : BitVec ty.bits) :
    fromSigned ty (toSigned ty x ^^^ (toSigned ty y ^^^ toSigned ty z)) = x ^^^ (y ^^^ z) := by
  cases ty <;> rfl

theorem recombine_zero (ty : IntType) (x : BitVec ty.bits) :
    fromSigned ty (toSigned ty x ^^^ 0) = x := by
  have hzero : toSigned ty x ^^^ 0 = toSigned ty x := BitVec.xor_zero
  rw [hzero]
  cases ty <;> rfl

theorem swapped_element {q : ℕ} {w : ℕ} (hq : 0 < q) (f : ℕ → BitVec w) (k : ℕ) :
    f k ^^^ (f (lower q k) ^^^ f (lower q k + q)) = f (flipBit q k) := by
  obtain ⟨a, b, c, hb, hc, rfl⟩ := exists_row hq k
  rw [lower_row hb hc, flipBit_row hb hc]
  obtain rfl | rfl : b = 0 ∨ b = 1 := by omega
  · rw [Nat.add_zero, ← BitVec.xor_assoc, BitVec.xor_self, BitVec.zero_xor, Nat.sub_zero]
    congr 1
    ring
  · have hsame : (a * 2 + 1) * q + c = a * 2 * q + c + q := by ring
    rw [hsame, BitVec.xor_comm (f (a * 2 * q + c)), ← BitVec.xor_assoc, BitVec.xor_self,
      BitVec.zero_xor, Nat.sub_self, Nat.add_zero]

/-- The directions of the pairs, as the comparison with the order reads them. -/
def Directs (flip : Block .int32) (shape : List ℕ) (descending : ℕ → Bool) : Prop :=
  ∀ (greater : Block .int1) (p : ℕ → Bool), Flat greater shape (fun k => BitVec.ofBool (p k)) →
    Computes (arithmetic .int1 .int32 (r := .int32) rfl (fun a b => BitVec.ofBool (a != b))
      greater flip) shape fun k => BitVec.ofBool (p k != descending k)

theorem directs_scalar (shape : List ℕ) (hne : shape ≠ []) (d : Bool) :
    Directs (scalar (BitVec.ofNat _ d.toNat)) shape fun _ => d := by
  intro greater p hgreater
  refine (computes_elementwise_scalar_right _ hgreater hne _).congr fun k _ => ?_
  cases p k <;> cases d <;> rfl

theorem directs_block {flip : Block .int32} {shape : List ℕ} (hne : shape ≠ []) {d : ℕ → Bool}
    (h : Flat flip shape fun k => BitVec.ofNat _ (d k).toNat) : Directs flip shape d := by
  intro greater p hgreater
  refine (computes_elementwise_same hgreater h hne _).congr fun k _ => ?_
  cases p k <;> cases d k <;> rfl

theorem pair_shape_valid {r i t : ℕ} {shape : List ℕ}
    (hprod : [2 ^ r * 2 ^ i, 2, 2 ^ t].prod = shape.prod) (hvalid : ValidBlockShape shape) :
    ValidBlockShape [2 ^ r * 2 ^ i, 2, 2 ^ t] := by
  refine ⟨fun e he => ?_, hprod ▸ hvalid.2⟩
  rw [← pow_add] at he
  simp only [List.mem_cons, List.not_mem_nil, or_false] at he
  rcases he with rfl | rfl | rfl
  · exact isPowerOfTwo_two_pow _
  · exact isPowerOfTwo_two_pow 1
  · exact isPowerOfTwo_two_pow _

theorem compareAndSwap_computes (ty : IntType) {x : Block ty} {flip : Block .int32}
    {f : ℕ → BitVec ty.bits} {d : ℕ → Bool} {r i t : ℕ} {shape : List ℕ} (hx : Flat x shape f)
    (hnumel : shape.prod = 2 ^ r * 2 ^ (i + 1 + t)) (hne : shape ≠ [])
    (hflip : Directs flip shape d) :
    Computes (compareAndSwap ty x flip i (i + 1 + t)) shape (exchange (key ty) d (2 ^ t) f) := by
  have hq := Nat.two_pow_pos t
  have hshape := hx.shape_eq
  have houter : x.numel >>> (i + 1 + t) = 2 ^ r := by
    rw [Tensor.numel, hshape, hnumel, Nat.shiftRight_eq_div_pow,
      Nat.mul_div_cancel _ (Nat.two_pow_pos _)]
  have hstride : i + 1 + t - i - 1 = t := by omega
  have hprod : [2 ^ r * 2 ^ i, 2, 2 ^ t].prod = shape.prod := by
    rw [hnumel]
    simp only [List.prod_cons, List.prod_nil, pow_add]
    ring
  have hvalid := pair_shape_valid hprod hx.valid
  rw [compareAndSwap]
  simp only [houter, hstride]
  refine (computes_reshape hx (by simp) hprod hvalid).bind fun y hy => ?_
  refine pairAxis_computes.bind fun mask hmask => ?_
  have hright : Flat mask [1, 2, 1] fun k => if k = 1 then 1 else 0 := hmask.congr (by decide)
  refine (computes_elementwise_scalar_left 1 hmask (by simp) _).bind fun others hothers => ?_
  have hleft : Flat others [1, 2, 1] fun k => if k = 0 then 1 else 0 := hothers.congr (by decide)
  refine (slice_computes ty two_pos hq hy hleft).bind fun left hleft => ?_
  refine (slice_computes ty one_lt_two hq hy hright).bind fun right hright => ?_
  rw [hshape]
  refine (computes_reshape hleft hne hprod.symm hx.valid).bind fun left hleft => ?_
  refine (computes_reshape hright hne hprod.symm hx.valid).bind fun right hright => ?_
  refine (computes_elementwise_same hleft hright hne _).bind fun greater hgreater => ?_
  refine (hflip greater _ hgreater).bind fun condition hcondition => ?_
  have hleft' := hleft.map (toSigned ty)
  have hright' := hright.map (toSigned ty)
  have hx' := hx.map (toSigned ty)
  refine (computes_elementwise_same hleft' hright' hne _).bind fun difference hdifference => ?_
  rw [hx'.shape_eq]
  refine (computes_block hne hx.valid fun _ => 0).bind fun zeros hzeros => ?_
  refine (select_computes hcondition hdifference hzeros).bind fun change hchange => ?_
  refine (computes_elementwise_same hx' hchange hne _).bind fun ret hret => ?_
  refine (computes_ok (hret.map (fromSigned ty))).congr fun k _ => ?_
  rw [greaterThan_eq, partner_zero hq, partner_one hq, exchange, swaps]
  split
  · rw [recombine, swapped_element hq]
  · exact recombine_zero ty (f k)

/-! The stages. -/

section Stages

variable {ty : IntType} {x : Block ty} {f : ℕ → BitVec ty.bits} {r m : ℕ} {shape : List ℕ}

theorem rounds_compute {flip : Block .int32} {d : ℕ → Bool} {stage : ℕ} (s : ℕ)
    (hx : Flat x shape f) (hnumel : shape.prod = 2 ^ r * 2 ^ m) (hne : shape ≠ [])
    (hflip : Directs flip shape d) (hs : s ≤ stage) (hstage : stage ≤ m) :
    Computes ((List.range' (stage - s) s).foldlM
      (fun x i => compareAndSwap ty x flip (i + (m - stage)) m) x) shape (merge (key ty) d s f) := by
  induction s generalizing x f with
  | zero => exact computes_ok hx
  | succ s ih =>
    obtain ⟨i, rfl⟩ : ∃ i, m = i + 1 + s := ⟨m - (s + 1), by omega⟩
    have hround : stage - (s + 1) + (i + 1 + s - stage) = i := by omega
    have hnext : stage - (s + 1) + 1 = stage - s := by omega
    rw [List.range'_succ, List.foldlM_cons, hround, hnext, merge]
    exact (compareAndSwap_computes ty hx hnumel hne hflip).bind fun y hy => ih hy (by omega)

theorem directions_alternate {stage : ℕ} (hvalid : ValidBlockShape shape)
    (hnumel : shape.prod = 2 ^ r * 2 ^ m) (hne : shape ≠ []) (hstage : stage < m) :
    ∃ flip, directions shape shape.prod stage 2 m = .ok flip ∧
      Directs flip shape (alternating stage) := by
  have hq := Nat.two_pow_pos stage
  have houter : shape.prod >>> m = 2 ^ r := by
    rw [hnumel, Nat.shiftRight_eq_div_pow, Nat.mul_div_cancel _ (Nat.two_pow_pos _)]
  have hprod : [2 ^ r * 2 ^ (m - 1 - stage), 2, 2 ^ stage].prod = shape.prod := by
    obtain ⟨e, rfl⟩ : ∃ e, m = e + 1 + stage := ⟨m - 1 - stage, by omega⟩
    rw [hnumel, show e + 1 + stage - 1 - stage = e by omega]
    simp only [List.prod_cons, List.prod_nil, pow_add]
    ring
  have haxis := pair_shape_valid hprod hvalid
  obtain ⟨flip, hflip, hflat⟩ := pairAxis_computes.bind fun axis haxis' =>
    (computes_broadcastTo haxis'
      (.left _ (.same 2 (.left _ .nil)) : Joins _ _ [2 ^ r * 2 ^ (m - 1 - stage), 2, 2 ^ stage])
      (by simp) haxis).bind fun flip hflip =>
        computes_reshape hflip hne hprod.symm hvalid
  refine ⟨flip, ?_, directs_block hne (hflat.congr fun k hk => ?_)⟩
  · rw [directions, if_pos rfl, houter]
    exact hflip
  · obtain ⟨a, b, c, hb, hc, rfl⟩ := exists_row hq k
    have ha : a < 2 ^ r * 2 ^ (m - 1 - stage) := by
      rw [← hprod] at hk
      exact high_lt (by simpa [Nat.mul_assoc] using hk)
    rw [project_pairAxis hb hc ha, alternating, (split_row hc _).1, Nat.mul_add_mod_self_right]
    obtain rfl | rfl : b = 0 ∨ b = 1 := by omega
    · rfl
    · rfl

theorem bitonicMerge_computes {stage : ℕ} (d : Bool) (hx : Flat x shape f)
    (hnumel : shape.prod = 2 ^ r * 2 ^ m) (hne : shape ≠ []) (hstage : stage ≤ m) :
    Computes (bitonicMerge ty x stage (if stage < m then 2 else d.toNat) m) shape
      (merge (key ty) (if stage < m then alternating stage else fun _ => d) stage f) := by
  obtain ⟨flip, hdirections, hflip⟩ : ∃ flip,
      directions x.shape x.numel stage (if stage < m then 2 else d.toNat) m = .ok flip ∧
        Directs flip shape (if stage < m then alternating stage else fun _ => d) := by
    rw [Tensor.numel, hx.shape_eq]
    split
    next hlt => exact directions_alternate hx.valid hnumel hne hlt
    next =>
      refine ⟨scalar (BitVec.ofNat _ d.toNat), ?_, directs_scalar shape hne d⟩
      cases d <;> rfl
  have hrounds := rounds_compute stage hx hnumel hne hflip le_rfl hstage
  rw [Nat.sub_self, ← List.range_eq_range'] at hrounds
  simpa [bitonicMerge, staticAssert, hstage, hdirections, bind, Except.bind] using hrounds

theorem sort_computes (hshape : x.shape = shape) (outer : List ℕ) (houter : shape = outer ++ [2 ^ m])
    (hnumel : shape.prod = 2 ^ r * 2 ^ m) (dim : Option ℕ)
    (hdim : dim = none ∨ dim = some outer.length) (d : Bool) :
    Computes (sort ty x dim d) shape (network (key ty) d m (elements x)) := by
  have hne : shape ≠ [] := by rw [houter]; simp
  have hlast : dim.getD (x.shape.length - 1) = outer.length := by
    rcases hdim with rfl | rfl <;> simp [hshape, houter]
  have hlength : outer.length + 1 = x.shape.length := by rw [hshape, houter]; simp
  have hsize : x.shape.getD outer.length 0 = 2 ^ m := by rw [hshape, houter]; simp [List.getD]
  have hfold : ∀ (l : List ℕ), (∀ i ∈ l, i ≤ m) → ∀ {x : Block ty} {f : ℕ → BitVec ty.bits},
      Flat x shape f →
      Computes (l.foldlM (fun x i => bitonicMerge ty x i (if i < m then 2 else d.toNat) m) x) shape
        (l.foldl (fun f i => merge (key ty) (if i < m then alternating i else fun _ => d) i f) f) := by
    intro l
    induction l with
    | nil => exact fun _ _ _ hx => computes_ok hx
    | cons i l ih =>
      intro hl x f hx
      rw [List.foldlM_cons, List.foldl_cons]
      exact (bitonicMerge_computes d hx hnumel hne (hl i List.mem_cons_self)).bind fun y hy =>
        ih (fun j hj => hl j (List.mem_cons_of_mem _ hj)) hy
  have hrun := hfold (List.range' 1 m) (fun i hi => by rw [List.mem_range'_1] at hi; omega)
    (hshape ▸ flat_elements x)
  rw [sort]
  simp only [hlast, hlength, hsize, log2_two_pow, ne_eq, not_true_eq_false, if_false]
  exact hrun

end Stages

/-- `sort` puts every row in order and only moves its elements. -/
theorem sort_sorts (ty : IntType) (x : Block ty) (outer : List ℕ) (m r : ℕ)
    (hshape : x.shape = outer ++ [2 ^ m]) (hrows : outer.prod = 2 ^ r) (dim : Option ℕ)
    (hdim : dim = none ∨ dim = some outer.length) (descending : Bool) :
    ∃ y, sort ty x dim descending = .ok y ∧ y.shape = x.shape ∧
      ∀ idx, InBounds outer idx →
        (∃ σ : Equiv.Perm (Fin (2 ^ m)), ∀ j : Fin (2 ^ m),
          y.get (idx ++ [j.val]) = x.get (idx ++ [(σ j).val])) ∧
        Sorted descending (2 ^ m) fun j => key ty (y.get (idx ++ [j])) := by
  have hnumel : (outer ++ [2 ^ m]).prod = 2 ^ r * 2 ^ m := by
    rw [List.prod_append, hrows, List.prod_singleton]
  obtain ⟨y, hy, hflat⟩ := sort_computes hshape outer rfl hnumel dim hdim descending
  have hx : Flat x (outer ++ [2 ^ m]) (elements x) := hshape ▸ flat_elements x
  refine ⟨y, hy, hflat.shape_eq.trans hshape.symm, fun idx hidx => ⟨?_, ?_⟩⟩
  · obtain ⟨σ, hσ⟩ := (network_rearranges (key ty) descending m (elements x)).row
      (ravel outer idx)
    refine ⟨σ, fun j => ?_⟩
    rw [hflat.get_row hidx j.isLt, hσ, hx.get_row hidx (σ j).isLt]
  · exact (network_sorted (key ty) descending m (ravel outer idx) (elements x)).congr
      fun j hj => congrArg (key ty) (hflat.get_row hidx hj).symm

theorem sampleBlock_valid : ValidBlockShape [2, 4] := by decide

def sampleBlock : Block .int8 := ⟨[2, 4], sampleBlock_valid, fun idx => BitVec.ofNat _ (37 * ravel [2, 4] idx + 90)⟩

theorem sort_sorts_sample : ∃ y, sort .int8 sampleBlock none true = .ok y ∧ y.shape = [2, 4] ∧
    Sorted true (2 ^ 2) fun j => key .int8 (y.get [1, j]) := by
  obtain ⟨y, hy, hshape, hrows⟩ := sort_sorts .int8 sampleBlock [2] 2 1 rfl rfl none (.inl rfl) true
  exact ⟨y, hy, hshape, (hrows [1] (.cons (by decide) .nil)).2⟩

end TritonCpu.TensorSort
