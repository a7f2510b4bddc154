import TritonCpu.VectorIR

/-!
# Rewriting vector operations

What the operations give on scalars, rows and matrices, and the rewriter that appends
them to a block. An operation may be replaced by appended operations with its value; the
rest of the block then reads the new value and keeps its own.
-/

set_option autoImplicit false

namespace TritonCpu.VectorRewriter
open List
open TritonIR hiding ElementType
open FlatTensor Reassociation VectorIR VectorIR.Block

variable {K α : Type} [Inhabited α]

/-! Scalars, rows and matrices. -/

structure IsScalar (x : Vec α) (e : ElementType) (a : α) : Prop where
  type : x.type = ⟨[], false, e⟩
  get : x.get [] = a

structure IsRow (x : Vec α) (n : ℕ) (e : ElementType) (f : ℕ → α) : Prop where
  type : x.type = ⟨[n], false, e⟩
  get : ∀ i < n, x.get [i] = f i

structure IsMatrix (x : Vec α) (m n : ℕ) (e : ElementType) (f : ℕ → ℕ → α) : Prop where
  type : x.type = ⟨[m, n], false, e⟩
  get : ∀ i < m, ∀ j < n, x.get [i, j] = f i j

section Shapes

variable {m n : ℕ} {e : ElementType} {x y : Vec α} {f g : ℕ → α} {f' g' : ℕ → ℕ → α}
  {F : List ℕ → α}

theorem isScalar_ofFn {a : α} (h : F [] = a) : IsScalar (Vec.ofFn ⟨[], false, e⟩ F) e a :=
  ⟨rfl, @Vec.get_ofFn _ _ ⟨[], false, e⟩ F [] .nil ▸ h⟩

theorem isRow_ofFn (h : ∀ i < n, F [i] = f i) : IsRow (Vec.ofFn ⟨[n], false, e⟩ F) n e f :=
  ⟨rfl, fun i hi => (@Vec.get_ofFn _ _ ⟨[n], false, e⟩ F [i] (.cons hi .nil)).trans (h i hi)⟩

theorem isMatrix_ofFn (h : ∀ i < m, ∀ j < n, F [i, j] = f' i j) :
    IsMatrix (Vec.ofFn ⟨[m, n], false, e⟩ F) m n e f' :=
  ⟨rfl, fun i hi j hj => (@Vec.get_ofFn _ _ ⟨[m, n], false, e⟩ F [i, j]
    (.cons hi (.cons hj .nil))).trans (h i hi j hj)⟩

theorem IsRow.congr (hx : IsRow x n e f) (h : ∀ i < n, f i = g i) : IsRow x n e g :=
  ⟨hx.type, fun i hi => (hx.get i hi).trans (h i hi)⟩

theorem IsMatrix.congr (hx : IsMatrix x m n e f') (h : ∀ i < m, ∀ j < n, f' i j = g' i j) :
    IsMatrix x m n e g' :=
  ⟨hx.type, fun i hi j hj => (hx.get i hi j hj).trans (h i hi j hj)⟩

theorem IsScalar.unique {a : α} (hx : IsScalar x e a) (hy : IsScalar y e a) : x = y := by
  refine Vec.ext_get (hx.type.trans hy.type.symm) fun idx hidx => ?_
  rw [hy.type] at hidx
  cases hidx
  rw [hx.get, hy.get]

theorem IsRow.unique (hx : IsRow x n e f) (hy : IsRow y n e f) : x = y := by
  refine Vec.ext_get (hx.type.trans hy.type.symm) fun idx hidx => ?_
  rw [hy.type] at hidx
  rcases hidx with _ | ⟨hi, hrest⟩
  cases hrest
  rw [hx.get _ hi, hy.get _ hi]

theorem IsMatrix.unique (hx : IsMatrix x m n e f') (hy : IsMatrix y m n e f') : x = y := by
  refine Vec.ext_get (hx.type.trans hy.type.symm) fun idx hidx => ?_
  rw [hy.type] at hidx
  rcases hidx with _ | ⟨hi, hrest⟩
  rcases hrest with _ | ⟨hj, hrest⟩
  cases hrest
  rw [hx.get _ hi _ hj, hy.get _ hi _ hj]

end Shapes

/-! The operations. -/

section Operations

variable {A : Arith K α} {env : ℕ → Vec α} {u v : ℕ} {m n : ℕ} {e : ElementType}
  {f g : ℕ → α} {f' g' : ℕ → ℕ → α} {kind : K}

theorem slice_eval {r c m' n' : ℕ} (h : IsMatrix (env v) m' n' e f') (hr : r + m ≤ m')
    (hc : c + n ≤ n') :
    IsMatrix ((Op.extractStridedSlice v [r, c] [m, n] [1, 1]).eval A env) m n e
      fun i j => f' (r + i) (c + j) := by
  have hresult : ((Op.extractStridedSlice v [r, c] [m, n] [1, 1] : Op K α).resultType
      fun u => (env u).type) = ⟨[m, n], false, e⟩ := by simp [Op.resultType, h.type]
  rw [Op.eval, hresult]
  refine isMatrix_ofFn fun i hi j hj => ?_
  simpa [Op.element] using h.get (r + i) (by omega) (c + j) (by omega)

theorem flatten_eval (h : IsMatrix (env v) m n e f') :
    IsRow ((Op.shapeCast ⟨[m * n], false, e⟩ v).eval A env) (m * n) e
      fun k => f' (k / n) (k % n) := by
  refine isRow_ofFn fun k hk => ?_
  have hn : 0 < n := Nat.pos_of_ne_zero fun hz => by simp [hz] at hk
  simpa [Op.element, h.type, ravel, unravel] using
    h.get (k / n) (Nat.div_lt_of_lt_mul (by rwa [Nat.mul_comm] at hk)) (k % n) (Nat.mod_lt _ hn)

theorem unflatten_eval (h : IsRow (env v) (m * n) e f) :
    IsMatrix ((Op.shapeCast ⟨[m, n], false, e⟩ v).eval A env) m n e fun i j => f (i * n + j) := by
  refine isMatrix_ofFn fun i hi j hj => ?_
  have hrow := Nat.mul_le_mul_right n (Nat.succ_le_of_lt hi)
  rw [Nat.succ_mul] at hrow
  have hlt : i * n + j < m * n := by omega
  simpa [Op.element, h.type, ravel, unravel] using h.get (i * n + j) hlt

theorem shuffle_eval {n' : ℕ} {mask : List ℕ} (hu : IsRow (env u) n e f)
    (hv : IsRow (env v) n' e g) (hmask : ∀ k ∈ mask, k < n + n') :
    IsRow ((Op.shuffle u v mask).eval A env) mask.length e fun i =>
      if mask.getD i 0 < n then f (mask.getD i 0) else g (mask.getD i 0 - n) := by
  have hresult : ((Op.shuffle u v mask : Op K α).resultType fun u => (env u).type) =
      ⟨[mask.length], false, e⟩ := by simp [Op.resultType, hu.type]
  rw [Op.eval, hresult]
  refine isRow_ofFn fun i hi => ?_
  have hmem : mask.getD i 0 ∈ mask := by
    rw [getD_eq_getElem _ _ hi]
    exact getElem_mem hi
  have hlt := hmask _ hmem
  simp only [Op.element, hu.type, dimSize, headD_cons, getD_cons_zero, tail_cons]
  by_cases hk : mask.getD i 0 < n
  · rw [if_pos hk, if_pos hk, hu.get _ hk]
  · rw [if_neg hk, if_neg hk, hv.get _ (by omega)]

theorem arith_eval (hu : IsRow (env u) n e f) (hv : IsRow (env v) n e g) :
    IsRow ((Op.arithReduction kind u v).eval A env) n e fun i => A.combine kind (f i) (g i) := by
  rw [Op.eval, Op.resultType, hu.type]
  refine isRow_ofFn fun i hi => ?_
  simp only [Op.element, hu.get i hi, hv.get i hi]

theorem extractScalar_eval {i : ℕ} (h : IsRow (env v) n e f) (hi : i < n) :
    IsScalar ((Op.extract v [.static i]).eval A env) e (f i) := by
  have hresult : ((Op.extract v [.static i] : Op K α).resultType fun u => (env u).type) =
      ⟨[], false, e⟩ := by simp [Op.resultType, h.type]
  rw [Op.eval, hresult]
  refine isScalar_ofFn ?_
  simpa [Op.element] using h.get i hi

theorem extractRow_eval {i : ℕ} (h : IsMatrix (env v) m n e f') (hi : i < m) :
    IsRow ((Op.extract v [.static i]).eval A env) n e (f' i) := by
  have hresult : ((Op.extract v [.static i] : Op K α).resultType fun u => (env u).type) =
      ⟨[n], false, e⟩ := by simp [Op.resultType, h.type]
  rw [Op.eval, hresult]
  refine isRow_ofFn fun j hj => ?_
  simpa [Op.element] using h.get i hi j hj

theorem reduction_eval {acc : Option ℕ} (h : IsRow (env v) n e f) :
    IsScalar ((Op.reduction kind v acc none).eval A env) e
      (foldElements (A.combine kind) (acc.map fun a => (env a).get []) ((List.range n).map f)) := by
  have hresult : ((Op.reduction kind v acc none : Op K α).resultType fun u => (env u).type) =
      ⟨[], false, e⟩ := by simp [Op.resultType, h.type]
  have hread : ((List.range n).map fun i => (env v).get [i]) = (List.range n).map f :=
    map_congr_left fun i hi => h.get i (mem_range.mp hi)
  rw [Op.eval, hresult]
  refine isScalar_ofFn ?_
  simp [Op.element, h.type, dimSize, hread]

theorem multiReduction_eval {e' : ElementType} (hu : IsMatrix (env u) m n e' f') (hv : IsRow (env v) n e g) :
    IsRow ((Op.multiReduction kind u v none [0]).eval A env) n e fun j =>
      (List.range m).foldl (fun acc i => A.combine kind acc (f' i j)) (g j) := by
  rw [Op.eval, Op.resultType, hv.type]
  refine isRow_ofFn fun j hj => ?_
  have hpositions : positions [m] = (List.range m).map fun i => [i] := by
    simp [positions, unravel]
  have hdims : (((List.range 2).filter fun d => d ∈ [0]).map (dimSize [m, n])) = [m] := by
    simp [range_succ, dimSize]
  have hflags : ((List.range 2).map fun d => decide (d ∈ [0])) = [true, false] := rfl
  simp only [Op.element, hu.type, length_cons, length_nil, Option.all_none,
    filter_true]
  rw [hdims, hflags, hpositions, foldl_map, hv.get j hj]
  refine foldl_ext _ _ _ fun acc i hi => ?_
  have hmerge : mergeIndex [true, false] [j] [i] = [i, j] := rfl
  rw [hmerge, hu.get i (mem_range.mp hi) j hj]

theorem insert_eval {a : α} {i : ℕ} {e' : ElementType} (hu : IsScalar (env u) e' a) (hv : IsRow (env v) n e g) :
    IsRow ((Op.insert u v i).eval A env) n e fun j => if j = i then a else g j := by
  rw [Op.eval, Op.resultType, hv.type]
  refine isRow_ofFn fun j hj => ?_
  by_cases hji : j = i <;> simp [Op.element, hji, hu.get, ← hv.get j hj]

theorem transpose_eval (h : IsMatrix (env v) m n e f') :
    IsMatrix ((Op.transpose v [1, 0]).eval A env) n m e fun j i => f' i j := by
  have hresult : ((Op.transpose v [1, 0] : Op K α).resultType fun u => (env u).type) =
      ⟨[n, m], false, e⟩ := by simp [Op.resultType, h.type, dimSize]
  rw [Op.eval, hresult]
  refine isMatrix_ofFn fun j hj i hi => ?_
  simpa [Op.element, range_succ, idxOf_cons] using h.get i hi j hj

theorem constant_eval (A : Arith K α) (env : ℕ → Vec α) (m n : ℕ) (e : ElementType) :
    IsMatrix ((Op.constant ⟨[m, n], false, e⟩).eval A env) m n e fun _ _ => A.zero :=
  isMatrix_ofFn fun _ _ _ _ => rfl

theorem insertSlice_eval {r c m' n' : ℕ} (hu : IsMatrix (env u) m n e f')
    (hv : IsMatrix (env v) m' n' e g') :
    IsMatrix ((Op.insertStridedSlice u v [r, c] [1, 1]).eval A env) m' n' e fun i j =>
      if (r ≤ i ∧ i < r + m) ∧ c ≤ j ∧ j < c + n then f' (i - r) (j - c) else g' i j := by
  rw [Op.eval, Op.resultType, hv.type]
  refine isMatrix_ofFn fun i hi j hj => ?_
  simp only [Op.element, insideSlice, hu.type, zip_cons_cons, zip_nil_left,
    zipWith_cons_cons, zipWith_nil_left, all_cons, all_nil, id, Bool.and_true,
    Bool.and_eq_true, decide_eq_true_iff]
  split_ifs with hin
  · exact hu.get _ (by omega) _ (by omega)
  · exact hv.get i hi j hj

theorem interleave_eval (hu : IsRow (env u) n e f) (hv : IsRow (env v) n e g) :
    IsRow ((Op.interleave u v).eval A env) (2 * n) e fun i =>
      if i % 2 = 0 then f (i / 2) else g (i / 2) := by
  have hresult : ((Op.interleave u v : Op K α).resultType fun u => (env u).type) =
      ⟨[2 * n], false, e⟩ := by simp [Op.resultType, hu.type]
  rw [Op.eval, hresult]
  refine isRow_ofFn fun i hi => ?_
  by_cases hi2 : i % 2 = 0
  · simpa [Op.element, hi2] using hu.get (i / 2) (by omega)
  · simpa [Op.element, hi2] using hv.get (i / 2) (by omega)

theorem deinterleaveRes1_eval (h : IsRow (env v) (2 * n) e f) :
    IsRow ((Op.deinterleaveRes1 v).eval A env) n e fun i => f (2 * i) := by
  have hresult : ((Op.deinterleaveRes1 v : Op K α).resultType fun u => (env u).type) =
      ⟨[n], false, e⟩ := by simp [Op.resultType, h.type]
  rw [Op.eval, hresult]
  refine isRow_ofFn fun i hi => ?_
  simpa [Op.element] using h.get (2 * i) (by omega)

theorem deinterleaveRes2_eval (h : IsRow (env v) (2 * n) e f) :
    IsRow ((Op.deinterleaveRes2 v).eval A env) n e fun i => f (2 * i + 1) := by
  have hresult : ((Op.deinterleaveRes2 v : Op K α).resultType fun u => (env u).type) =
      ⟨[n], false, e⟩ := by simp [Op.resultType, h.type]
  rw [Op.eval, hresult]
  refine isRow_ofFn fun i hi => ?_
  simpa [Op.element] using h.get (2 * i + 1) (by omega)

end Operations

/-! The rewriter. -/

/-- The block up to the insertion point, and the next number. -/
structure Rewriter (K α : Type) where
  next : ℕ
  defs : Block K α

def Rewriter.create (rw : Rewriter K α) (op : Op K α) : Rewriter K α × ℕ :=
  (⟨rw.next + 1, rw.defs ++ [(rw.next, op)]⟩, rw.next)

def cost (weight : Block K α → Op K α → ℕ) : Block K α → Block K α → ℕ
  | _, [] => 0
  | front, d :: defs => weight front d.2 + cost weight (front ++ [d]) defs

structure Ready (rw : Rewriter K α) : Prop where
  dominance : Scoped rw.defs
  fresh : ∀ u ∈ ids rw.defs, u < rw.next

/-- Operations are appended under new numbers, and have the given weight. -/
structure Extends (weight : Block K α → Op K α → ℕ) (rw rw' : Rewriter K α) (n : ℕ) : Prop where
  ready : Ready rw'
  created : ∃ created, rw'.defs = rw.defs ++ created ∧ (∀ u ∈ ids created, rw.next ≤ u) ∧
    cost weight rw.defs created = n
  next : rw.next ≤ rw'.next

def Holds (A : Arith K α) (rw : Rewriter K α) (v : ℕ) (P : Vec α → Prop) : Prop :=
  v ∈ ids rw.defs ∧ P (run A rw.defs v)

section Rewriter

variable {A : Arith K α} {weight : Block K α → Op K α → ℕ} {rw rw' rw'' : Rewriter K α} {m n v : ℕ}
  {op : Op K α} {P : Vec α → Prop} {front defs defs' : Block K α}

omit [Inhabited α] in
theorem cost_append (weight : Block K α → Op K α → ℕ) (front defs defs' : Block K α) :
    cost weight front (defs ++ defs') =
      cost weight front defs + cost weight (front ++ defs) defs' := by
  induction defs generalizing front with
  | nil => simp [cost]
  | cons d defs ih =>
    rw [cons_append, cost, ih, cost, append_assoc, Nat.add_assoc]
    rfl

omit [Inhabited α] in
theorem Extends.refl (h : Ready rw) : Extends weight rw rw 0 :=
  ⟨h, ⟨[], (append_nil _).symm, fun _ hu => absurd hu not_mem_nil, rfl⟩, le_rfl⟩

omit [Inhabited α] in
theorem Extends.trans (h : Extends weight rw rw' m) (h' : Extends weight rw' rw'' n) :
    Extends weight rw rw'' (m + n) := by
  obtain ⟨created, heq, hnew, hcost⟩ := h.created
  obtain ⟨created', heq', hnew', hcost'⟩ := h'.created
  refine ⟨h'.ready, ⟨created ++ created', by rw [heq', heq, append_assoc], fun u hu => ?_, ?_⟩,
    h.next.trans h'.next⟩
  · rw [ids_append] at hu
    rcases mem_append.mp hu with hu | hu
    · exact hnew u hu
    · exact h.next.trans (hnew' u hu)
  · rw [cost_append, hcost, ← heq, hcost']

omit [Inhabited α] in
theorem Extends.mem (h : Extends weight rw rw' n) (hv : v ∈ ids rw.defs) : v ∈ ids rw'.defs := by
  obtain ⟨created, heq, -⟩ := h.created
  rw [heq, ids_append]
  exact mem_append_left _ hv

theorem Extends.run_eq (h : Extends weight rw rw' n) (hrw : Ready rw) (hv : v ∈ ids rw.defs) :
    run A rw'.defs v = run A rw.defs v := by
  obtain ⟨created, heq, hnew, -⟩ := h.created
  rw [heq]
  refine run_append fun hmem => ?_
  exact absurd (hnew v hmem) (not_le.mpr (hrw.fresh v hv))

theorem Holds.extend (h : Holds A rw v P) (hrw : Ready rw) (he : Extends weight rw rw' n) :
    Holds A rw' v P := ⟨he.mem h.1, by rw [he.run_eq hrw h.1]; exact h.2⟩

omit [Inhabited α] in
theorem getDefiningOp_append (hv : v ∈ ids defs) :
    getDefiningOp (defs ++ defs') v = getDefiningOp defs v := by
  obtain ⟨op, hop⟩ := exists_of_mem_ids hv
  have hsome : (defs.find? fun d => d.1 = v).isSome = true :=
    List.find?_isSome.mpr ⟨_, hop, by simp⟩
  obtain ⟨d, hd⟩ := Option.isSome_iff_exists.mp hsome
  rw [Block.getDefiningOp, Block.getDefiningOp, List.find?_append, hd]
  rfl

omit [Inhabited α] in
theorem Extends.getDefiningOp (h : Extends weight rw rw' n) (hv : v ∈ ids rw.defs) :
    getDefiningOp rw'.defs v = getDefiningOp rw.defs v := by
  obtain ⟨created, heq, -⟩ := h.created
  rw [heq, getDefiningOp_append hv]

omit [Inhabited α] in
theorem create_extends (h : Ready rw) (hop : ∀ u ∈ op.operands, u ∈ ids rw.defs) :
    Extends weight rw (rw.create op).1 (weight rw.defs op) := by
  have hnew : rw.next ∉ ids rw.defs := fun hmem => lt_irrefl _ (h.fresh _ hmem)
  refine ⟨⟨h.dominance.snoc hnew hop, fun u hu => ?_⟩, ⟨[(rw.next, op)], rfl, ?_, ?_⟩, Nat.le_succ _⟩
  · rw [Rewriter.create, ids_append] at hu
    rcases mem_append.mp hu with hu | hu
    · exact (h.fresh u hu).trans (Nat.lt_succ_self _)
    · rw [mem_singleton.mp hu]
      exact Nat.lt_succ_self _
  · exact fun u hu => (mem_singleton.mp hu).ge
  · rw [cost, cost, Nat.add_zero]

theorem create_holds (hP : P (op.eval A (run A rw.defs))) :
    Holds A (rw.create op).1 (rw.create op).2 P := by
  refine ⟨by simp [Rewriter.create, ids], ?_⟩
  have hrun : run A (rw.create op).1.defs (rw.create op).2 = op.eval A (run A rw.defs) := by
    rw [Rewriter.create, run_concat]
    exact Function.update_self _ _ _
  rwa [hrun]

omit [Inhabited α] in
theorem create_getDefiningOp (h : Ready rw) :
    getDefiningOp (rw.create op).1.defs (rw.create op).2 = some op := by
  have hnone : (rw.defs.find? fun d => d.1 = rw.next) = none :=
    List.find?_eq_none.mpr fun d hd => by
      have hlt := h.fresh d.1 (mem_map_of_mem hd)
      simpa using hlt.ne
  rw [getDefiningOp, Rewriter.create, List.find?_append, hnone]
  simp

end Rewriter

/-! Replacing an operation. -/

section Replace

/-- The uses of `old` become uses of `new`. -/
def redirect (old new u : ℕ) : ℕ := if u = old then new else u

variable {A : Arith K α} {weight : Block K α → Op K α → ℕ} {rw : Rewriter K α} {n id new : ℕ}
  {op : Op K α} {front back : Block K α}

omit [Inhabited α] in
theorem operands_rename (op : Op K α) (σ : ℕ → ℕ) : (op.rename σ).operands = op.operands.map σ := by
  cases op with
  | multiReduction kind source acc mask dims =>
    cases mask <;> simp [Op.rename, Op.operands]
  | reduction kind vector acc mask =>
    cases acc <;> cases mask <;> simp [Op.rename, Op.operands]
  | extract vector position =>
    have hposition : (position.map (Position.rename σ)).flatMap Position.operands =
        (position.flatMap Position.operands).map σ := by
      induction position with
      | nil => rfl
      | cons p position ih =>
        rw [map_cons, flatMap_cons, flatMap_cons, map_append, ih]
        cases p <;> rfl
    simp [Op.rename, Op.operands, hposition]
  | _ => simp [Op.rename, Op.operands]

theorem replace_spec (hscoped : Scoped (front ++ (id, op) :: back))
    (hfresh : ∀ u ∈ ids (front ++ (id, op) :: back), u < n)
    {k : ℕ} (he : Extends weight ⟨n, front⟩ rw k)
    (hnew : Holds A rw new fun x => x = op.eval A (run A front)) :
    Scoped (rw.defs ++ Block.rename (redirect id new) back) ∧
      ∀ u ∈ ids (front ++ (id, op) :: back),
        redirect id new u ∈ ids (rw.defs ++ Block.rename (redirect id new) back) ∧
        run A (rw.defs ++ Block.rename (redirect id new) back) (redirect id new u) =
          run A (front ++ (id, op) :: back) u := by
  have hready : Ready (⟨n, front⟩ : Rewriter K α) :=
    ⟨hscoped.left, fun u hu => hfresh u (by rw [ids_append]; exact mem_append_left _ hu)⟩
  obtain ⟨created, hdefs, hcreated, -⟩ := he.created
  induction back using List.reverseRecOn with
  | nil =>
    obtain ⟨hid, -⟩ := hscoped front (id, op) [] rfl
    rw [Block.rename, map_nil, append_nil]
    refine ⟨he.ready.dominance, fun u hu => ?_⟩
    rw [run_concat]
    by_cases huid : u = id
    · rw [huid, redirect, if_pos rfl]
      refine ⟨hnew.1, hnew.2.trans ?_⟩
      rw [Function.update_self]
    · rw [redirect, if_neg huid, Function.update_of_ne huid]
      rw [ids_append] at hu
      have hfront := (mem_append.mp hu).resolve_right
        fun hmem => huid (mem_singleton.mp hmem)
      exact ⟨he.mem hfront, he.run_eq hready hfront⟩
  | append_singleton back d ih =>
    rw [← cons_append, ← append_assoc] at hscoped hfresh
    obtain ⟨hscoped', hvalues⟩ := ih hscoped.left
      fun u hu => hfresh u (by rw [ids_append]; exact mem_append_left _ hu)
    obtain ⟨hd, hoperands⟩ := hscoped (front ++ (id, op) :: back) d [] rfl
    have hdnew : d.1 ∉ ids (rw.defs ++ Block.rename (redirect id new) back) := by
      rw [ids_append, hdefs, ids_append, mem_append, mem_append, not_or, not_or]
      rw [ids_append, mem_append, not_or] at hd
      refine ⟨⟨hd.1, fun hmem => ?_⟩, fun hmem => hd.2 ?_⟩
      · have hlt := hfresh d.1 (by simp [ids])
        exact absurd (hcreated _ hmem) (not_le.mpr hlt)
      · rw [ids, Block.rename, map_map] at hmem
        exact mem_cons_of_mem _ hmem
    have hrename : Block.rename (redirect id new) (back ++ [d]) =
        Block.rename (redirect id new) back ++ [(d.1, d.2.rename (redirect id new))] :=
      map_append
    rw [hrename, ← append_assoc, ← cons_append, ← append_assoc]
    refine ⟨hscoped'.snoc hdnew fun u hu => ?_, fun u hu => ?_⟩
    · rw [operands_rename] at hu
      obtain ⟨w, hw, rfl⟩ := mem_map.mp hu
      exact (hvalues w (hoperands w hw)).1
    · rw [ids_append] at hu ⊢
      rw [run_concat, run_concat]
      rcases mem_append.mp hu with hu | hu
      · obtain ⟨hmem, hvalue⟩ := hvalues u hu
        refine ⟨mem_append_left _ hmem, ?_⟩
        have hne : redirect id new u ≠ d.1 := fun heq => hdnew (by rw [← heq]; exact hmem)
        have hne' : u ≠ d.1 := fun heq => hd (by rw [← heq]; exact hu)
        rw [Function.update_of_ne hne, Function.update_of_ne hne', hvalue]
      · obtain rfl := mem_singleton.mp hu
        have hne : d.1 ≠ id := fun heq => hd (by rw [heq]; simp [ids])
        rw [redirect, if_neg hne]
        refine ⟨mem_append_right _ (mem_singleton.mpr rfl), ?_⟩
        rw [Function.update_self, Function.update_self]
        exact eval_rename fun u hu => (hvalues u (hoperands u hu)).2.symm

end Replace

end TritonCpu.VectorRewriter
