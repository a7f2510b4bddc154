import TritonCpu.Reassociation

/-!
# Vector operations

A block is a list of definitions; an operation reads the values defined before it.
Each value is a vector with its type, a scalar has rank zero. A rewriter appends
operations to a block under fresh numbers.
-/

set_option autoImplicit false

namespace TritonCpu.VectorIR
open TritonIR FlatTensor Reassociation List

/-! Types and values. -/

inductive ElementType where
  | intOrFloat (bits : ℕ)
  | index
  deriving DecidableEq

structure VectorType where
  shape : List ℕ
  scalable : Bool
  elementType : ElementType
  deriving DecidableEq

/-- The elements in row-major order. -/
structure Vec (α : Type) where
  type : VectorType
  elements : List α
  length_elements : elements.length = type.shape.prod

namespace Vec

variable {α : Type}

def ofFn (type : VectorType) (f : List ℕ → α) : Vec α where
  type
  elements := (List.range type.shape.prod).map fun k => f (unravel type.shape k)
  length_elements := by simp

instance : Inhabited (Vec α) := ⟨⟨⟨[0], false, .index⟩, [], rfl⟩⟩

@[simp]
theorem type_ofFn (type : VectorType) (f : List ℕ → α) : (ofFn type f).type = type := rfl

variable [Inhabited α]

def get (v : Vec α) (idx : List ℕ) : α := v.elements.getD (ravel v.type.shape idx) default

theorem get_ofFn {type : VectorType} {f : List ℕ → α} {idx : List ℕ}
    (h : InBounds type.shape idx) : (ofFn type f).get idx = f idx := by
  have hlt := ravel_lt h
  rw [get, ofFn, getD_eq_getElem _ _ (by simpa using hlt), getElem_map,
    getElem_range, unravel_ravel h]

theorem ext_get {v w : Vec α} (htype : v.type = w.type)
    (h : ∀ idx, InBounds w.type.shape idx → v.get idx = w.get idx) : v = w := by
  have helements : v.elements = w.elements := by
    refine ext_getElem (by rw [v.length_elements, w.length_elements, htype])
      fun k hv hw => ?_
    have hk : k < w.type.shape.prod := w.length_elements ▸ hw
    have hget := h _ (unravel_inBounds _ k hk)
    rwa [get, get, htype, ravel_unravel _ _ hk, getD_eq_getElem _ _ hv,
      getD_eq_getElem _ _ hw] at hget
  cases v
  cases w
  cases htype
  cases helements
  rfl

end Vec

/-! Operations. -/

/-- An entry of a position; `hasDynamicPosition` looks for a value. -/
inductive Position where
  | static (i : ℤ)
  | dynamic (value : ℕ)

/-- The operands are the numbers of values. `other` is any other operation, or an argument
of the block. -/
inductive Op (K α : Type) where
  | other (type : VectorType) (operands : List ℕ) (f : List (Vec α) → List ℕ → α)
  | multiReduction (kind : K) (source acc : ℕ) (mask : Option ℕ) (reductionDims : List ℕ)
  | reduction (kind : K) (vector : ℕ) (acc mask : Option ℕ)
  | extract (vector : ℕ) (position : List Position)
  | transpose (vector : ℕ) (permutation : List ℕ)
  | extractStridedSlice (vector : ℕ) (offsets sizes strides : List ℕ)
  | shapeCast (type : VectorType) (source : ℕ)
  | shuffle (v1 v2 : ℕ) (mask : List ℕ)
  | arithReduction (kind : K) (v1 acc : ℕ)
  | insert (value dest position : ℕ)
  | constant (type : VectorType)
  | insertStridedSlice (value dest : ℕ) (offsets strides : List ℕ)
  | interleave (lhs rhs : ℕ)
  | deinterleaveRes1 (source : ℕ)
  | deinterleaveRes2 (source : ℕ)

/-- The arithmetic of the elements. -/
structure Arith (K α : Type) where
  combine : K → α → α → α
  zero : α
  isTrue : α → Bool
  toIndex : α → ℕ

def Position.operands : Position → List ℕ
  | .static _ => []
  | .dynamic value => [value]

def Position.rename (σ : ℕ → ℕ) : Position → Position
  | .static i => .static i
  | .dynamic value => .dynamic (σ value)

/-- A fold that starts with the accumulator, or with the first element. -/
def foldElements {α : Type} [Inhabited α] (f : α → α → α) : Option α → List α → α
  | some acc, l => l.foldl f acc
  | none, x :: l => l.foldl f x
  | none, [] => default

def insideSlice (shape offsets idx : List ℕ) : Bool :=
  (List.zipWith (fun size (entry : ℕ × ℕ) => entry.1 ≤ entry.2 && entry.2 < entry.1 + size)
    shape (offsets.zip idx)).all id

namespace Op

variable {K α : Type}

def operands : Op K α → List ℕ
  | other _ operands _ => operands
  | multiReduction _ source acc mask _ => source :: acc :: mask.toList
  | reduction _ vector acc mask => vector :: (acc.toList ++ mask.toList)
  | extract vector position => vector :: position.flatMap Position.operands
  | transpose vector _ | extractStridedSlice vector _ _ _ => [vector]
  | shapeCast _ source | deinterleaveRes1 source | deinterleaveRes2 source => [source]
  | shuffle v1 v2 _ => [v1, v2]
  | arithReduction _ v1 acc => [v1, acc]
  | insert value dest _ | insertStridedSlice value dest _ _ => [value, dest]
  | constant _ => []
  | interleave lhs rhs => [lhs, rhs]

def rename (σ : ℕ → ℕ) : Op K α → Op K α
  | other type operands f => other type (operands.map σ) f
  | multiReduction kind source acc mask dims =>
    multiReduction kind (σ source) (σ acc) (mask.map σ) dims
  | reduction kind vector acc mask => reduction kind (σ vector) (acc.map σ) (mask.map σ)
  | extract vector position => extract (σ vector) (position.map (Position.rename σ))
  | transpose vector permutation => transpose (σ vector) permutation
  | extractStridedSlice vector offsets sizes strides =>
    extractStridedSlice (σ vector) offsets sizes strides
  | shapeCast type source => shapeCast type (σ source)
  | shuffle v1 v2 mask => shuffle (σ v1) (σ v2) mask
  | arithReduction kind v1 acc => arithReduction kind (σ v1) (σ acc)
  | insert value dest position => insert (σ value) (σ dest) position
  | constant type => constant type
  | insertStridedSlice value dest offsets strides =>
    insertStridedSlice (σ value) (σ dest) offsets strides
  | interleave lhs rhs => interleave (σ lhs) (σ rhs)
  | deinterleaveRes1 source => deinterleaveRes1 (σ source)
  | deinterleaveRes2 source => deinterleaveRes2 (σ source)

def resultType (types : ℕ → VectorType) : Op K α → VectorType
  | other type _ _ | shapeCast type _ | constant type => type
  | multiReduction _ _ acc _ _ => types acc
  | reduction _ vector _ _ => { types vector with shape := [] }
  | extract vector position =>
    { types vector with shape := (types vector).shape.drop position.length }
  | transpose vector permutation =>
    { types vector with shape := permutation.map (dimSize (types vector).shape) }
  | extractStridedSlice vector _ sizes _ =>
    { types vector with shape := sizes ++ (types vector).shape.drop sizes.length }
  | shuffle v1 _ mask => { types v1 with shape := mask.length :: (types v1).shape.tail }
  | arithReduction _ v1 _ => types v1
  | insert _ dest _ | insertStridedSlice _ dest _ _ => types dest
  | interleave lhs _ =>
    { types lhs with shape := (types lhs).shape.dropLast ++ [2 * (types lhs).shape.getLastD 0] }
  | deinterleaveRes1 source | deinterleaveRes2 source =>
    { types source with
      shape := (types source).shape.dropLast ++ [(types source).shape.getLastD 0 / 2] }

variable [Inhabited α]

def element (A : Arith K α) (env : ℕ → Vec α) : Op K α → List ℕ → α
  | other _ operands f => fun idx => f (operands.map env) idx
  | multiReduction kind source acc mask dims => fun idx =>
    let shape := (env source).type.shape
    let flags := (List.range shape.length).map fun d => decide (d ∈ dims)
    ((positions (((List.range shape.length).filter fun d => d ∈ dims).map (dimSize shape))).filter
      fun reduced => mask.all fun m => A.isTrue ((env m).get (mergeIndex flags idx reduced))).foldl
        (fun acc reduced => A.combine kind acc ((env source).get (mergeIndex flags idx reduced)))
        ((env acc).get idx)
  | reduction kind vector acc mask => fun _ =>
    foldElements (A.combine kind) (acc.map fun a => (env a).get [])
      (((List.range (dimSize (env vector).type.shape 0)).filter
        fun i => mask.all fun m => A.isTrue ((env m).get [i])).map fun i => (env vector).get [i])
  | extract vector position => fun idx =>
    (env vector).get ((position.map fun
      | .static i => i.toNat
      | .dynamic value => A.toIndex ((env value).get [])) ++ idx)
  | transpose vector permutation => fun idx =>
    (env vector).get ((List.range permutation.length).map fun d => idx.getD (permutation.idxOf d) 0)
  | extractStridedSlice vector offsets _ strides => fun idx =>
    (env vector).get (idx.zipIdx.map fun i => offsets.getD i.2 0 + i.1 * strides.getD i.2 1)
  | shapeCast type source => fun idx =>
    (env source).get (unravel (env source).type.shape (ravel type.shape idx))
  | shuffle v1 v2 mask => fun idx =>
    let i := mask.getD (idx.headD 0) 0
    if i < dimSize (env v1).type.shape 0 then (env v1).get (i :: idx.tail)
    else (env v2).get ((i - dimSize (env v1).type.shape 0) :: idx.tail)
  | arithReduction kind v1 acc => fun idx => A.combine kind ((env v1).get idx) ((env acc).get idx)
  | insert value dest position => fun idx =>
    if idx.head? = some position then (env value).get idx.tail else (env dest).get idx
  | constant _ => fun _ => A.zero
  | insertStridedSlice value dest offsets _ => fun idx =>
    if insideSlice (env value).type.shape offsets idx then
      (env value).get (List.zipWith (· - ·) idx offsets)
    else (env dest).get idx
  | interleave lhs rhs => fun idx =>
    (if idx.getLastD 0 % 2 = 0 then env lhs else env rhs).get
      (idx.dropLast ++ [idx.getLastD 0 / 2])
  | deinterleaveRes1 source => fun idx => (env source).get (idx.dropLast ++ [2 * idx.getLastD 0])
  | deinterleaveRes2 source => fun idx => (env source).get (idx.dropLast ++ [2 * idx.getLastD 0 + 1])

def eval (A : Arith K α) (op : Op K α) (env : ℕ → Vec α) : Vec α :=
  .ofFn (op.resultType fun u => (env u).type) (op.element A env)

end Op

/-! Blocks. -/

variable {K α : Type}

abbrev Block (K α : Type) := List (ℕ × Op K α)

namespace Block

def ids (defs : Block K α) : List ℕ := defs.map Prod.fst

def freshId (defs : Block K α) : ℕ :=
  (defs.map fun d => (d.1 :: d.2.operands).foldl max 0).foldl max 0 + 1

def getDefiningOp (defs : Block K α) (v : ℕ) : Option (Op K α) :=
  (defs.find? fun d => d.1 = v).map Prod.snd

/-- The definitions are different, and each operand is defined before. -/
def Scoped (defs : Block K α) : Prop :=
  ∀ front d back, defs = front ++ d :: back → d.1 ∉ ids front ∧ ∀ u ∈ d.2.operands, u ∈ ids front

def rename (σ : ℕ → ℕ) (defs : Block K α) : Block K α := defs.map fun d => (d.1, d.2.rename σ)

def types (defs : Block K α) : ℕ → VectorType :=
  defs.foldl (fun types d => Function.update types d.1 (d.2.resultType types))
    fun _ => ⟨[0], false, .index⟩

variable [Inhabited α]

def runFrom (A : Arith K α) (env : ℕ → Vec α) (defs : Block K α) : ℕ → Vec α :=
  defs.foldl (fun env d => Function.update env d.1 (d.2.eval A env)) env

def run (A : Arith K α) (defs : Block K α) : ℕ → Vec α := runFrom A (fun _ => default) defs

end Block

/-! Evaluation by the operands. -/

theorem Op.rename_id (op : Op K α) : op.rename id = op := by
  cases op with
  | extract vector position =>
    have hposition : position.map (Position.rename id) = position :=
      (map_congr_left fun p _ => by cases p <;> rfl).trans (map_id _)
    simp [Op.rename, hposition]
  | _ => simp [Op.rename]

section Eval

variable [Inhabited α] {A : Arith K α} {op : Op K α} {env env' : ℕ → Vec α} {σ : ℕ → ℕ}

theorem eval_rename (h : ∀ u ∈ op.operands, env u = env' (σ u)) :
    (op.rename σ).eval A env' = op.eval A env := by
  cases op with
  | other type operands f =>
    have hmap : (operands.map σ).map env' = operands.map env := by
      rw [map_map]
      exact map_congr_left fun u hu => (h u hu).symm
    simp only [Op.eval, Op.rename, Op.resultType, Op.element, hmap]
  | multiReduction kind source acc mask dims =>
    have hsource := h source (by simp [Op.operands])
    have hacc := h acc (by simp [Op.operands])
    cases mask with
    | none => simp only [Op.eval, Op.rename, Op.resultType, Op.element, hsource, hacc,
        Option.map_none, Option.all_none]
    | some m =>
      have hm := h m (by simp [Op.operands])
      simp only [Op.eval, Op.rename, Op.resultType, Op.element, hsource, hacc, hm,
        Option.map_some, Option.all_some]
  | reduction kind vector acc mask =>
    have hvector := h vector (by simp [Op.operands])
    have hacc : (acc.map σ).map (fun a => (env' a).get []) = acc.map fun a => (env a).get [] := by
      rw [Option.map_map]
      exact Option.map_congr fun a ha => by
        rw [h a (by simp [Op.operands, Option.mem_toList.mpr ha]), Function.comp_apply]
    cases mask with
    | none => simp only [Op.eval, Op.rename, Op.resultType, Op.element, hvector, hacc,
        Option.map_none, Option.all_none]
    | some m =>
      have hm := h m (by simp [Op.operands])
      simp only [Op.eval, Op.rename, Op.resultType, Op.element, hvector, hacc, hm,
        Option.map_some, Option.all_some]
  | extract vector position =>
    have hvector := h vector (by simp [Op.operands])
    simp only [Op.eval, Op.rename, Op.resultType, Op.element, hvector, length_map,
      map_map]
    refine congrArg (Vec.ofFn _) (funext fun idx => congrArg (fun l => Vec.get _ (l ++ idx)) ?_)
    refine map_congr_left fun p hp => ?_
    cases p with
    | static i => rfl
    | dynamic value =>
      have hvalue := h value (mem_cons_of_mem _ (mem_flatMap.mpr ⟨_, hp, by
        simp [Position.operands]⟩))
      simp [Position.rename, hvalue]
  | transpose _ _ | extractStridedSlice _ _ _ _ | shapeCast _ _ | deinterleaveRes1 _
  | deinterleaveRes2 _ | constant _ =>
    simp_all [Op.eval, Op.rename, Op.resultType, Op.element, Op.operands]
  | shuffle _ _ _ | arithReduction _ _ _ | insert _ _ _ | insertStridedSlice _ _ _ _
  | interleave _ _ =>
    simp_all [Op.eval, Op.rename, Op.resultType, Op.element, Op.operands]

theorem eval_congr (h : ∀ u ∈ op.operands, env u = env' u) : op.eval A env' = op.eval A env := by
  have hrename := @eval_rename K α _ A op env env' id h
  rwa [Op.rename_id] at hrename

end Eval

/-! Values of a block. -/

namespace Block

section Values

variable {defs front back : Block K α} {d : ℕ × Op K α} {v : ℕ} {op : Op K α}

theorem ids_append (defs defs' : Block K α) : ids (defs ++ defs') = ids defs ++ ids defs' :=
  map_append

theorem exists_of_mem_ids (h : v ∈ ids defs) : ∃ op, (v, op) ∈ defs := by
  obtain ⟨⟨_, op⟩, hmem, rfl⟩ := mem_map.mp h
  exact ⟨op, hmem⟩

theorem mem_of_getDefiningOp (h : getDefiningOp defs v = some op) : (v, op) ∈ defs := by
  obtain ⟨⟨v', op'⟩, hfind, rfl⟩ := Option.map_eq_some_iff.mp h
  have hv := List.find?_some hfind
  rw [decide_eq_true_iff] at hv
  exact hv ▸ mem_of_find?_eq_some hfind

theorem Scoped.left (h : Scoped (front ++ back)) : Scoped front := by
  rintro a d b rfl
  exact h a d (b ++ back) (by simp)

theorem Scoped.mem (h : Scoped defs) (hd : (v, op) ∈ defs) :
    ∃ front back, defs = front ++ (v, op) :: back ∧ v ∉ ids front ∧ v ∉ ids back ∧
      (∀ u ∈ op.operands, u ∈ ids front) ∧ ∀ u ∈ op.operands, u ∉ ids back := by
  obtain ⟨front, back, rfl⟩ := append_of_mem hd
  obtain ⟨hnew, hoperands⟩ := h front (v, op) back rfl
  have hback : ∀ u ∈ v :: ids front, u ∉ ids back := by
    intro u hu hmem
    obtain ⟨op', hop'⟩ := exists_of_mem_ids hmem
    obtain ⟨a, b, rfl⟩ := append_of_mem hop'
    refine (h (front ++ (v, op) :: a) (u, op') b (by simp)).1 ?_
    rw [ids_append]
    rcases mem_cons.mp hu with rfl | hu
    · exact mem_append_right _ mem_cons_self
    · exact mem_append_left _ hu
  exact ⟨front, back, rfl, hnew, hback v mem_cons_self, hoperands,
    fun u hu => hback u (mem_cons_of_mem _ (hoperands u hu))⟩

theorem Scoped.notMem (h : Scoped (front ++ (v, op) :: back)) : v ∉ ids back := by
  intro hmem
  obtain ⟨op', hop'⟩ := exists_of_mem_ids hmem
  obtain ⟨a, b, rfl⟩ := append_of_mem hop'
  refine (h (front ++ (v, op) :: a) (v, op') b (by simp)).1 ?_
  rw [ids_append]
  exact mem_append_right _ mem_cons_self

theorem Scoped.getDefiningOp (h : Scoped defs) (hd : (v, op) ∈ defs) :
    getDefiningOp defs v = some op := by
  obtain ⟨a, b, rfl, hv, -⟩ := h.mem hd
  have hnone : (a.find? fun d => d.1 = v) = none :=
    List.find?_eq_none.mpr fun d hd' => by
      have hne : d.1 ≠ v := fun heq => hv (heq ▸ mem_map_of_mem hd')
      simpa using hne
  rw [Block.getDefiningOp, List.find?_append, hnone]
  simp

theorem Scoped.snoc (h : Scoped defs) (hnew : d.1 ∉ ids defs)
    (hoperands : ∀ u ∈ d.2.operands, u ∈ ids defs) : Scoped (defs ++ [d]) := by
  intro front d' back hsplit
  rcases eq_nil_or_concat back with rfl | ⟨back, last, rfl⟩
  · obtain ⟨rfl, hd⟩ := append_inj' hsplit rfl
    obtain rfl := (List.cons.inj hd).1
    exact ⟨hnew, hoperands⟩
  · rw [concat_eq_append, ← cons_append, ← append_assoc] at hsplit
    exact h front d' back (append_inj' hsplit rfl).1

theorem le_foldl_max (l : List ℕ) (a : ℕ) : a ≤ l.foldl max a ∧ ∀ x ∈ l, x ≤ l.foldl max a := by
  induction l generalizing a with
  | nil => simp
  | cons y l ih =>
    obtain ⟨hle, hall⟩ := ih (max a y)
    refine ⟨(le_max_left a y).trans hle, fun x hx => ?_⟩
    rcases mem_cons.mp hx with rfl | hx
    · exact (le_max_right a x).trans hle
    · exact hall x hx

theorem lt_freshId (hd : d ∈ defs) (h : v ∈ d.1 :: d.2.operands) : v < freshId defs := by
  have hv := (le_foldl_max (d.1 :: d.2.operands) 0).2 v h
  have hd' := (le_foldl_max (defs.map fun d => (d.1 :: d.2.operands).foldl max 0) 0).2 _
    (mem_map_of_mem hd)
  rw [freshId]
  omega

variable [Inhabited α] {A : Arith K α} {env : ℕ → Vec α}

theorem runFrom_append (A : Arith K α) (env : ℕ → Vec α) (defs defs' : Block K α) :
    runFrom A env (defs ++ defs') = runFrom A (runFrom A env defs) defs' := foldl_append

theorem run_concat (A : Arith K α) (defs : Block K α) (d : ℕ × Op K α) :
    run A (defs ++ [d]) = Function.update (run A defs) d.1 (d.2.eval A (run A defs)) := by
  rw [run, runFrom_append]
  rfl

theorem runFrom_of_notMem (h : v ∉ ids defs) : runFrom A env defs v = env v := by
  induction defs generalizing env with
  | nil => rfl
  | cons d defs ih =>
    rw [ids, map_cons, mem_cons, not_or] at h
    rw [runFrom, foldl_cons]
    exact (ih h.2).trans (Function.update_of_ne h.1 _ _)

theorem run_append (h : v ∉ ids back) : run A (front ++ back) v = run A front v := by
  rw [run, runFrom_append]
  exact runFrom_of_notMem h

theorem Scoped.run_def (h : Scoped (front ++ (v, op) :: back)) :
    run A (front ++ (v, op) :: back) v = op.eval A (run A front) := by
  rw [← singleton_append, ← append_assoc, run_append h.notMem, run_concat]
  exact Function.update_self _ _ _

theorem Scoped.run_eq (h : Scoped defs) (hd : (v, op) ∈ defs) :
    run A defs v = op.eval A (run A defs) := by
  obtain ⟨front, back, rfl, -, hv, hoperands, hback⟩ := h.mem hd
  have hfront : ∀ u ∈ op.operands, run A front u = run A (front ++ (v, op) :: back) u := by
    intro u hu
    obtain ⟨hnew, -⟩ := h front (v, op) back rfl
    refine (run_append ?_).symm
    rw [ids, map_cons, mem_cons, not_or]
    exact ⟨fun huv => hnew (huv ▸ hoperands u hu), hback u hu⟩
  rw [eval_congr hfront, ← singleton_append, ← append_assoc, run_append hv, run_concat]
  exact Function.update_self _ _ _

theorem type_run (A : Arith K α) (defs : Block K α) (v : ℕ) :
    (run A defs v).type = types defs v := by
  induction defs using List.reverseRecOn generalizing v with
  | nil => rfl
  | append_singleton defs d ih =>
    rw [run_concat, types, foldl_append, ← types]
    change _ = Function.update (types defs) d.1 (d.2.resultType (types defs)) v
    by_cases hv : v = d.1
    · rw [hv, Function.update_self, Function.update_self, Op.eval, Vec.type_ofFn]
      exact congrArg (fun types => d.2.resultType types) (funext ih)
    · rw [Function.update_of_ne hv, Function.update_of_ne hv, ih]

end Values

end Block

end TritonCpu.VectorIR
