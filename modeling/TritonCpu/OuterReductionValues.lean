import TritonCpu.OuterReductionSVE

/-!
# Values of the SVE patterns

A lane of an accumulator has every `sveLanes`-th row of its column; the lanes together
have the whole column, in another order. The chunks of a transpose cover it.
-/

set_option autoImplicit false

namespace TritonCpu.OuterReductionSVE
open List
open TritonIR hiding ElementType
open FlatTensor Reassociation VectorIR VectorIR.Block VectorRewriter

variable {K α : Type} [Inhabited α]

/-! Folds in groups. -/

section Folds

variable {f : α → α → α} {acc : Option α} {l l' : List α} {groups : List (List α)}

theorem foldElements_concat (h : l ≠ []) (x : α) :
    foldElements f none (l ++ [x]) = f (foldElements f none l) x := by
  obtain ⟨y, l, rfl⟩ := exists_cons_of_ne_nil h
  simp [foldElements]

variable [Std.Associative f]

theorem foldl_groups (a : α) (h : ∀ group ∈ groups, group ≠ []) :
    (groups.map (foldElements f none)).foldl f a = groups.flatten.foldl f a := by
  induction groups generalizing a with
  | nil => rfl
  | cons group groups ih =>
    obtain ⟨x, l, rfl⟩ := exists_cons_of_ne_nil (h group mem_cons_self)
    have hfirst : f a (l.foldl f x) = l.foldl f (f a x) := foldl_assoc.symm
    rw [map_cons, foldl_cons, ih _ fun g hg => h g (mem_cons_of_mem _ hg),
      flatten_cons, foldl_append, foldElements, foldl_cons, hfirst]

theorem foldElements_groups (h : ∀ group ∈ groups, group ≠ []) :
    foldElements f acc (groups.map (foldElements f none)) = foldElements f acc groups.flatten := by
  cases acc with
  | some a => exact foldl_groups a h
  | none =>
    cases groups with
    | nil => rfl
    | cons group groups =>
      obtain ⟨x, l, rfl⟩ := exists_cons_of_ne_nil (h group mem_cons_self)
      have hrest := @foldl_groups α _ f groups _ (l.foldl f x)
        fun g hg => h g (mem_cons_of_mem _ hg)
      rw [map_cons, flatten_cons, cons_append]
      exact hrest.trans foldl_append.symm

variable [Std.Commutative f]

theorem foldElements_perm (h : l.Perm l') : foldElements f acc l = foldElements f acc l' := by
  have hassoc : ∀ a b c, f (f a b) c = f a (f b c) := Std.Associative.assoc
  have hcomm : ∀ a b, f a b = f b a := Std.Commutative.comm
  have hright : RightCommutative f := ⟨fun a b c => by rw [hassoc, hcomm b c, hassoc]⟩
  cases acc with
  | some a => exact h.foldl_eq a
  | none =>
    induction h with
    | nil => rfl
    | cons x h _ => exact h.foldl_eq x
    | swap x y l =>
      rw [foldElements, foldElements, foldl_cons, foldl_cons, hcomm x y]
    | trans _ _ ih ih' => exact ih.trans ih'

end Folds

/-! The rows of the slices. -/

section Rows

variable {n step : ℕ} {γ : Type}

theorem offsets_mul (hstep : 0 < step) (k : ℕ) :
    offsets (k * step) step = (List.range k).map (· * step) := by
  have hsteps : (k * step + step - 1) / step = k :=
    Nat.div_eq_of_lt_le (by omega) (by rw [Nat.succ_mul]; omega)
  rw [offsets, hsteps]

theorem range_rows (k step : ℕ) :
    List.range (k * step) = ((List.range k).map (· * step)).flatMap fun row =>
      (List.range step).map (row + ·) := by
  induction k with
  | zero => simp
  | succ k ih => rw [Nat.succ_mul, range_add, ih, range_succ]; simp

theorem lanes_perm (rows lanes : List ℕ) (f : ℕ → γ) :
    (lanes.flatMap fun lane => rows.map fun row => f (row + lane)).Perm
      (rows.flatMap fun row => lanes.map fun lane => f (row + lane)) := by
  have hswap := @Multiset.bind_map_comm _ _ _ (lanes : Multiset ℕ) (rows : Multiset ℕ)
    fun lane row => f (row + lane)
  simp only [Multiset.map_coe, Multiset.coe_bind] at hswap
  exact Multiset.coe_eq_coe.mp hswap

theorem foldElements_lanes {g : α → α → α} [Std.Associative g] [Std.Commutative g]
    {acc : Option α} (hstep : 0 < step) {k : ℕ} (hk : 0 < k) (f : ℕ → α) :
    foldElements g acc ((List.range step).map fun lane =>
      foldElements g none ((offsets (k * step) step).map fun row => f (row + lane))) =
      foldElements g acc ((List.range (k * step)).map f) := by
  have hgroups : ∀ group ∈ (List.range step).map fun lane =>
      (offsets (k * step) step).map fun row => f (row + lane), group ≠ [] := by
    intro group hgroup
    obtain ⟨lane, -, rfl⟩ := mem_map.mp hgroup
    rw [offsets_mul hstep]
    simp [hk.ne']
  have hfold := @foldElements_groups α _ g acc _ _ hgroups
  rw [map_map] at hfold
  refine hfold.trans (foldElements_perm ?_)
  rw [range_rows, ← offsets_mul hstep, map_flatMap, ← flatMap_def]
  refine (lanes_perm _ _ f).trans (List.Perm.of_eq ?_)
  simp only [map_map, Function.comp_def]

end Rows

/-! The columns of a slice. -/

section Columns

variable {A : Arith K α} {vscale : ℤ} {rw : Rewriter K α} {op : Op K α} {P : Vec α → Prop}
  {m : ColumnReduction K} {sveLanes row column flat n : ℕ} {f : ℕ → ℕ → α} {rows : List ℕ}

section Created

variable {e : ElementType} {a : α} {k l : ℕ} {g : ℕ → α} (hrw : Ready rw)
  (hoperands : ∀ u ∈ op.operands, u ∈ ids rw.defs) (hweight : weight vscale rw.defs op = n)

include hrw hoperands hweight

theorem create_spec (hP : P (op.eval A (run A rw.defs))) :
    Extends (weight vscale) rw (rw.create op).1 n ∧
      Holds A (rw.create op).1 (rw.create op).2 P :=
  ⟨hweight ▸ create_extends hrw hoperands, create_holds hP⟩

theorem create_isScalar (h : IsScalar (op.eval A (run A rw.defs)) e a) :
    Extends (weight vscale) rw (rw.create op).1 n ∧
      Holds A (rw.create op).1 (rw.create op).2 fun x => IsScalar x e a :=
  create_spec hrw hoperands hweight h

theorem create_isRow (h : IsRow (op.eval A (run A rw.defs)) k e g) :
    Extends (weight vscale) rw (rw.create op).1 n ∧
      Holds A (rw.create op).1 (rw.create op).2 fun x => IsRow x k e g :=
  create_spec hrw hoperands hweight h

theorem create_isMatrix (h : IsMatrix (op.eval A (run A rw.defs)) k l e f) :
    Extends (weight vscale) rw (rw.create op).1 n ∧
      Holds A (rw.create op).1 (rw.create op).2 fun x => IsMatrix x k l e f :=
  create_spec hrw hoperands hweight h

end Created

/-- A value that no `vector.extract` defines. -/
def Plain (rw : Rewriter K α) (v : ℕ) : Prop := (getDefiningOp rw.defs v).any isExtract = false

omit [Inhabited α] in
theorem create_plain (hrw : Ready rw) (h : isExtract op = false) :
    Plain (rw.create op).1 (rw.create op).2 := by
  rw [Plain, create_getDefiningOp hrw]
  exact h

omit [Inhabited α] in
theorem Plain.extend {rw' : Rewriter K α} {v : ℕ} (h : Plain rw v) (hv : v ∈ ids rw.defs)
    (he : Extends (weight vscale) rw rw' n) : Plain rw' v := by
  rw [Plain, he.getDefiningOp hv]
  exact h

def Accumulated (A : Arith K α) (m : ColumnReduction K) (sveLanes : ℕ) (f : ℕ → α)
    (rw : Rewriter K α) (rows : List ℕ) : Option ℕ → Prop
  | none => rows = []
  | some v => rows ≠ [] ∧ Plain rw v ∧ Holds A rw v fun x =>
      IsRow x sveLanes (.intOrFloat m.elementBits) fun lane =>
        foldElements (fun old new => A.combine m.kind new old) none
          (rows.map fun row => f (row + lane))

theorem Accumulated.extend {rw' : Rewriter K α} {g : ℕ → α} {accumulator : Option ℕ}
    (h : Accumulated A m sveLanes g rw rows accumulator) (hrw : Ready rw)
    (he : Extends (weight vscale) rw rw' n) :
    Accumulated A m sveLanes g rw' rows accumulator := by
  cases accumulator with
  | none => exact h
  | some v => exact ⟨h.1, h.2.1.extend h.2.2.1 he, h.2.2.extend hrw he⟩

theorem flatSlice_spec (hrw : Ready rw)
    (hsource : Holds A rw m.source fun x =>
      IsMatrix x m.rows m.columns (.intOrFloat m.elementBits) f)
    (hrow : row + sveLanes ≤ m.rows) :
    Extends (weight vscale) rw (m.flatSlice sveLanes rw row).1 0 ∧
      Holds A (m.flatSlice sveLanes rw row).1 (m.flatSlice sveLanes rw row).2 fun x =>
        IsRow x (sveLanes * m.columns) (.intOrFloat m.elementBits)
          fun k => f (row + k / m.columns) (k % m.columns) := by
  obtain ⟨he, hslice⟩ := @create_isMatrix K α _ A vscale rw _ 0 _ _ _ _ hrw
    (by intro u hu; rw [mem_singleton.mp hu]; exact hsource.1) rfl
    (slice_eval hsource.2 hrow (Nat.zero_add m.columns).le)
  obtain ⟨he', hflat⟩ := @create_isRow K α _ A vscale _ _ 0 _ _ _ he.ready
    (by intro u hu; rw [mem_singleton.mp hu]; exact hslice.1) rfl (flatten_eval hslice.2)
  exact ⟨he.trans he', hflat.1, hflat.2.congr fun k _ => by rw [Nat.zero_add]⟩

theorem gatherColumn_spec (hrw : Ready rw)
    (hflat : Holds A rw flat fun x => IsRow x (sveLanes * m.columns) (.intOrFloat m.elementBits)
      fun k => f (row + k / m.columns) (k % m.columns))
    (hcolumn : column < m.columns) {accumulator : Option ℕ}
    (hacc : Accumulated A m sveLanes (fun i => f i column) rw rows accumulator) :
    Extends (weight vscale) rw (m.gatherColumn sveLanes flat column rw accumulator).1 0 ∧
      Accumulated A m sveLanes (fun i => f i column)
        (m.gatherColumn sveLanes flat column rw accumulator).1 (rows ++ [row])
        (some (m.gatherColumn sveLanes flat column rw accumulator).2) := by
  have hlength : (shuffleMask sveLanes m.columns column).length = sveLanes := by
    simp [shuffleMask]
  have hentry : ∀ lane < sveLanes, lane * m.columns + column < sveLanes * m.columns := by
    intro lane hlane
    have hrows := Nat.mul_le_mul_right m.columns (Nat.succ_le_of_lt hlane)
    rw [Nat.succ_mul] at hrows
    omega
  have hmask : ∀ k ∈ shuffleMask sveLanes m.columns column,
      k < sveLanes * m.columns + sveLanes * m.columns := by
    intro k hk
    obtain ⟨lane, hlane, rfl⟩ := mem_map.mp hk
    have hlt := hentry lane (mem_range.mp hlane)
    omega
  obtain ⟨he, hvector⟩ := @create_isRow K α _ A vscale rw _ 0 _ _ _ hrw
    (by intro u hu; rw [or_self_iff.mp (mem_pair.mp hu)]; exact hflat.1) rfl
    (shuffle_eval hflat.2 hflat.2 hmask)
  rw [hlength] at hvector
  have hcolumnVector : Holds A (rw.create (.shuffle flat flat
      (shuffleMask sveLanes m.columns column))).1 rw.next fun x =>
      IsRow x sveLanes (.intOrFloat m.elementBits) fun lane => f (row + lane) column := by
    refine ⟨hvector.1, hvector.2.congr fun lane hlane => ?_⟩
    have hget : (shuffleMask sveLanes m.columns column).getD lane 0 =
        lane * m.columns + column := by
      rw [getD_eq_getElem _ _ (by rwa [hlength])]
      simp [shuffleMask]
    have hpos : 0 < m.columns := by omega
    rw [hget, if_pos (hentry lane hlane), Nat.mul_comm, Nat.mul_add_div hpos,
      Nat.div_eq_of_lt hcolumn, Nat.add_zero, Nat.mul_add_mod, Nat.mod_eq_of_lt hcolumn]
  have hplain := @create_plain K α rw (.shuffle flat flat
    (shuffleMask sveLanes m.columns column)) hrw rfl
  cases accumulator with
  | none =>
    obtain rfl : rows = [] := hacc
    exact ⟨he, by simp, hplain, hcolumnVector⟩
  | some accumulator =>
    obtain ⟨hne, -, hvalue⟩ := hacc.extend hrw he
    obtain ⟨he', hsum⟩ := @create_isRow K α _ A vscale _ (.arithReduction m.kind _ _) 0 _ _ _
      he.ready (by
        intro u hu
        rcases mem_pair.mp hu with rfl | rfl
        · exact hcolumnVector.1
        · exact hvalue.1) rfl (arith_eval hcolumnVector.2 hvalue.2)
    refine ⟨he.trans he', by simp, create_plain he.ready rfl, hsum.1, hsum.2.congr
      fun lane _ => ?_⟩
    rw [map_append, map_singleton, foldElements_concat (by simpa using hne)]

theorem gatherColumns_spec (hrw : Ready rw)
    (hsource : Holds A rw m.source fun x =>
      IsMatrix x m.rows m.columns (.intOrFloat m.elementBits) f)
    (hrow : row + sveLanes ≤ m.rows) {accumulators : ℕ → Option ℕ}
    (hacc : ∀ column < m.columns, Accumulated A m sveLanes (fun i => f i column) rw rows
      (accumulators column)) :
    Extends (weight vscale) rw (m.gatherColumns sveLanes (rw, accumulators) row).1 0 ∧
      ∀ column < m.columns, Accumulated A m sveLanes (fun i => f i column)
        (m.gatherColumns sveLanes (rw, accumulators) row).1 (rows ++ [row])
        ((m.gatherColumns sveLanes (rw, accumulators) row).2 column) := by
  obtain ⟨he, hflat⟩ := @flatSlice_spec K α _ A vscale rw m sveLanes row f hrw hsource hrow
  have hloop : ∀ c ≤ m.columns,
      let s := (List.range c).foldl (fun (s : Rewriter K α × (ℕ → Option ℕ)) column =>
        ((m.gatherColumn sveLanes (m.flatSlice sveLanes rw row).2 column s.1 (s.2 column)).1,
          Function.update s.2 column
            (some (m.gatherColumn sveLanes (m.flatSlice sveLanes rw row).2 column s.1
              (s.2 column)).2))) ((m.flatSlice sveLanes rw row).1, accumulators)
      Extends (weight vscale) (m.flatSlice sveLanes rw row).1 s.1 0 ∧ ∀ column < m.columns,
        Accumulated A m sveLanes (fun i => f i column) s.1
          (if column < c then rows ++ [row] else rows) (s.2 column) := by
    intro c
    induction c with
    | zero =>
      exact fun _ => ⟨.refl he.ready, fun column hcolumn => (hacc column hcolumn).extend hrw he⟩
    | succ c ih =>
      intro hc
      obtain ⟨hes, haccs⟩ := ih (Nat.le_of_succ_le hc)
      rw [range_succ, foldl_append, foldl_cons, foldl_nil]
      generalize (List.range c).foldl _ _ = s at hes haccs ⊢
      have hcurrent := haccs c hc
      rw [if_neg (lt_irrefl c)] at hcurrent
      obtain ⟨he', hnew⟩ := @gatherColumn_spec K α _ A vscale s.1 m sveLanes row c _ f rows
        hes.ready (hflat.extend he.ready hes) hc _ hcurrent
      refine ⟨hes.trans he', fun column hcolumn => ?_⟩
      by_cases hcc : column = c
      · simpa only [hcc, if_pos (Nat.lt_succ_self c), Function.update_self] using hnew
      · have hold := (haccs column hcolumn).extend hes.ready he'
        have hiff : column < c + 1 ↔ column < c := by omega
        simpa only [hiff, Function.update_of_ne hcc] using hold
  obtain ⟨hes, haccs⟩ := hloop m.columns le_rfl
  refine ⟨he.trans hes, fun column hcolumn => ?_⟩
  have hfinal := haccs column hcolumn
  rw [if_pos hcolumn] at hfinal
  exact hfinal

end Columns

/-! The reductions. -/

section Reductions

variable {A : Arith K α} {vscale : ℤ} {rw : Rewriter K α} {m : ColumnReduction K}
  {sveLanes column acc result k : ℕ} {f : ℕ → ℕ → α} {g h : ℕ → α} {e : ElementType}

theorem gatherAllColumns_spec (hrw : Ready rw)
    (hsource : Holds A rw m.source fun x =>
      IsMatrix x m.rows m.columns (.intOrFloat m.elementBits) f)
    (hrows : m.rows = k * sveLanes) (i : ℕ) (hi : i ≤ k) :
    let s := ((List.range i).map (· * sveLanes)).foldl (m.gatherColumns sveLanes)
      (rw, fun _ => none)
    Extends (weight vscale) rw s.1 0 ∧ ∀ column < m.columns,
      Accumulated A m sveLanes (fun i => f i column) s.1 ((List.range i).map (· * sveLanes))
        (s.2 column) := by
  induction i with
  | zero => exact ⟨.refl hrw, fun _ _ => rfl⟩
  | succ i ih =>
    obtain ⟨hes, haccs⟩ := ih (Nat.le_of_succ_le hi)
    rw [range_succ, map_append, foldl_append, map_singleton, foldl_cons,
      foldl_nil]
    generalize ((List.range i).map (· * sveLanes)).foldl (m.gatherColumns sveLanes)
      (rw, fun _ => none) = s at hes haccs ⊢
    have hrow := Nat.mul_le_mul_right sveLanes hi
    rw [Nat.succ_mul, ← hrows] at hrow
    obtain ⟨he, hnew⟩ := @gatherColumns_spec K α _ A vscale s.1 m sveLanes _ f _ hes.ready
      (hsource.extend hrw hes) hrow s.2 haccs
    exact ⟨hes.trans he, hnew⟩

theorem gatherAllRows_spec (hrw : Ready rw)
    (hsource : Holds A rw m.source fun x =>
      IsMatrix x m.rows m.columns (.intOrFloat m.elementBits) f)
    (hrows : m.rows = k * sveLanes) (hcolumn : column < m.columns) (i : ℕ) (hi : i ≤ k) :
    let s := ((List.range i).map (· * sveLanes)).foldl (m.gatherRow sveLanes column) (rw, none)
    Extends (weight vscale) rw s.1 0 ∧
      Accumulated A m sveLanes (fun i => f i column) s.1 ((List.range i).map (· * sveLanes))
        s.2 := by
  induction i with
  | zero => exact ⟨.refl hrw, rfl⟩
  | succ i ih =>
    obtain ⟨hes, hacc⟩ := ih (Nat.le_of_succ_le hi)
    rw [range_succ, map_append, foldl_append, map_singleton, foldl_cons,
      foldl_nil]
    generalize ((List.range i).map (· * sveLanes)).foldl (m.gatherRow sveLanes column)
      (rw, none) = s at hes hacc ⊢
    have hrow := Nat.mul_le_mul_right sveLanes hi
    rw [Nat.succ_mul, ← hrows] at hrow
    obtain ⟨he, hflat⟩ := @flatSlice_spec K α _ A vscale s.1 m sveLanes _ f hes.ready
      (hsource.extend hrw hes) hrow
    obtain ⟨he', hnew⟩ := @gatherColumn_spec K α _ A vscale _ m sveLanes _ column _ f _ he.ready
      hflat hcolumn s.2 (hacc.extend hes.ready he)
    exact ⟨hes.trans (he.trans he'), hnew⟩

variable [Std.Associative (A.combine m.kind)] [Std.Commutative (A.combine m.kind)]

theorem reduce_spec (hrw : Ready rw) (hlanes : 0 < sveLanes) (hk : 0 < k)
    (hrows : m.rows = k * sveLanes) {accumulator acc : Option ℕ}
    (haccumulator : Accumulated A m sveLanes g rw ((List.range k).map (· * sveLanes)) accumulator)
    (hacc : ∀ a ∈ acc, a ∈ ids rw.defs) :
    Extends (weight vscale) rw (rw.create (.reduction m.kind (accumulator.getD 0) acc none)).1 0 ∧
      Holds A (rw.create (.reduction m.kind (accumulator.getD 0) acc none)).1 rw.next fun x =>
        IsScalar x (.intOrFloat m.elementBits)
          (foldElements (A.combine m.kind) (acc.map fun a => (run A rw.defs a).get [])
            ((List.range m.rows).map g)) := by
  cases accumulator with
  | none =>
    have hnil : (List.range k).map (· * sveLanes) = [] := haccumulator
    simp [hk.ne'] at hnil
  | some v =>
    obtain ⟨-, hplain, hvalue⟩ := haccumulator
    have hswap : (fun old new => A.combine m.kind new old) = A.combine m.kind :=
      funext fun a => funext fun b => Std.Commutative.comm b a
    rw [hswap, ← offsets_mul hlanes] at hvalue
    have hweight : weight vscale rw.defs
        (.reduction m.kind ((some v).getD 0) acc none : Op K α) = 0 := by
      rw [Plain] at hplain
      simp [weight, hplain]
    obtain ⟨he, hscalar⟩ := create_isScalar hrw (by
      intro u hu
      rw [Op.operands, Option.toList_none, append_nil] at hu
      rcases mem_cons.mp hu with rfl | hu
      · exact hvalue.1
      · exact hacc u (Option.mem_toList.mp hu)) hweight (reduction_eval hvalue.2)
    refine ⟨he, hscalar.1, ?_⟩
    have htotal := @foldElements_lanes α _ sveLanes (A.combine m.kind) _ _
      (acc.map fun a => (run A rw.defs a).get []) hlanes k hk g
    rw [← hrows] at htotal
    rw [← htotal, hrows]
    exact hscalar.2

def total (A : Arith K α) (m : ColumnReduction K) (f : ℕ → ℕ → α) (g : ℕ → α) (j : ℕ) : α :=
  (List.range m.rows).foldl (fun acc i => A.combine m.kind acc (f i j)) (g j)

theorem reduceColumn_spec (hrw : Ready rw) (hlanes : 0 < sveLanes) (hk : 0 < k)
    (hrows : m.rows = k * sveLanes) {accumulators : ℕ → Option ℕ}
    (haccumulator : Accumulated A m sveLanes (fun i => f i column) rw
      ((List.range k).map (· * sveLanes)) (accumulators column))
    (hacc : Holds A rw acc fun x => IsRow x m.columns e g)
    (hresult : Holds A rw result fun x => IsRow x m.columns e h) (hcolumn : column < m.columns) :
    Extends (weight vscale) rw (m.reduceColumn acc accumulators (rw, result) column).1 0 ∧
      Plain (m.reduceColumn acc accumulators (rw, result) column).1
        (m.reduceColumn acc accumulators (rw, result) column).2 ∧
      Holds A (m.reduceColumn acc accumulators (rw, result) column).1
        (m.reduceColumn acc accumulators (rw, result) column).2 fun x =>
          IsRow x m.columns e fun j => if j = column then total A m f g column else h j := by
  obtain ⟨he, hscalar⟩ := @create_isScalar K α _ A vscale rw _ 0 _ _ hrw
    (by intro u hu; rw [mem_singleton.mp hu]; exact hacc.1) rfl
    (extractScalar_eval hacc.2 hcolumn)
  obtain ⟨he', hreduced⟩ := @reduce_spec K α _ A vscale _ m sveLanes k (fun i => f i column) _ _
    he.ready hlanes hk hrows _ (some (rw.create (.extract acc [.static column])).2)
    (haccumulator.extend hrw he)
    (fun a ha => Option.some.inj ha ▸ hscalar.1)
  rw [Option.map_some, hscalar.2.get, foldElements, foldl_map] at hreduced
  have hres := (hresult.extend hrw he).extend he.ready he'
  obtain ⟨he'', hinsert⟩ := @create_isRow K α _ A vscale _ (.insert _ _ column) 0 _ _ _ he'.ready
    (by
      intro u hu
      rcases mem_pair.mp hu with rfl | rfl
      · exact hreduced.1
      · exact hres.1) rfl (insert_eval hreduced.2 hres.2)
  exact ⟨he.trans (he'.trans he''), create_plain he'.ready rfl, hinsert⟩

theorem lowerOuterReduction_spec (hrw : Ready rw)
    (hsource : Holds A rw m.source fun x =>
      IsMatrix x m.rows m.columns (.intOrFloat m.elementBits) f)
    (hacc : Holds A rw acc fun x => IsRow x m.columns e g) (hlanes : 0 < sveLanes) (hk : 0 < k)
    (hrows : m.rows = k * sveLanes) :
    Extends (weight vscale) rw (m.lowerOuterReduction sveLanes acc rw).1 0 ∧
      (m.columns = 0 ∨ Plain (m.lowerOuterReduction sveLanes acc rw).1
        (m.lowerOuterReduction sveLanes acc rw).2) ∧
      Holds A (m.lowerOuterReduction sveLanes acc rw).1
        (m.lowerOuterReduction sveLanes acc rw).2 fun x =>
          IsRow x m.columns e (total A m f g) := by
  obtain ⟨hes, haccs⟩ := @gatherAllColumns_spec K α _ A vscale rw m sveLanes k f hrw hsource hrows
    k le_rfl
  rw [← offsets_mul hlanes, ← hrows] at hes haccs
  rw [ColumnReduction.lowerOuterReduction]
  generalize (offsets m.rows sveLanes).foldl (m.gatherColumns sveLanes) (rw, fun _ => none) = s
    at hes haccs ⊢
  have hloop : ∀ c ≤ m.columns,
      let t := (List.range c).foldl (m.reduceColumn acc s.2) (s.1, acc)
      Extends (weight vscale) s.1 t.1 0 ∧ (c = 0 ∨ Plain t.1 t.2) ∧ Holds A t.1 t.2 fun x =>
        IsRow x m.columns e fun j => if j < c then total A m f g j else g j := by
    intro c
    induction c with
    | zero =>
      exact fun _ => ⟨.refl hes.ready, .inl rfl, hacc.extend hrw hes⟩
    | succ c ih =>
      intro hc
      obtain ⟨het, -, hresult⟩ := ih (Nat.le_of_succ_le hc)
      rw [range_succ, foldl_append, foldl_cons, foldl_nil]
      generalize (List.range c).foldl (m.reduceColumn acc s.2) (s.1, acc) = t at het hresult ⊢
      have haccumulator := (haccs c hc).extend hes.ready het
      rw [hrows, offsets_mul hlanes] at haccumulator
      obtain ⟨he, hplain, hnew⟩ := @reduceColumn_spec K α _ A vscale t.1 m sveLanes c acc t.2 k f g
        _ e _ _ het.ready hlanes hk hrows s.2 haccumulator
        ((hacc.extend hrw hes).extend hes.ready het) hresult hc
      refine ⟨het.trans he, .inr hplain, hnew.1, hnew.2.congr fun j _ => ?_⟩
      by_cases hjc : j = c
      · rw [hjc, if_pos rfl, if_pos (Nat.lt_succ_self c)]
      · have hiff : j < c + 1 ↔ j < c := by omega
        simp only [hjc, hiff, if_false]
  obtain ⟨het, hplain, hresult⟩ := hloop m.columns le_rfl
  exact ⟨hes.trans het, hplain, hresult.1, hresult.2.congr fun j hj => if_pos hj⟩

theorem fuseTransposeReduction_spec (hrw : Ready rw)
    (hsource : Holds A rw m.source fun x =>
      IsMatrix x m.rows m.columns (.intOrFloat m.elementBits) f)
    (hcolumn : column < m.columns) {acc : Option ℕ} (hacc : ∀ a ∈ acc, a ∈ ids rw.defs)
    (hlanes : 0 < sveLanes) (hk : 0 < k) (hrows : m.rows = k * sveLanes) :
    Extends (weight vscale) rw (m.fuseTransposeReduction sveLanes column acc rw).1 0 ∧
      Plain (m.fuseTransposeReduction sveLanes column acc rw).1
        (m.fuseTransposeReduction sveLanes column acc rw).2 ∧
      Holds A (m.fuseTransposeReduction sveLanes column acc rw).1
        (m.fuseTransposeReduction sveLanes column acc rw).2 fun x =>
          IsScalar x (.intOrFloat m.elementBits)
            (foldElements (A.combine m.kind) (acc.map fun a => (run A rw.defs a).get [])
              ((List.range m.rows).map fun i => f i column)) := by
  obtain ⟨hes, hgathered⟩ := @gatherAllRows_spec K α _ A vscale rw m sveLanes column k f hrw hsource
    hrows hcolumn k le_rfl
  rw [ColumnReduction.fuseTransposeReduction]
  rw [← offsets_mul hlanes, ← hrows] at hes hgathered
  generalize (offsets m.rows sveLanes).foldl (m.gatherRow sveLanes column) (rw, none) = s
    at hes hgathered ⊢
  rw [hrows, offsets_mul hlanes] at hgathered
  obtain ⟨he, hreduced⟩ := @reduce_spec K α _ A vscale s.1 m sveLanes k (fun i => f i column) _ _
    hes.ready hlanes hk hrows s.2 acc hgathered (fun a ha => hes.mem (hacc a ha))
  have hsame : (acc.map fun a => (run A s.1.defs a).get []) =
      acc.map fun a => (run A rw.defs a).get [] :=
    Option.map_congr fun a ha => by rw [hes.run_eq hrw (hacc a ha)]
  rw [hsame] at hreduced
  exact ⟨hes.trans he, create_plain hes.ready rfl, hreduced⟩

end Reductions

/-! The transposes. -/

section Transposes

variable {A : Arith K α} {vscale : ℤ} {rw : Rewriter K α} {m : NativeTranspose}
  {sveLanes k : ℕ} {f : ℕ → ℕ → α} {rowsAreChunked : Bool}

theorem deinterleaveRows_spec (hrw : Ready rw) (hrows : m.rows = sveLanes) (hcolumns : m.columns = 2)
    (hvector : Holds A rw m.vector fun x =>
      IsMatrix x m.rows m.columns (.intOrFloat m.elementBits) f) :
    Extends (weight vscale) rw (m.deinterleaveRows sveLanes rw).1 0 ∧
      Holds A (m.deinterleaveRows sveLanes rw).1 (m.deinterleaveRows sveLanes rw).2 fun x =>
        IsRow x (2 * sveLanes) (.intOrFloat m.elementBits) fun i =>
          if i < sveLanes then f i 0 else f (i - sveLanes) 1 := by
  have hflatten := @flatten_eval K α _ A (run A rw.defs) _ _ _ _ _ hvector.2
  rw [hrows, hcolumns, Nat.mul_comm] at hflatten
  obtain ⟨he, hflat⟩ := @create_isRow K α _ A vscale rw _ 0 _ _ _ hrw
    (by intro u hu; rw [mem_singleton.mp hu]; exact hvector.1) rfl hflatten
  obtain ⟨he1, hres1⟩ := @create_isRow K α _ A vscale _ _ 0 _ _ _ he.ready
    (by intro u hu; rw [mem_singleton.mp hu]; exact hflat.1) rfl
    (deinterleaveRes1_eval hflat.2)
  have hflat' := hflat.extend he.ready he1
  obtain ⟨he2, hres2⟩ := @create_isRow K α _ A vscale _ _ 0 _ _ _ he1.ready
    (by intro u hu; rw [mem_singleton.mp hu]; exact hflat'.1) rfl
    (deinterleaveRes2_eval hflat'.2)
  have hres1' := hres1.extend he1.ready he2
  obtain ⟨he3, hshuffle⟩ := @create_isRow K α _ A vscale _
    (.shuffle _ _ (List.range (2 * sveLanes))) 0 _ _ _ he2.ready
    (by
      intro u hu
      rcases mem_pair.mp hu with rfl | rfl
      · exact hres1'.1
      · exact hres2.1) rfl
    (shuffle_eval hres1'.2 hres2.2 fun i hi => by
      have hlt := mem_range.mp hi
      omega)
  rw [length_range] at hshuffle
  refine ⟨he.trans (he1.trans (he2.trans he3)), hshuffle.1, hshuffle.2.congr fun i hi => ?_⟩
  have hget : (List.range (2 * sveLanes)).getD i 0 = i := by
    rw [getD_eq_getElem _ _ (by rwa [length_range]), getElem_range]
  rw [hget]
  have heven : ∀ j : ℕ, 2 * j / 2 = j ∧ 2 * j % 2 = 0 := fun j => by omega
  have hodd : ∀ j : ℕ, (2 * j + 1) / 2 = j ∧ (2 * j + 1) % 2 = 1 := fun j => by omega
  simp only [heven, hodd]

theorem interleaveRows_spec (hrw : Ready rw) (hrows : m.rows = 2) (hcolumns : m.columns = sveLanes)
    (hvector : Holds A rw m.vector fun x =>
      IsMatrix x m.rows m.columns (.intOrFloat m.elementBits) f) :
    Extends (weight vscale) rw (m.interleaveRows rw).1 0 ∧
      Holds A (m.interleaveRows rw).1 (m.interleaveRows rw).2 fun x =>
        IsRow x (2 * sveLanes) (.intOrFloat m.elementBits) fun i =>
          if i % 2 = 0 then f 0 (i / 2) else f 1 (i / 2) := by
  rw [hrows, hcolumns] at hvector
  obtain ⟨he, hrow0⟩ := @create_isRow K α _ A vscale rw _ 0 _ _ _ hrw
    (by intro u hu; rw [mem_singleton.mp hu]; exact hvector.1) rfl
    (extractRow_eval hvector.2 (Nat.zero_lt_succ 1))
  have hvector' := hvector.extend hrw he
  obtain ⟨he1, hrow1⟩ := @create_isRow K α _ A vscale _ _ 0 _ _ _ he.ready
    (by intro u hu; rw [mem_singleton.mp hu]; exact hvector'.1) rfl
    (extractRow_eval hvector'.2 (Nat.lt_succ_self 1))
  have hrow0' := hrow0.extend he.ready he1
  obtain ⟨he2, hinterleave⟩ := @create_isRow K α _ A vscale _ (.interleave _ _) 0 _ _ _ he1.ready
    (by
      intro u hu
      rcases mem_pair.mp hu with rfl | rfl
      · exact hrow0'.1
      · exact hrow1.1) rfl (interleave_eval hrow0'.2 hrow1.2)
  exact ⟨he.trans (he1.trans he2), hinterleave⟩

theorem lowerNativeTranspose_spec (hrw : Ready rw)
    (hvector : Holds A rw m.vector fun x =>
      IsMatrix x m.rows m.columns (.intOrFloat m.elementBits) f)
    (hshape : m.rows = sveLanes ∧ m.columns = 2 ∨ m.rows = 2 ∧ m.columns = sveLanes) :
    Extends (weight vscale) rw (m.lowerNativeTranspose sveLanes rw).1 0 ∧
      Plain (m.lowerNativeTranspose sveLanes rw).1 (m.lowerNativeTranspose sveLanes rw).2 ∧
      Holds A (m.lowerNativeTranspose sveLanes rw).1 (m.lowerNativeTranspose sveLanes rw).2
        fun x => IsMatrix x m.columns m.rows (.intOrFloat m.elementBits) fun j i => f i j := by
  rw [NativeTranspose.lowerNativeTranspose]
  by_cases hrows : m.rows = sveLanes
  · have hcolumns : m.columns = 2 := by omega
    obtain ⟨he, hflat⟩ := @deinterleaveRows_spec K α _ A vscale rw m sveLanes f hrw hrows hcolumns
      hvector
    rw [if_pos hrows]
    obtain ⟨he', hresult⟩ := @create_isMatrix K α _ A vscale _ _ 0 _ _ _ _ he.ready
      (by intro u hu; rw [mem_singleton.mp hu]; exact hflat.1) rfl
      (unflatten_eval hflat.2)
    rw [NativeTranspose.resultType, hcolumns, hrows]
    refine ⟨he.trans he', create_plain he.ready rfl, hresult.1, hresult.2.congr
      fun j hj i hi => ?_⟩
    obtain rfl | rfl : j = 0 ∨ j = 1 := by omega
    · rw [Nat.zero_mul, Nat.zero_add, if_pos hi]
    · rw [Nat.one_mul, if_neg (by omega), Nat.add_sub_cancel_left]
  · obtain ⟨hrows2, hcolumns⟩ := hshape.resolve_left fun h => hrows h.1
    obtain ⟨he, hflat⟩ := @interleaveRows_spec K α _ A vscale rw m sveLanes f hrw hrows2 hcolumns
      hvector
    rw [if_neg hrows]
    rw [Nat.mul_comm] at hflat
    obtain ⟨he', hresult⟩ := @create_isMatrix K α _ A vscale _ _ 0 _ _ _ _ he.ready
      (by intro u hu; rw [mem_singleton.mp hu]; exact hflat.1) rfl
      (unflatten_eval hflat.2)
    rw [NativeTranspose.resultType, hcolumns, hrows2]
    refine ⟨he.trans he', create_plain he.ready rfl, hresult.1, hresult.2.congr
      fun i hi j hj => ?_⟩
    have hmod : (i * 2 + j) % 2 = j := by omega
    have hdiv : (i * 2 + j) / 2 = i := by omega
    rw [hmod, hdiv]
    obtain rfl | rfl : j = 0 ∨ j = 1 := by omega
    · rfl
    · rfl

theorem transposeChunk_spec {r c a b offset result : ℕ} {h : ℕ → ℕ → α} (hrw : Ready rw)
    (hoffsets : (if rowsAreChunked then [offset, 0] else [0, offset]) = [r, c])
    (hsizes : (if rowsAreChunked then [sveLanes, 2] else [2, sveLanes]) = [a, b])
    (hresultOffsets : (if rowsAreChunked then [0, offset] else [offset, 0]) = [c, r])
    (hr : r + a ≤ m.rows) (hc : c + b ≤ m.columns)
    (hnative : isNative vscale ⟨[a, b], false, .intOrFloat m.elementBits⟩ = true)
    (hvector : Holds A rw m.vector fun x =>
      IsMatrix x m.rows m.columns (.intOrFloat m.elementBits) f)
    (hresult : Holds A rw result fun x =>
      IsMatrix x m.columns m.rows (.intOrFloat m.elementBits) h) :
    Extends (weight vscale) rw (m.transposeChunk rowsAreChunked sveLanes (rw, result) offset).1 1 ∧
      Plain (m.transposeChunk rowsAreChunked sveLanes (rw, result) offset).1
        (m.transposeChunk rowsAreChunked sveLanes (rw, result) offset).2 ∧
      Holds A (m.transposeChunk rowsAreChunked sveLanes (rw, result) offset).1
        (m.transposeChunk rowsAreChunked sveLanes (rw, result) offset).2 fun x =>
          IsMatrix x m.columns m.rows (.intOrFloat m.elementBits) fun j i =>
            if (c ≤ j ∧ j < c + b) ∧ r ≤ i ∧ i < r + a then f i j else h j i := by
  rw [NativeTranspose.transposeChunk, hoffsets, hsizes, hresultOffsets]
  obtain ⟨he, hslice⟩ := @create_isMatrix K α _ A vscale rw _ 0 _ _ _ _ hrw
    (by intro u hu; rw [mem_singleton.mp hu]; exact hvector.1) rfl
    (slice_eval hvector.2 hr hc)
  obtain ⟨he1, htransposed⟩ := @create_isMatrix K α _ A vscale _ _ 1 _ _ _ _ he.ready
    (by intro u hu; rw [mem_singleton.mp hu]; exact hslice.1)
    (by rw [weight, ← type_run A, hslice.2.type, if_pos hnative]) (transpose_eval hslice.2)
  have hresult' := (hresult.extend hrw he).extend he.ready he1
  obtain ⟨he2, hinsert⟩ := @create_isMatrix K α _ A vscale _
    (.insertStridedSlice _ _ [c, r] [1, 1]) 0 _ _ _ _ he1.ready
    (by
      intro u hu
      rcases mem_pair.mp hu with rfl | rfl
      · exact htransposed.1
      · exact hresult'.1) rfl (insertSlice_eval htransposed.2 hresult'.2)
  refine ⟨he.trans (he1.trans he2), create_plain he1.ready rfl, hinsert.1, hinsert.2.congr
    fun j _ i _ => ?_⟩
  split_ifs with hin
  · rw [Nat.add_sub_cancel' hin.1.1, Nat.add_sub_cancel' hin.2.1]
  · rfl

def longDimension (m : NativeTranspose) (rowsAreChunked : Bool) : ℕ :=
  if rowsAreChunked then m.rows else m.columns

def shortDimension (m : NativeTranspose) (rowsAreChunked : Bool) : ℕ :=
  if rowsAreChunked then m.columns else m.rows

theorem chunkTranspose_spec (hrw : Ready rw) (hlanes : 0 < sveLanes)
    (hnative : nativeLanes vscale m.elementBits = some (sveLanes : ℤ))
    (hvector : Holds A rw m.vector fun x =>
      IsMatrix x m.rows m.columns (.intOrFloat m.elementBits) f)
    (hlong : longDimension m rowsAreChunked = k * sveLanes)
    (hshort : shortDimension m rowsAreChunked = 2) :
    Extends (weight vscale) rw (m.chunkTranspose rowsAreChunked sveLanes rw).1 k ∧
      Plain (m.chunkTranspose rowsAreChunked sveLanes rw).1
        (m.chunkTranspose rowsAreChunked sveLanes rw).2 ∧
      Holds A (m.chunkTranspose rowsAreChunked sveLanes rw).1
        (m.chunkTranspose rowsAreChunked sveLanes rw).2 fun x =>
          IsMatrix x m.columns m.rows (.intOrFloat m.elementBits) fun j i => f i j := by
  obtain ⟨he, hzero⟩ := @create_isMatrix K α _ A vscale rw (.constant m.resultType) 0 _ _ _ _ hrw
    (fun u hu => absurd hu not_mem_nil) rfl
    (constant_eval A _ m.columns m.rows (.intOrFloat m.elementBits))
  have hloop : ∀ i ≤ k,
      let s := ((List.range i).map (· * sveLanes)).foldl (m.transposeChunk rowsAreChunked sveLanes)
        (rw.create (.constant m.resultType))
      Extends (weight vscale) rw s.1 i ∧ Plain s.1 s.2 ∧ Holds A s.1 s.2 fun x =>
        IsMatrix x m.columns m.rows (.intOrFloat m.elementBits) fun y x =>
          if (if rowsAreChunked then x else y) < i * sveLanes then f x y else A.zero := by
    intro i
    induction i with
    | zero =>
      refine fun _ => ⟨he, create_plain hrw rfl, hzero.1, hzero.2.congr fun y _ x _ => ?_⟩
      rw [Nat.zero_mul, if_neg (Nat.not_lt_zero _)]
    | succ i ih =>
      intro hi
      obtain ⟨hes, -, hresult⟩ := ih (Nat.le_of_succ_le hi)
      rw [range_succ, map_append, foldl_append, map_singleton, foldl_cons,
        foldl_nil]
      generalize ((List.range i).map (· * sveLanes)).foldl
        (m.transposeChunk rowsAreChunked sveLanes) (rw.create (.constant m.resultType)) = s
        at hes hresult ⊢
      have hend := Nat.mul_le_mul_right sveLanes hi
      rw [← hlong, Nat.succ_mul] at hend
      have hvector' := hvector.extend hrw hes
      cases rowsAreChunked with
      | true =>
        have hcolumns : m.columns = 2 := hshort
        obtain ⟨he', hplain, hnew⟩ := @transposeChunk_spec K α _ A vscale s.1 m sveLanes f true
          (i * sveLanes) 0 sveLanes 2 (i * sveLanes) s.2 _ hes.ready rfl rfl rfl hend
          (by rw [hcolumns]) (by simp [isNative, hnative, dimSize]) hvector' hresult
        refine ⟨hes.trans he', hplain, hnew.1, hnew.2.congr fun y hy x hx => ?_⟩
        simp only [if_true, Nat.succ_mul]
        split_ifs <;> first | rfl | omega
      | false =>
        have hrows : m.rows = 2 := hshort
        obtain ⟨he', hplain, hnew⟩ := @transposeChunk_spec K α _ A vscale s.1 m sveLanes f false
          0 (i * sveLanes) 2 sveLanes (i * sveLanes) s.2 _ hes.ready rfl rfl rfl
          (by rw [hrows]) hend (by simp [isNative, hnative, dimSize]) hvector' hresult
        refine ⟨hes.trans he', hplain, hnew.1, hnew.2.congr fun y hy x hx => ?_⟩
        simp only [Bool.false_eq_true, if_false, Nat.succ_mul]
        split_ifs <;> first | rfl | omega
  obtain ⟨hes, hplain, hresult⟩ := hloop k le_rfl
  rw [← offsets_mul hlanes, ← hlong] at hes hplain hresult
  refine ⟨hes, hplain, hresult.1, hresult.2.congr fun y hy x hx => if_pos ?_⟩
  cases rowsAreChunked with
  | true => exact lt_of_lt_of_eq hx rfl
  | false => exact lt_of_lt_of_eq hy rfl

end Transposes

end TritonCpu.OuterReductionSVE
