import TritonCpu.OuterReductionValues

/-!
# Runs of the SVE patterns

When a pattern is defined, and that it then declines or keeps the value. Each rewrite
lowers the weight of the block, so any run of the four patterns ends.
-/

set_option autoImplicit false

namespace TritonCpu.OuterReductionSVE
open List
open TritonIR hiding ElementType
open FlatTensor Reassociation VectorIR VectorIR.Block VectorRewriter

variable {K α : Type}

/-! What a match says. -/

section Matches

variable {defs : Block K α} {op : Op K α} {m : ColumnReduction K} {t : NativeTranspose}
  {acc column : ℕ} {acc' : Option ℕ} {type : VectorType}

theorem type_eq_matrix (hrank : type.shape.length = 2) (hscalable : ¬type.scalable = true)
    {elementBits : ℕ} (helement : type.elementType = .intOrFloat elementBits) :
    type = ⟨[dimSize type.shape 0, dimSize type.shape 1], false, .intOrFloat elementBits⟩ := by
  obtain ⟨shape, scalable, elementType⟩ := type
  obtain ⟨a, b, rfl⟩ := length_eq_two.mp hrank
  simp_all [dimSize]

theorem type_eq_row (hrank : type.shape.length = 1) (hscalable : ¬type.scalable = true) :
    type = ⟨[dimSize type.shape 0], false, type.elementType⟩ := by
  obtain ⟨shape, scalable, elementType⟩ := type
  obtain ⟨a, rfl⟩ := length_eq_one_iff.mp hrank
  simp_all [dimSize]

theorem matchOuterReduction_eq (h : matchOuterReduction defs op = some (m, acc)) :
    op = .multiReduction m.kind m.source acc none [0] ∧
      types defs m.source = ⟨[m.rows, m.columns], false, .intOrFloat m.elementBits⟩ ∧
      types defs acc = ⟨[m.columns], false, (types defs acc).elementType⟩ := by
  cases op with
  | multiReduction kind source acc mask dims =>
    simp only [matchOuterReduction] at h
    split_ifs at h with hrank hdims hmask
    split at h
    · cases h
    · next elementBits helement =>
      obtain ⟨rfl, rfl⟩ := Prod.mk.inj (Option.some.inj h)
      push Not at hrank hdims
      obtain ⟨d, rfl⟩ := length_eq_one_iff.mp hdims.2.1
      obtain rfl : d = 0 := hdims.2.2
      have hnone : mask = none := by simpa using hmask
      have hrow := type_eq_row hrank.2.1 (by simpa using hrank.2.2.2)
      rw [hdims.1] at hrow
      exact ⟨by rw [hnone], type_eq_matrix hrank.1 (by simpa using hrank.2.2.1) helement, hrow⟩
  | _ => cases h

theorem matchTranspose_eq (h : matchTranspose defs op = some t) :
    op = .transpose t.vector [1, 0] ∧
      types defs t.vector = ⟨[t.rows, t.columns], false, .intOrFloat t.elementBits⟩ := by
  cases op with
  | transpose vector permutation =>
    simp only [matchTranspose] at h
    split_ifs at h with hrank
    split at h
    · cases h
    · next elementBits helement =>
      obtain rfl := Option.some.inj h
      push Not at hrank
      exact ⟨by rw [hrank.2.2], type_eq_matrix hrank.1 (by simpa using hrank.2.1) helement⟩
  | _ => cases h

theorem matchTransposedReduction_eq (h : matchTransposedReduction defs op = some (m, column, acc')) :
    ∃ vector transposed, op = .reduction m.kind vector acc' none ∧
      getDefiningOp defs vector = some (.extract transposed [.static column]) ∧
      getDefiningOp defs transposed = some (.transpose m.source [1, 0]) ∧
      types defs m.source = ⟨[m.rows, m.columns], false, .intOrFloat m.elementBits⟩ ∧
      column < m.columns ∧ dimSize (types defs vector).shape 0 = m.rows := by
  cases op with
  | reduction kind vector acc mask =>
    simp only [matchTransposedReduction] at h
    split_ifs at h with hmask
    split at h
    · next transposed position hextract =>
      split at h
      · next source permutation htranspose =>
        split_ifs at h with hperm hrank
        split at h
        · cases h
        · next elementBits helement =>
          obtain ⟨rfl, hpair⟩ := Prod.mk.inj (Option.some.inj h)
          obtain ⟨rfl, rfl⟩ := Prod.mk.inj hpair
          push Not at hperm hrank
          have hnone : mask = none := by simpa using hmask
          have hposition : ((position.toNat : ℕ) : ℤ) = position :=
            Int.toNat_of_nonneg hrank.2.2.1
          refine ⟨vector, transposed, by rw [hnone], by rw [hextract, hposition],
            by rw [htranspose, hperm], type_eq_matrix hrank.1 (by simpa using hrank.2.1) helement,
            ?_, hrank.2.2.2.2.2⟩
          have hlt := hrank.2.2.2.1
          change position.toNat < dimSize (types defs source).shape 1
          omega
      · cases h
    · cases h
  | _ => cases h

end Matches

/-! What a pattern creates. -/

section Created

variable {vscale : ℤ} {rows elementBits sveLanes long short : ℕ} {lanes : ℤ}

theorem reductionLanes_replaced (h : reductionLanes vscale rows elementBits = .replaced sveLanes) :
    0 < sveLanes ∧ ∃ k, 0 < k ∧ rows = k * sveLanes := by
  rw [reductionLanes] at h
  split at h
  · cases h
  · next lanes _ =>
    split_ifs at h with hdeclined
    cases h
    push Not at hdeclined
    obtain ⟨-, hpos, hle, hmod⟩ := hdeclined
    obtain ⟨k, rfl⟩ := Int.eq_ofNat_of_zero_le (show 0 ≤ lanes by omega)
    obtain ⟨q, hq⟩ := Int.natCast_dvd_natCast.mp (Int.dvd_of_tmod_eq_zero hmod)
    rw [Int.toNat_natCast]
    refine ⟨by omega, q, Nat.pos_of_ne_zero fun hz => ?_, by rw [hq, Nat.mul_comm]⟩
    rw [hz, Nat.mul_zero] at hq
    omega

theorem nativeLanes_nonneg (h : nativeLanes vscale elementBits = some lanes) (hvscale : ¬vscale < 1) :
    0 ≤ lanes := by
  rw [nativeLanes] at h
  split_ifs at h
  rw [← Option.some.inj h]
  exact Int.tdiv_nonneg (by omega) (Int.natCast_nonneg _)

theorem isChunked_eq_true (h : isChunked long short lanes = some true) (hlanes : 0 ≤ lanes) :
    short = 2 ∧ lanes < long ∧ 0 < lanes.toNat ∧ ∃ k, long = k * lanes.toNat := by
  rw [isChunked] at h
  split_ifs at h with hlong hzero
  · obtain ⟨l, rfl⟩ := Int.eq_ofNat_of_zero_le hlanes
    have hmod : (long : ℤ).tmod l = 0 := by simpa using h
    obtain ⟨q, hq⟩ := Int.natCast_dvd_natCast.mp (Int.dvd_of_tmod_eq_zero hmod)
    refine ⟨hlong.1, hlong.2, ?_, q, ?_⟩
    · rw [Int.toNat_natCast]
      omega
    · rw [Int.toNat_natCast, hq, Nat.mul_comm]
  · simp at h

theorem isNative_eq {a b : ℕ} (h : nativeLanes vscale elementBits = some lanes) :
    isNative vscale ⟨[a, b], false, .intOrFloat elementBits⟩ = true ↔
      (a : ℤ) = lanes ∧ b = 2 ∨ a = 2 ∧ (b : ℤ) = lanes := by
  simp [isNative, h, dimSize]

variable [Inhabited α] {A : Arith K α} {front back : Block K α} {id n v : ℕ} {op : Op K α}
  {rw : Rewriter K α} {x : Vec α} {e : ElementType} {k : ℕ}

theorem isMatrix_of_type {a b : ℕ} (h : x.type = ⟨[a, b], false, e⟩) :
    IsMatrix x a b e fun i j => x.get [i, j] := ⟨h, fun _ _ _ _ => rfl⟩

theorem isRow_of_type {a : ℕ} (h : x.type = ⟨[a], false, e⟩) : IsRow x a e fun i => x.get [i] :=
  ⟨h, fun _ _ => rfl⟩

theorem holds_matrix {v a b : ℕ} (hv : v ∈ ids front)
    (htype : types front v = ⟨[a, b], false, e⟩) :
    Holds A (⟨n, front⟩ : Rewriter K α) v fun x =>
      IsMatrix x a b e fun i j => (run A front v).get [i, j] :=
  ⟨hv, isMatrix_of_type ((type_run A _ _).trans htype)⟩

/-- The created operations have the value of the operation, and a smaller weight. -/
structure Lowers (A : Arith K α) (vscale : ℤ) (front : Block K α) (n : ℕ) (op : Op K α)
    (rw : Rewriter K α) (v : ℕ) : Prop where
  lighter : ∃ k < weight vscale front op, Extends (weight vscale) ⟨n, front⟩ rw k
  value : Holds A rw v fun x => x = op.eval A (run A front)
  plain : dimSize (op.resultType (types front)).shape 0 = 0 ∨ Plain rw v

theorem chunkTranspose_lowers (hready : Ready (⟨n, front⟩ : Rewriter K α))
    (hoperands : ∀ u ∈ op.operands, u ∈ ids front)
    (h : chunkTransposePattern vscale ⟨n, front⟩ op = .replaced (rw, v)) :
    Lowers A vscale front n op rw v := by
  rw [chunkTransposePattern] at h
  split at h
  · cases h
  · next m hmatch =>
    obtain ⟨rfl, htype⟩ := matchTranspose_eq hmatch
    split_ifs at h with hvscale
    split at h
    · cases h
    · next lanes hlanes =>
      split at h
      · next rowsAreChunked columnsAreChunked hrows hcolumns =>
        split_ifs at h with hnone
        obtain ⟨rfl, rfl⟩ := Prod.ext_iff.mp (Outcome.replaced.inj h)
        have hnonneg := nativeLanes_nonneg hlanes hvscale
        have hcut : isChunked (longDimension m rowsAreChunked) (shortDimension m rowsAreChunked)
            lanes = some true := by
          cases rowsAreChunked with
          | true => exact hrows
          | false =>
            cases columnsAreChunked with
            | true => exact hcolumns
            | false => exact absurd rfl hnone
        obtain ⟨hshort, hlt, hpos, k, hlong⟩ := isChunked_eq_true hcut hnonneg
        have htoNat : ((lanes.toNat : ℕ) : ℤ) = lanes := Int.toNat_of_nonneg hnonneg
        have hvector := holds_matrix (A := A) (n := n) (hoperands _ (mem_singleton.mpr rfl)) htype
        obtain ⟨he, hplain, hvalue⟩ := @chunkTranspose_spec K α _ A vscale ⟨n, front⟩ m
          lanes.toNat k _ rowsAreChunked hready hpos (by rw [htoNat]; exact hlanes) hvector hlong
          hshort
        refine ⟨⟨k, ?_, he⟩, ⟨hvalue.1, hvalue.2.unique (transpose_eval hvector.2)⟩, .inr hplain⟩
        have hdims : m.rows = longDimension m rowsAreChunked ∧ m.columns = 2 ∨
            m.rows = 2 ∧ m.columns = longDimension m rowsAreChunked := by
          cases rowsAreChunked with
          | true => exact .inl ⟨rfl, hshort⟩
          | false => exact .inr ⟨hshort, rfl⟩
        have hnative : ¬isNative vscale (types front m.vector) = true := by
          rw [htype, isNative_eq hlanes]
          omega
        have hle : k ≤ k * lanes.toNat := Nat.le_mul_of_pos_right k hpos
        rw [weight, if_neg hnative, htype]
        simp only [dimSize, getD_cons_zero, getD_cons_succ]
        rcases hdims with ⟨hr, hc⟩ | ⟨hr, hc⟩
        · rw [hc, hr, hlong]
          omega
        · rw [hr, hc, hlong]
          omega
      · cases h

theorem lowerNativeTranspose_lowers (hready : Ready (⟨n, front⟩ : Rewriter K α))
    (hoperands : ∀ u ∈ op.operands, u ∈ ids front)
    (h : lowerNativeTransposePattern vscale ⟨n, front⟩ op = .replaced (rw, v)) :
    Lowers A vscale front n op rw v := by
  rw [lowerNativeTransposePattern] at h
  split at h
  · cases h
  · next m hmatch =>
    obtain ⟨rfl, htype⟩ := matchTranspose_eq hmatch
    split_ifs at h with hvscale
    split at h
    · cases h
    · next lanes hlanes =>
      split_ifs at h with hshape
      cases h
      have hnonneg := nativeLanes_nonneg hlanes hvscale
      have hvector := holds_matrix (A := A) (n := n) (hoperands _ (mem_singleton.mpr rfl)) htype
      have hnativeShape : m.rows = lanes.toNat ∧ m.columns = 2 ∨
          m.rows = 2 ∧ m.columns = lanes.toNat := by omega
      obtain ⟨he, hplain, hvalue⟩ := @lowerNativeTranspose_spec K α _ A vscale ⟨n, front⟩ m
        lanes.toNat _ hready hvector hnativeShape
      refine ⟨⟨0, ?_, he⟩, ⟨hvalue.1, hvalue.2.unique (transpose_eval hvector.2)⟩, .inr hplain⟩
      rw [weight]
      split_ifs
      · exact Nat.one_pos
      · omega

variable [∀ kind, Std.Associative (A.combine kind)] [∀ kind, Std.Commutative (A.combine kind)]

theorem lowerOuterReduction_lowers (hready : Ready (⟨n, front⟩ : Rewriter K α))
    (hoperands : ∀ u ∈ op.operands, u ∈ ids front)
    (h : lowerOuterReductionPattern vscale ⟨n, front⟩ op = .replaced (rw, v)) :
    Lowers A vscale front n op rw v := by
  rw [lowerOuterReductionPattern] at h
  split at h
  · cases h
  · next m acc hmatch =>
    obtain ⟨rfl, htype, hacc⟩ := matchOuterReduction_eq hmatch
    split at h
    · cases h
    · cases h
    · next sveLanes hlanes =>
      obtain ⟨rfl, rfl⟩ := Prod.ext_iff.mp (Outcome.replaced.inj h)
      obtain ⟨hpos, k, hk, hrows⟩ := reductionLanes_replaced hlanes
      have hsource := holds_matrix (A := A) (n := n) (hoperands m.source (by simp [Op.operands])) htype
      have haccumulator : Holds A (⟨n, front⟩ : Rewriter K α) acc fun x =>
          IsRow x m.columns (types front acc).elementType fun i => (run A front acc).get [i] :=
        ⟨hoperands _ (by simp [Op.operands]), isRow_of_type ((type_run A _ _).trans hacc)⟩
      obtain ⟨he, hplain, hvalue⟩ := @lowerOuterReduction_spec K α _ A vscale ⟨n, front⟩ m sveLanes
        acc k _ _ _ _ _ hready hsource haccumulator hpos hk hrows
      refine ⟨⟨0, Nat.one_pos, he⟩,
        ⟨hvalue.1, hvalue.2.unique (multiReduction_eval hsource.2 haccumulator.2)⟩,
        hplain.imp_left fun hcolumns => ?_⟩
      rw [Op.resultType, hacc, hcolumns]
      rfl

theorem fuseTransposeReduction_lowers (hready : Ready (⟨n, front⟩ : Rewriter K α))
    (hoperands : ∀ u ∈ op.operands, u ∈ ids front)
    (h : fuseTransposeReductionPattern vscale ⟨n, front⟩ op = .replaced (rw, v)) :
    Lowers A vscale front n op rw v := by
  rw [fuseTransposeReductionPattern] at h
  split at h
  · cases h
  · next m column acc hmatch =>
    obtain ⟨vector, transposed, rfl, hextract, htranspose, htype, hcolumn, hdim⟩ :=
      matchTransposedReduction_eq hmatch
    split at h
    · cases h
    · cases h
    · next sveLanes hlanes =>
      obtain ⟨rfl, rfl⟩ := Prod.ext_iff.mp (Outcome.replaced.inj h)
      obtain ⟨hpos, k, hk, hrows⟩ := reductionLanes_replaced hlanes
      have htransposed := mem_of_getDefiningOp htranspose
      have hvector := mem_of_getDefiningOp hextract
      have hmem : m.source ∈ ids front := by
        obtain ⟨a, b, rfl, -, -, hin, -⟩ := hready.dominance.mem htransposed
        rw [ids_append]
        exact mem_append_left _ (hin _ (mem_singleton.mpr rfl))
      have hsource := holds_matrix (A := A) (n := n) hmem htype
      obtain ⟨he, hplain, hvalue⟩ := @fuseTransposeReduction_spec K α _ A vscale ⟨n, front⟩ m
        sveLanes column k _ _ _ hready hsource hcolumn acc
        (fun a ha => hoperands a (by simp [Op.operands, Option.mem_def.mp ha])) hpos hk hrows
      have hcolumns := @transpose_eval K α _ A (run A front) _ _ _ _ _ hsource.2
      rw [← hready.dominance.run_eq htransposed] at hcolumns
      have hrow := @extractRow_eval K α _ A (run A front) _ _ _ _ _ _ hcolumns hcolumn
      rw [← hready.dominance.run_eq hvector] at hrow
      refine ⟨⟨0, ?_, he⟩, ⟨hvalue.1, hvalue.2.unique (reduction_eval hrow)⟩, .inr hplain⟩
      have hpositive : 0 < m.rows := hrows ▸ Nat.mul_pos hk hpos
      rw [weight, hextract, hdim, if_pos ⟨rfl, hpositive⟩]
      exact Nat.one_pos

theorem matchAndRewrite_lowers {p : Pattern} (hready : Ready (⟨n, front⟩ : Rewriter K α))
    (hoperands : ∀ u ∈ op.operands, u ∈ ids front)
    (h : p.matchAndRewrite vscale ⟨n, front⟩ op = .replaced (rw, v)) :
    Lowers A vscale front n op rw v := by
  cases p with
  | lowerOuterReduction => exact lowerOuterReduction_lowers hready hoperands h
  | fuseTransposeReduction => exact fuseTransposeReduction_lowers hready hoperands h
  | chunkTranspose => exact chunkTranspose_lowers hready hoperands h
  | lowerNativeTranspose => exact lowerNativeTranspose_lowers hready hoperands h

end Created

/-! One rewrite in a block. -/

/-- One pattern applied to one operation of a block. -/
inductive Step (vscale : ℤ) : Block K α → Block K α → Prop where
  | rewrite (p : Pattern) {front back : Block K α} {id v : ℕ} {op : Op K α} {rw : Rewriter K α}
      (h : p.matchAndRewrite vscale ⟨freshId (front ++ (id, op) :: back), front⟩ op =
        .replaced (rw, v)) :
      Step vscale (front ++ (id, op) :: back) (rw.defs ++ Block.rename (redirect id v) back)

/-- The pattern declines, or the block keeps its values under the new numbers. -/
def Correct [Inhabited α] (A : Arith K α) (p : Pattern) (vscale : ℤ) (front : Block K α) (id : ℕ)
    (op : Op K α) (back : Block K α) : Prop :=
  match p.matchAndRewrite vscale ⟨freshId (front ++ (id, op) :: back), front⟩ op with
  | .failure => True
  | .undefined => False
  | .replaced (rw, v) =>
    Scoped (rw.defs ++ Block.rename (redirect id v) back) ∧
      ∀ u ∈ ids (front ++ (id, op) :: back),
        redirect id v u ∈ ids (rw.defs ++ Block.rename (redirect id v) back) ∧
        run A (rw.defs ++ Block.rename (redirect id v) back) (redirect id v u) =
          run A (front ++ (id, op) :: back) u

section Steps

variable {vscale : ℤ} {defs defs' front back : Block K α} {id n v k : ℕ} {op op' : Op K α}
  {rw : Rewriter K α}

theorem lt_freshId_of_mem {u : ℕ} (h : u ∈ ids defs) : u < freshId defs := by
  obtain ⟨op, hop⟩ := exists_of_mem_ids h
  exact lt_freshId hop mem_cons_self

theorem isExtract_rename (op : Op K α) (σ : ℕ → ℕ) : isExtract (op.rename σ) = isExtract op := by
  cases op <;> rfl

theorem ready_front (hscoped : Scoped (front ++ (id, op) :: back)) :
    Ready (⟨freshId (front ++ (id, op) :: back), front⟩ : Rewriter K α) :=
  ⟨hscoped.left, fun u hu => lt_freshId_of_mem (by
    rw [ids_append]
    exact mem_append_left _ hu)⟩

variable [Inhabited α] {A : Arith K α}

theorem weight_redirect (hscoped : Scoped (front ++ (id, op) :: back))
    (hfresh : ∀ u ∈ ids (front ++ (id, op) :: back), u < n)
    (hlowers : Lowers A vscale front n op rw v)
    (hoperands : ∀ u ∈ op'.operands, u ∈ ids (front ++ (id, op) :: back)) :
    weight vscale (rw.defs ++ Block.rename (redirect id v) back) (op'.rename (redirect id v)) ≤
      weight vscale (front ++ (id, op) :: back) op' := by
  obtain ⟨k, -, he⟩ := hlowers.lighter
  obtain ⟨hscoped', hvalues⟩ := replace_spec hscoped hfresh he hlowers.value
  have htypes : ∀ u ∈ ids (front ++ (id, op) :: back),
      types (rw.defs ++ Block.rename (redirect id v) back) (redirect id v u) =
        types (front ++ (id, op) :: back) u := fun u hu => by
    rw [← type_run A, ← type_run A, (hvalues u hu).2]
  cases op' with
  | reduction kind vector acc mask =>
    have hvector := hoperands vector (by simp [Op.operands])
    suffices hextract : (getDefiningOp (rw.defs ++ Block.rename (redirect id v) back)
        (redirect id v vector)).any isExtract = true ∧
          0 < dimSize (types (rw.defs ++ Block.rename (redirect id v) back)
            (redirect id v vector)).shape 0 →
        (getDefiningOp (front ++ (id, op) :: back) vector).any isExtract = true ∧
          0 < dimSize (types (front ++ (id, op) :: back) vector).shape 0 by
      rw [Op.rename, weight, weight]
      split_ifs with hnew hold
      · exact le_rfl
      · exact absurd (hextract hnew) hold
      · exact Nat.zero_le _
      · exact le_rfl
    rw [htypes vector hvector]
    rintro ⟨hany, hpos⟩
    refine ⟨?_, hpos⟩
    by_cases hid : vector = id
    · rw [hid, redirect, if_pos rfl, getDefiningOp_append hlowers.value.1] at hany
      rw [hid, ← type_run A, hscoped.run_def, Op.eval, Vec.type_ofFn] at hpos
      simp only [type_run] at hpos
      rcases hlowers.plain with hzero | hplain
      · exact absurd hzero hpos.ne'
      · exact absurd (hplain.symm.trans hany) Bool.false_ne_true
    · rw [redirect, if_neg hid] at hany
      obtain ⟨op1, hop1⟩ := exists_of_mem_ids hvector
      rw [hscoped.getDefiningOp hop1, Option.any_some]
      rcases mem_append.mp hop1 with hfront | hback
      · obtain ⟨created, heq, -⟩ := he.created
        have hmem : (vector, op1) ∈ rw.defs ++ Block.rename (redirect id v) back := by
          rw [heq]
          exact mem_append_left _ (mem_append_left _ hfront)
        rwa [hscoped'.getDefiningOp hmem, Option.any_some] at hany
      · have hback' : (vector, op1) ∈ back := (mem_cons.mp hback).resolve_left
          fun heq => hid (congrArg Prod.fst heq)
        have hmem : (vector, op1.rename (redirect id v)) ∈
            rw.defs ++ Block.rename (redirect id v) back :=
          mem_append_right _ (mem_map.mpr ⟨_, hback', rfl⟩)
        rwa [hscoped'.getDefiningOp hmem, Option.any_some, isExtract_rename] at hany
  | transpose vector permutation =>
    have hvector := hoperands vector (mem_singleton.mpr rfl)
    rw [Op.rename, weight, weight, htypes vector hvector]
  | _ => exact le_rfl

theorem cost_redirect (hscoped : Scoped (front ++ (id, op) :: back))
    (hfresh : ∀ u ∈ ids (front ++ (id, op) :: back), u < n)
    (hlowers : Lowers A vscale front n op rw v) :
    cost (weight vscale) rw.defs (Block.rename (redirect id v) back) ≤
      cost (weight vscale) (front ++ [(id, op)]) back := by
  induction back using List.reverseRecOn with
  | nil => exact le_rfl
  | append_singleton back d ih =>
    have hrename : Block.rename (redirect id v) (back ++ [d]) =
        Block.rename (redirect id v) back ++ [(d.1, d.2.rename (redirect id v))] :=
      map_append
    rw [← cons_append, ← append_assoc] at hscoped hfresh
    have hfresh' : ∀ u ∈ ids (front ++ (id, op) :: back), u < n := fun u hu =>
      hfresh u (by rw [ids_append]; exact mem_append_left _ hu)
    rw [hrename, cost_append, cost_append]
    refine Nat.add_le_add (ih hscoped.left hfresh') ?_
    have hweight := @weight_redirect K α vscale front back id n v op d.2 rw _ A hscoped.left hfresh'
      hlowers (hscoped (front ++ (id, op) :: back) d [] rfl).2
    rw [cost, cost, cost, cost, Nat.add_zero, Nat.add_zero, append_assoc,
      singleton_append]
    exact hweight

variable [∀ kind, Std.Associative (A.combine kind)] [∀ kind, Std.Commutative (A.combine kind)]

theorem step_spec (hscoped : Scoped defs) (h : Step vscale defs defs') :
    Scoped defs' ∧ cost (weight vscale) [] defs' < cost (weight vscale) [] defs ∧
      ∃ σ : ℕ → ℕ, ∀ u ∈ ids defs, σ u ∈ ids defs' ∧ run A defs' (σ u) = run A defs u := by
  obtain ⟨p, hp⟩ := h
  next front back id v op rw =>
  have hlowers := @matchAndRewrite_lowers K α vscale _ A front _ v op rw _ _ p
    (ready_front hscoped) (hscoped front (id, op) back rfl).2 hp
  have hfresh : ∀ u ∈ ids (front ++ (id, op) :: back), u < freshId (front ++ (id, op) :: back) :=
    fun u hu => lt_freshId_of_mem hu
  obtain ⟨k, hk, he⟩ := hlowers.lighter
  obtain ⟨hscoped', hvalues⟩ := replace_spec hscoped hfresh he hlowers.value
  refine ⟨hscoped', ?_, _, hvalues⟩
  obtain ⟨created, heq, -, hcost⟩ := he.created
  have hback := cost_redirect hscoped hfresh hlowers
  rw [cost_append, heq, cost_append, cost_append, cost, nil_append]
  rw [heq] at hback
  simp only [nil_append] at hcost hback ⊢
  omega

end Steps

/-! When the patterns are defined. -/

def LanesDefined (vscale : ℤ) (elementBits : ℕ) : Prop :=
  -2 ^ 63 ≤ 128 * vscale ∧ 128 * vscale < 2 ^ 63 ∧ elementBits ≠ 0

/-- Where a pattern computes the lanes they are defined; where `ChunkTranspose` divides by
them there is one. -/
def Pattern.Defined : Pattern → ℤ → Block K α → Op K α → Prop
  | .lowerOuterReduction, vscale, front, op =>
    ∀ m acc, matchOuterReduction front op = some (m, acc) → LanesDefined vscale m.elementBits
  | .fuseTransposeReduction, vscale, front, op => ∀ m column acc,
    matchTransposedReduction front op = some (m, column, acc) → LanesDefined vscale m.elementBits
  | .chunkTranspose, vscale, front, op => ∀ m, matchTranspose front op = some m → 1 ≤ vscale →
    LanesDefined vscale m.elementBits ∧
      (128 * vscale < m.elementBits →
        ¬(m.columns = 2 ∧ 0 < m.rows) ∧ ¬(m.rows = 2 ∧ 0 < m.columns))
  | .lowerNativeTranspose, vscale, front, op => ∀ m, matchTranspose front op = some m →
    1 ≤ vscale → LanesDefined vscale m.elementBits

section Defined

variable {vscale : ℤ} {defs front back : Block K α} {id n v elementBits rows : ℕ} {op : Op K α}
  {p : Pattern}

theorem nativeLanes_isSome : nativeLanes vscale elementBits ≠ none ↔
    LanesDefined vscale elementBits := by
  rw [nativeLanes]
  split_ifs with h
  · exact ⟨fun _ => h, fun _ => Option.some_ne_none _⟩
  · exact ⟨fun hne => absurd rfl hne, fun hdefined => absurd hdefined h⟩

theorem nativeLanes_cases (vscale : ℤ) (elementBits : ℕ) :
    nativeLanes vscale elementBits = none ∧ ¬LanesDefined vscale elementBits ∨
      ∃ lanes, nativeLanes vscale elementBits = some lanes ∧ LanesDefined vscale elementBits := by
  rw [nativeLanes]
  split_ifs with h
  · exact Or.inr ⟨_, rfl, h⟩
  · exact Or.inl ⟨rfl, h⟩

theorem reductionLanes_undefined : reductionLanes vscale rows elementBits = .undefined ↔
    nativeLanes vscale elementBits = none := by
  rw [reductionLanes]
  split
  · next h => simp [h]
  · next h =>
    rw [h]
    split_ifs <;> simp

theorem isChunked_eq_none {long short : ℕ} {lanes : ℤ} :
    isChunked long short lanes = none ↔ lanes = 0 ∧ short = 2 ∧ 0 < long := by
  rw [isChunked]
  split_ifs with h hzero
  · simp only [true_iff]
    omega
  · simp only [false_iff]
    omega
  · simp only [false_iff]
    omega

theorem nativeLanes_eq_zero {lanes : ℤ} (h : nativeLanes vscale elementBits = some lanes)
    (hvscale : 1 ≤ vscale) : lanes = 0 ↔ 128 * vscale < elementBits := by
  rw [nativeLanes] at h
  split_ifs at h with hdefined
  rw [← Option.some.inj h]
  obtain ⟨x, hx⟩ := Int.eq_ofNat_of_zero_le (show 0 ≤ 128 * vscale by omega)
  rw [hx, ← Int.ofNat_tdiv]
  have hpos : 0 < elementBits := Nat.pos_of_ne_zero hdefined.2.2
  have hdiv : x / elementBits = 0 ↔ x < elementBits := Nat.div_eq_zero_iff_lt hpos
  omega

theorem undefined_iff (p : Pattern) (rw : Rewriter K α) (op : Op K α) :
    p.matchAndRewrite vscale rw op = .undefined ↔ ¬p.Defined vscale rw.defs op := by
  cases p with
  | lowerOuterReduction =>
    simp only [Pattern.matchAndRewrite, lowerOuterReductionPattern, Pattern.Defined]
    cases hmatch : matchOuterReduction rw.defs op with
    | none => simp
    | some r =>
      obtain ⟨m, acc⟩ := r
      have hlanes := @reductionLanes_undefined vscale m.elementBits m.rows
      cases h : reductionLanes vscale m.rows m.elementBits <;>
        simp_all [← nativeLanes_isSome]
  | fuseTransposeReduction =>
    simp only [Pattern.matchAndRewrite, fuseTransposeReductionPattern, Pattern.Defined]
    cases hmatch : matchTransposedReduction rw.defs op with
    | none => simp
    | some r =>
      obtain ⟨m, column, acc⟩ := r
      have hlanes := @reductionLanes_undefined vscale m.elementBits m.rows
      cases h : reductionLanes vscale m.rows m.elementBits <;>
        simp_all [← nativeLanes_isSome]
  | chunkTranspose =>
    simp only [Pattern.matchAndRewrite, chunkTransposePattern, Pattern.Defined]
    cases hmatch : matchTranspose rw.defs op with
    | none => simp
    | some m =>
      by_cases hvscale : vscale < 1
      · simp [hvscale, not_le.mpr hvscale]
      · have hone : 1 ≤ vscale := by omega
        rcases nativeLanes_cases vscale m.elementBits with ⟨hlanes, hnot⟩ | ⟨lanes, hlanes, hdefined⟩
        · simp [hvscale, hone, hnot, hlanes]
        · have hzero := nativeLanes_eq_zero hlanes hone
          have hrows := @isChunked_eq_none m.rows m.columns lanes
          have hcolumns := @isChunked_eq_none m.columns m.rows lanes
          simp only [hvscale, if_false, Option.some.injEq, forall_eq', hone, forall_const, hdefined,
            true_and]
          cases hr : isChunked m.rows m.columns lanes <;>
            cases hc : isChunked m.columns m.rows lanes
          · simp_all
          · simp_all
          · simp_all
          · simp only [hr, hc, reduceCtorEq, false_iff] at hrows hcolumns
            simp only [hlanes, hr, hc]
            constructor
            · intro h
              split_ifs at h
            · refine fun hnot => absurd (fun hwide => ⟨fun h => hrows ?_, fun h => hcolumns ?_⟩) hnot
              · exact ⟨hzero.mpr hwide, h⟩
              · exact ⟨hzero.mpr hwide, h⟩
  | lowerNativeTranspose =>
    simp only [Pattern.matchAndRewrite, lowerNativeTransposePattern, Pattern.Defined]
    cases hmatch : matchTranspose rw.defs op with
    | none => simp
    | some m =>
      by_cases hvscale : vscale < 1
      · simp [hvscale, not_le.mpr hvscale]
      · have hone : 1 ≤ vscale := by omega
        rcases nativeLanes_cases vscale m.elementBits with ⟨hlanes, hnot⟩ | ⟨lanes, hlanes, hdefined⟩
        · simp [hvscale, hone, hnot, hlanes]
        · simp only [hvscale, if_false, Option.some.injEq, forall_eq', hone, forall_const, hdefined,
            not_true_eq_false, iff_false, hlanes]
          split_ifs <;> simp

end Defined

/-! All runs. -/

section Runs

variable [Inhabited α] {A : Arith K α} {vscale : ℤ} {defs defs' front back : Block K α} {id : ℕ}
  {op : Op K α} [∀ kind, Std.Associative (A.combine kind)]
  [∀ kind, Std.Commutative (A.combine kind)]

theorem correct_iff (hscoped : Scoped (front ++ (id, op) :: back)) (p : Pattern) :
    Correct A p vscale front id op back ↔ p.Defined vscale front op := by
  have hundefined := @undefined_iff K α vscale p ⟨freshId (front ++ (id, op) :: back), front⟩ op
  rw [Correct]
  split
  · next h =>
    rw [h] at hundefined
    simpa using hundefined
  · next h =>
    rw [h] at hundefined
    simpa using hundefined
  · next rw v h =>
    rw [h] at hundefined
    have hlowers := @matchAndRewrite_lowers K α vscale _ A front _ v op rw _ _ p
      (ready_front hscoped) (hscoped front (id, op) back rfl).2 h
    obtain ⟨k, -, he⟩ := hlowers.lighter
    have hreplaced := replace_spec hscoped (fun u hu => lt_freshId_of_mem hu) he hlowers.value
    exact iff_of_true hreplaced (by simpa using hundefined)

theorem steps_end (A : Arith K α) [∀ kind, Std.Associative (A.combine kind)]
    [∀ kind, Std.Commutative (A.combine kind)] (hscoped : Scoped defs) :
    Acc (fun after before => Step vscale before after) defs := by
  induction hcost : cost (weight vscale) [] defs using Nat.strong_induction_on generalizing defs with
  | _ n ih =>
    refine .intro defs fun after hstep => ?_
    obtain ⟨hscoped', hlt, -⟩ := @step_spec K α vscale _ _ _ A _ _ hscoped hstep
    exact ih _ (hcost ▸ hlt) hscoped' rfl

theorem steps_values (hscoped : Scoped defs)
    (h : Relation.ReflTransGen (Step vscale) defs defs') :
    Scoped defs' ∧
      ∃ σ : ℕ → ℕ, ∀ u ∈ ids defs, σ u ∈ ids defs' ∧ run A defs' (σ u) = run A defs u := by
  induction h with
  | refl => exact ⟨hscoped, fun u => u, fun u hu => ⟨hu, rfl⟩⟩
  | tail _ hstep ih =>
    obtain ⟨hmiddle, σ, hσ⟩ := ih
    obtain ⟨hafter, -, τ, hτ⟩ := @step_spec K α vscale _ _ _ A _ _ hmiddle hstep
    refine ⟨hafter, τ ∘ σ, fun u hu => ?_⟩
    obtain ⟨hmem, hvalue⟩ := hσ u hu
    obtain ⟨hmem', hvalue'⟩ := hτ (σ u) hmem
    exact ⟨hmem', hvalue'.trans hvalue⟩

end Runs

/-- A pattern declines or keeps every value of the block exactly when it is defined there;
any run of the four patterns ends, and every block of a run has the values of the first. -/
theorem sve_patterns [Inhabited α] (A : Arith K α) [∀ kind, Std.Associative (A.combine kind)]
    [∀ kind, Std.Commutative (A.combine kind)] (vscale : ℤ) :
    (∀ (front back : Block K α) (id : ℕ) (op : Op K α), Scoped (front ++ (id, op) :: back) →
      ∀ p : Pattern, Correct A p vscale front id op back ↔ p.Defined vscale front op) ∧
    ∀ defs : Block K α, Scoped defs →
      Acc (fun after before => Step vscale before after) defs ∧
      ∀ defs', Relation.ReflTransGen (Step vscale) defs defs' → Scoped defs' ∧
        ∃ σ : ℕ → ℕ, ∀ u ∈ ids defs, σ u ∈ ids defs' ∧ run A defs' (σ u) = run A defs u :=
  ⟨fun _ _ _ _ hscoped p => correct_iff hscoped p,
    fun _ hscoped => ⟨steps_end A hscoped, fun _ h => steps_values hscoped h⟩⟩

/-! A transpose of eight rows, and one of wide integers. -/

section Samples

def sumArith : Arith Unit ℤ := ⟨fun _ => (· + ·), 0, fun a => a != 0, Int.toNat⟩

instance (kind : Unit) : Std.Associative (sumArith.combine kind) := ⟨add_assoc⟩

instance (kind : Unit) : Std.Commutative (sumArith.combine kind) := ⟨add_comm⟩

/-- An argument of the block with `rows` by two elements. -/
def argument (rows elementBits : ℕ) : Block Unit ℤ :=
  [(0, .other ⟨[rows, 2], false, .intOrFloat elementBits⟩ [] fun _ idx => idx.sum)]

theorem transpose_scoped (rows elementBits : ℕ) :
    Scoped (argument rows elementBits ++ [(1, .transpose 0 [1, 0])]) := by
  have hnil : Scoped ([] : Block Unit ℤ) := fun front d back h => by simp at h
  have hargument : Scoped (argument rows elementBits) :=
    hnil.snoc not_mem_nil fun u hu => absurd hu not_mem_nil
  exact hargument.snoc (by simp [argument, ids]) (by simp [argument, ids, Op.operands])

theorem sve_patterns_sample :
    Correct sumArith .chunkTranspose 1 (argument 8 32) 1 (.transpose 0 [1, 0]) [] ∧
      Acc (fun after before => Step 1 before after)
        (argument 8 32 ++ [(1, .transpose 0 [1, 0])]) := by
  obtain ⟨hpatterns, hruns⟩ := sve_patterns sumArith 1
  refine ⟨(hpatterns _ _ _ _ (transpose_scoped 8 32) .chunkTranspose).mpr fun m hm _ => ?_,
    (hruns _ (transpose_scoped 8 32)).1⟩
  obtain rfl := Option.some.inj (show some ⟨0, 8, 2, 32⟩ = some m from hm)
  exact ⟨⟨by decide, by decide, by decide⟩, fun h => absurd h (by decide)⟩

/-- No lane holds a 256-bit integer when `vscale` is one, and the remainder divides by zero. -/
theorem wide_transpose_not_correct :
    ¬Correct sumArith .chunkTranspose 1 (argument 4 256) 1 (.transpose 0 [1, 0]) [] := by
  rw [correct_iff (transpose_scoped 4 256)]
  intro h
  exact ((h ⟨0, 4, 2, 256⟩ rfl le_rfl).2 (by decide)).1 ⟨rfl, by decide⟩

end Samples

end TritonCpu.OuterReductionSVE
