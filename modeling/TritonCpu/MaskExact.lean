import TritonCpu.MaskSound

/-!
# The box of a mask is exact

By induction on a mask expression its state is a mask whose box is the set of
the indices where the mask is true. A comparison is the base case; it changes
one size, and the marked dimensions are those it may empty.
-/

set_option autoImplicit false

namespace TritonCpu.MaskAnalysis
open Builder TritonIR OpFoldResult AnalysisStructured List

/-- The analysis compares by the signed order and takes a range to start at 0
or above. -/
def Compared (ρ : Env) (pred : CmpIPredicate) (lhs rhs : Value) : Prop :=
  ∀ idx, InBounds lhs.shape idx →
    (pred = .ult → unsignedLt (lhs.eval ρ idx) (rhs.eval ρ idx) =
      decide (lhs.eval ρ idx < rhs.eval ρ idx)) ∧ (pred = .sge → 0 ≤ lhs.eval ρ idx)

/-- A value of type `i1`. -/
def Bit (ρ : Env) (v : Value) : Prop :=
  ∀ idx, InBounds v.shape idx → v.eval ρ idx = 0 ∨ v.eval ρ idx = -1

/-- The masks, with the dimensions they may empty. -/
inductive MaskExpr (ρ : Env) : Value → List Bool → Prop
  | compareRange (id : ℕ) (pred : CmpIPredicate) (lhs rhs : Value) (hl : IntExpr lhs)
      (hr : IntExpr rhs) (hrange : uniform lhs = false) (h : Compared ρ pred lhs rhs) :
      MaskExpr ρ (.cmpi id pred lhs rhs) (lhs.shape.map fun n => decide (n ≠ 1))
  | compareScalars (id : ℕ) (pred : CmpIPredicate) (lhs rhs : Value) (hl : IntExpr lhs)
      (hr : IntExpr rhs) (hscalar : uniform lhs = true) (hsized : sized lhs = true)
      (h : literal lhs = true → literal rhs = true → pred = .ult → Compared ρ .ult lhs rhs) :
      MaskExpr ρ (.cmpi id pred lhs rhs) ((lhs.shape.map fun _ => false).set 0 true)
  | andMasks (id : ℕ) (lhs rhs : Value) (fl fr : List Bool) (hl : MaskExpr ρ lhs fl)
      (hr : MaskExpr ρ rhs fr) :
      MaskExpr ρ (.binary id .andi lhs rhs) (List.zipWith (fun a b => a || b) fl fr)
  | andScalarMask (id : ℕ) (c m : Value) (flags : List Bool) (hc : IntExpr c)
      (hscalar : uniform c = true) (hbit : Bit ρ c) (hm : MaskExpr ρ m flags) :
      MaskExpr ρ (.binary id .andi c m) flags
  | andMaskScalar (id : ℕ) (c m : Value) (flags : List Bool) (hc : IntExpr c)
      (hscalar : uniform c = true) (hbit : Bit ρ c) (hm : MaskExpr ρ m flags) :
      MaskExpr ρ (.binary id .andi m c) flags
  | expandDims (id : ℕ) (src : Value) (axis : ℕ) (flags : List Bool) (h : MaskExpr ρ src flags) :
      MaskExpr ρ (.expandDims id src axis) (flags.insertIdx axis false)
  | broadcast (id : ℕ) (src : Value) (shape : List ℕ) (flags : List Bool)
      (h : MaskExpr ρ src flags) (hkept : Kept src.shape shape flags) :
      MaskExpr ρ (.broadcast id src shape) flags

/-- What a state says of a mask. -/
structure Exact (ρ : Env) (v : Value) (flags : List Bool) (s : MaskState) : Prop where
  mask : s = { MaskState.empty with dims := s.dims }
  rank : s.dims.length = v.shape.length
  flags_length : flags.length = v.shape.length
  marked : true ∈ flags
  anchored : Anchored ρ s.dims flags
  bit : Bit ρ v
  box : ∀ idx, InBounds v.shape idx → (v.eval ρ idx ≠ 0 ↔ InBox ρ s.dims idx)

section Lists

variable {ρ : Env} {x y z : List OFR} {fx fy : List Bool} {idx : List ℕ}

theorem inBox_congr (h : x.map (OFR.eval ρ) = y.map (OFR.eval ρ)) :
    InBox ρ x idx ↔ InBox ρ y idx := by
  have hmap : ∀ l : List OFR, InBox ρ l idx ↔
      List.Forall₂ (fun (d : ℤ) (i : ℕ) => (i : ℤ) < d) (l.map (OFR.eval ρ)) idx := by
    intro l
    rw [forall₂_map_left_iff]
    rfl
  rw [hmap, hmap, h]

theorem anchored_congr (h : x.map (OFR.eval ρ) = y.map (OFR.eval ρ)) (ha : Anchored ρ x fx) :
    Anchored ρ y fx := by
  have hflags : ∀ l : List OFR, List.Forall₂ (fun d b => b = true → 0 < OFR.eval ρ d) l fx ↔
      List.Forall₂ (fun (d : ℤ) b => b = true → 0 < d) (l.map (OFR.eval ρ)) fx := by
    intro l
    rw [forall₂_map_left_iff]
  have hall : ∀ l : List OFR, (∀ d ∈ l, 0 < OFR.eval ρ d) ↔ ∀ k ∈ l.map (OFR.eval ρ), 0 < k := by
    intro l
    rw [forall_mem_map]
  unfold Anchored at ha ⊢
  rw [hflags, hall] at ha ⊢
  rwa [← h]

def IsMin (ρ : Env) (x y z : List OFR) : Prop :=
  z.map (OFR.eval ρ) = List.zipWith min (x.map (OFR.eval ρ)) (y.map (OFR.eval ρ))

theorem isMin_cons {a b c : OFR} (h : IsMin ρ (a :: x) (b :: y) (c :: z)) :
    c.eval ρ = min (a.eval ρ) (b.eval ρ) ∧ IsMin ρ x y z := by
  simpa [IsMin] using h

theorem isMin_length (hlen : x.length = y.length) (h : IsMin ρ x y z) : z.length = x.length := by
  have hz := congrArg List.length h
  simp only [length_map, length_zipWith] at hz
  omega

theorem inBox_min (hlen : x.length = y.length) (h : IsMin ρ x y z) :
    InBox ρ z idx ↔ InBox ρ x idx ∧ InBox ρ y idx := by
  have hz := isMin_length hlen h
  induction x generalizing y z idx with
  | nil =>
    rw [length_eq_zero_iff.mp hz, length_eq_zero_iff.mp hlen.symm]
    simp
  | cons a x ih =>
    cases y with
    | nil => simp at hlen
    | cons b y =>
      cases z with
      | nil => simp at hz
      | cons c z =>
        obtain ⟨hc, hmin⟩ := isMin_cons h
        cases idx with
        | nil => simp [InBox]
        | cons i is =>
          have htail : InBox ρ z is ↔ InBox ρ x is ∧ InBox ρ y is :=
            ih (by simpa using hlen) hmin (by simpa using hz)
          unfold InBox at htail ⊢
          rw [forall₂_cons, forall₂_cons, forall₂_cons, htail, hc, lt_min_iff]
          tauto

theorem anchored_min (hlen : x.length = y.length) (hx : fx.length = x.length)
    (hy : fy.length = y.length) (h : IsMin ρ x y z) (hax : Anchored ρ x fx)
    (hay : Anchored ρ y fy) : Anchored ρ z (List.zipWith (fun a b => a || b) fx fy) := by
  have hz := isMin_length hlen h
  -- a marked dimension is positive in the minimum, hence in both
  have hflags : ∀ {x y z : List OFR} {fx fy : List Bool}, x.length = y.length →
      fx.length = x.length → fy.length = y.length → z.length = x.length → IsMin ρ x y z →
      List.Forall₂ (fun d b => b = true → 0 < OFR.eval ρ d) z
        (List.zipWith (fun a b => a || b) fx fy) →
      List.Forall₂ (fun d b => b = true → 0 < OFR.eval ρ d) x fx ∧
        List.Forall₂ (fun d b => b = true → 0 < OFR.eval ρ d) y fy := by
    intro x
    induction x with
    | nil =>
      intro y z fx fy hlen hx hy hz _ _
      rw [length_eq_zero_iff.mp hlen.symm, length_eq_zero_iff.mp hx,
        length_eq_zero_iff.mp (hy.trans hlen.symm)]
      exact ⟨.nil, .nil⟩
    | cons a x ih =>
      intro y z fx fy hlen hx hy hz hmin hflags
      obtain ⟨b, y, rfl⟩ := exists_cons_of_length_eq_add_one hlen.symm
      obtain ⟨c, z, rfl⟩ := exists_cons_of_length_eq_add_one hz
      obtain ⟨p, fx, rfl⟩ := exists_cons_of_length_eq_add_one hx
      obtain ⟨q, fy, rfl⟩ := exists_cons_of_length_eq_add_one hy
      obtain ⟨hc, hmin⟩ := isMin_cons hmin
      rw [zipWith_cons_cons, forall₂_cons, hc, lt_min_iff, Bool.or_eq_true] at hflags
      obtain ⟨htx, hty⟩ := ih (by simpa using hlen) (by simpa using hx) (by simpa using hy)
        (by simpa using hz) hmin hflags.2
      exact ⟨.cons (fun hp => (hflags.1 (Or.inl hp)).1) htx,
        .cons (fun hq => (hflags.1 (Or.inr hq)).2) hty⟩
  intro hf
  obtain ⟨hfx, hfy⟩ := hflags hlen hx hy hz h hf
  have hpx := hax hfx
  have hpy := hay hfy
  intro d hd
  have hmem : d.eval ρ ∈ z.map (OFR.eval ρ) := mem_map_of_mem hd
  rw [h, zipWith_map, ← map_uncurry_zip_eq_zipWith] at hmem
  obtain ⟨⟨a, b⟩, hab, heq⟩ := mem_map.mp hmem
  rw [← heq]
  exact lt_min (hpx a (of_mem_zip hab).1) (hpy b (of_mem_zip hab).2)

theorem anchored_insertIdx {axis : ℕ} (hx : axis ≤ x.length) (h : Anchored ρ x fx) :
    Anchored ρ (x.insertIdx axis (.attr 1)) (fx.insertIdx axis false) := by
  intro hflags d hd
  rw [forall₂_insertIdx hx, eraseIdx_insertIdx_self] at hflags
  rw [mem_insertIdx hx] at hd
  rcases hd with rfl | hd
  · show (0 : ℤ) < 1
    decide
  · exact h hflags.2 d hd

end Lists

section Compare

variable {ρ : Env} {L R : MaskState} {pred : CmpIPredicate} {s : MaskState} {lhs rhs : Value}
  {pl pr : Build MaskState}

theorem returns_dimAt {dims : List OFR} {i : ℕ} {d : OFR} (h : Returns (dimAt dims i) d) :
    dims[i]? = some d := by
  unfold dimAt at h
  split at h
  next e he =>
    rw [returns_pure] at h
    rw [he, h]
  · exact absurd h (not_returns_stop _ _)

theorem returns_deref {o : Option OFR} {x : OFR} (h : Returns (deref o) x) : o = some x := by
  unfold deref at h
  split at h
  · rw [returns_pure] at h
    rw [h]
  · exact absurd h (not_returns_stop _ _)

theorem returns_findCmpDim_some {dims : List OFR} {i k : ℕ} {c r : Option ℕ} {d : OFR}
    (hd : dims[k]? = some d) (hone : getIntAttr d ≠ some 1)
    (h : Returns (findCmpDim dims i c) r) : r = some (i + k) := by
  have hkeep : ∀ (dims : List OFR) (i j : ℕ), Returns (findCmpDim dims i (some j)) r →
      r = some j := by
    intro dims
    induction dims with
    | nil =>
      intro i j h
      rw [findCmpDim, returns_pure] at h
      exact h
    | cons e es ih =>
      intro i j h
      rw [findCmpDim] at h
      split_ifs at h with he hne
      · exact ih (i + 1) j h
      · exact absurd h (not_returns_stop _ _)
      · simp at hne
  induction dims generalizing i k c with
  | nil => simp at hd
  | cons e es ih =>
    rw [findCmpDim] at h
    cases k with
    | zero =>
      cases hd
      rw [if_neg hone] at h
      split_ifs at h with hne
      · exact absurd h (not_returns_stop _ _)
      · exact hkeep es (i + 1) i h
    | succ k =>
      rw [List.getElem?_cons_succ] at hd
      split_ifs at h with he hne
      · rw [ih hd h]
        congr 1
        omega
      · exact absurd h (not_returns_stop _ _)
      · have hk := ih hd h
        rw [hkeep es (i + 1) i h, Option.some.injEq] at hk
        omega

theorem returns_findCmpDim_scalars {dims : List OFR} {i j : ℕ} {r : Option ℕ}
    (h : Returns (findCmpDim dims i (some j)) r) :
    r = some j ∧ ∀ d ∈ dims, getIntAttr d = some 1 := by
  induction dims generalizing i with
  | nil =>
    rw [findCmpDim, returns_pure] at h
    exact ⟨h, by simp⟩
  | cons e es ih =>
    rw [findCmpDim] at h
    split_ifs at h with he hne
    · obtain ⟨hr, hall⟩ := ih h
      rw [forall_mem_cons]
      exact ⟨hr, he, hall⟩
    · exact absurd h (not_returns_stop _ _)
    · simp at hne

theorem returns_parseCmp (h : Returns (parseCmp pred pl pr) s) :
    supported pred = true ∧ ∃ L R cmpDim newDim, Returns pl L ∧ Returns pr R ∧
      (pred = .sge → ∃ c, R.scalar = some c ∧ hasConstZero c = true) ∧
      Returns (findCmpDim L.dims 0 (if L.scalar.isSome && R.scalar.isSome then some 0 else none))
        cmpDim ∧
      Returns (compareDim pred L R cmpDim) newDim ∧
      s = { MaskState.empty with
        dims := match cmpDim with
          | some i => L.dims.set i newDim
          | none => L.dims } := by
  unfold parseCmp at h
  split at h
  · exact absurd h not_returns_fail
  next hsupported =>
    rw [Bool.not_eq_true, Bool.not_eq_false'] at hsupported
    obtain ⟨L, hL, h⟩ := returns_bind h
    obtain ⟨R, hR, h⟩ := returns_bind h
    split at h
    · exact absurd h not_returns_fail
    next hzero =>
      obtain ⟨cmpDim, hcmp, h⟩ := returns_bind h
      obtain ⟨-, -, h⟩ := returns_bind h
      obtain ⟨newDim, hnew, h⟩ := returns_bind h
      rw [returns_pure] at h
      refine ⟨hsupported, L, R, cmpDim, newDim, hL, hR, fun hsge => ?_, hcmp, hnew, h⟩
      by_contra hnone
      apply hzero
      refine ⟨hsge, ?_⟩
      rw [← Bool.not_eq_true, Option.any_eq_true]
      rintro ⟨c, hc⟩
      exact hnone ⟨c, hc⟩

theorem returns_compareDim_range {start end' newDim : OFR} {dims : List OFR} {k : ℕ}
    (hsupported : supported pred = true)
    (h : Returns (compareDim pred ⟨some start, some end', dims, none⟩ R (some k)) newDim) :
    (pred = .sge ∧ dims[k]? = some newDim) ∨
      ((pred = .slt ∨ pred = .ult) ∧ ∃ c, R.scalar = some c ∧ ∀ ρ, newDim.eval ρ =
        max (min (end'.eval ρ) (c.eval ρ)) (start.eval ρ) - start.eval ρ) := by
  unfold compareDim at h
  simp only at h
  split at h
  next hpred =>
    right
    refine ⟨hpred, ?_⟩
    obtain ⟨x, hx, h⟩ := returns_bind h
    cases returns_deref hx
    obtain ⟨y, hy, h⟩ := returns_bind h
    cases returns_deref hy
    obtain ⟨c, hc, h⟩ := returns_bind h
    obtain ⟨e, he, h⟩ := returns_bind h
    obtain ⟨f, hf, h⟩ := returns_bind h
    refine ⟨c, returns_deref hc, fun ρ => ?_⟩
    rw [eval_subOFRs h, eval_maxOFRs hf, eval_minOFRs he]
  next hpred =>
    left
    refine ⟨?_, returns_dimAt h⟩
    cases pred <;> simp_all [supported]

theorem returns_compareDim_scalars {c r newDim : OFR} {dims : List OFR}
    (h : Returns (compareDim pred { MaskState.empty with dims, scalar := some c } R (some 0)) newDim)
    (hr : R.scalar = some r) :
    ∃ d, dims[0]? = some d ∧ Returns (compareOFRs c r pred d (.attr 0)) newDim := by
  unfold compareDim at h
  rw [hr] at h
  obtain ⟨d, hd, h⟩ := returns_bind h
  exact ⟨d, returns_dimAt hd, h⟩

theorem bit_cmpi (id : ℕ) : Bit ρ (.cmpi id pred lhs rhs) := by
  intro idx _
  show (if pred.holds (lhs.eval ρ idx) (rhs.eval ρ idx) then (-1 : ℤ) else 0) = 0 ∨
    (if pred.holds (lhs.eval ρ idx) (rhs.eval ρ idx) then (-1 : ℤ) else 0) = -1
  split_ifs with hp
  · exact Or.inr rfl
  · exact Or.inl rfl

theorem cmpi_ne_zero (id : ℕ) (idx : List ℕ) : (Value.cmpi id pred lhs rhs).eval ρ idx ≠ 0 ↔
    pred.holds (lhs.eval ρ idx) (rhs.eval ρ idx) = true := by
  show (if pred.holds (lhs.eval ρ idx) (rhs.eval ρ idx) then (-1 : ℤ) else 0) ≠ 0 ↔ _
  split_ifs with hp
  · simp [hp]
  · simp [hp]

theorem length_ofShape (shape : List ℕ) : (ofShape shape).length = shape.length :=
  length_map _

theorem anchored_set {shape : List ℕ} {flags : List Bool} {k : ℕ} {d : OFR}
    (hk : flags[k]? = some true)
    (hone : ∀ (j n : ℕ), j ≠ k → shape[j]? = some n → flags[j]? ≠ some true → n = 1) :
    Anchored ρ ((ofShape shape).set k d) flags := by
  intro hflags e he
  have hlen := hflags.length_eq
  rw [forall₂_iff_getElem? hlen] at hflags
  obtain ⟨j, hj⟩ := List.getElem?_of_mem he
  by_cases hmarked : flags[j]? = some true
  · exact hflags j e true hj hmarked rfl
  · have hjk : j ≠ k := fun heq => hmarked (heq ▸ hk)
    rw [List.getElem?_set_ne (Ne.symm hjk), ofShape, List.getElem?_map, Option.map_eq_some_iff] at hj
    obtain ⟨n, hn, rfl⟩ := hj
    rw [hone j n hjk hn hmarked]
    show (0 : ℤ) < 1
    decide

theorem exact_compareRange {id : ℕ} (hty : lhs.ty = rhs.ty) (hrange : uniform lhs = false)
    (hcompared : Compared ρ pred lhs rhs) (hl : ∀ L, Returns pl L → Described lhs L)
    (hr : ∀ R, Returns pr R → Described rhs R) (h : Returns (parseCmp pred pl pr) s) :
    Exact ρ (.cmpi id pred lhs rhs) (lhs.shape.map fun n => decide (n ≠ 1)) s := by
  have hshape : (Value.cmpi id pred lhs rhs).shape = lhs.shape := rfl
  have hshape' : rhs.shape = lhs.shape := by rw [Value.shape, Value.shape, hty]
  obtain ⟨hsupported, L, R, cmpDim, newDim, hL, hR, hsge, hcmp, hnew, hs⟩ := returns_parseCmp h
  cases hl L hL with
  | scalar c hstate hvalue hdims hfolded hu =>
    rw [hrange] at hu
    cases hu
  | range start end' k n hstate hsize hn hvalue hdistance hu =>
    subst hstate
    have hk : cmpDim = some k := by
      have hd : (ofShape lhs.shape)[k]? = some (.attr n) := by
        rw [ofShape, List.getElem?_map, hsize]
        rfl
      have := returns_findCmpDim_some hd (by simpa [getIntAttr] using hn) hcmp
      rwa [Nat.zero_add] at this
    subst hk
    have hdims : s.dims = (ofShape lhs.shape).set k newDim := by rw [hs]
    have hmarked : (lhs.shape.map fun n => decide (n ≠ 1))[k]? = some true := by
      rw [List.getElem?_map, hsize]
      simp [hn]
    constructor
    · rw [hs]
    · rw [hdims, length_set, length_ofShape, hshape]
    · rw [length_map, hshape]
    · exact mem_of_getElem? hmarked
    · rw [hdims]
      apply anchored_set hmarked
      intro j m _ hj hflag
      rw [List.getElem?_map, hj] at hflag
      simpa using hflag
    · exact bit_cmpi id
    · intro idx hidx
      rw [hshape] at hidx
      have hlen := inBounds_length hidx
      obtain ⟨i, hi⟩ : ∃ i, idx[k]? = some i := by
        have hlt : k < idx.length := by
          rw [← hlen]
          exact (List.getElem?_eq_some_iff.mp hsize).1
        exact ⟨_, List.getElem?_eq_getElem hlt⟩
      have hin : i < n := (forall₂_iff_getElem? hlen).mp hidx k n i hsize hi
      rw [hdims, inBox_set ρ hidx, cmpi_ne_zero]
      have hleft := hvalue ρ idx i hidx hi
      have hbox : (∀ j, idx[k]? = some j → (j : ℤ) < newDim.eval ρ) ↔ (i : ℤ) < newDim.eval ρ := by
        constructor
        · exact fun hall => hall i hi
        · intro hlt j hj
          rw [hi] at hj
          cases hj
          exact hlt
      rw [hbox]
      rcases returns_compareDim_range hsupported hnew with ⟨hpred, hd⟩ | ⟨hpred, c, hc, hd⟩
      · -- the lower bound 0
        obtain ⟨c, hc, hzero⟩ := hsge hpred
        rw [ofShape, List.getElem?_map, hsize] at hd
        cases hd
        have hright : rhs.eval ρ idx = 0 := by
          cases hr R hR with
          | scalar d hstate hvalue' =>
            rw [hstate] at hc
            cases hc
            rw [hvalue' ρ idx (hshape' ▸ hidx), hasConstZero_eval hzero]
          | range start' end'' k' n' hstate =>
            rw [hstate] at hc
            cases hc
        have hpos := (hcompared idx hidx).2 hpred
        rw [hpred, hright]
        show decide (lhs.eval ρ idx ≥ 0) = true ↔ (i : ℤ) < (n : ℤ)
        simp [hpos, hin]
      · have hright : rhs.eval ρ idx = c.eval ρ := by
          cases hr R hR with
          | scalar d hstate hvalue' =>
            rw [hstate] at hc
            cases hc
            exact hvalue' ρ idx (hshape' ▸ hidx)
          | range start' end'' k' n' hstate =>
            rw [hstate] at hc
            cases hc
        have hslt : pred.holds (lhs.eval ρ idx) (rhs.eval ρ idx) =
            decide (lhs.eval ρ idx < rhs.eval ρ idx) := by
          rcases hpred with hpred | hpred
          · rw [hpred]
            rfl
          · have hunsigned := (hcompared idx hidx).1 hpred
            rw [hpred]
            exact hunsigned
        rw [hslt, decide_eq_true_iff, hd ρ, hleft, hright, hdistance ρ]
        omega

theorem exact_compareScalars {id : ℕ} (hty : lhs.ty = rhs.ty) (hscalar : uniform lhs = true)
    (hsized : sized lhs = true)
    (hliteral : literal lhs = true → literal rhs = true → pred = .ult → Compared ρ .ult lhs rhs)
    (hl : ∀ L, Returns pl L → Described lhs L) (hr : ∀ R, Returns pr R → Described rhs R)
    (h : Returns (parseCmp pred pl pr) s) :
    Exact ρ (.cmpi id pred lhs rhs) ((lhs.shape.map fun _ => false).set 0 true) s := by
  have hshape : (Value.cmpi id pred lhs rhs).shape = lhs.shape := rfl
  have hshape' : rhs.shape = lhs.shape := by rw [Value.shape, Value.shape, hty]
  obtain ⟨hsupported, L, R, cmpDim, newDim, hL, hR, -, hcmp, hnew, hs⟩ := returns_parseCmp h
  cases hl L hL with
  | range start end' k n hstate hsize hn hvalue hdistance hu =>
    rw [hscalar] at hu
    cases hu
  | scalar c hstate hvalue hdims hfolded hu =>
    have hLdims := hdims hsized
    rw [hLdims] at hstate
    subst hstate
    cases hr R hR with
    | range start' end'' k' n' hstate' =>
      subst hstate'
      exact absurd hnew (not_returns_stop _ _)
    | scalar r hstate' hvalue' hdims' hfolded' hu' =>
      have hrs : R.scalar = some r := by rw [hstate']
      rw [hrs] at hcmp
      obtain ⟨rfl, hone⟩ := returns_findCmpDim_scalars hcmp
      obtain ⟨d, hd, hnew⟩ := returns_compareDim_scalars hnew hrs
      have hones : ∀ (j n : ℕ), lhs.shape[j]? = some n → n = 1 := by
        intro j n hj
        have hmem : OFR.attr n ∈ ofShape lhs.shape :=
          mem_map_of_mem (mem_of_getElem? hj)
        simpa [getIntAttr] using hone _ hmem
      have hd1 : d = .attr 1 := by
        rw [ofShape, List.getElem?_map, Option.map_eq_some_iff] at hd
        obtain ⟨n, hn, rfl⟩ := hd
        rw [hones 0 n hn]
        rfl
      have hpos : 0 < lhs.shape.length := by
        rw [← length_ofShape]
        exact (List.getElem?_eq_some_iff.mp hd).1
      have hsdims : s.dims = (ofShape lhs.shape).set 0 newDim := by rw [hs]
      have hmarked : ((lhs.shape.map fun _ => false).set 0 true)[0]? = some true :=
        List.getElem?_set_self (by rwa [length_map])
      constructor
      · rw [hs]
      · rw [hsdims, length_set, length_ofShape, hshape]
      · rw [length_set, length_map, hshape]
      · exact mem_of_getElem? hmarked
      · rw [hsdims]
        exact anchored_set hmarked fun j n _ hj _ => hones j n hj
      · exact bit_cmpi id
      · intro idx hidx
        rw [hshape] at hidx
        have hlen := inBounds_length hidx
        have hi : idx[0]? = some 0 := by
          have hlt : 0 < idx.length := by omega
          have hn := (forall₂_iff_getElem? hlen).mp hidx 0 _ _ (List.getElem?_eq_getElem hpos)
            (List.getElem?_eq_getElem hlt)
          rw [hones 0 _ (List.getElem?_eq_getElem hpos)] at hn
          rw [List.getElem?_eq_getElem hlt]
          congr 1
          omega
        have hleft := hvalue ρ idx hidx
        have hright := hvalue' ρ idx (hshape' ▸ hidx)
        have hfold : ∀ a b, c = .attr a → r = .attr b → foldPredicate pred a b = pred.holds a b := by
          intro a b ha hb
          cases hpred : pred with
          | ult =>
            have hagree := (hliteral (hfolded a ha) (hfolded' b hb) hpred idx hidx).1 rfl
            rw [hleft, hright, ha, hb] at hagree
            exact hagree.symm
          | slt => rfl
          | sge => rfl
          | _ =>
            rw [hpred] at hsupported
            cases hsupported
        have hsize := eval_compareOFRs hfold hnew ρ
        rw [hsdims, inBox_set ρ hidx, cmpi_ne_zero, hleft, hright, hi, hsize, hd1]
        show pred.holds (c.eval ρ) (r.eval ρ) = true ↔ ∀ i : ℕ, some 0 = some i →
          (i : ℤ) < if pred.holds (c.eval ρ) (r.eval ρ) = true then (1 : ℤ) else 0
        constructor
        · intro hp i hi
          cases hi
          rw [if_pos hp]
          decide
        · intro hall
          have hzero := hall 0 rfl
          by_contra hp
          rw [if_neg hp] at hzero
          simp at hzero

end Compare

end TritonCpu.MaskAnalysis
