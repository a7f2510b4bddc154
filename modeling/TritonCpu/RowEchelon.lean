import TritonCpu.XorSpan

/-!
# Reduced row echelon form over two elements

The rows of a matrix are bit masks. Read from the left, column by column, a
matrix in reduced row echelon form has, after `k` pivots, either the unit of
row `k` as its next column, the next pivot, or a column without entries from
row `k` on.
-/

set_option autoImplicit false

namespace TritonCpu.XorSpan

open List

def maskOf : List Bool → ℕ
  | [] => 0
  | b :: bs => Nat.bit b (maskOf bs)

/-- The `n` columns of a matrix given by its rows, or the rows of one given by
its columns. -/
def transposeBits (n : ℕ) (ms : List ℕ) : List ℕ :=
  (List.range n).map fun i => maskOf (ms.map fun m => m.testBit i)

/-- The number of pivots of a matrix in reduced row echelon form. -/
def rank (cs : List ℕ) : ℕ := cs.foldl (fun k c => if c = 2 ^ k then k + 1 else k) 0

/-- After `k` pivots a column is the unit of row `k` or below it. -/
def Echelon (cs : List ℕ) : Prop :=
  ∀ (j : ℕ) (hj : j < cs.length), cs[j] ≤ 2 ^ rank (cs.take j)

/-- `rows'` is the reduced row echelon form of `rows`: it is in that form and
has the same solutions. -/
structure IsRref (n : ℕ) (rows rows' : List ℕ) : Prop where
  length_eq : rows'.length = rows.length
  lt : ∀ r ∈ rows', r < 2 ^ n
  echelon : Echelon (transposeBits n rows')
  kernel : ∀ x, combine (transposeBits n rows) x = 0 ↔ combine (transposeBits n rows') x = 0

section Masks

theorem testBit_maskOf (bs : List Bool) (i : ℕ) : (maskOf bs).testBit i = bs.getD i false := by
  induction bs generalizing i with
  | nil => simp [maskOf]
  | cons b bs ih =>
    cases i with
    | zero => rw [maskOf, Nat.testBit_bit_zero]; rfl
    | succ i => rw [maskOf, Nat.testBit_bit_succ, ih]; rfl

theorem maskOf_lt (bs : List Bool) : maskOf bs < 2 ^ bs.length := by
  apply Nat.lt_pow_two_of_testBit
  intro i hi
  rw [testBit_maskOf, getD_eq_default _ _ hi]

variable {n : ℕ} {ms : List ℕ}

@[simp] theorem length_transposeBits : (transposeBits n ms).length = n := by
  simp [transposeBits]

theorem testBit_transposeBits {i : ℕ} (hi : i < (transposeBits n ms).length) (r : ℕ) :
    (transposeBits n ms)[i].testBit r = (ms.getD r 0).testBit i := by
  have hfalse : (0 : ℕ).testBit i = false := Nat.zero_testBit i
  simp only [transposeBits, getElem_map, getElem_range, testBit_maskOf, ← hfalse]
  exact getD_map _ _ (fun m : ℕ => m.testBit i)

theorem transposeBits_lt : ∀ c ∈ transposeBits n ms, c < 2 ^ ms.length := by
  intro c hc
  obtain ⟨i, -, rfl⟩ := mem_map.mp hc
  simpa using maskOf_lt (ms.map fun m => m.testBit i)

theorem transposeBits_transposeBits (h : ∀ m ∈ ms, m < 2 ^ n) :
    transposeBits ms.length (transposeBits n ms) = ms := by
  apply ext_getElem (by simp)
  intro r hr hr'
  apply Nat.eq_of_testBit_eq
  intro i
  rw [testBit_transposeBits]
  by_cases hi : i < n
  · have hi' : i < (transposeBits n ms).length := by simpa using hi
    rw [getD_eq_getElem _ _ hi', testBit_transposeBits, getD_eq_getElem _ _ hr']
  · have hbig : ms[r] < 2 ^ i :=
      (h _ (getElem_mem hr')).trans_le (Nat.pow_le_pow_right (by omega) (by omega))
    rw [getD_eq_default _ _ (by simpa using hi), Nat.testBit_lt_two_pow hbig, Nat.zero_testBit]

end Masks

section Rank

variable {cs : List ℕ} {c : ℕ}

theorem rank_concat : rank (cs ++ [c]) = if c = 2 ^ rank cs then rank cs + 1 else rank cs := by
  rw [rank, foldl_append]
  rfl

theorem rank_le_concat : rank cs ≤ rank (cs ++ [c]) := by
  rw [rank_concat]
  split_ifs <;> omega

theorem rank_units (R : ℕ) : rank ((List.range R).map (2 ^ ·)) = R := by
  induction R with
  | zero => rfl
  | succ R ih =>
    rw [range_succ, map_append, map_singleton, rank_concat, ih, if_pos rfl]

theorem rank_le_append (cs ds : List ℕ) : rank cs ≤ rank (cs ++ ds) := by
  induction ds using List.reverseRecOn with
  | nil => simp
  | append_singleton ds d ih =>
    rw [← append_assoc]
    exact ih.trans rank_le_concat

theorem echelon_concat : Echelon (cs ++ [c]) ↔ Echelon cs ∧ c ≤ 2 ^ rank cs := by
  constructor
  · intro h
    constructor
    · intro j hj
      have hcol := h j (by simp; omega)
      rwa [getElem_append_left hj, take_append_of_le_length hj.le] at hcol
    · simpa using h cs.length (by simp)
  · rintro ⟨h, hc⟩ j hj
    rw [length_append, length_singleton] at hj
    by_cases hlast : j = cs.length
    · subst hlast
      simpa using hc
    · have hj' : j < cs.length := by omega
      rw [getElem_append_left hj', take_append_of_le_length hj'.le]
      exact h j hj'

theorem Echelon.take {cs : List ℕ} (h : Echelon cs) (n : ℕ) : Echelon (cs.take n) := by
  intro j hj
  have hjn : j < n ∧ j < cs.length := by simpa using hj
  have hcol := h j hjn.2
  rwa [getElem_take, take_take, Nat.min_eq_left hjn.1.le]

theorem Echelon.lt_rank (h : Echelon cs) : ∀ c ∈ cs, c < 2 ^ rank cs := by
  induction cs using List.reverseRecOn with
  | nil => simp
  | append_singleton cs d ih =>
    rw [echelon_concat] at h
    intro c hc
    rw [rank_concat]
    rcases mem_append.mp hc with hc | hc
    · have hlt := ih h.1 c hc
      split_ifs
      · exact hlt.trans (Nat.pow_lt_pow_right (by omega) (by omega))
      · exact hlt
    · obtain rfl := mem_singleton.mp hc
      split_ifs with hpivot
      · rw [hpivot]
        exact Nat.pow_lt_pow_right (by omega) (by omega)
      · omega

theorem Echelon.onto (h : Echelon cs) : Onto (rank cs) cs := by
  induction cs using List.reverseRecOn with
  | nil =>
    intro y hy
    refine ⟨0, by simp, ?_⟩
    have hy' : y < 1 := hy
    simp
    omega
  | append_singleton cs d ih =>
    rw [echelon_concat] at h
    intro y hy
    have hlen : (cs ++ [d]).length = cs.length + 1 := by simp
    have hpow : (2 : ℕ) ^ cs.length < 2 ^ (cs.length + 1) :=
      Nat.pow_lt_pow_right (by omega) (by omega)
    rw [rank_concat] at hy
    by_cases hd : d = 2 ^ rank cs
    · rw [if_pos hd] at hy
      obtain ⟨x, hx, hxy⟩ := ih h.1 (y % 2 ^ rank cs) (Nat.mod_lt _ (Nat.two_pow_pos _))
      -- the new pivot supplies the highest bit
      refine ⟨x ^^^ (if y.testBit (rank cs) then 2 ^ cs.length else 0), ?_, ?_⟩
      · rw [hlen]
        apply Nat.xor_lt_two_pow (hx.trans hpow)
        split_ifs
        · exact hpow
        · exact Nat.two_pow_pos _
      · have hlow : combine cs (if y.testBit (rank cs) then 2 ^ cs.length else 0) = 0 := by
          split_ifs
          · rw [combine_two_pow, getD_eq_default _ _ le_rfl]
          · exact combine_zero cs
        have htop : (x ^^^ (if y.testBit (rank cs) then 2 ^ cs.length else 0)).testBit cs.length =
            y.testBit (rank cs) := by
          rw [Nat.testBit_xor, Nat.testBit_lt_two_pow hx]
          cases y.testBit (rank cs) <;> simp
        rw [combine_concat, combine_xor, hxy, hlow, htop, hd, Nat.xor_zero, mod_xor_bit,
          Nat.mod_eq_of_lt hy]
    · rw [if_neg hd] at hy
      obtain ⟨x, hx, hxy⟩ := ih h.1 y hy
      refine ⟨x, by rw [hlen]; exact hx.trans hpow, ?_⟩
      rw [combine_concat, hxy, Nat.testBit_lt_two_pow hx]
      simp

end Rank

section Reduced

variable {n R : ℕ} {cs ds : List ℕ}

theorem combine_of_units (hunits : ds.take R = (List.range R).map (2 ^ ·)) {x : ℕ}
    (hx : x < 2 ^ R) : combine ds x = x := by
  have htake := combine_take ds x R
  rw [hunits, combine_units, Nat.mod_eq_of_lt hx] at htake
  exact htake.symm

theorem units_of_independent (hech : Echelon ds)
    (hker : ∀ x, combine cs x = 0 ↔ combine ds x = 0) (hcs : R ≤ cs.length)
    (hds : R ≤ ds.length) (hind : Independent (cs.take R)) :
    ds.take R = (List.range R).map (2 ^ ·) := by
  have hunits : ∀ k ≤ R, ds.take k = (List.range k).map (2 ^ ·) := by
    intro k hk
    induction k with
    | zero => simp
    | succ k ih =>
      have hprev := ih (by omega)
      have hlt : k < ds.length := by omega
      have hcol := hech k hlt
      rw [hprev, rank_units] at hcol
      rw [take_succ_eq_append_getElem hlt, hprev, range_succ, map_append,
        map_singleton]
      rcases hcol.eq_or_lt with heq | hsmall
      · rw [heq]
      · -- the column is a combination of the pivots before it
        have hcancel : combine ds (ds[k] ^^^ 2 ^ k) = 0 := by
          rw [combine_xor, combine_of_units hprev hsmall, combine_two_pow,
            getD_eq_getElem _ _ hlt, Nat.xor_self]
        have hbound : ds[k] ^^^ 2 ^ k < 2 ^ R :=
          Nat.xor_lt_two_pow (hsmall.trans_le (Nat.pow_le_pow_right (by omega) (by omega)))
            (Nat.pow_lt_pow_right (by omega) (by omega))
        have hzero : ds[k] ^^^ 2 ^ k = 0 := by
          apply hind
          · rwa [length_take, Nat.min_eq_left hcs]
          · rw [combine_take, Nat.mod_eq_of_lt hbound, hker, hcancel]
        rw [Nat.xor_eq_zero_iff.mp hzero]
  exact hunits R le_rfl

theorem independent_of_units (hker : ∀ x, combine cs x = 0 ↔ combine ds x = 0)
    (hcs : R ≤ cs.length) (hunits : ds.take R = (List.range R).map (2 ^ ·)) :
    Independent (cs.take R) := by
  intro x hx hzero
  rw [length_take, Nat.min_eq_left hcs] at hx
  rw [combine_take, Nat.mod_eq_of_lt hx, hker, combine_of_units hunits hx] at hzero
  exact hzero

theorem reduced_of_combine (hker : ∀ x, combine cs x = 0 ↔ combine ds x = 0)
    (hunits : ds.take R = (List.range R).map (2 ^ ·)) {j y : ℕ} (hy : y < 2 ^ R)
    (hcol : combine cs y = cs.getD j 0) : ds.getD j 0 = y := by
  rw [← combine_two_pow] at hcol ⊢
  rw [← (eq_of_kernel hker _ _).mp hcol, combine_of_units hunits hy]

theorem reduced_of_unused (hech : Echelon ds)
    (hker : ∀ x, combine cs x = 0 ↔ combine ds x = 0)
    (hunits : ds.take R = (List.range R).map (2 ^ ·)) {j : ℕ} (hR : R ≤ j) (hj : j < ds.length)
    (hunused : ∀ x, combine cs x = 0 → x.testBit j = false) : ds.getD j 0 % 2 ^ R = 0 := by
  rw [getD_eq_getElem _ _ hj]
  rcases (hech j hj).eq_or_lt with hpivot | hsmall
  · have htake : ds.take j = ds.take R ++ (ds.take j).drop R := by
      have happend := take_append_drop R (ds.take j)
      rw [take_take, Nat.min_eq_left hR] at happend
      exact happend.symm
    have hrank : R ≤ rank (ds.take j) := by
      rw [htake]
      refine le_trans (le_of_eq ?_) (rank_le_append _ _)
      rw [hunits, rank_units]
    rw [hpivot]
    exact Nat.mod_eq_zero_of_dvd (Nat.pow_dvd_pow 2 hrank)
  · obtain ⟨x, hx, hxy⟩ := (hech.take j).onto _ hsmall
    rw [length_take, Nat.min_eq_left hj.le] at hx
    rw [combine_take, Nat.mod_eq_of_lt hx] at hxy
    have hvanish : combine ds (x ^^^ 2 ^ j) = 0 := by
      rw [combine_xor, hxy, combine_two_pow, getD_eq_getElem _ _ hj, Nat.xor_self]
    have hbit := hunused _ ((hker _).mpr hvanish)
    rw [Nat.testBit_xor, Nat.testBit_lt_two_pow hx, Nat.testBit_two_pow_self] at hbit
    simp at hbit

theorem IsRref.rank_eq_iff {rows rows' : List ℕ} (h : IsRref n rows rows') :
    (rows'.filter (· ≠ 0)).length = rows.length ↔
      Onto rows.length (transposeBits n rows) := by
  have hlt : ∀ c ∈ transposeBits n rows', c < 2 ^ rows.length := by
    rw [← h.length_eq]
    exact transposeBits_lt
  have hspan : Onto rows.length (transposeBits n rows') ↔
      Onto rows.length (transposeBits n rows) :=
    ⟨onto_of_kernel (by simp) transposeBits_lt fun x => (h.kernel x).symm,
      onto_of_kernel (by simp) hlt h.kernel⟩
  rw [← hspan, ← h.length_eq, length_filter_eq_length_iff]
  constructor
  · intro hrows
    have hrank : rows'.length ≤ rank (transposeBits n rows') := by
      rcases Nat.eq_zero_or_pos rows'.length with hempty | hpos
      · omega
      have hlast : rows'.length - 1 < rows'.length := by omega
      have hne : rows'[rows'.length - 1] ≠ 0 := by
        simpa using hrows _ (getElem_mem hlast)
      obtain ⟨i, hi⟩ := Nat.exists_testBit_of_ne_zero hne
      have hin : i < n := by
        by_contra hout
        have hbig : rows'[rows'.length - 1] < 2 ^ i :=
          (h.lt _ (getElem_mem hlast)).trans_le (Nat.pow_le_pow_right (by omega) (by omega))
        rw [Nat.testBit_lt_two_pow hbig] at hi
        exact absurd hi (by simp)
      have hin' : i < (transposeBits n rows').length := by simpa using hin
      have hbit : (transposeBits n rows')[i].testBit (rows'.length - 1) = true := by
        rw [testBit_transposeBits, getD_eq_getElem _ _ hlast, hi]
      have hcol := h.echelon.lt_rank _ (getElem_mem hin')
      by_contra hshort
      have hzero : (transposeBits n rows')[i].testBit (rows'.length - 1) = false :=
        Nat.testBit_lt_two_pow
          (hcol.trans_le (Nat.pow_le_pow_right (by omega) (by omega)))
      rw [hbit] at hzero
      exact absurd hzero (by simp)
    intro y hy
    exact h.echelon.onto y (hy.trans_le (Nat.pow_le_pow_right (by omega) hrank))
  · intro honto row hrow
    obtain ⟨r, hr, rfl⟩ := getElem_of_mem hrow
    obtain ⟨x, -, hx⟩ := honto (2 ^ r) (Nat.pow_lt_pow_right (by omega) hr)
    by_contra hzero
    have hzero' : rows'[r] = 0 := by simpa using hzero
    -- a zero row gives no combination its unit
    have hclear : ∀ c ∈ transposeBits n rows', c.testBit r = false := by
      intro c hc
      obtain ⟨i, hi, rfl⟩ := getElem_of_mem hc
      rw [testBit_transposeBits, getD_eq_getElem _ _ hr, hzero', Nat.zero_testBit]
    have hbit := testBit_combine_eq_false hclear x
    rw [hx, Nat.testBit_two_pow_self] at hbit
    exact absurd hbit (by simp)

end Reduced

section Pivots

/-- Column `j` is the unit of the next row. -/
def Pivot (cs : List ℕ) (j : ℕ) : Prop :=
  j < cs.length ∧ cs.getD j 0 = 2 ^ rank (cs.take j)

def SelectsPivots (cs : List ℕ) (x : ℕ) : Prop :=
  ∀ j, x.testBit j = true → Pivot cs j

variable {cs : List ℕ} {c : ℕ}

theorem pivot_concat_of_lt {j : ℕ} (hj : j < cs.length) : Pivot (cs ++ [c]) j ↔ Pivot cs j := by
  rw [Pivot, Pivot, take_append_of_le_length hj.le, getD_append _ _ _ _ hj]
  simp [hj, Nat.lt_succ_of_lt hj]

theorem pivot_concat_last : Pivot (cs ++ [c]) cs.length ↔ c = 2 ^ rank cs := by
  simp [Pivot]

theorem lt_of_selectsPivots {x : ℕ} (h : SelectsPivots cs x) : x < 2 ^ cs.length := by
  apply Nat.lt_pow_two_of_testBit
  intro j hj
  by_contra hbit
  have hlt := (h j (by simpa using hbit)).1
  omega

theorem SelectsPivots.xor {x y : ℕ} (hx : SelectsPivots cs x) (hy : SelectsPivots cs y) :
    SelectsPivots cs (x ^^^ y) := by
  intro j hj
  rw [Nat.testBit_xor] at hj
  cases hbit : x.testBit j with
  | true => exact hx j hbit
  | false =>
    rw [hbit, Bool.false_xor] at hj
    exact hy j hj

theorem exists_pivot {k : ℕ} (hk : k < rank cs) :
    ∃ j, Pivot cs j ∧ cs.getD j 0 = 2 ^ k := by
  induction cs using List.reverseRecOn with
  | nil => exact absurd hk (Nat.not_lt_zero k)
  | append_singleton cs c ih =>
    by_cases hlt : k < rank cs
    · obtain ⟨j, hpivot, hcol⟩ := ih hlt
      refine ⟨j, (pivot_concat_of_lt hpivot.1).mpr hpivot, ?_⟩
      rw [getD_append _ _ _ _ hpivot.1, hcol]
    · have hc : c = 2 ^ rank cs := by
        by_contra hc
        rw [rank_concat, if_neg hc] at hk
        exact hlt hk
      rw [rank_concat, if_pos hc] at hk
      have hlast : k = rank cs := by omega
      refine ⟨cs.length, pivot_concat_last.mpr hc, ?_⟩
      rw [hlast, ← hc]
      simp

theorem Echelon.exists_selectsPivots (h : Echelon cs) {y : ℕ} (hy : y < 2 ^ rank cs) :
    ∃ x, SelectsPivots cs x ∧ combine cs x = y := by
  induction cs using List.reverseRecOn generalizing y with
  | nil =>
    have hy' : y < 1 := hy
    exact ⟨0, fun j hj => by simp at hj, by simp; omega⟩
  | append_singleton cs c ih =>
    rw [echelon_concat] at h
    rw [rank_concat] at hy
    have hlift : ∀ {x}, SelectsPivots cs x → SelectsPivots (cs ++ [c]) x := by
      intro x hx j hj
      exact (pivot_concat_of_lt (hx j hj).1).mpr (hx j hj)
    have hlow : ∀ {x}, SelectsPivots cs x → combine (cs ++ [c]) x = combine cs x := by
      intro x hx
      rw [combine_concat, Nat.testBit_lt_two_pow (lt_of_selectsPivots hx)]
      simp
    by_cases hc : c = 2 ^ rank cs
    · rw [if_pos hc] at hy
      obtain ⟨x, hx, hxy⟩ := ih h.1 (Nat.mod_lt y (Nat.two_pow_pos (rank cs)))
      by_cases hbit : y.testBit (rank cs) = true
      · -- the new pivot supplies the highest bit
        refine ⟨x ^^^ 2 ^ cs.length, (hlift hx).xor ?_, ?_⟩
        · intro j hj
          obtain rfl : cs.length = j := by simpa [Nat.testBit_two_pow] using hj
          exact pivot_concat_last.mpr hc
        · have hlast : combine (cs ++ [c]) (2 ^ cs.length) = 2 ^ rank cs := by
            rw [combine_two_pow, ← hc]
            simp
          have hmod := mod_xor_bit y (rank cs)
          rw [if_pos hbit, Nat.mod_eq_of_lt hy] at hmod
          rw [combine_xor, hlow hx, hxy, hlast, hmod]
      · have hmod := mod_xor_bit y (rank cs)
        rw [if_neg hbit, Nat.mod_eq_of_lt hy, Nat.xor_zero] at hmod
        exact ⟨x, hlift hx, by rw [hlow hx, hxy, hmod]⟩
    · rw [if_neg hc] at hy
      obtain ⟨x, hx, hxy⟩ := ih h.1 hy
      exact ⟨x, hlift hx, by rw [hlow hx, hxy]⟩

theorem Echelon.eq_zero_of_selectsPivots (h : Echelon cs) {x : ℕ} (hx : SelectsPivots cs x)
    (hzero : combine cs x = 0) : x = 0 := by
  induction cs using List.reverseRecOn generalizing x with
  | nil =>
    have hlt := lt_of_selectsPivots hx
    have hlt' : x < 1 := hlt
    omega
  | append_singleton cs c ih =>
    rw [echelon_concat] at h
    rw [combine_concat] at hzero
    have hlast : x.testBit cs.length = false := by
      by_contra hbit
      have hbit' : x.testBit cs.length = true := by simpa using hbit
      have hc := pivot_concat_last.mp (hx _ hbit')
      rw [if_pos hbit', Nat.xor_eq_zero_iff, hc] at hzero
      have hlt : combine cs x < 2 ^ rank cs := combine_lt h.1.lt_rank
      omega
    rw [if_neg (by simp [hlast]), Nat.xor_zero] at hzero
    refine ih h.1 (fun j hj => ?_) hzero
    have hpivot := hx j hj
    have hne : j ≠ cs.length := by
      rintro rfl
      rw [hlast] at hj
      exact Bool.false_ne_true hj
    have hlt : j < cs.length := by
      have hle := hpivot.1
      rw [length_append, length_singleton] at hle
      omega
    exact (pivot_concat_of_lt hlt).mp hpivot

theorem Echelon.exists_representative {ds : List ℕ} (h : Echelon ds)
    (hker : ∀ x, combine cs x = 0 ↔ combine ds x = 0) (x : ℕ) :
    ∃ y, SelectsPivots ds y ∧ combine cs y = combine cs x ∧
      ∀ y', SelectsPivots ds y' → combine cs y' = combine cs x → y' = y := by
  obtain ⟨y, hy, hxy⟩ := h.exists_selectsPivots (combine_lt (x := x) h.lt_rank)
  refine ⟨y, hy, (eq_of_kernel hker _ _).mpr hxy, fun y' hy' hxy' => ?_⟩
  have hzero : combine ds (y' ^^^ y) = 0 := by
    rw [combine_xor, (eq_of_kernel hker _ _).mp hxy', hxy, Nat.xor_self]
  exact Nat.xor_eq_zero_iff.mp (h.eq_zero_of_selectsPivots (hy'.xor hy) hzero)

end Pivots

section FirstBits

variable {n : ℕ} {rows rows' : List ℕ}

theorem IsRref.pivot_iff (h : IsRref n rows rows') (j : ℕ) :
    Pivot (transposeBits n rows') j ↔ ∃ row ∈ rows', row.testBit j = true ∧
      ∀ i < j, row.testBit i = false := by
  have hentry : ∀ {i r : ℕ} (hi : i < n) (hr : r < rows'.length),
      ((transposeBits n rows').getD i 0).testBit r = rows'[r].testBit i := by
    intro i r hi hr
    rw [getD_eq_getElem _ _ (by simpa using hi), testBit_transposeBits,
      getD_eq_getElem _ _ hr]
  constructor
  · rintro ⟨hj, hcol⟩
    have hjn : j < n := by simpa using hj
    have hbound : (2 : ℕ) ^ rank ((transposeBits n rows').take j) < 2 ^ rows'.length := by
      rw [← hcol, getD_eq_getElem _ _ hj]
      exact transposeBits_lt _ (getElem_mem hj)
    have hr := (Nat.pow_lt_pow_iff_right (by omega)).mp hbound
    refine ⟨_, getElem_mem hr, ?_, fun i hi => ?_⟩
    · rw [← hentry hjn hr, hcol, Nat.testBit_two_pow_self]
    · -- the columns before the pivot do not reach its row
      have hi' : i < ((transposeBits n rows').take j).length := by simp; omega
      have hlt := (h.echelon.take j).lt_rank _ (getElem_mem hi')
      rw [getElem_take] at hlt
      rw [← hentry (by omega) hr, getD_eq_getElem _ _ (by simp; omega)]
      exact Nat.testBit_lt_two_pow hlt
  · rintro ⟨row, hrow, hbit, hbefore⟩
    obtain ⟨r, hr, rfl⟩ := getElem_of_mem hrow
    have hjn : j < n := by
      by_contra hout
      have hbig : rows'[r] < 2 ^ j :=
        (h.lt _ hrow).trans_le (Nat.pow_le_pow_right (by omega) (by omega))
      rw [Nat.testBit_lt_two_pow hbig] at hbit
      exact Bool.false_ne_true hbit
    have hj : j < (transposeBits n rows').length := by simpa using hjn
    refine ⟨hj, ?_⟩
    rcases (h.echelon j hj).eq_or_lt with hpivot | hsmall
    · rw [getD_eq_getElem _ _ hj, hpivot]
    · -- row `r` would have a pivot before column `j`
      exfalso
      have hreach : 2 ^ r ≤ (transposeBits n rows')[j] := by
        apply Nat.ge_two_pow_of_testBit
        rw [← getD_eq_getElem _ 0 hj, hentry hjn hr, hbit]
      have hlow := (Nat.pow_lt_pow_iff_right (by omega)).mp (hreach.trans_lt hsmall)
      obtain ⟨i, ⟨hi, -⟩, hcol⟩ := exists_pivot hlow
      have hij : i < j := by
        rw [length_take] at hi
        omega
      rw [getD_eq_getElem _ _ hi, getElem_take,
        ← getD_eq_getElem _ 0 (by simp; omega)] at hcol
      have hfalse := hbefore i hij
      rw [← hentry (by omega) hr, hcol, Nat.testBit_two_pow_self] at hfalse
      exact Bool.false_ne_true hfalse.symm

end FirstBits

end TritonCpu.XorSpan
