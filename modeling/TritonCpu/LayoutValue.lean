import TritonCpu.InplaceRref
import TritonCpu.LayoutReshape

/-!
# The output of a layout, dimension by dimension

The output at one dimension is the xor of what each input dimension adds to it.
A layout is surjective when every choice of outputs is reached by some choice of
inputs.
-/

set_option autoImplicit false

namespace TritonCpu

open XorSpan BitFields List

section XorSum

def xorSum (l : List ℕ) : ℕ := l.foldr (· ^^^ ·) 0

@[simp] theorem xorSum_nil : xorSum [] = 0 := rfl

@[simp] theorem xorSum_cons (a : ℕ) (l : List ℕ) : xorSum (a :: l) = a ^^^ xorSum l := rfl

theorem xorSum_append (l l' : List ℕ) : xorSum (l ++ l') = xorSum l ^^^ xorSum l' := by
  induction l with
  | nil => simp
  | cons a l ih => rw [cons_append, xorSum_cons, ih, xorSum_cons, Nat.xor_assoc]

variable {α : Type} {l : List α} {f g : α → ℕ}

theorem xorSum_map_xor : xorSum (l.map fun a => f a ^^^ g a) =
    xorSum (l.map f) ^^^ xorSum (l.map g) := by
  induction l with
  | nil => simp
  | cons a l ih =>
    rw [map_cons, map_cons, map_cons, xorSum_cons, xorSum_cons, xorSum_cons, ih]
    ac_rfl

theorem xorSum_map_zero (h : ∀ a ∈ l, f a = 0) : xorSum (l.map f) = 0 := by
  induction l with
  | nil => rfl
  | cons a l ih =>
    rw [map_cons, xorSum_cons, h a mem_cons_self,
      ih fun b hb => h b (mem_cons_of_mem _ hb), Nat.xor_self]

theorem xorSum_map_congr (h : ∀ a ∈ l, f a = g a) : xorSum (l.map f) = xorSum (l.map g) := by
  rw [map_congr_left h]

theorem xorSum_map (u : ℕ → ℕ) (hzero : u 0 = 0) (hxor : ∀ a b, u (a ^^^ b) = u a ^^^ u b)
    (l : List ℕ) : xorSum (l.map u) = u (xorSum l) := by
  induction l with
  | nil => exact hzero.symm
  | cons a l ih => rw [map_cons, xorSum_cons, ih, xorSum_cons, hxor]

theorem xorSum_lt {K : ℕ} {l : List ℕ} (h : ∀ a ∈ l, a < 2 ^ K) : xorSum l < 2 ^ K := by
  induction l with
  | nil => exact Nat.two_pow_pos K
  | cons a l ih =>
    exact Nat.xor_lt_two_pow (h a mem_cons_self)
      (ih fun b hb => h b (mem_cons_of_mem _ hb))

theorem xorSum_perm {l l' : List ℕ} (h : l.Perm l') : xorSum l = xorSum l' := by
  induction h with
  | nil => rfl
  | cons a _ ih => rw [xorSum_cons, ih, xorSum_cons]
  | swap a b l =>
    rw [xorSum_cons, xorSum_cons, xorSum_cons, xorSum_cons]
    ac_rfl
  | trans _ _ ih ih' => exact ih.trans ih'

theorem xorSum_map_filter {p : α → Bool} (h : ∀ a ∈ l, p a = false → f a = 0) :
    xorSum (l.map f) = xorSum ((l.filter p).map f) := by
  induction l with
  | nil => rfl
  | cons a l ih =>
    have hrest := ih fun b hb => h b (mem_cons_of_mem _ hb)
    cases hp : p a with
    | true => rw [filter_cons_of_pos hp, map_cons, map_cons, xorSum_cons,
        xorSum_cons, hrest]
    | false => rw [filter_cons_of_neg (by simp [hp]), map_cons, xorSum_cons,
        h a mem_cons_self hp, hrest, Nat.zero_xor]

theorem xorSum_map_single {l : List String} {f : String → ℕ} {d : String} (hnodup : l.Nodup)
    (hmem : d ∈ l) (hzero : ∀ a ∈ l, a ≠ d → f a = 0) : xorSum (l.map f) = f d := by
  induction l with
  | nil => exact absurd hmem not_mem_nil
  | cons a l ih =>
    rw [nodup_cons] at hnodup
    rw [map_cons, xorSum_cons]
    rcases mem_cons.mp hmem with rfl | hd
    · rw [xorSum_map_zero, Nat.xor_zero]
      intro b hb
      apply hzero b (mem_cons_of_mem _ hb)
      rintro rfl
      exact hnodup.1 hb
    · rw [hzero a mem_cons_self, Nat.zero_xor,
        ih hnodup.2 hd fun b hb => hzero b (mem_cons_of_mem _ hb)]
      rintro rfl
      exact hnodup.1 hd

theorem xorSum_update (f : String → ℕ → ℕ) (hzero : ∀ d, f d 0 = 0) {names : List String}
    (hnodup : names.Nodup) {d : String} (hd : d ∈ names) (x : ℕ) :
    xorSum (names.map fun d' => f d' (Function.update (fun _ => 0) d x d')) = f d x := by
  have hsingle := xorSum_map_single hnodup hd
    (f := fun d' => f d' (Function.update (fun _ => 0) d x d')) fun d' _ hne => by
      rw [Function.update_of_ne hne, hzero]
  rw [hsingle, Function.update_self]

theorem xor_shiftLeft_eq {k low : ℕ} (h : low < 2 ^ k) (high : ℕ) :
    low ^^^ high <<< k = low + 2 ^ k * high := by
  apply Nat.eq_of_testBit_eq
  intro i
  rw [Nat.add_comm, Nat.testBit_two_pow_mul_add _ h, Nat.testBit_xor, Nat.testBit_shiftLeft]
  by_cases hi : i < k
  · simp [hi, Nat.not_le.mpr hi]
  · rw [if_neg hi, Nat.testBit_lt_two_pow (h.trans_le (Nat.pow_le_pow_right (by omega) (by omega)))]
    simp only [ge_iff_le, not_lt.mp hi, decide_true, Bool.true_and, Bool.false_bne]

end XorSum

namespace RawLayout

variable (L : RawLayout)

def dimColumn (inDim outDim : String) : List ℕ :=
  (List.range (L.getInDimSizeLog2 inDim)).map fun i => L.getBasis inDim i outDim

/-- The output at `outDim`, with one coordinate for each input dimension. -/
def value (outDim : String) (ins : String → ℕ) : ℕ :=
  xorSum (L.getInDimNames.map fun inDim => combine (L.dimColumn inDim outDim) (ins inDim))

def Reaches : Prop :=
  ∀ target : String → ℕ,
    (∀ outDim ∈ L.getOutDimNames, target outDim < 2 ^ L.getOutDimSizeLog2 outDim) →
    ∃ ins : String → ℕ, (∀ inDim ∈ L.getInDimNames, ins inDim < 2 ^ L.getInDimSizeLog2 inDim) ∧
      ∀ outDim ∈ L.getOutDimNames, L.value outDim ins = target outDim

end RawLayout

section Missing

variable (L : RawLayout) {inDim outDim : String}

theorem getOutDimSizeLog2_of_notMem (h : outDim ∉ L.getOutDimNames) :
    L.getOutDimSizeLog2 outDim = 0 := by
  rw [RawLayout.getOutDimSizeLog2, MapVector.find_eq_none h]
  rfl

theorem getBasis_of_le {i : ℕ} (h : L.getInDimSizeLog2 inDim ≤ i) :
    L.getBasis inDim i outDim = 0 := by
  have hout : ((L.bases.find inDim).getD []).length ≤ i := h
  rw [RawLayout.getBasis, getD_eq_default _ _ hout]
  rfl

theorem dimColumn_of_notMem (h : inDim ∉ L.getInDimNames) : L.dimColumn inDim outDim = [] := by
  rw [RawLayout.dimColumn, getInDimSizeLog2_of_notMem L h]
  rfl

@[simp] theorem length_dimColumn :
    (L.dimColumn inDim outDim).length = L.getInDimSizeLog2 inDim := by
  simp [RawLayout.dimColumn]

theorem getD_dimColumn (i : ℕ) :
    (L.dimColumn inDim outDim).getD i 0 = L.getBasis inDim i outDim := by
  by_cases hi : i < L.getInDimSizeLog2 inDim
  · rw [getD_eq_getElem _ _ (by simpa using hi)]
    simp [RawLayout.dimColumn]
  · rw [getD_eq_default _ _ (by simpa using hi), getBasis_of_le L (by omega)]

end Missing

section Value

variable (L : RawLayout) {outDim : String} {ins : String → ℕ}

theorem combine_flatten (f : List ℕ → ℕ) (es : List (String × List (List ℕ)))
    (h : ∀ e ∈ es, ins e.1 < 2 ^ e.2.length) :
    combine ((es.map Prod.snd).flatten.map f)
        (pack (es.map fun e => e.2.length) (es.map fun e => ins e.1)) =
      xorSum (es.map fun e => combine (e.2.map f) (ins e.1)) := by
  induction es with
  | nil => simp
  | cons e es ih =>
    rw [map_cons, flatten_cons, map_append, map_cons, map_cons,
      combine_groups _ _ _ _ (by simp) (h e mem_cons_self),
      ih fun e' he' => h e' (mem_cons_of_mem _ he'), map_cons, xorSum_cons]

theorem value_oneInput {inDim : String} (hin : inDim ∈ L.getInDimNames) (x : ℕ) :
    L.value outDim (Function.update (fun _ => 0) inDim x) = combine (L.dimColumn inDim outDim) x :=
  xorSum_update (fun d v => combine (L.dimColumn d outDim) v) (fun _ => combine_zero _)
    L.bases.nodup hin x

theorem value_eq_combine (h : ∀ inDim ∈ L.getInDimNames, ins inDim < 2 ^ L.getInDimSizeLog2 inDim) :
    L.value outDim ins =
      combine (L.column outDim) (pack L.inWidths (L.getInDimNames.map ins)) := by
  have hwidths : L.inWidths = L.bases.entries.map fun e => e.2.length := by
    rw [RawLayout.inWidths, MapVector.values, map_map]
    rfl
  have hins : L.getInDimNames.map ins = L.bases.entries.map fun e => ins e.1 := by
    rw [RawLayout.getInDimNames, MapVector.keys, map_map]
    rfl
  have hfit : ∀ e ∈ L.bases.entries, ins e.1 < 2 ^ e.2.length := by
    intro e he
    rw [← getInDimSizeLog2_of_mem L he]
    exact h e.1 (mem_map_of_mem he)
  rw [hwidths, hins, RawLayout.column, RawLayout.flatBases, MapVector.values,
    combine_flatten _ _ hfit, RawLayout.value, RawLayout.getInDimNames, MapVector.keys,
    map_map]
  apply xorSum_map_congr
  intro e he
  rw [Function.comp_apply, RawLayout.dimColumn, map_getBasis L he]

theorem fits_ins (h : ∀ inDim ∈ L.getInDimNames, ins inDim < 2 ^ L.getInDimSizeLog2 inDim) :
    Fits (L.getInDimNames.map ins) L.inWidths := by
  rw [← map_getInDimSizeLog2]
  simp only [forall₂_map_left_iff, forall₂_map_right_iff, forall₂_same]
  exact h

theorem apply_eq_value (h : ∀ inDim ∈ L.getInDimNames, ins inDim < 2 ^ L.getInDimSizeLog2 inDim)
    (hwidth : ∀ inDim ∈ L.getInDimNames, L.getInDimSizeLog2 inDim ≤ 31) :
    L.apply (L.getInDimNames.map fun inDim => (inDim, ins inDim)) =
      .ok (L.getOutDimNames.map fun outDim => (outDim, L.value outDim ins)) := by
  have hwidth' : ∀ k ∈ L.inWidths, k ≤ 31 := by
    intro k hk
    rw [← map_getInDimSizeLog2] at hk
    obtain ⟨d, hd, rfl⟩ := mem_map.mp hk
    exact hwidth d hd
  have happly := apply_zip L (fits_ins L h) hwidth'
  rw [← map_prod_left_eq_zip] at happly
  rw [happly]
  congr 1
  apply map_congr_left
  intro d _
  rw [value_eq_combine L h]

end Value

section Reaches

variable (L : RawLayout)

theorem exists_ins {x : ℕ} (hx : x < 2 ^ L.getTotalInDimSizeLog2) :
    ∃ ins : String → ℕ, (∀ inDim ∈ L.getInDimNames, ins inDim < 2 ^ L.getInDimSizeLog2 inDim) ∧
      pack L.inWidths (L.getInDimNames.map ins) = x := by
  let ins : String → ℕ := fun d => (unpack L.inWidths x).getD (L.getInDimNames.idxOf d) 0
  have hlen : (unpack L.inWidths x).length = L.getInDimNames.length := by
    rw [length_unpack, length_inWidths]
  have hins : L.getInDimNames.map ins = unpack L.inWidths x := by
    apply ext_getElem (by rw [length_map, hlen])
    intro i hi hi'
    have hname : i < L.getInDimNames.length := by simpa using hi
    rw [getElem_map]
    change (unpack L.inWidths x).getD _ 0 = _
    have hidx : L.getInDimNames.idxOf L.getInDimNames[i] = i :=
      L.bases.nodup.idxOf_getElem i hname
    rw [hidx, getD_eq_getElem _ _ hi']
  refine ⟨ins, ?_, ?_⟩
  · have hall := fits_unpack L.inWidths x
    rw [← hins, ← map_getInDimSizeLog2] at hall
    simpa only [forall₂_map_left_iff, forall₂_map_right_iff, forall₂_same]
      using hall
  · rw [hins, pack_unpack (by rwa [← getTotalInDimSizeLog2_eq])]

theorem onto_iff_reaches (hfits : ∀ b ∈ L.flatBases, Fits b L.outWidths) :
    Onto L.getTotalOutDimSizeLog2 L.flatColumns ↔ L.Reaches := by
  rw [getTotalOutDimSizeLog2_eq, RawLayout.flatColumns, onto_iff_fields hfits]
  have hcolumn : ∀ {t : ℕ} (ht : t < L.getOutDimNames.length),
      L.flatBases.map (fun b => b.getD t 0) = L.column L.getOutDimNames[t] := by
    intro t ht
    rw [RawLayout.column, getOutDimIndex_getElem L ht]
  constructor
  · intro honto target htarget
    obtain ⟨x, hx, hreach⟩ := honto (L.getOutDimNames.map target) (by
      rw [← map_getOutDimSizeLog2]
      simpa only [forall₂_map_left_iff, forall₂_map_right_iff, forall₂_same]
        using htarget)
    have hxlt : x < 2 ^ L.getTotalInDimSizeLog2 := by rwa [length_flatBases] at hx
    obtain ⟨ins, hfit, hpack⟩ := exists_ins L hxlt
    refine ⟨ins, hfit, fun outDim hout => ?_⟩
    have ht := idxOf_lt_length_of_mem hout
    have hval := hreach (L.getOutDimNames.idxOf outDim) (by rwa [length_outWidths])
    rw [hcolumn ht, getElem_idxOf, getD_eq_getElem _ _ (by simpa using ht),
      getElem_map, getElem_idxOf] at hval
    rw [value_eq_combine L hfit, hpack, hval]
  · intro hreach vs hvs
    have hlen : vs.length = L.getOutDimNames.length := by rw [hvs.length_eq, length_outWidths]
    obtain ⟨ins, hfit, hval⟩ := hreach (fun d => vs.getD (L.getOutDimIndex d) 0) (by
      intro d hd
      have ht := idxOf_lt_length_of_mem hd
      have hlog := getOutDimSizeLog2_getElem L ht
      rw [getElem_idxOf] at hlog
      rw [hlog]
      exact getD_lt_of_fits hvs _)
    refine ⟨pack L.inWidths (L.getInDimNames.map ins), ?_, fun t ht => ?_⟩
    · rw [length_flatBases, getTotalInDimSizeLog2_eq]
      exact pack_lt (fits_ins L hfit)
    · rw [length_outWidths] at ht
      rw [hcolumn ht, ← value_eq_combine L hfit, hval _ (getElem_mem ht),
        getOutDimIndex_getElem L ht]

end Reaches

section Create

variable (f2 : F2Reduce) (raw : RawLayout)

theorem exists_getBasis {basis : List ℕ} (h : basis ∈ raw.flatBases) :
    ∃ inDim i, ∀ outDim, raw.getBasis inDim i outDim = basis.getD (raw.getOutDimIndex outDim) 0 := by
  obtain ⟨bs, hbs, hmem⟩ := mem_flatten.mp h
  obtain ⟨e, he, rfl⟩ := mem_map.mp hbs
  obtain ⟨i, hi, rfl⟩ := getElem_of_mem hmem
  refine ⟨e.1, i, fun outDim => ?_⟩
  rw [RawLayout.getBasis, MapVector.find_of_mem he, Option.getD_some, getD_eq_getElem _ _ hi]

theorem getBasis_cases (inDim : String) (i : ℕ) : (∃ basis ∈ raw.flatBases, ∀ outDim,
    raw.getBasis inDim i outDim = basis.getD (raw.getOutDimIndex outDim) 0) ∨
    ∀ outDim, raw.getBasis inDim i outDim = 0 := by
  by_cases hi : i < raw.getInDimSizeLog2 inDim
  · left
    have hmem : inDim ∈ raw.getInDimNames := by
      by_contra hnot
      rw [getInDimSizeLog2_of_notMem raw hnot] at hi
      omega
    obtain ⟨bs, hbs, hfind⟩ := MapVector.exists_find hmem
    rw [getInDimSizeLog2_of_mem raw hbs] at hi
    refine ⟨bs[i], ?_, fun outDim => ?_⟩
    · exact mem_flatten.mpr ⟨bs, mem_map.mpr ⟨_, hbs, rfl⟩, getElem_mem hi⟩
    · rw [RawLayout.getBasis, hfind, Option.getD_some, getD_eq_getElem _ _ hi]
  · right
    intro outDim
    exact getBasis_of_le raw (by omega)

theorem size_eq_two_pow (hpow : ∀ size ∈ raw.outDims.values, isPowerOf2_32 size = true)
    {e : String × ℕ} (he : e ∈ raw.outDims.entries) : e.2 = 2 ^ raw.getOutDimSizeLog2 e.1 := by
  obtain ⟨k, _, hsize⟩ := isPowerOf2_32_iff.mp (hpow e.2 (mem_map_of_mem he))
  rw [getOutDimSizeLog2_of_mem raw he, hsize, Nat.log2_two_pow]

variable (requireSurjective : Bool)
  (hlen : ∀ basis ∈ raw.flatBases, basis.length = raw.outDims.values.length)
  (hpow : ∀ size ∈ raw.outDims.values, isPowerOf2_32 size = true)
  (hlt : ∀ inDim i, ∀ outDim ∈ raw.getOutDimNames,
    raw.getBasis inDim i outDim < 2 ^ raw.getOutDimSizeLog2 outDim)

include hlen hpow hlt

theorem basis_lt_of_getBasis :
    ∀ basis ∈ raw.flatBases, List.Forall₂ (· < ·) basis raw.outDims.values := by
  intro basis hbasis
  obtain ⟨inDim, i, hget⟩ := exists_getBasis raw hbasis
  apply forall₂_iff_get.mpr
  refine ⟨hlen basis hbasis, fun t ht ht' => ?_⟩
  have hentry : t < raw.outDims.entries.length := by simpa using ht'
  have hname : t < raw.getOutDimNames.length := by
    rw [RawLayout.getOutDimNames, MapVector.length_keys]
    exact hentry
  have hbound := hlt inDim i _ (getElem_mem hname)
  have hsize := size_eq_two_pow raw hpow (getElem_mem hentry)
  have hkey : raw.outDims.entries[t].1 = raw.getOutDimNames[t] := by
    simp [RawLayout.getOutDimNames, MapVector.keys]
  rw [hkey] at hsize
  rw [← hsize, hget, getOutDimIndex_getElem raw hname, getD_eq_getElem _ _ ht] at hbound
  simpa [MapVector.values] using hbound

/-- A layout is made when its sizes are powers of two and its bases are below
them; it is surjective when every output is reached. -/
theorem create_of_getBasis (hcols : raw.getTotalInDimSizeLog2 ≤ 64) (hrows : raw.getTotalOutDimSizeLog2 ≤ 64)
    (hreach : requireSurjective = true → raw.Reaches) :
    ∃ L : LinearLayout, create f2 raw requireSurjective = .ok L ∧ L.toRawLayout = raw ∧
      (raw.Reaches → L.surjective = true) := by
  have hbasis := basis_lt_of_getBasis raw hlen hpow hlt
  have hfits : ∀ b ∈ raw.flatBases, Fits b raw.outWidths := fun b hb =>
    fits_of_lt hpow (hbasis b hb)
  have honto := onto_iff_reaches raw hfits
  obtain ⟨L, hcreate, hraw⟩ := create_ok f2 raw requireSurjective hpow hbasis hcols hrows
    fun hreq => honto.mpr (hreach hreq)
  refine ⟨L, hcreate, hraw, fun h => L.surjective_iff.mpr ?_⟩
  rw [hraw]
  exact honto.mpr h

theorem create_of_reaches (hcols : raw.getTotalInDimSizeLog2 ≤ 64) (hreach : raw.Reaches) :
    ∃ L : LinearLayout, create f2 raw requireSurjective = .ok L ∧ L.toRawLayout = raw ∧
      L.surjective = true := by
  have hbasis := basis_lt_of_getBasis raw hlen hpow hlt
  have hrows : raw.getTotalOutDimSizeLog2 ≤ 64 := by
    have hle := le_length_of_onto ((onto_iff_reaches raw fun b hb =>
      fits_of_lt hpow (hbasis b hb)).mpr hreach)
    rw [length_flatColumns] at hle
    exact hle.trans hcols
  obtain ⟨L, hcreate, hraw, hsurj⟩ := create_of_getBasis f2 raw requireSurjective hlen hpow hlt
    hcols hrows fun _ => hreach
  exact ⟨L, hcreate, hraw, hsurj hreach⟩

end Create

section Bounds

theorem nodup_getInDimNames (L : RawLayout) : L.getInDimNames.Nodup := L.bases.nodup

theorem nodup_getOutDimNames (L : RawLayout) : L.getOutDimNames.Nodup := L.outDims.nodup

variable (L : LinearLayout) {inDim outDim : String} {i : ℕ}

theorem length_of_mem_flatBases {basis : List ℕ} (h : basis ∈ L.flatBases) :
    basis.length = L.getOutDimNames.length := by
  rw [(L.basis_lt basis h).length_eq, MapVector.length_values, RawLayout.getOutDimNames,
    MapVector.length_keys]

theorem getBasis_of_notMem (h : outDim ∉ L.getOutDimNames) : L.getBasis inDim i outDim = 0 := by
  obtain ⟨basis, hbasis, hget⟩ | hzero := getBasis_cases L.toRawLayout inDim i
  · rw [hget, getD_eq_default]
    rw [length_of_mem_flatBases L hbasis]
    exact (idxOf_eq_length h).ge
  · exact hzero outDim

theorem getBasis_lt : L.getBasis inDim i outDim < 2 ^ L.getOutDimSizeLog2 outDim := by
  by_cases hmem : outDim ∈ L.getOutDimNames
  · obtain ⟨basis, hbasis, hget⟩ | hzero := getBasis_cases L.toRawLayout inDim i
    · have hfit := getD_lt_of_fits (L.fits basis hbasis) (L.getOutDimIndex outDim)
      rw [getD_outWidths L hmem] at hfit
      rwa [hget]
    · rw [hzero]
      exact Nat.two_pow_pos _
  · rw [getBasis_of_notMem L hmem]
    exact Nat.two_pow_pos _

theorem value_lt (ins : String → ℕ) : L.value outDim ins < 2 ^ L.getOutDimSizeLog2 outDim := by
  apply xorSum_lt
  intro v hv
  obtain ⟨d, _, rfl⟩ := mem_map.mp hv
  apply combine_lt
  intro c hc
  obtain ⟨j, _, rfl⟩ := mem_map.mp hc
  exact getBasis_lt L

end Bounds

section Inputs

theorem value_of_notMem (a : LinearLayout) {outDim : String} (hout : outDim ∉ a.getOutDimNames)
    (ins : String → ℕ) : a.value outDim ins = 0 := by
  have hlt : a.value outDim ins < 2 ^ a.getOutDimSizeLog2 outDim := value_lt a ins
  rw [getOutDimSizeLog2_of_notMem a.toRawLayout hout] at hlt
  omega

theorem lookup_value (a : LinearLayout) (outDim : String) (ins : String → ℕ) :
    ((a.getOutDimNames.map fun outDim => (outDim, a.value outDim ins)).lookup outDim).getD 0 =
      a.value outDim ins := by
  by_cases hmem : outDim ∈ a.getOutDimNames
  · rw [lookup_map (fun outDim => a.value outDim ins) hmem, Option.getD_some]
  · rw [lookup_map_of_notMem (fun outDim => a.value outDim ins) hmem, Option.getD_none,
      value_of_notMem a hmem]

theorem value_mod (L : RawLayout) (outDim : String) {ins ins' : String → ℕ}
    (hmod : ∀ inDim ∈ L.getInDimNames, ins inDim % 2 ^ L.getInDimSizeLog2 inDim =
      ins' inDim % 2 ^ L.getInDimSizeLog2 inDim) : L.value outDim ins = L.value outDim ins' := by
  apply xorSum_map_congr
  intro inDim hin
  have hlen : (L.dimColumn inDim outDim).length = L.getInDimSizeLog2 inDim := length_dimColumn L
  rw [← combine_mod _ (ins inDim), ← combine_mod _ (ins' inDim), hlen, hmod inDim hin]

end Inputs

theorem LinearLayout.surjective_iff_reaches (L : LinearLayout) :
    L.surjective = true ↔ L.toRawLayout.Reaches := by
  rw [L.surjective_iff, onto_iff_reaches L.toRawLayout L.fits]

/-- A layout from one input dimension, its surjectivity computed by `f2reduce`. -/
def oneInputLayout (inDim : String) (bases : List (List ℕ)) (outDims : MapVector ℕ)
    (hpow : ∀ size ∈ outDims.values, isPowerOf2_32 size = true)
    (hlt : ∀ b ∈ (⟨MapVector.single inDim bases, outDims⟩ : RawLayout).flatBases,
      List.Forall₂ (· < ·) b outDims.values)
    (hcols : (⟨MapVector.single inDim bases, outDims⟩ : RawLayout).getTotalInDimSizeLog2 ≤ 64)
    (hrows : (⟨MapVector.single inDim bases, outDims⟩ : RawLayout).getTotalOutDimSizeLog2 ≤ 64) :
    LinearLayout :=
  ⟨⟨MapVector.single inDim bases, outDims⟩, _, hpow, hlt, hcols, hrows,
    computeSurjective_iff f2reduce _ hpow hlt hcols⟩

end TritonCpu
