import Mathlib.Algebra.Order.Ring.Int
import Mathlib.Data.Nat.Size
import Mathlib.Tactic.Positivity
import TritonCpu.LayoutProduct

/-!
# Layouts of single bits

The layouts that the encodings are built of send every bit of the input to one
bit of the output or to none, and every bit of the output comes from one bit of
the input. Products keep this, and it determines what a layout is: its
dimensions, their sizes and the output at each of them.
-/

set_option autoImplicit false

namespace TritonCpu

open XorSpan BitFields List

/-- The conversion to `int32_t`. -/
def int32 (x : ℤ) : ℤ := Int.bmod x (2 ^ 32)

/-- `llvm::isPowerOf2_32` of an `int32_t`, which it reads as unsigned. -/
def isPowerOf2_u32 (size : ℤ) : Bool := (List.range 32).any fun k => size % 2 ^ 32 == 2 ^ k

/-- `llvm::NextPowerOf2`, which is above its argument. -/
def nextPowerOf2 (a : ℕ) : ℕ := 2 ^ Nat.size a

namespace LinearLayout

variable (f2 : F2Reduce)

def inferOutDimSize (column : List ℕ) : ℕ :=
  column.foldl (fun size basis => max size (int32 (nextPowerOf2 basis)).toNat) 1

def inferOutDims (bases : BasesT) (outDimNames : List String) : MapVector ℕ :=
  MapVector.build (fun old size => max (old.getD 1) size) (outDimNames.zipIdx.map fun d =>
    (d.1, inferOutDimSize (bases.values.flatten.map fun basis => basis.getD d.2 0)))

/-- The constructor that infers the sizes of the output dimensions. -/
def createInferred (bases : BasesT) (outDimNames : List String) :
    Except LayoutError LinearLayout :=
  create f2 ⟨bases, inferOutDims bases outDimNames⟩ true

def empty : Except LayoutError LinearLayout := createInferred f2 MapVector.empty []

def makeBasesMap (bases : List (String × List (List ℕ))) : BasesT :=
  MapVector.build (fun _ inDimBases => inDimBases) bases

def identity1D (size : ℤ) (inDimName outDimName : String) : Except LayoutError LinearLayout :=
  if size = 0 then empty f2
  else do
    assertThat "llvm::isPowerOf2_32(size)" (isPowerOf2_u32 size)
    let powersOf2 : List ℕ := ((List.range 31).map (2 ^ ·)).takeWhile fun i => (i : ℤ) < size
    createInferred f2 (makeBasesMap [(inDimName, powersOf2.map fun i => [i])]) [outDimName]

def zeros1D (size : ℤ) (inDimName outDimName : String) : Except LayoutError LinearLayout :=
  if size = 0 then empty f2
  else do
    assertThat "llvm::isPowerOf2_32(size)" (isPowerOf2_u32 size)
    let zeros := List.replicate (Nat.log2 (size % 2 ^ 32).toNat) [0]
    createInferred f2 (makeBasesMap [(inDimName, zeros)]) [outDimName]

end LinearLayout

open LinearLayout

section Unit

/-- Every entry of a basis is a power of two or zero, and every bit of the output
is the basis of one bit of the input. -/
structure UnitColumns (L : RawLayout) : Prop where
  power : ∀ outDim ∈ L.getOutDimNames, ∀ inDim i, L.getBasis inDim i outDim ≠ 0 →
    ∃ e < L.getOutDimSizeLog2 outDim, L.getBasis inDim i outDim = 2 ^ e
  source : ∀ outDim ∈ L.getOutDimNames, ∀ e < L.getOutDimSizeLog2 outDim, ∃ bit : String × ℕ,
    ∀ inDim i, L.getBasis inDim i outDim = 2 ^ e ↔ (inDim, i) = bit

variable {a b : LinearLayout} {L : RawLayout}

theorem UnitColumns.power' (h : UnitColumns a.toRawLayout) {inDim outDim : String} {i : ℕ}
    (hne : a.getBasis inDim i outDim ≠ 0) :
    ∃ e < a.getOutDimSizeLog2 outDim, a.getBasis inDim i outDim = 2 ^ e := by
  by_cases hmem : outDim ∈ a.getOutDimNames
  · exact h.power outDim hmem inDim i hne
  · exact absurd (getBasis_of_notMem a hmem) hne

theorem UnitColumns.source' (h : UnitColumns a.toRawLayout) {outDim : String} {e : ℕ}
    (he : e < a.getOutDimSizeLog2 outDim) : ∃ bit : String × ℕ, ∀ inDim i,
      a.getBasis inDim i outDim = 2 ^ e ↔ (inDim, i) = bit := by
  by_cases hmem : outDim ∈ a.getOutDimNames
  · exact h.source outDim hmem e he
  · rw [getOutDimSizeLog2_of_notMem a.toRawLayout hmem] at he
    omega

theorem shiftLeft_eq_two_pow {c s e : ℕ} : c <<< s = 2 ^ (s + e) ↔ c = 2 ^ e := by
  rw [Nat.shiftLeft_eq, Nat.pow_add, Nat.mul_comm (2 ^ s)]
  exact Nat.mul_left_inj (Nat.two_pow_pos s).ne'

theorem unitColumns_product (h : IsProduct a b L) (ha : UnitColumns a.toRawLayout)
    (hb : UnitColumns b.toRawLayout) : UnitColumns L where
  power := by
    intro outDim hout inDim i hne
    rw [h.basis inDim i outDim hout] at hne ⊢
    rw [h.outSize]
    split_ifs with hi
    · rw [if_pos hi] at hne
      obtain ⟨e, he, heq⟩ := ha.power' hne
      exact ⟨e, by omega, heq⟩
    · rw [if_neg hi] at hne
      have hne' : b.getBasis inDim (i - a.getInDimSizeLog2 inDim) outDim ≠ 0 := by
        intro hzero
        rw [hzero, Nat.zero_shiftLeft] at hne
        exact hne rfl
      obtain ⟨e, he, heq⟩ := hb.power' hne'
      exact ⟨a.getOutDimSizeLog2 outDim + e, by omega, shiftLeft_eq_two_pow.mpr heq⟩
  source := by
    intro outDim hout e he
    rw [h.outSize] at he
    by_cases hlow : e < a.getOutDimSizeLog2 outDim
    · obtain ⟨⟨d, j⟩, hbit⟩ := ha.source' hlow
      have hj : j < a.getInDimSizeLog2 d := by
        by_contra hle
        have hzero : a.getBasis d j outDim = 0 := getBasis_of_le a.toRawLayout (not_lt.mp hle)
        rw [(hbit d j).mpr rfl] at hzero
        exact (Nat.two_pow_pos e).ne' hzero
      refine ⟨(d, j), fun inDim i => ?_⟩
      rw [h.basis inDim i outDim hout]
      split_ifs with hi
      · exact hbit inDim i
      · constructor
        · intro heq
          have hne : b.getBasis inDim (i - a.getInDimSizeLog2 inDim) outDim ≠ 0 := by
            intro hzero
            rw [hzero, Nat.zero_shiftLeft] at heq
            exact (Nat.two_pow_pos e).ne heq
          obtain ⟨e', -, heq'⟩ := hb.power' hne
          rw [heq', Nat.shiftLeft_eq, ← Nat.pow_add] at heq
          have hexp := Nat.pow_right_injective (le_refl 2) heq
          omega
        · intro hpair
          obtain ⟨rfl, rfl⟩ := Prod.mk.inj hpair
          exact absurd hj hi
    · obtain ⟨k, rfl⟩ : ∃ k, e = a.getOutDimSizeLog2 outDim + k :=
        ⟨e - a.getOutDimSizeLog2 outDim, by omega⟩
      obtain ⟨⟨d, j⟩, hbit⟩ := hb.source' (show k < b.getOutDimSizeLog2 outDim by omega)
      refine ⟨(d, a.getInDimSizeLog2 d + j), fun inDim i => ?_⟩
      rw [h.basis inDim i outDim hout]
      split_ifs with hi
      · constructor
        · intro heq
          have hlt : a.getBasis inDim i outDim < 2 ^ a.getOutDimSizeLog2 outDim := getBasis_lt a
          rw [heq, Nat.pow_lt_pow_iff_right (by omega)] at hlt
          omega
        · intro hpair
          obtain ⟨rfl, rfl⟩ := Prod.mk.inj hpair
          omega
      · rw [shiftLeft_eq_two_pow, hbit, Prod.mk.injEq, Prod.mk.injEq]
        constructor
        · rintro ⟨rfl, hsub⟩
          exact ⟨rfl, by omega⟩
        · rintro ⟨rfl, hadd⟩
          exact ⟨rfl, by omega⟩

end Unit

/-- What a layout is for its users: the dimensions, their sizes and the output.
A dimension that is not there has size 1 and output 0. -/
@[ext] structure LayoutSpec where
  inDims : List String
  inLog : String → ℕ
  outDims : List String
  outLog : String → ℕ
  value : String → (String → ℕ) → ℕ

namespace LayoutSpec

def total (s : LayoutSpec) : ℕ := (s.inDims.map s.inLog).sum

def empty : LayoutSpec := ⟨[], fun _ => 0, [], fun _ => 0, fun _ _ => 0⟩

/-- The low `outBits` bits of a number of `inBits` bits. -/
def oneDim (inBits outBits : ℕ) (inDim outDim : String) : LayoutSpec where
  inDims := [inDim]
  inLog d := if d = inDim then inBits else 0
  outDims := [outDim]
  outLog o := if o = outDim then outBits else 0
  value o ins := if o = outDim then ins inDim % 2 ^ outBits else 0

def mul (s t : LayoutSpec) : LayoutSpec where
  inDims := s.inDims ++ t.inDims.filter (· ∉ s.inDims)
  inLog d := s.inLog d + t.inLog d
  outDims := s.outDims ++ t.outDims.filter (· ∉ s.outDims)
  outLog o := s.outLog o + t.outLog o
  value o ins := s.value o ins + 2 ^ s.outLog o * t.value o fun d => ins d / 2 ^ s.inLog d

end LayoutSpec

/-- A surjective layout of single bits that is as specified. -/
structure Describes (L : LinearLayout) (s : LayoutSpec) : Prop where
  inDims : L.getInDimNames = s.inDims
  outDims : L.getOutDimNames = s.outDims
  inSize : ∀ inDim, L.getInDimSizeLog2 inDim = s.inLog inDim
  outSize : ∀ outDim, L.getOutDimSizeLog2 outDim = s.outLog outDim
  value : ∀ outDim ins, L.value outDim ins = s.value outDim ins
  surjective : L.surjective = true
  unit : UnitColumns L.toRawLayout

/-- A surjective layout that is as specified, of whatever bases. -/
structure Computes (L : LinearLayout) (s : LayoutSpec) : Prop where
  inDims : L.getInDimNames = s.inDims
  outDims : L.getOutDimNames = s.outDims
  inSize : ∀ inDim, L.getInDimSizeLog2 inDim = s.inLog inDim
  outSize : ∀ outDim, L.getOutDimSizeLog2 outDim = s.outLog outDim
  value : ∀ outDim ins, L.value outDim ins = s.value outDim ins
  surjective : L.surjective = true

theorem Describes.computes {L : LinearLayout} {s : LayoutSpec} (h : Describes L s) :
    Computes L s :=
  ⟨h.inDims, h.outDims, h.inSize, h.outSize, h.value, h.surjective⟩

theorem Computes.total {L : LinearLayout} {s : LayoutSpec} (h : Computes L s) :
    L.getTotalInDimSizeLog2 = s.total := by
  rw [RawLayout.getTotalInDimSizeLog2, LayoutSpec.total, h.inDims,
    map_congr_left fun d _ => h.inSize d]

theorem Computes.outLog_lt {L : LinearLayout} {s : LayoutSpec} (h : Computes L s)
    (outDim : String) : s.outLog outDim < 31 := by
  rw [← h.outSize]
  by_cases hmem : outDim ∈ L.getOutDimNames
  · exact getOutDimSizeLog2_lt L hmem
  · rw [getOutDimSizeLog2_of_notMem L.toRawLayout hmem]
    omega

section Mul

variable (f2 : F2Reduce) {a b : LinearLayout} {s t : LayoutSpec}

theorem total_mul (ha : Computes a s) (hb : Computes b t) :
    (s.mul t).total = s.total + t.total := by
  have hzero : ∀ {L : LinearLayout} {u : LayoutSpec}, Computes L u →
      ∀ d, d ∉ u.inDims → u.inLog d = 0 := by
    intro L u h d hd
    rw [← h.inSize, getInDimSizeLog2_of_notMem L.toRawLayout (h.inDims ▸ hd)]
  exact sum_union (ha.inDims ▸ nodup_getInDimNames a.toRawLayout)
    (hb.inDims ▸ nodup_getInDimNames b.toRawLayout) (hzero ha) (hzero hb)

theorem mul_computes (ha : Computes a s) (hb : Computes b t)
    (houts : assertCommonDimsSameOrder s.outDims t.outDims = .ok ())
    (hins : assertCommonDimsSameOrder s.inDims t.inDims = .ok ())
    (hsize : ∀ outDim, s.outLog outDim + t.outLog outDim < 31)
    (hcols : s.total + t.total ≤ 64) :
    ∃ L : LinearLayout, mul f2 a b = .ok L ∧ IsProduct a b L.toRawLayout ∧
      Computes L (s.mul t) := by
  obtain ⟨L, hmul, hproduct, hsurj⟩ := mul_ok f2 (by rw [ha.outDims, hb.outDims, houts])
    (by rw [ha.inDims, hb.inDims, hins])
    (fun o => by rw [ha.outSize, hb.outSize]; exact hsize o) (by rw [ha.total, hb.total]; exact hcols)
    ha.surjective hb.surjective
  refine ⟨L, hmul, hproduct, ?_, ?_, ?_, ?_, ?_, hsurj⟩
  · rw [hproduct.inDims, ha.inDims, hb.inDims]
    rfl
  · rw [hproduct.outDims, ha.outDims, hb.outDims]
    rfl
  · intro d
    rw [hproduct.inSize, ha.inSize, hb.inSize]
    rfl
  · intro o
    rw [hproduct.outSize, ha.outSize, hb.outSize]
    rfl
  · intro o ins
    have hquot : (fun d => ins d / 2 ^ a.getInDimSizeLog2 d) = fun d => ins d / 2 ^ s.inLog d :=
      funext fun d => by rw [ha.inSize]
    by_cases hout : o ∈ L.getOutDimNames
    · rw [value_product hproduct hout, xor_shiftLeft_eq (value_lt a ins), ha.value, hb.value,
        ha.outSize, hquot]
      rfl
    · have hnot : o ∉ a.getOutDimNames ∧ o ∉ b.getOutDimNames := by
        rw [hproduct.outDims] at hout
        constructor
        · exact fun hmem => hout (mem_append_left _ hmem)
        · intro hmem
          by_cases hmem' : o ∈ a.getOutDimNames
          · exact hout (mem_append_left _ hmem')
          · exact hout (mem_append_right _ (mem_filter.mpr ⟨hmem, by simpa using hmem'⟩))
      have hs : s.value o ins = 0 := by rw [← ha.value, value_of_notMem a hnot.1]
      have ht : t.value o (fun d => ins d / 2 ^ s.inLog d) = 0 := by
        rw [← hb.value, value_of_notMem b hnot.2]
      rw [value_of_notMem L hout]
      simp only [LayoutSpec.mul, hs, ht, Nat.mul_zero, Nat.add_zero]

theorem mul_describes (ha : Describes a s) (hb : Describes b t)
    (houts : assertCommonDimsSameOrder s.outDims t.outDims = .ok ())
    (hins : assertCommonDimsSameOrder s.inDims t.inDims = .ok ())
    (hsize : ∀ outDim, s.outLog outDim + t.outLog outDim < 31)
    (hcols : s.total + t.total ≤ 64) :
    ∃ L : LinearLayout, mul f2 a b = .ok L ∧ Describes L (s.mul t) := by
  obtain ⟨L, hmul, hproduct, h⟩ := mul_computes f2 ha.computes hb.computes houts hins hsize hcols
  exact ⟨L, hmul, h.inDims, h.outDims, h.inSize, h.outSize, h.value, h.surjective,
    unitColumns_product hproduct ha.unit hb.unit⟩

end Mul

section Inferred

variable {column : List ℕ} {m : ℕ}

theorem int32_of_lt {x : ℕ} (h : x < 2 ^ 31) : int32 x = x := by
  rw [int32, Int.bmod_eq_of_le] <;> omega

theorem nextPowerOf2_le {c : ℕ} (h : c < 2 ^ m) : nextPowerOf2 c ≤ 2 ^ m :=
  Nat.pow_le_pow_right (by omega) (Nat.size_le.mpr h)

theorem inferOutDimSize_eq (hm : m < 31) (hlt : ∀ c ∈ column, c < 2 ^ m)
    (htop : m = 0 ∨ ∃ c ∈ column, 2 ^ (m - 1) ≤ c) : inferOutDimSize column = 2 ^ m := by
  have hsize : ∀ c ∈ column, (int32 (nextPowerOf2 c)).toNat = nextPowerOf2 c := by
    intro c hc
    have hle := nextPowerOf2_le (hlt c hc)
    have hpow : 2 ^ m < 2 ^ 31 := Nat.pow_lt_pow_right (by omega) hm
    rw [int32_of_lt (by omega), Int.toNat_natCast]
  have hupper : ∀ (l : List ℕ) (size : ℕ), (∀ c ∈ l, c ∈ column) → size ≤ 2 ^ m →
      l.foldl (fun size c => max size (int32 (nextPowerOf2 c)).toNat) size ≤ 2 ^ m := by
    intro l
    induction l with
    | nil => exact fun size _ hle => hle
    | cons c l ih =>
      intro size hmem hle
      rw [foldl_cons]
      apply ih _ fun d hd => hmem d (mem_cons_of_mem _ hd)
      have hc := hmem c mem_cons_self
      rw [hsize c hc]
      exact max_le hle (nextPowerOf2_le (hlt c hc))
  have hlower : ∀ (l : List ℕ) (size : ℕ),
      size ≤ l.foldl (fun size c => max size (int32 (nextPowerOf2 c)).toNat) size := by
    intro l
    induction l with
    | nil => exact fun size => le_rfl
    | cons c l ih =>
      intro size
      rw [foldl_cons]
      exact (le_max_left _ _).trans (ih _)
  have hreach : ∀ (l : List ℕ) (size c : ℕ), c ∈ l → (int32 (nextPowerOf2 c)).toNat ≤
      l.foldl (fun size c => max size (int32 (nextPowerOf2 c)).toNat) size := by
    intro l
    induction l with
    | nil => exact fun size c hc => absurd hc not_mem_nil
    | cons d l ih =>
      intro size c hc
      rw [foldl_cons]
      rcases mem_cons.mp hc with rfl | hmem
      · exact (le_max_right _ _).trans (hlower l _)
      · exact ih _ c hmem
  apply Nat.le_antisymm (hupper column 1 (fun _ hc => hc) (Nat.two_pow_pos m))
  obtain rfl | ⟨c, hc, hle⟩ := htop
  · exact hlower column 1
  · have hlog : m - 1 < Nat.size c := Nat.lt_size.mpr hle
    calc 2 ^ m ≤ nextPowerOf2 c := Nat.pow_le_pow_right (by omega) (by omega)
      _ = (int32 (nextPowerOf2 c)).toNat := (hsize c hc).symm
      _ ≤ inferOutDimSize column := hreach column 1 c hc

variable (bases : BasesT) {outDimNames : List String}

def inferred (bases : BasesT) (outDimNames : List String) : RawLayout :=
  ⟨bases, inferOutDims bases outDimNames⟩

theorem entries_inferOutDims (hnodup : outDimNames.Nodup) :
    (inferOutDims bases outDimNames).entries = outDimNames.zipIdx.map fun d =>
      (d.1, max 1 (inferOutDimSize (bases.values.flatten.map fun basis => basis.getD d.2 0))) := by
  rw [inferOutDims, MapVector.entries_build]
  · rw [map_map]
    rfl
  · rw [map_map]
    exact (zipIdx_map_fst ..).symm ▸ hnodup

theorem getOutDimNames_inferred (hnodup : outDimNames.Nodup) :
    (inferred bases outDimNames).getOutDimNames = outDimNames := by
  rw [RawLayout.getOutDimNames, inferred, MapVector.keys, entries_inferOutDims bases hnodup,
    map_map]
  exact zipIdx_map_fst ..

theorem getOutDimSizeLog2_inferred {L : RawLayout} {log : String → ℕ}
    (hentries : L.outDims.entries = outDimNames.map fun outDim => (outDim, 2 ^ log outDim))
    {outDim : String} (hout : outDim ∈ outDimNames) : L.getOutDimSizeLog2 outDim = log outDim := by
  have hmem : (outDim, 2 ^ log outDim) ∈ L.outDims.entries := by
    rw [hentries]
    exact mem_map_of_mem hout
  rw [getOutDimSizeLog2_of_mem _ hmem, Nat.log2_two_pow]

variable (f2 : F2Reduce) (hnodup : outDimNames.Nodup) (log : String → ℕ)
  (hlog : ∀ outDim ∈ outDimNames, log outDim < 31)
  (hlen : ∀ basis ∈ bases.values.flatten, basis.length = outDimNames.length)
  (hlt : ∀ inDim i, ∀ outDim ∈ outDimNames,
    (inferred bases outDimNames).getBasis inDim i outDim < 2 ^ log outDim)
  (htop : ∀ outDim ∈ outDimNames, log outDim = 0 ∨ ∃ inDim i,
    2 ^ (log outDim - 1) ≤ (inferred bases outDimNames).getBasis inDim i outDim)

include hnodup hlog hlt htop

theorem entries_inferred :
    (inferred bases outDimNames).outDims.entries =
      outDimNames.map fun outDim => (outDim, 2 ^ log outDim) := by
  have hnames := getOutDimNames_inferred bases hnodup
  rw [inferred, entries_inferOutDims bases hnodup]
  apply ext_getElem (by simp)
  intro t ht ht'
  have hname : t < outDimNames.length := by simpa using ht'
  have hindex : (inferred bases outDimNames).getOutDimIndex outDimNames[t] = t := by
    have hidx := hnodup.idxOf_getElem t hname
    rwa [RawLayout.getOutDimIndex, hnames]
  simp only [getElem_map, getElem_zipIdx, Nat.zero_add]
  have hmem : outDimNames[t] ∈ outDimNames := getElem_mem hname
  rw [inferOutDimSize_eq (hlog _ hmem)]
  · rw [Nat.max_eq_right (Nat.two_pow_pos _)]
  · intro c hc
    obtain ⟨basis, hbasis, rfl⟩ := mem_map.mp hc
    obtain ⟨inDim, i, hget⟩ := exists_getBasis (inferred bases outDimNames) hbasis
    have hbound := hlt inDim i _ hmem
    rwa [hget, hindex] at hbound
  · obtain hzero | ⟨inDim, i, hle⟩ := htop _ hmem
    · exact Or.inl hzero
    · right
      obtain ⟨basis, hbasis, hget⟩ | hzero :=
        getBasis_cases (inferred bases outDimNames) inDim i
      · refine ⟨_, mem_map_of_mem hbasis, ?_⟩
        rwa [hget, hindex] at hle
      · rw [hzero] at hle
        exact absurd hle (Nat.two_pow_pos _).not_ge

include hlen

theorem createInferred_ok (hcols : (inferred bases outDimNames).getTotalInDimSizeLog2 ≤ 64)
    (hreach : (inferred bases outDimNames).Reaches) :
    ∃ L : LinearLayout, createInferred f2 bases outDimNames = .ok L ∧
      L.toRawLayout = inferred bases outDimNames ∧ L.surjective = true := by
  have hentries := entries_inferred bases hnodup log hlog hlt htop
  have hnames := getOutDimNames_inferred bases hnodup
  have hvalues : (inferred bases outDimNames).outDims.values =
      outDimNames.map fun outDim => 2 ^ log outDim := by
    rw [MapVector.values, hentries, map_map]
    rfl
  apply create_of_reaches f2 (inferred bases outDimNames) true _ _ _ hcols hreach
  · intro basis hbasis
    rw [hvalues, length_map]
    exact hlen basis hbasis
  · intro size hmem
    rw [hvalues] at hmem
    obtain ⟨outDim, hout, rfl⟩ := mem_map.mp hmem
    exact isPowerOf2_32_iff.mpr ⟨log outDim, hlog outDim hout, rfl⟩
  · intro inDim i outDim hout
    rw [hnames] at hout
    rw [getOutDimSizeLog2_inferred hentries hout]
    exact hlt inDim i outDim hout

end Inferred

section OneDim

variable (inDim outDim : String) (column : List ℕ)

def oneDimBases : BasesT := makeBasesMap [(inDim, column.map fun c => [c])]

theorem find_oneDimBases (dim : String) : (oneDimBases inDim column).find dim =
    if dim = inDim then some (column.map fun c => [c]) else none := by
  have hentries : (oneDimBases inDim column).entries = [(inDim, column.map fun c => [c])] := rfl
  rw [MapVector.find, hentries, lookup_cons, lookup_nil]
  by_cases h : dim = inDim
  · rw [h, beq_self_eq_true, if_pos rfl]
  · rw [beq_false_of_ne h, if_neg h]

theorem getBasis_oneDim (dim : String) (i : ℕ) :
    (inferred (oneDimBases inDim column) [outDim]).getBasis dim i outDim =
      if dim = inDim then column.getD i 0 else 0 := by
  have hindex : (inferred (oneDimBases inDim column) [outDim]).getOutDimIndex outDim = 0 := by
    rw [RawLayout.getOutDimIndex, getOutDimNames_inferred _ (nodup_singleton _)]
    simp
  rw [RawLayout.getBasis, hindex]
  change (((((oneDimBases inDim column).find dim).getD []).getD i []).getD 0 0) = _
  rw [find_oneDimBases]
  split_ifs
  · rw [Option.getD_some]
    by_cases hi : i < column.length
    · rw [getD_eq_getElem (column.map _) _ (by simpa using hi), getElem_map,
        getD_eq_getElem _ _ hi, getD_cons_zero]
    · rw [getD_eq_default (column.map _) _ (by simpa using hi),
        getD_eq_default column _ (by simpa using hi), getD_nil]
  · rfl

theorem getInDimSizeLog2_oneDim (dim : String) :
    (inferred (oneDimBases inDim column) [outDim]).getInDimSizeLog2 dim =
      if dim = inDim then column.length else 0 := by
  change (((oneDimBases inDim column).find dim).getD []).length = _
  rw [find_oneDimBases]
  split_ifs <;> simp

theorem value_oneDim (ins : String → ℕ) :
    (inferred (oneDimBases inDim column) [outDim]).value outDim ins =
      combine column (ins inDim) := by
  have hcolumn : (inferred (oneDimBases inDim column) [outDim]).dimColumn inDim outDim =
      column := by
    apply ext_getElem
    · rw [length_dimColumn, getInDimSizeLog2_oneDim, if_pos rfl]
    · intro i hi hi'
      have hget : ((inferred (oneDimBases inDim column) [outDim]).dimColumn inDim outDim).getD i 0 =
          (inferred (oneDimBases inDim column) [outDim]).getBasis inDim i outDim :=
        getD_dimColumn _ i
      rwa [getBasis_oneDim, if_pos rfl, getD_eq_getElem _ _ hi,
        getD_eq_getElem _ _ hi'] at hget
  have hnames : (inferred (oneDimBases inDim column) [outDim]).getInDimNames = [inDim] := rfl
  rw [RawLayout.value, hnames, map_singleton, xorSum_cons, xorSum_nil, Nat.xor_zero, hcolumn]

theorem oneDim_describes (m : ℕ) (f2 : F2Reduce) (hm : m < 31) (hcols : column.length ≤ 64)
    (hpower : ∀ i, column.getD i 0 ≠ 0 → ∃ e < m, column.getD i 0 = 2 ^ e)
    (hsource : ∀ e < m, ∃ j, ∀ i, column.getD i 0 = 2 ^ e ↔ i = j)
    (hcombine : ∀ x, combine column x = x % 2 ^ m) (hle : m ≤ column.length) :
    ∃ L : LinearLayout, createInferred f2 (oneDimBases inDim column) [outDim] = .ok L ∧
      Describes L (LayoutSpec.oneDim column.length m inDim outDim) := by
  have hlt : ∀ i, column.getD i 0 < 2 ^ m := by
    intro i
    by_cases hzero : column.getD i 0 = 0
    · rw [hzero]
      exact Nat.two_pow_pos m
    · obtain ⟨e, he, heq⟩ := hpower i hzero
      rw [heq]
      exact Nat.pow_lt_pow_right (by omega) he
  have hinDims : (inferred (oneDimBases inDim column) [outDim]).getInDimNames = [inDim] := rfl
  have houtDims : (inferred (oneDimBases inDim column) [outDim]).getOutDimNames = [outDim] :=
    getOutDimNames_inferred _ (nodup_singleton _)
  have hbasis : ∀ d i, ∀ o ∈ [outDim],
      (inferred (oneDimBases inDim column) [outDim]).getBasis d i o < 2 ^ m := by
    intro d i o ho
    rw [mem_singleton.mp ho, getBasis_oneDim]
    split_ifs
    · exact hlt i
    · exact Nat.two_pow_pos m
  have htop : ∀ o ∈ [outDim], m = 0 ∨ ∃ d i, 2 ^ (m - 1) ≤
      (inferred (oneDimBases inDim column) [outDim]).getBasis d i o := by
    intro o ho
    rw [mem_singleton.mp ho]
    by_cases hzero : m = 0
    · exact Or.inl hzero
    · obtain ⟨j, hj⟩ := hsource (m - 1) (by omega)
      refine Or.inr ⟨inDim, j, ?_⟩
      rw [getBasis_oneDim, if_pos rfl, (hj j).mpr rfl]
  have hsize : (inferred (oneDimBases inDim column) [outDim]).getOutDimSizeLog2 outDim = m := by
    have hentries := entries_inferred (oneDimBases inDim column)
      (nodup_singleton outDim) (fun _ => m) (fun _ _ => hm) hbasis htop
    exact getOutDimSizeLog2_inferred hentries (mem_singleton_self outDim)
  obtain ⟨L, hcreate, hraw, hsurj⟩ := createInferred_ok _ f2 (nodup_singleton outDim)
    (fun _ => m) (fun _ _ => hm)
    (by
      intro basis hmem
      have hvalues : (oneDimBases inDim column).values.flatten = column.map fun c => [c] := by
        change [column.map fun c => [c]].flatten = _
        simp
      rw [hvalues] at hmem
      obtain ⟨c, _, rfl⟩ := mem_map.mp hmem
      rfl)
    hbasis htop
    (by
      rw [RawLayout.getTotalInDimSizeLog2, hinDims, map_singleton, sum_singleton,
        getInDimSizeLog2_oneDim, if_pos rfl]
      exact hcols)
    (by
      intro target htarget
      rw [houtDims] at htarget ⊢
      have hbound := htarget outDim (mem_singleton_self _)
      rw [hsize] at hbound
      refine ⟨fun _ => target outDim, fun d hd => ?_, fun o ho => ?_⟩
      · rw [getInDimSizeLog2_oneDim, if_pos (mem_singleton.mp hd)]
        exact hbound.trans_le (Nat.pow_le_pow_right (by omega) hle)
      · rw [mem_singleton.mp ho, value_oneDim, hcombine, Nat.mod_eq_of_lt hbound])
  refine ⟨L, hcreate, hraw ▸ hinDims, hraw ▸ houtDims, ?_, ?_, ?_, hsurj, ?_, ?_⟩
  · intro d
    rw [hraw, getInDimSizeLog2_oneDim]
    rfl
  · intro o
    simp only [LayoutSpec.oneDim]
    split_ifs with ho
    · rw [ho, hraw, hsize]
    · apply getOutDimSizeLog2_of_notMem
      rw [hraw, houtDims]
      simpa using ho
  · intro o ins
    simp only [LayoutSpec.oneDim]
    split_ifs with ho
    · rw [ho, hraw, value_oneDim, hcombine]
    · apply value_of_notMem
      rw [hraw, houtDims]
      simpa using ho
  · intro o ho d i hne
    rw [hraw, houtDims] at ho
    rw [hraw, mem_singleton.mp ho, getBasis_oneDim] at hne ⊢
    rw [hsize]
    split_ifs at hne ⊢ with hd
    · exact hpower i hne
    · exact absurd rfl hne
  · intro o ho e he
    rw [hraw, houtDims] at ho
    rw [hraw, mem_singleton.mp ho, hsize] at he
    obtain ⟨j, hj⟩ := hsource e he
    refine ⟨(inDim, j), fun d i => ?_⟩
    rw [hraw, mem_singleton.mp ho, getBasis_oneDim, Prod.mk.injEq]
    split_ifs with hd
    · rw [hj i]
      exact ⟨fun hi => ⟨hd, hi⟩, fun hpair => hpair.2⟩
    · exact ⟨fun hzero => absurd hzero (Nat.two_pow_pos e).ne, fun hpair => absurd hpair.1 hd⟩

end OneDim

section Identity

variable (f2 : F2Reduce) (inDim outDim : String)

theorem isPowerOf2_u32_two_pow {k : ℕ} (hk : k < 31) : isPowerOf2_u32 (2 ^ k) = true := by
  rw [isPowerOf2_u32, any_eq_true]
  refine ⟨k, mem_range.mpr (by omega), ?_⟩
  have hlt : (2 : ℤ) ^ k < 2 ^ 32 := pow_lt_pow_right₀ (by omega) (by omega)
  rw [Int.emod_eq_of_lt (by positivity) hlt, beq_self_eq_true]

theorem powers_below {k : ℕ} (hk : k < 31) :
    ((List.range 31).map (2 ^ ·)).takeWhile (fun i : ℕ => (i : ℤ) < 2 ^ k) =
      (List.range k).map (2 ^ ·) := by
  have hall : ∀ k < 31, ((List.range 31).map (2 ^ ·)).takeWhile
      (fun i : ℕ => decide ((i : ℤ) < 2 ^ k)) = (List.range k).map (2 ^ ·) := by
    decide
  exact hall k hk

theorem getD_powers (k i : ℕ) :
    ((List.range k).map (2 ^ ·)).getD i 0 = if i < k then 2 ^ i else 0 := by
  split_ifs with hi
  · rw [getD_eq_getElem _ _ (by simpa using hi)]
    simp
  · rw [getD_eq_default _ _ (by simpa using hi)]

theorem identity1D_describes {k : ℕ} (hk : k < 31) :
    ∃ L : LinearLayout, identity1D f2 (2 ^ k) inDim outDim = .ok L ∧
      Describes L (LayoutSpec.oneDim k k inDim outDim) := by
  obtain ⟨L, hcreate, hL⟩ := oneDim_describes inDim outDim ((List.range k).map (2 ^ ·)) k f2 hk
    (by
      rw [length_map, length_range]
      omega)
    (by
      intro i hne
      rw [getD_powers] at hne ⊢
      split_ifs at hne ⊢ with hi
      · exact ⟨i, hi, rfl⟩
      · exact absurd rfl hne)
    (by
      intro e he
      refine ⟨e, fun i => ?_⟩
      rw [getD_powers]
      split_ifs with hi
      · exact Nat.pow_right_inj (le_refl 2)
      · constructor
        · exact fun hzero => absurd hzero (Nat.two_pow_pos e).ne
        · rintro rfl
          exact absurd he hi)
    (fun x => combine_units x k) (by rw [length_map, length_range])
  refine ⟨L, ?_, ?_⟩
  · have hne : (2 : ℤ) ^ k ≠ 0 := by positivity
    rw [identity1D, if_neg hne, assertThat_ok (isPowerOf2_u32_two_pow hk)]
    simp only [powers_below hk]
    exact hcreate
  · simpa only [length_map, length_range] using hL

theorem zeros1D_describes {k : ℕ} (hk : k < 31) :
    ∃ L : LinearLayout, zeros1D f2 (2 ^ k) inDim outDim = .ok L ∧
      Describes L (LayoutSpec.oneDim k 0 inDim outDim) := by
  have hcombine : ∀ x, combine (List.replicate k 0) x = 0 := by
    intro x
    have hlt : combine (List.replicate k 0) x < 2 ^ 0 := by
      apply combine_lt
      intro c hc
      rw [(mem_replicate.mp hc).2]
      exact Nat.one_pos
    omega
  have hgetD : ∀ i, (List.replicate k 0).getD i 0 = 0 := by
    intro i
    by_cases hi : i < k
    · rw [getD_replicate _ hi]
    · rw [getD_eq_default _ _ (by simpa using hi)]
  obtain ⟨L, hcreate, hL⟩ := oneDim_describes inDim outDim (List.replicate k 0) 0 f2 (by omega)
    (by
      rw [length_replicate]
      omega)
    (fun i hne => absurd (hgetD i) hne)
    (fun e he => absurd he (Nat.not_lt_zero e))
    (fun x => by rw [hcombine, Nat.pow_zero, Nat.mod_one]) (Nat.zero_le _)
  refine ⟨L, ?_, ?_⟩
  · have hne : (2 : ℤ) ^ k ≠ 0 := by positivity
    have hlog : Nat.log2 (((2 : ℤ) ^ k) % 2 ^ 32).toNat = k := by
      have hlt : (2 : ℤ) ^ k < 2 ^ 32 := pow_lt_pow_right₀ (by omega) (by omega)
      have hcast : ((2 : ℤ) ^ k) = ((2 ^ k : ℕ) : ℤ) := by push_cast; rfl
      rw [Int.emod_eq_of_lt (by positivity) hlt, hcast, Int.toNat_natCast, Nat.log2_two_pow]
    rw [zeros1D, if_neg hne, assertThat_ok (isPowerOf2_u32_two_pow hk)]
    simp only [hlog]
    rw [oneDimBases, map_replicate] at hcreate
    exact hcreate
  · simpa only [length_replicate] using hL

theorem empty_describes : ∃ L : LinearLayout, empty f2 = .ok L ∧
    Describes L LayoutSpec.empty := by
  obtain ⟨L, hcreate, hraw, hsurj⟩ := createInferred_ok MapVector.empty f2
    nodup_nil (fun _ => 0) (by simp) (by simp [MapVector.empty, MapVector.values]) (by simp)
    (by simp) (by decide)
    (by
      intro target _
      exact ⟨fun _ => 0, by simp [inferred, RawLayout.getInDimNames, MapVector.empty,
        MapVector.keys], by simp [inferred, inferOutDims, RawLayout.getOutDimNames,
        MapVector.build, MapVector.empty, MapVector.keys]⟩)
  have hins : L.getInDimNames = [] := hraw ▸ rfl
  have houts : L.getOutDimNames = [] := hraw ▸ rfl
  refine ⟨L, hcreate, hins, houts, ?_, ?_, ?_, hsurj, ?_, ?_⟩
  · intro d
    apply getInDimSizeLog2_of_notMem
    simp [hins]
  · intro o
    apply getOutDimSizeLog2_of_notMem
    simp [houts]
  · intro o ins
    apply value_of_notMem
    simp [houts]
  · intro o ho
    rw [houts] at ho
    exact absurd ho not_mem_nil
  · intro o ho
    rw [houts] at ho
    exact absurd ho not_mem_nil

end Identity

section Transpose

variable (f2 : F2Reduce) {L : LinearLayout} {s : LayoutSpec}

theorem find_transposedOuts {newOutDims : List String} (inDim : String) :
    (L.transposedOuts newOutDims).bases.find inDim = (L.bases.find inDim).map fun bs =>
      bs.map (permuteBasis (newOutDims.map L.getOutDimIndex)) :=
  MapVector.find_mapEntries (fun _ (bs : List (List ℕ)) =>
    bs.map (permuteBasis (newOutDims.map L.getOutDimIndex))) L.bases inDim

theorem getBasis_transposedOuts {newOutDims : List String} (hnodup : newOutDims.Nodup)
    {outDim : String} (hout : outDim ∈ newOutDims) (inDim : String) (i : ℕ) :
    (L.transposedOuts newOutDims).getBasis inDim i outDim = L.getBasis inDim i outDim := by
  have hindex := idxOf_lt_length_of_mem hout
  have hget : ∀ basis : List ℕ, (permuteBasis (newOutDims.map L.getOutDimIndex) basis).getD
      (newOutDims.idxOf outDim) 0 = basis.getD (L.getOutDimIndex outDim) 0 := by
    intro basis
    rw [permuteBasis, map_map, getD_eq_getElem _ _ (by simpa using hindex),
      getElem_map, getElem_idxOf, Function.comp_apply]
  have hempty : (permuteBasis (newOutDims.map L.getOutDimIndex) []).getD
      (newOutDims.idxOf outDim) 0 = 0 := hget []
  rw [RawLayout.getBasis, RawLayout.getBasis, RawLayout.getOutDimIndex,
    getOutDimNames_transposedOuts L hnodup, find_transposedOuts]
  cases L.bases.find inDim with
  | none => rfl
  | some bs =>
    rw [Option.map_some, Option.getD_some, Option.getD_some]
    by_cases hi : i < bs.length
    · rw [getD_eq_getElem (bs.map _) _ (by simpa using hi), getElem_map, hget,
        getD_eq_getElem bs _ hi]
    · rw [getD_eq_default (bs.map _) _ (by simpa using hi),
        getD_eq_default bs _ (by simpa using hi), getD_nil, getD_nil]

theorem getInDimSizeLog2_transposedOuts {newOutDims : List String} (inDim : String) :
    (L.transposedOuts newOutDims).getInDimSizeLog2 inDim = L.getInDimSizeLog2 inDim := by
  rw [RawLayout.getInDimSizeLog2, RawLayout.getInDimSizeLog2, find_transposedOuts]
  cases L.bases.find inDim <;> simp

theorem transposeOuts_computes (h : Computes L s) {newOutDims : List String}
    (hperm : newOutDims.Perm s.outDims) :
    ∃ L' : LinearLayout, L.transposeOuts f2 newOutDims = .ok L' ∧
      (∀ o ∈ newOutDims, ∀ d i, L'.getBasis d i o = L.getBasis d i o) ∧
      Computes L' { s with outDims := newOutDims } := by
  have hperm' : newOutDims.Perm L.getOutDimNames := h.outDims ▸ hperm
  have hnodup : newOutDims.Nodup := hperm'.nodup_iff.mpr (nodup_getOutDimNames L.toRawLayout)
  obtain ⟨L', htranspose, hraw⟩ := transposeOuts_ok f2 L hperm'
  have houts : L'.getOutDimNames = newOutDims := by
    rw [hraw, getOutDimNames_transposedOuts L hnodup]
  have hins : L'.getInDimNames = L.getInDimNames := by
    rw [hraw, RawLayout.getInDimNames, LinearLayout.transposedOuts, MapVector.keys_mapValues]
    rfl
  have hsize : ∀ o, L'.getOutDimSizeLog2 o = L.getOutDimSizeLog2 o := by
    intro o
    by_cases hmem : o ∈ newOutDims
    · have hentry : (o, L.getOutDimSize o) ∈ L'.outDims.entries := by
        rw [hraw, entries_transposedOuts L hnodup]
        exact mem_map_of_mem hmem
      rw [getOutDimSizeLog2_of_mem _ hentry, RawLayout.getOutDimSize, Nat.log2_two_pow]
    · rw [getOutDimSizeLog2_of_notMem L'.toRawLayout (by rwa [houts]),
        getOutDimSizeLog2_of_notMem L.toRawLayout (by rwa [← hperm'.mem_iff])]
  have hbasis : ∀ o ∈ newOutDims, ∀ d i, L'.getBasis d i o = L.getBasis d i o := by
    intro o ho d i
    rw [hraw, getBasis_transposedOuts hnodup ho]
  have hinSize : ∀ d, L'.getInDimSizeLog2 d = L.getInDimSizeLog2 d := by
    intro d
    rw [hraw, getInDimSizeLog2_transposedOuts]
  have hvalue : ∀ o v, L'.value o v = L.value o v := by
    intro o v
    by_cases hmem : o ∈ newOutDims
    · rw [RawLayout.value, RawLayout.value, hins]
      apply xorSum_map_congr
      intro d _
      rw [RawLayout.dimColumn, RawLayout.dimColumn, hinSize]
      congr 1
      apply map_congr_left
      intro i _
      exact hbasis o hmem d i
    · rw [value_of_notMem L' (by rwa [houts]), value_of_notMem L (by rwa [← hperm'.mem_iff])]
  refine ⟨L', htranspose, hbasis, hins.trans h.inDims, houts, ?_, ?_, ?_, ?_⟩
  · exact fun d => (hinSize d).trans (h.inSize d)
  · exact fun o => (hsize o).trans (h.outSize o)
  · exact fun o v => (hvalue o v).trans (h.value o v)
  · rw [L'.surjective_iff, hraw]
    exact onto_transposedOuts L hperm' h.surjective

theorem transposeOuts_describes (h : Describes L s) {newOutDims : List String}
    (hperm : newOutDims.Perm s.outDims) :
    ∃ L' : LinearLayout, L.transposeOuts f2 newOutDims = .ok L' ∧
      Describes L' { s with outDims := newOutDims } := by
  obtain ⟨L', htranspose, hbasis, h'⟩ := transposeOuts_computes f2 h.computes hperm
  have houts : L'.getOutDimNames = newOutDims := h'.outDims
  have hmem : ∀ {o}, o ∈ L'.getOutDimNames → o ∈ newOutDims := fun ho => houts ▸ ho
  have hmem' : ∀ {o}, o ∈ newOutDims → o ∈ L.getOutDimNames :=
    fun ho => h.outDims ▸ hperm.mem_iff.mp ho
  have hsize : ∀ o, L'.getOutDimSizeLog2 o = L.getOutDimSizeLog2 o := fun o =>
    (h'.outSize o).trans (h.outSize o).symm
  refine ⟨L', htranspose, h'.inDims, h'.outDims, h'.inSize, h'.outSize, h'.value, h'.surjective,
    ?_, ?_⟩
  · intro o ho d i hne
    rw [hbasis o (hmem ho)] at hne ⊢
    rw [hsize]
    exact h.unit.power o (hmem' (hmem ho)) d i hne
  · intro o ho e he
    rw [hsize] at he
    obtain ⟨bit, hbit⟩ := h.unit.source o (hmem' (hmem ho)) e he
    refine ⟨bit, fun d i => ?_⟩
    rw [hbasis o (hmem ho), hbit]

end Transpose

end TritonCpu
