import Mathlib.Data.Nat.ModEq
import Mathlib.Order.Interval.Set.Basic
import TritonCpu.Allocation

/-!
# Placement of the buffers

The loop of `computeOffsets` ends with an empty interference graph, so the
buffers it places are disjoint wherever they have to be. A member of a sharing
group is not in that graph. It is placed correctly when it fits into the bytes
of its representative whatever their address, and when it interferes only with
buffers its representative interferes with.
-/

set_option autoImplicit false

namespace TritonCpu.AllocationSound
open Allocation

theorem toSizeT_lt (m : ℕ) : toSizeT m < sizeTBound := Nat.mod_lt _ (by decide)

theorem alignTo_lt (value align : ℕ) : alignTo value align < sizeTBound :=
  lt_of_le_of_lt (Nat.div_mul_le_self _ _) (toSizeT_lt _)

theorem dvd_alignTo (value align : ℕ) : align ∣ alignTo value align := Nat.dvd_mul_left _ _

theorem pow_dvd_bound {k : ℕ} (hk : k < 64) : 2 ^ k ∣ sizeTBound := pow_dvd_pow 2 (by omega)

theorem add_le_bound {value k : ℕ} (hk : k < 64) (hv : 2 ^ k ∣ value) (h : value < sizeTBound) :
    value + 2 ^ k ≤ sizeTBound := by
  have hle : 2 ^ k ≤ sizeTBound := Nat.le_of_dvd (by decide) (pow_dvd_bound hk)
  have hd : 2 ^ k ∣ sizeTBound - 2 ^ k := Nat.dvd_sub (pow_dvd_bound hk) (dvd_refl _)
  have hv' : value ≤ sizeTBound - 2 ^ k :=
    Nat.le_of_lt_add_of_dvd (by omega) hv hd
  omega

theorem alignTo_self {value k : ℕ} (hk : k < 64) (hv : 2 ^ k ∣ value) (h : value < sizeTBound) :
    alignTo value (2 ^ k) = value := by
  have hpos : 0 < 2 ^ k := Nat.two_pow_pos k
  have hroom := add_le_bound hk hv h
  obtain ⟨q, rfl⟩ := hv
  have hmod : toSizeT (2 ^ k * q + 2 ^ k - 1) = 2 ^ k - 1 + 2 ^ k * q := by
    rw [toSizeT, Nat.mod_eq_of_lt (by omega)]
    omega
  rw [alignTo, hmod, Nat.add_mul_div_left _ _ hpos, Nat.div_eq_of_lt (by omega), Nat.zero_add,
    Nat.mul_comm]

theorem alignTo_between {value k l : ℕ} (hk : k < 64) (hl : l < 64) (hv : 2 ^ k ∣ value)
    (h : value + (2 ^ l - 2 ^ k) < sizeTBound) :
    value ≤ alignTo value (2 ^ l) ∧ alignTo value (2 ^ l) ≤ value + (2 ^ l - 2 ^ k) := by
  rcases Nat.le_total l k with hlk | hkl
  · have hd : 2 ^ l ∣ value := (pow_dvd_pow 2 hlk).trans hv
    rw [alignTo_self hl hd (by omega)]
    omega
  · have hpos : 0 < 2 ^ k := Nat.two_pow_pos k
    have hle : 2 ^ k ≤ 2 ^ l := Nat.pow_le_pow_right (by omega) hkl
    have hkl' : 2 ^ k ∣ 2 ^ l := pow_dvd_pow 2 hkl
    have hd : 2 ^ k ∣ value + (2 ^ l - 2 ^ k) := Nat.dvd_add hv (Nat.dvd_sub hkl' (dvd_refl _))
    have hroom := add_le_bound hk hd h
    have hmod : toSizeT (value + 2 ^ l - 1) = value + 2 ^ l - 1 :=
      Nat.mod_eq_of_lt (by omega)
    have hupper : alignTo value (2 ^ l) ≤ value + 2 ^ l - 1 := by
      rw [alignTo, hmod]
      exact Nat.div_mul_le_self _ _
    have hlower : value + 2 ^ l - 1 < alignTo value (2 ^ l) + 2 ^ l := by
      rw [alignTo, hmod]
      exact Nat.lt_div_mul_add (Nat.two_pow_pos l)
    constructor
    · omega
    · apply Nat.le_of_lt_add_of_dvd (n := 2 ^ k) (by omega) _ hd
      exact hkl'.trans (dvd_alignTo value _)

theorem makeInterval_ok {start stop : ℕ} {i : Interval} (h : makeInterval start stop = .ok i) :
    i.start = start ∧ i.stop = stop ∧ start ≤ stop := by
  unfold makeInterval at h
  split_ifs at h with hle
  cases h
  exact ⟨rfl, rfl, hle⟩

theorem except_bind_ok {ε α β : Type} {x : Except ε α} {f : α → Except ε β} {b : β}
    (h : (x >>= f) = .ok b) : ∃ a, x = .ok a ∧ f a = .ok b := by
  cases x with
  | error e => cases h
  | ok a => exact ⟨a, rfl, h⟩

section Placement

variable {n : ℕ} (buffer : Fin n → BufferT)

def Fits (offsets : Offsets n) (x : Fin n) : Prop :=
  (buffer x).alignment ∣ offsets x ∧ offsets x < sizeTBound

/-- The buffers must not overlap: both live at one time, or in different
regions. -/
def Interfering (a b : BufferT) : Prop :=
  a.live.intersects b.live = true ∨ inDifferentRegion a b = true

variable {buffer}

theorem setOffsetAligned_fits (offsets : Offsets n) (x : Fin n) (newOffset : ℕ) :
    Fits buffer (setOffsetAligned buffer offsets x newOffset) x := by
  unfold Fits setOffsetAligned
  rw [Function.update_self]
  exact ⟨dvd_alignTo _ _, alignTo_lt _ _⟩

theorem setOffsetAligned_of_ne (offsets : Offsets n) {x y : Fin n} (newOffset : ℕ) (h : y ≠ x) :
    setOffsetAligned buffer offsets x newOffset y = offsets y :=
  Function.update_of_ne h _ _

theorem fits_congr {offsets offsets' : Offsets n} {x : Fin n} (h : offsets' x = offsets x)
    (hf : Fits buffer offsets x) : Fits buffer offsets' x := by
  unfold Fits at *
  rwa [h]

theorem calculateStartsLoop_fits (buffers : List (Fin n)) (fuel : ℕ) (xs : List (Fin n))
    (tripleMap : TripleMap) (offsets offsets' : Offsets n)
    (hs : ∀ x ∈ buffers, x ∉ xs → Fits buffer offsets x)
    (h : calculateStartsLoop buffer fuel xs tripleMap offsets = .ok offsets') :
    ∀ x ∈ buffers, Fits buffer offsets' x := by
  induction fuel generalizing xs tripleMap offsets with
  | zero =>
    cases xs with
    | nil =>
      cases h
      exact fun x hx => hs x hx (by simp)
    | cons y ys => cases h
  | succ fuel ih =>
    cases xs with
    | nil =>
      cases h
      exact fun x hx => hs x hx (by simp)
    | cons y ys =>
      cases tripleMap with
      | nil => cases h
      | cons triple tripleMap =>
        obtain ⟨offset, range⟩ := triple
        unfold calculateStartsLoop at h
        split at h
        · exact ih _ _ _ hs h
        · next z hz =>
          obtain ⟨next, -, h⟩ := except_bind_ok h
          refine ih _ _ _ (fun x hx hnot => ?_) h
          by_cases hxz : x = z
          · subst hxz
            exact setOffsetAligned_fits _ _ _
          · apply fits_congr (setOffsetAligned_of_ne _ _ hxz)
            exact hs x hx fun hmem => hnot ((List.mem_erase_of_ne hxz).mpr hmem)

theorem calculateStarts_fits {buffers : List (Fin n)} {offsets offsets' : Offsets n}
    (h : calculateStarts buffer buffers offsets = .ok offsets') :
    ∀ x ∈ buffers, Fits buffer offsets' x :=
  calculateStartsLoop_fits buffers _ _ _ _ _ (fun _ hx hnot => absurd hx hnot) h

theorem calculateStarts_single {x : Fin n} {offsets offsets' : Offsets n}
    (h : calculateStarts buffer [x] offsets = .ok offsets') : offsets' x = 0 := by
  obtain ⟨k, hk, halign⟩ := (buffer x).alignment_pow
  unfold calculateStarts at h
  rw [show 3 * [x].length + 1 = 2 + 1 + 1 from rfl] at h
  unfold calculateStartsLoop at h
  split at h
  · unfold calculateStartsLoop at h
    cases h
  · next z hz =>
    obtain ⟨tripleMap, -, h⟩ := except_bind_ok h
    have hzx : z = x := by simpa using List.mem_of_find?_eq_some hz
    subst hzx
    rw [List.erase_cons_head, calculateStartsLoop] at h
    cases h
    rw [setOffsetAligned, Function.update_self, halign]
    exact alignTo_self hk (dvd_zero _) (by decide)

theorem insert_length (key : ℕ) (range : Interval) (tripleMap : TripleMap) :
    (TripleMap.insert key range tripleMap).length = tripleMap.length + 1 := by
  induction tripleMap with
  | nil => rfl
  | cons entry rest ih =>
    unfold TripleMap.insert
    split_ifs
    · rfl
    · simp [ih]

theorem makeInterval_finishes (start stop : ℕ) : makeInterval start stop ≠ .error .unfinished := by
  unfold makeInterval
  split_ifs <;> simp

theorem bind_finishes {α β : Type} {x : Except Halt α} {f : α → Except Halt β}
    (hx : x ≠ .error .unfinished) (hf : ∀ a, x = .ok a → f a ≠ .error .unfinished) :
    (x >>= f) ≠ .error .unfinished := by
  cases x with
  | error e =>
    intro h
    apply hx
    cases h
    rfl
  | ok a => exact hf a rfl

theorem insertIf_length {c : Prop} [Decidable c] {key start stop : ℕ}
    {tripleMap next : TripleMap} (h : insertIf c key start stop tripleMap = .ok next) :
    next.length ≤ tripleMap.length + 1 := by
  unfold insertIf at h
  split_ifs at h
  · obtain ⟨range, -, h⟩ := except_bind_ok h
    cases h
    exact (insert_length _ _ _).le
  · cases h
    omega

theorem insertIf_finishes (c : Prop) [Decidable c] (key start stop : ℕ) (tripleMap : TripleMap) :
    insertIf c key start stop tripleMap ≠ .error .unfinished := by
  unfold insertIf
  split_ifs
  · apply bind_finishes (makeInterval_finishes _ _)
    intro range hr
    simp [pure, Except.pure]
  · simp [pure, Except.pure]

theorem splitTriple_length {offset top : ℕ} {range xRange : Interval} {tripleMap next : TripleMap}
    (h : splitTriple offset range xRange top tripleMap = .ok next) :
    next.length ≤ tripleMap.length + 3 := by
  obtain ⟨placed, -, h⟩ := except_bind_ok h
  obtain ⟨mid, hm, h⟩ := except_bind_ok h
  have hfirst := insertIf_length hm
  have hsecond := insertIf_length h
  rw [insert_length] at hfirst
  omega

theorem splitTriple_finishes (offset top : ℕ) (range xRange : Interval) (tripleMap : TripleMap) :
    splitTriple offset range xRange top tripleMap ≠ .error .unfinished := by
  apply bind_finishes (makeInterval_finishes _ _)
  intro placed hp
  apply bind_finishes (insertIf_finishes _ _ _ _ _)
  intro mid hm
  exact insertIf_finishes _ _ _ _ _

/-- The packing loop never runs out of turns: a turn erases a triple, and one
that inserts three more places a buffer. -/
theorem calculateStartsLoop_finishes (fuel : ℕ) (xs : List (Fin n)) (tripleMap : TripleMap)
    (offsets : Offsets n) (hfuel : 3 * xs.length + tripleMap.length ≤ fuel) :
    calculateStartsLoop buffer fuel xs tripleMap offsets ≠ .error .unfinished := by
  induction fuel generalizing xs tripleMap offsets with
  | zero =>
    have hxs : xs = [] := List.length_eq_zero_iff.mp (by omega)
    subst hxs
    simp [calculateStartsLoop]
  | succ fuel ih =>
    cases xs with
    | nil => simp [calculateStartsLoop]
    | cons y ys =>
      cases tripleMap with
      | nil => simp [calculateStartsLoop]
      | cons triple tripleMap =>
        simp only [List.length_cons] at hfuel
        unfold calculateStartsLoop
        split
        · apply ih
          simp only [List.length_cons]
          omega
        · next z hz =>
          apply bind_finishes (splitTriple_finishes _ _ _ _ _)
          intro next hnext
          have hlen := splitTriple_length hnext
          have herase := List.length_erase_of_mem (List.mem_of_find?_eq_some hz)
          rw [List.length_cons] at herase
          apply ih
          omega

theorem calculateStarts_finishes (buffers : List (Fin n)) (offsets : Offsets n) :
    calculateStarts buffer buffers offsets ≠ .error .unfinished := by
  apply calculateStartsLoop_finishes
  simp

theorem interferes_false {offsets : Offsets n} {x y : Fin n}
    (h : interferes buffer offsets x y = .ok false) :
    offsets x ≤ endOf buffer offsets x ∧ (Interfering (buffer x) (buffer y) →
      endOf buffer offsets y ≤ offsets x ∨ endOf buffer offsets x ≤ offsets y) := by
  obtain ⟨xSizeRange, hx, h⟩ := except_bind_ok h
  obtain ⟨ySizeRange, hy, h⟩ := except_bind_ok h
  obtain ⟨hxs, hxe, hxle⟩ := makeInterval_ok hx
  obtain ⟨hys, hye, -⟩ := makeInterval_ok hy
  refine ⟨hxle, fun hint => ?_⟩
  have hnot : xSizeRange.intersects ySizeRange = false := by
    have hval := Except.ok.inj h
    rw [Bool.or_eq_false_iff, Bool.and_eq_false_iff, Bool.and_eq_false_iff] at hval
    rcases hint with hint | hint
    · exact hval.1.resolve_left (by simp [hint])
    · exact hval.2.resolve_left (by simp [hint])
  by_contra hcon
  rw [not_or, not_le, not_le] at hcon
  have hmeet : xSizeRange.intersects ySizeRange = true := by
    rw [Interval.intersects_iff, hxs, hxe, hys, hye]
    exact ⟨hcon.1, hcon.2⟩
  simp [hnot] at hmeet

theorem interferenceEdges_nil {offsets : Offsets n} {pairs : List (Fin n × Fin n)}
    (h : interferenceEdges buffer offsets pairs = .ok []) {x y : Fin n} (hp : (x, y) ∈ pairs) :
    interferes buffer offsets x y = .ok false := by
  induction pairs with
  | nil => cases hp
  | cons pair rest ih =>
    obtain ⟨u, v⟩ := pair
    obtain ⟨edge, he, h⟩ := except_bind_ok h
    obtain ⟨edges, hr, h⟩ := except_bind_ok h
    cases edge with
    | true => cases h
    | false =>
      cases h
      rcases List.mem_cons.mp hp with hp | hp
      · cases hp
        exact he
      · exact ih hr hp

theorem buildInterferenceGraph_nil {buffers : List (Fin n)} {offsets : Offsets n}
    (h : buildInterferenceGraph buffer buffers offsets = .ok []) {x y : Fin n}
    (hx : x ∈ buffers) (hy : y ∈ buffers) (hxy : x ≠ y) :
    interferes buffer offsets x y = .ok false := by
  apply interferenceEdges_nil h
  apply List.mem_filter.mpr
  constructor
  · exact List.pair_mem_product.mpr ⟨hx, hy⟩
  · simpa using hxy

theorem no_wrap {offsets : Offsets n} {x : Fin n} (hlt : offsets x < sizeTBound)
    (h : offsets x ≤ endOf buffer offsets x) :
    endOf buffer offsets x = offsets x + (buffer x).size := by
  have hsize := (buffer x).size_lt
  unfold endOf toSizeT at *
  rcases Nat.lt_or_ge (offsets x + (buffer x).size) sizeTBound with hsum | hsum
  · exact Nat.mod_eq_of_lt hsum
  · rw [Nat.mod_eq_sub_mod hsum, Nat.mod_eq_of_lt (by omega)] at h
    omega

section Allocate

variable (interference : Graph n) (colors : Fin n → ℤ)

theorem bump_of_ne (placed : Placed n) {x y : Fin n} (h : y ≠ x) :
    (bump buffer interference colors placed x).offsets y = placed.offsets y := by
  simp only [bump]
  split_ifs
  · exact setOffsetAligned_of_ne _ _ h
  · rfl

theorem bump_fits (placed : Placed n) (x y : Fin n) (h : Fits buffer placed.offsets y) :
    Fits buffer (bump buffer interference colors placed x).offsets y := by
  by_cases hyx : y = x
  · subst hyx
    simp only [bump]
    split_ifs
    · exact setOffsetAligned_fits _ _ _
    · exact h
  · exact fits_congr (bump_of_ne interference colors placed hyx) h

theorem bump_size (placed : Placed n) (x : Fin n) :
    placed.sharedMemorySize ≤ (bump buffer interference colors placed x).sharedMemorySize ∧
      endOf buffer (bump buffer interference colors placed x).offsets x ≤
        (bump buffer interference colors placed x).sharedMemorySize :=
  ⟨le_max_left _ _, le_max_right _ _⟩

/-- A pass of `allocate` keeps offsets aligned, and the shared memory reaches
the end of every buffer it passed. -/
theorem bump_fold (buffers done : List (Fin n)) (placed : Placed n)
    (hd : ∀ x ∈ done, endOf buffer placed.offsets x ≤ placed.sharedMemorySize) :
    ∀ x ∈ done ++ buffers,
      endOf buffer (buffers.foldl (bump buffer interference colors) placed).offsets x ≤
        (buffers.foldl (bump buffer interference colors) placed).sharedMemorySize := by
  induction buffers generalizing done placed with
  | nil => simpa using hd
  | cons y ys ih =>
    have hsize := @bump_size n buffer interference colors placed y
    have hstep : ∀ x ∈ done ++ [y],
        endOf buffer (bump buffer interference colors placed y).offsets x ≤
          (bump buffer interference colors placed y).sharedMemorySize := by
      intro x hx
      by_cases hxy : x = y
      · subst hxy
        exact hsize.2
      · have hmem : x ∈ done := by simpa [hxy] using hx
        unfold endOf
        rw [bump_of_ne interference colors placed hxy]
        exact le_trans (hd x hmem) hsize.1
    simpa using ih (done ++ [y]) _ hstep

theorem fold_fits (buffers : List (Fin n)) (placed : Placed n) (x : Fin n)
    (h : Fits buffer placed.offsets x) :
    Fits buffer (buffers.foldl (bump buffer interference colors) placed).offsets x := by
  induction buffers generalizing placed with
  | nil => exact h
  | cons y ys ih => exact ih _ (bump_fits interference colors placed y x h)

end Allocate

/-- What holds when the final loop is left: the offsets are aligned, no two of
the buffers interfere, and the shared memory reaches the end of each. -/
structure Settled (buffer : Fin n → BufferT) (buffers : List (Fin n)) (placed : Placed n) :
    Prop where
  fits : ∀ x ∈ buffers, Fits buffer placed.offsets x
  graph : buildInterferenceGraph buffer buffers placed.offsets = .ok []
  size : ∀ x ∈ buffers, endOf buffer placed.offsets x ≤ placed.sharedMemorySize

theorem allocateLoop_settled {buffers : List (Fin n)} (fuel : ℕ) (interference : Graph n)
    (offsets : Offsets n) (placed : Placed n) (hf : ∀ x ∈ buffers, Fits buffer offsets x)
    (h : allocateLoop buffer buffers fuel interference offsets = .ok placed) :
    Settled buffer buffers placed := by
  induction fuel generalizing interference offsets with
  | zero => cases h
  | succ fuel ih =>
    obtain ⟨next, hnext, h⟩ := except_bind_ok h
    have hfits : ∀ x ∈ buffers,
        Fits buffer (allocate buffer buffers interference offsets).offsets x :=
      fun x hx => fold_fits _ _ buffers _ x (hf x hx)
    split_ifs at h with hnil
    · cases h
      subst hnil
      refine ⟨hfits, hnext, fun x hx => ?_⟩
      exact bump_fold _ _ buffers [] _ (by simp) x (by simpa using hx)
    · exact ih _ _ hfits h

theorem colorBuffers_single (x : Fin n) : colorBuffers [x] [] x = 0 := by
  simp [colorBuffers, Graph.neighbours, List.range_succ]

theorem allocateLoop_single {x : Fin n} {fuel : ℕ} {offsets : Offsets n} {placed : Placed n}
    (h : allocateLoop buffer [x] fuel [] offsets = .ok placed) : placed.offsets x = offsets x := by
  cases fuel with
  | zero => cases h
  | succ fuel =>
    obtain ⟨next, hnext, h⟩ := except_bind_ok h
    have hgraph : next = [] := by
      have hpairs : (([x] : List (Fin n)).product [x]).filter (fun pair => pair.1 ≠ pair.2) = [] := by
        simp [List.product]
      rw [buildInterferenceGraph, hpairs] at hnext
      cases hnext
      rfl
    rw [if_pos hgraph] at h
    cases h
    simp [allocate, bump, colorBuffers_single]

theorem settled_no_wrap {buffers : List (Fin n)} {placed : Placed n} {x : Fin n}
    (hs : Settled buffer buffers placed) (hsingle : buffers = [x] → placed.offsets x = 0)
    (hnodup : buffers.Nodup) (hx : x ∈ buffers) :
    endOf buffer placed.offsets x = placed.offsets x + (buffer x).size := by
  apply no_wrap (hs.fits x hx).2
  by_cases hother : ∃ y ∈ buffers, x ≠ y
  · obtain ⟨y, hy, hxy⟩ := hother
    exact (interferes_false (buildInterferenceGraph_nil hs.graph hx hy hxy)).1
  · have hall : ∀ y ∈ buffers, y = x := fun y hy => by
      by_contra hne
      exact hother ⟨y, hy, fun e => hne e.symm⟩
    have hlist : buffers = [x] := by
      cases buffers with
      | nil => cases hx
      | cons y ys =>
        have hy := hall y (by simp)
        subst hy
        have hys : ys = [] := List.eq_nil_iff_forall_not_mem.mpr fun z hz =>
          (List.nodup_cons.mp hnodup).1 (hall z (by simp [hz]) ▸ hz)
        rw [hys]
    rw [hsingle hlist]
    exact Nat.zero_le _

end Placement

end TritonCpu.AllocationSound
