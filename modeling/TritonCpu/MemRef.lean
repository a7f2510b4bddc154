import Mathlib.Algebra.BigOperators.Fin
import Mathlib.Algebra.Order.BigOperators.Group.Finset
import Mathlib.Data.Fintype.BigOperators
import Mathlib.Data.Fintype.Pi
import Mathlib.Tactic.Ring

/-!
# Strided views

A view is an offset, sizes and strides over a flat memory. What an operation
does to memory is the list of the elements it writes, in order. A buffer is
the row-major view of its shape.
-/

set_option autoImplicit false

namespace TritonCpu.MemRef

abbrev Memory (α : Type) := ℤ → α

abbrev Index (rank : ℕ) := Fin rank → ℕ

/-- One element put into memory. -/
structure Write (α : Type) where
  address : ℤ
  value : α
  deriving DecidableEq, Repr

variable {α : Type} {rank : ℕ}

theorem eq_of_forall_memory [Nontrivial α] {a b : ℤ} (h : ∀ m : Memory α, m a = m b) : a = b := by
  by_contra hne
  obtain ⟨x, y, hxy⟩ := exists_pair_ne α
  have heq := h fun c => if c = a then x else y
  simp only [if_true, if_neg (Ne.symm hne)] at heq
  exact hxy heq

def run (ws : List (Write α)) (m : Memory α) : Memory α :=
  ws.foldl (fun m w => Function.update m w.address w.value) m

theorem run_append (ws ws' : List (Write α)) (m : Memory α) :
    run (ws ++ ws') m = run ws' (run ws m) := List.foldl_append

theorem run_frame {ws : List (Write α)} {a : ℤ} (h : ∀ w ∈ ws, w.address ≠ a) (m : Memory α) :
    run ws m a = m a := by
  induction ws generalizing m with
  | nil => rfl
  | cons w ws ih =>
    have hw : a ≠ w.address := fun he => h w (by simp) he.symm
    show run ws (Function.update m w.address w.value) a = m a
    rw [ih (fun w' hw' => h w' (by simp [hw'])), Function.update_of_ne hw]

theorem run_written {ws : List (Write α)} {a : ℤ} (h : ∃ w ∈ ws, w.address = a) (m : Memory α) :
    ∃ w ∈ ws, w.address = a ∧ run ws m a = w.value := by
  induction ws generalizing m with
  | nil => simp at h
  | cons w ws ih =>
    by_cases hrest : ∃ w' ∈ ws, w'.address = a
    · obtain ⟨w', hw', hrun⟩ := ih hrest (Function.update m w.address w.value)
      exact ⟨w', by simp [hw'], hrun⟩
    · have hne : ∀ w' ∈ ws, w'.address ≠ a := fun w' hw' he => hrest ⟨w', hw', he⟩
      have ha : w.address = a := by
        obtain ⟨w', hw', he⟩ := h
        rcases List.mem_cons.mp hw' with rfl | hw'
        · exact he
        · exact absurd he (hne w' hw')
      refine ⟨w, by simp, ha, ?_⟩
      show run ws (Function.update m w.address w.value) a = w.value
      rw [run_frame hne, ← ha, Function.update_self]

theorem run_value {ws : List (Write α)} {a : ℤ} {x : α} (h : ∃ w ∈ ws, w.address = a)
    (hx : ∀ w ∈ ws, w.address = a → w.value = x) (m : Memory α) : run ws m a = x := by
  obtain ⟨w, hw, ha, hrun⟩ := run_written h m
  rw [hrun, hx w hw ha]

structure View (rank : ℕ) where
  offset : ℤ
  sizes : Fin rank → ℤ
  strides : Fin rank → ℤ

namespace View

def address (v : View rank) (i : Index rank) : ℤ := v.offset + ∑ k, (i k : ℤ) * v.strides k

def InBounds (v : View rank) (i : Index rank) : Prop := ∀ k, (i k : ℤ) < v.sizes k

def subview (v : View rank) (offsets sizes strides : Fin rank → ℤ) : View rank :=
  ⟨v.offset + ∑ k, offsets k * v.strides k, sizes, fun k => strides k * v.strides k⟩

@[simp] theorem subview_sizes (v : View rank) (offsets sizes strides : Fin rank → ℤ) :
    (v.subview offsets sizes strides).sizes = sizes := rfl

theorem subview_address (v : View rank) (offsets sizes strides : Fin rank → ℤ) (i : Index rank) :
    (v.subview offsets sizes strides).address i =
      v.offset + ∑ k, (offsets k + (i k : ℤ) * strides k) * v.strides k := by
  simp only [address, subview, add_mul, Finset.sum_add_distrib, mul_assoc, add_assoc]

theorem origin_address (v : View rank) (sizes : Fin rank → ℤ) (i : Index rank) :
    (v.subview (fun _ => 0) sizes fun _ => 1).address i = v.address i := by
  rw [subview_address, address]
  simp

end View

def indices : (rank : ℕ) → (Fin rank → ℕ) → List (Index rank)
  | 0, _ => [Fin.elim0]
  | rank + 1, sizes =>
    (List.range (sizes 0)).flatMap fun a => (indices rank (Fin.tail sizes)).map (Fin.cons a)

theorem mem_indices {sizes : Fin rank → ℕ} {i : Index rank} :
    i ∈ indices rank sizes ↔ ∀ k, i k < sizes k := by
  induction rank with
  | zero => simp [indices, Subsingleton.elim i Fin.elim0]
  | succ rank ih =>
    simp only [indices, List.mem_flatMap, List.mem_range, List.mem_map, ih, Fin.forall_fin_succ]
    constructor
    · rintro ⟨a, ha, j, hj, rfl⟩
      exact ⟨ha, hj⟩
    · rintro ⟨h0, hs⟩
      exact ⟨i 0, h0, Fin.tail i, hs, Fin.cons_self_tail i⟩

namespace View

def elements (v : View rank) : List (Index rank) := indices rank fun k => (v.sizes k).toNat

theorem mem_elements {v : View rank} {i : Index rank} : i ∈ v.elements ↔ v.InBounds i := by
  rw [elements, mem_indices]
  exact forall_congr' fun k => Int.lt_toNat

def store (v : View rank) (values : Index rank → α) : List (Write α) :=
  v.elements.map fun i => ⟨v.address i, values i⟩

theorem mem_store {v : View rank} {values : Index rank → α} {w : Write α} :
    w ∈ v.store values ↔ ∃ i, v.InBounds i ∧ ⟨v.address i, values i⟩ = w := by
  simp only [store, List.mem_map, mem_elements]

def load (v : View rank) (m : Memory α) : Index rank → α := fun i => m (v.address i)

end View

def copy (source : Memory α) (src dst : View rank) : List (Write α) := dst.store (src.load source)

theorem View.store_whole (v : View rank) (values : Index rank → α) :
    (v.subview (fun _ => 0) v.sizes fun _ => 1).store values = v.store values :=
  List.map_congr_left fun i _ => by rw [v.origin_address]

theorem copy_whole (source : Memory α) (src dst : View rank) :
    copy source (src.subview (fun _ => 0) dst.sizes fun _ => 1)
        (dst.subview (fun _ => 0) dst.sizes fun _ => 1) = copy source src dst := by
  have hload : (src.subview (fun _ => 0) dst.sizes fun _ => 1).load source = src.load source :=
    funext fun i => congrArg source (src.origin_address _ i)
  rw [copy, hload, View.store_whole, copy]

theorem mem_copy {source : Memory α} {src dst : View rank} {w : Write α} :
    w ∈ copy source src dst ↔
      ∃ i, dst.InBounds i ∧ ⟨dst.address i, source (src.address i)⟩ = w := View.mem_store

def tripCount (lower upper step : ℤ) : ℕ := ((upper - lower + step - 1) / step).toNat

def forLoop (lower upper step : ℤ) (body : ℤ → List (Write α)) : List (Write α) :=
  (List.range (tripCount lower upper step)).flatMap fun n : ℕ => body (lower + n * step)

theorem mem_forLoop {lower upper step : ℤ} (hstep : 0 < step) {body : ℤ → List (Write α)}
    {w : Write α} : w ∈ forLoop lower upper step body ↔
      ∃ n : ℕ, lower + n * step < upper ∧ w ∈ body (lower + n * step) := by
  simp only [forLoop, tripCount, List.mem_flatMap, List.mem_range]
  refine exists_congr fun n => and_congr_left fun _ => ?_
  rw [Int.lt_toNat, Int.lt_iff_add_one_le, Int.le_ediv_iff_mul_le hstep, add_mul]
  omega

theorem mem_forLoop_nat {upper step : ℕ} (hstep : 0 < step) {body : ℤ → List (Write α)}
    {w : Write α} : w ∈ forLoop 0 upper step body ↔
      ∃ n : ℕ, n * step < upper ∧ w ∈ body (n * step : ℕ) := by
  rw [mem_forLoop (Int.natCast_pos.mpr hstep)]
  simp only [zero_add, ← Int.natCast_mul, Int.ofNat_lt]

theorem forLoop_empty {lower upper step : ℤ} (hstep : 0 ≤ step) (h : upper ≤ lower)
    (body : ℤ → List (Write α)) : forLoop lower upper step body = [] := by
  have htrip : tripCount lower upper step = 0 := by
    rcases hstep.eq_or_lt with rfl | hpos
    · simp [tripCount]
    · have hlt : (upper - lower + step - 1) / step < 1 :=
        Int.ediv_lt_of_lt_mul hpos (by omega)
      unfold tripCount
      omega
  rw [forLoop, htrip]
  rfl

/-- A run of the loop from the induction variable on, with what it writes. -/
inductive ForRuns (upper step : ℤ) (body : ℤ → List (Write α)) : ℤ → List (Write α) → Prop
  | stop {iv : ℤ} : upper ≤ iv → ForRuns upper step body iv []
  | next {iv : ℤ} {ws : List (Write α)} : iv < upper → ForRuns upper step body (iv + step) ws →
      ForRuns upper step body iv (body iv ++ ws)

theorem forLoop_next {lower upper step : ℤ} (hstep : 0 < step) (h : lower < upper)
    (body : ℤ → List (Write α)) : forLoop lower upper step body =
      body lower ++ forLoop (lower + step) upper step body := by
  have htrip : tripCount lower upper step = tripCount (lower + step) upper step + 1 := by
    have hdiv : (upper - lower + step - 1) / step =
        (upper - (lower + step) + step - 1) / step + 1 := by
      have hsum : upper - lower + step - 1 = upper - (lower + step) + step - 1 + 1 * step := by ring
      rw [hsum, Int.add_mul_ediv_right _ _ hstep.ne']
    have hnonneg : 0 ≤ (upper - (lower + step) + step - 1) / step :=
      Int.ediv_nonneg (by omega) hstep.le
    unfold tripCount
    omega
  rw [forLoop, htrip, List.range_succ_eq_map, List.flatMap_cons, List.flatMap_map]
  congr 1
  · simp
  · rw [forLoop]
    congr 1
    funext n
    congr 1
    push_cast
    ring

theorem forRuns_forLoop {upper step : ℤ} (hstep : 0 < step) (body : ℤ → List (Write α))
    (lower : ℤ) : ForRuns upper step body lower (forLoop lower upper step body) := by
  by_cases h : upper ≤ lower
  · rw [forLoop_empty hstep.le h]
    exact .stop h
  · rw [forLoop_next hstep (by omega)]
    exact .next (by omega) (forRuns_forLoop hstep body (lower + step))
  termination_by (upper - lower).toNat
  decreasing_by omega

/-- A loop over chunks of one block, the last of which may be shorter: every
position is met once, with its place in the block. -/
theorem mem_forLoop_chunks {size upper : ℕ} (hsize : 0 < upper → 0 < size) {step : ℤ}
    (hstep : 0 < upper → step = size) {body : ℤ → List (Write α)} {P : ℕ → ℕ → Write α → Prop}
    (hbody : ∀ n w, n < upper → (w ∈ body n ↔ ∃ j < min size (upper - n), P (n + j) j w))
    {w : Write α} (hnonneg : 0 ≤ step) :
    w ∈ forLoop 0 upper step body ↔ ∃ p < upper, P p (p % size) w := by
  rcases Nat.eq_zero_or_pos upper with rfl | hupper
  · simp [forLoop_empty hnonneg (le_refl (0 : ℤ))]
  rw [hstep hupper, mem_forLoop_nat (hsize hupper)]
  constructor
  · rintro ⟨n, hn, hw⟩
    obtain ⟨j, hj, hw⟩ := (hbody _ w hn).mp hw
    have hmod : (n * size + j) % size = j := by
      rw [Nat.mul_add_mod_self_right]
      exact Nat.mod_eq_of_lt (by omega)
    exact ⟨n * size + j, by omega, by rwa [hmod]⟩
  · rintro ⟨p, hp, hw⟩
    have hdiv := Nat.div_add_mod' p size
    have hmod := Nat.mod_lt p (hsize hupper)
    have hn : p / size * size < upper := by omega
    exact ⟨p / size, hn, (hbody _ w hn).mpr ⟨p % size, by omega, by rwa [hdiv]⟩⟩

/-! The row-major layout of a shape. -/

def rowMajor : (rank : ℕ) → (Fin rank → ℕ) → Fin rank → ℕ
  | 0, _ => Fin.elim0
  | rank + 1, shape => Fin.cons (∏ k, Fin.tail shape k) (rowMajor rank (Fin.tail shape))

def position (shape : Fin rank → ℕ) (i : Index rank) : ℕ := ∑ k, i k * rowMajor rank shape k

theorem position_succ (shape : Fin (rank + 1) → ℕ) (i : Index (rank + 1)) :
    position shape i = i 0 * ∏ k, Fin.tail shape k + position (Fin.tail shape) (Fin.tail i) := by
  simp only [position, rowMajor, Fin.sum_univ_succ, Fin.cons_zero, Fin.cons_succ]
  rfl

theorem position_lt {shape : Fin rank → ℕ} {i : Index rank} (h : ∀ k, i k < shape k) :
    position shape i < ∏ k, shape k := by
  induction rank with
  | zero => simp [position]
  | succ rank ih =>
    have htail : position (Fin.tail shape) (Fin.tail i) < ∏ k, Fin.tail shape k :=
      ih fun k => h k.succ
    rw [position_succ, Fin.prod_univ_succ]
    calc i 0 * ∏ k, Fin.tail shape k + position (Fin.tail shape) (Fin.tail i)
        < i 0 * ∏ k, Fin.tail shape k + ∏ k, Fin.tail shape k := by omega
      _ = (i 0 + 1) * ∏ k, Fin.tail shape k := by ring
      _ ≤ shape 0 * ∏ k, Fin.tail shape k := Nat.mul_le_mul_right _ (h 0)

theorem position_injective {shape : Fin rank → ℕ} {i j : Index rank} (hi : ∀ k, i k < shape k)
    (hj : ∀ k, j k < shape k) (h : position shape i = position shape j) : i = j := by
  induction rank with
  | zero => exact Subsingleton.elim i j
  | succ rank ih =>
    have hti : position (Fin.tail shape) (Fin.tail i) < ∏ k, Fin.tail shape k :=
      position_lt fun k => hi k.succ
    have htj : position (Fin.tail shape) (Fin.tail j) < ∏ k, Fin.tail shape k :=
      position_lt fun k => hj k.succ
    rw [position_succ, position_succ] at h
    have hdiv : ∀ a b, b < ∏ k, Fin.tail shape k →
        (a * ∏ k, Fin.tail shape k + b) / ∏ k, Fin.tail shape k = a := by
      intro a b hb
      rw [mul_comm, Nat.mul_add_div (by omega), Nat.div_eq_of_lt hb, add_zero]
    have hhead : i 0 = j 0 := by
      rw [← hdiv (i 0) _ hti, h, hdiv (j 0) _ htj]
    have htail : Fin.tail i = Fin.tail j := by
      rw [hhead] at h
      exact ih (fun k => hi k.succ) (fun k => hj k.succ) (Nat.add_left_cancel h)
    rw [← Fin.cons_self_tail i, ← Fin.cons_self_tail j, hhead, htail]

theorem rowMajor_pos {shape : Fin rank → ℕ} (h : ∀ k, 0 < shape k) (k : Fin rank) :
    0 < rowMajor rank shape k := by
  induction rank with
  | zero => exact k.elim0
  | succ rank ih =>
    refine Fin.cases ?_ (fun k => ?_) k
    · show 0 < ∏ l, Fin.tail shape l
      exact Nat.pos_of_ne_zero (Finset.prod_ne_zero_iff.mpr fun l _ => (h l.succ).ne')
    · show 0 < rowMajor rank (Fin.tail shape) k
      exact ih (fun l => h l.succ) k

/-- If the images of a box under `q` cover those under an injective `p`, they
are the same: both have as many elements as the box. -/
theorem exists_of_covers {sizes : Fin rank → ℕ} {p q : Index rank → ℕ}
    (hinj : ∀ i j : Index rank, (∀ k, i k < sizes k) → (∀ k, j k < sizes k) → p i = p j → i = j)
    (hcovers : ∀ i : Index rank, (∀ k, i k < sizes k) → ∃ j : Index rank,
      (∀ k, j k < sizes k) ∧ q j = p i)
    (j : Index rank) (hj : ∀ k, j k < sizes k) :
    ∃ i : Index rank, (∀ k, i k < sizes k) ∧ p i = q j := by
  classical
  let box := Fintype.piFinset fun k => Finset.range (sizes k)
  have hbox : ∀ i, i ∈ box ↔ ∀ k, i k < sizes k := by simp [box]
  have hsub : box.image p ⊆ box.image q := by
    intro a ha
    obtain ⟨i, hi, rfl⟩ := Finset.mem_image.mp ha
    obtain ⟨l, hl, heq⟩ := hcovers i ((hbox i).mp hi)
    exact Finset.mem_image.mpr ⟨l, (hbox l).mpr hl, heq⟩
  have hcard : (box.image q).card ≤ (box.image p).card := by
    rw [Finset.card_image_of_injOn (s := box) (f := p)
      fun i hi l hl => hinj i l ((hbox i).mp hi) ((hbox l).mp hl)]
    exact Finset.card_image_le
  have himage := Finset.eq_of_subset_of_card_le hsub hcard
  have hmem : q j ∈ box.image p := by
    rw [himage]
    exact Finset.mem_image_of_mem q ((hbox j).mpr hj)
  obtain ⟨i, hi, heq⟩ := Finset.mem_image.mp hmem
  exact ⟨i, (hbox i).mp hi, heq⟩

def alloc (shape : Fin rank → ℕ) : View rank :=
  ⟨0, fun k => shape k, fun k => rowMajor rank shape k⟩

theorem alloc_address (shape : Fin rank → ℕ) (i : Index rank) :
    (alloc shape).address i = position shape i := by
  simp [View.address, alloc, position]

theorem alloc_inBounds {shape : Fin rank → ℕ} {i : Index rank} :
    (alloc shape).InBounds i ↔ ∀ k, i k < shape k := by
  simp [View.InBounds, alloc]

section Positions

variable {shape : Fin rank → ℕ} {P : Index rank → Prop} {f : Index rank → α}
  {ws : List (Write α)}
  (hmem : ∀ w, w ∈ ws ↔ ∃ i, P i ∧ ⟨position shape i, f i⟩ = w)
  (hshape : ∀ i, P i → ∀ k, i k < shape k)

include hmem hshape

theorem run_position {i : Index rank} (hi : P i) (m : Memory α) :
    run ws m (position shape i) = f i := by
  refine run_value ⟨_, (hmem _).mpr ⟨i, hi, rfl⟩, rfl⟩ ?_ m
  intro w hw ha
  obtain ⟨j, hj, rfl⟩ := (hmem w).mp hw
  rw [position_injective (hshape j hj) (hshape i hi) (Nat.cast_inj.mp ha)]

theorem run_position_frame {i : Index rank} (hi : ∀ k, i k < shape k) (hout : ¬ P i)
    (m : Memory α) : run ws m (position shape i) = m (position shape i) := by
  apply run_frame
  intro w hw ha
  obtain ⟨j, hj, rfl⟩ := (hmem w).mp hw
  exact hout (position_injective (hshape j hj) hi (Nat.cast_inj.mp ha) ▸ hj)

end Positions

end TritonCpu.MemRef
