import Mathlib.Data.Prod.Lex
import Mathlib.Order.Bounds.Basic

/-!
# Index reductions

`tt.reduce` may combine the elements of a tensor in any tree. The combine
functions of `tl.max` and `tl.min` with indices keep one of their two
arguments, so a tree keeps the extremum of its leaves whatever its shape.
-/

set_option autoImplicit false

namespace TritonCpu.IndexReduction

/-- An order in which the elements of a reduction are combined. -/
inductive Tree (α : Type) where
  | leaf (a : α)
  | node (left right : Tree α)

namespace Tree

variable {α : Type}

def leaves : Tree α → List α
  | leaf a => [a]
  | node left right => left.leaves ++ right.leaves

def reduce (combine : α → α → α) : Tree α → α
  | leaf a => a
  | node left right => combine (left.reduce combine) (right.reduce combine)

end Tree

section Selection

variable {α K : Type} [Preorder K] {key : α → K} {combine : α → α → α}

/-- A combine function that keeps one of its arguments, of the greatest key. -/
structure Selects (key : α → K) (combine : α → α → α) : Prop where
  mem : ∀ a b, combine a b = a ∨ combine a b = b
  left_le : ∀ a b, key a ≤ key (combine a b)
  right_le : ∀ a b, key b ≤ key (combine a b)

theorem Selects.reduce_mem (h : Selects key combine) (t : Tree α) :
    t.reduce combine ∈ t.leaves := by
  induction t with
  | leaf a => exact List.mem_singleton.mpr rfl
  | node left right ihl ihr =>
    rw [Tree.reduce, Tree.leaves, List.mem_append]
    rcases h.mem (left.reduce combine) (right.reduce combine) with he | he
    · exact .inl (he.symm ▸ ihl)
    · exact .inr (he.symm ▸ ihr)

theorem Selects.le_reduce (h : Selects key combine) (t : Tree α) :
    ∀ a ∈ t.leaves, key a ≤ key (t.reduce combine) := by
  induction t with
  | leaf a =>
    intro b hb
    rw [List.mem_singleton.mp hb, Tree.reduce]
  | node left right ihl ihr =>
    intro a ha
    rcases List.mem_append.mp ha with hl | hr
    · exact (ihl a hl).trans (h.left_le _ _)
    · exact (ihr a hr).trans (h.right_le _ _)

/-- A combine function that keeps its first argument when its key is the greater, and its
second when it is not. -/
theorem selects_of_ite {K : Type} [LinearOrder K] {key : α → K} {combine : α → α → α}
    (h : ∀ a b, combine a b = if key b < key a then a else b) : Selects key combine where
  mem a b := by
    rw [h]
    exact ite_eq_or_eq _ a b
  left_le a b := by
    rw [h]
    split_ifs with hlt
    · exact le_rfl
    · exact not_lt.mp hlt
  right_le a b := by
    rw [h]
    split_ifs with hlt
    · exact hlt.le
    · exact le_rfl

end Selection

variable {V ι : Type} [LinearOrder V] [LinearOrder ι]

def _argmax_combine (value1 : V) (index1 : ι) (value2 : V) (index2 : ι)
    (tie_break_left : Bool) : V × ι :=
  let tie := if tie_break_left then decide (value1 = value2) && decide (index1 < index2) else false
  let gt := decide (value1 > value2) || tie
  let v_ret := if gt then value1 else value2
  let i_ret := if gt then index1 else index2
  (v_ret, i_ret)

def _argmax_combine_tie_break_left (value1 : V) (index1 : ι) (value2 : V) (index2 : ι) : V × ι :=
  _argmax_combine value1 index1 value2 index2 true

def _argmax_combine_tie_break_fast (value1 : V) (index1 : ι) (value2 : V) (index2 : ι) : V × ι :=
  _argmax_combine value1 index1 value2 index2 false

def _argmin_combine (value1 : V) (index1 : ι) (value2 : V) (index2 : ι)
    (tie_break_left : Bool) : V × ι :=
  let tie := if tie_break_left then decide (value1 = value2) && decide (index1 < index2) else false
  let lt := decide (value1 < value2) || tie
  let value_ret := if lt then value1 else value2
  let index_ret := if lt then index1 else index2
  (value_ret, index_ret)

def _argmin_combine_tie_break_left (value1 : V) (index1 : ι) (value2 : V) (index2 : ι) : V × ι :=
  _argmin_combine value1 index1 value2 index2 true

def _argmin_combine_tie_break_fast (value1 : V) (index1 : ι) (value2 : V) (index2 : ι) : V × ι :=
  _argmin_combine value1 index1 value2 index2 false

/-- `_reduce_with_indices`: the operands of the reduction are the values and the indices. -/
def _reduce_with_indices (combine_fn : V → ι → V → ι → V × ι) (t : Tree (V × ι)) : V × ι :=
  t.reduce fun a b => combine_fn a.1 a.2 b.1 b.2

/-- The key of `tie_break_left`: the value, then the index, the smaller the better. -/
def leftKey (p : V × ι) : V ×ₗ ιᵒᵈ := toLex (p.1, OrderDual.toDual p.2)

theorem leftKey_lt {p q : V × ι} : leftKey q < leftKey p ↔ p.1 > q.1 ∨ p.1 = q.1 ∧ p.2 < q.2 := by
  rw [leftKey, leftKey, Prod.Lex.toLex_lt_toLex, OrderDual.toDual_lt_toDual]
  simp only [gt_iff_lt, eq_comm]

theorem leftKey_le {p q : V × ι} (h : leftKey p ≤ leftKey q) :
    p.1 ≤ q.1 ∧ (p.1 = q.1 → q.2 ≤ p.2) := by
  rw [leftKey, leftKey, Prod.Lex.toLex_le_toLex, OrderDual.toDual_le_toDual] at h
  rcases h with hlt | ⟨heq, hle⟩
  · exact ⟨hlt.le, fun heq => absurd heq hlt.ne⟩
  · exact ⟨heq.le, fun _ => hle⟩

theorem argmax_left_selects : Selects leftKey fun a b : V × ι =>
    _argmax_combine_tie_break_left a.1 a.2 b.1 b.2 := by
  apply selects_of_ite
  intro a b
  simp only [leftKey_lt]
  unfold _argmax_combine_tie_break_left _argmax_combine
  by_cases h : a.1 > b.1 ∨ a.1 = b.1 ∧ a.2 < b.2 <;> simp [h]

theorem argmax_fast_selects : Selects Prod.fst fun a b : V × ι =>
    _argmax_combine_tie_break_fast a.1 a.2 b.1 b.2 := by
  apply selects_of_ite
  intro a b
  unfold _argmax_combine_tie_break_fast _argmax_combine
  by_cases h : b.1 < a.1 <;> simp [h]

def values (pairs : List (V × ι)) : Set V := {v | ∃ i, (v, i) ∈ pairs}

def indicesOf (pairs : List (V × ι)) (v : V) : Set ι := {i | (v, i) ∈ pairs}

/-- The pair holds the extremum of a collection and the smallest index at which it occurs. -/
structure ExtremumLeft (IsExtremum : Set V → V → Prop) (pairs : List (V × ι)) (r : V × ι) :
    Prop where
  value : IsExtremum (values pairs) r.1
  index : IsLeast (indicesOf pairs r.1) r.2

/-- The pair holds the extremum of a collection and an index at which it occurs. -/
structure Extremum (IsExtremum : Set V → V → Prop) (pairs : List (V × ι)) (r : V × ι) :
    Prop where
  value : IsExtremum (values pairs) r.1
  index : r.2 ∈ indicesOf pairs r.1

theorem extremumLeft_of_selects {combine : V × ι → V × ι → V × ι} (h : Selects leftKey combine)
    {pairs : List (V × ι)} {t : Tree (V × ι)} (hperm : t.leaves.Perm pairs) :
    ExtremumLeft IsGreatest pairs (t.reduce combine) := by
  have hmem : t.reduce combine ∈ pairs := hperm.mem_iff.mp (h.reduce_mem t)
  have hle (p : V × ι) (hp : p ∈ pairs) := leftKey_le (h.le_reduce t p (hperm.mem_iff.mpr hp))
  refine ⟨⟨⟨_, hmem⟩, ?_⟩, hmem, ?_⟩
  · rintro v ⟨i, hi⟩
    exact (hle (v, i) hi).1
  · intro i hi
    exact (hle (_, i) hi).2 rfl

omit [LinearOrder ι] in
theorem extremum_of_selects {combine : V × ι → V × ι → V × ι} (h : Selects Prod.fst combine)
    {pairs : List (V × ι)} {t : Tree (V × ι)} (hperm : t.leaves.Perm pairs) :
    Extremum IsGreatest pairs (t.reduce combine) := by
  have hmem : t.reduce combine ∈ pairs := hperm.mem_iff.mp (h.reduce_mem t)
  refine ⟨⟨⟨_, hmem⟩, ?_⟩, hmem⟩
  rintro v ⟨i, hi⟩
  exact h.le_reduce t (v, i) (hperm.mem_iff.mpr hi)

/-- The pairs in any order and combined in any tree: `tie_break_left` gives the extremum with
the smallest index at which it occurs, `tie_break_fast` gives it with some such index. -/
theorem reduce_index_extremum (pairs : List (V × ι)) (t : Tree (V × ι))
    (horder : t.leaves.Perm pairs) :
    ExtremumLeft IsGreatest pairs (_reduce_with_indices _argmax_combine_tie_break_left t) ∧
      ExtremumLeft IsLeast pairs (_reduce_with_indices _argmin_combine_tie_break_left t) ∧
      Extremum IsGreatest pairs (_reduce_with_indices _argmax_combine_tie_break_fast t) ∧
      Extremum IsLeast pairs (_reduce_with_indices _argmin_combine_tie_break_fast t) := by
  -- `tl.min` is `tl.max` in the opposite order of the values.
  have hleft := @extremumLeft_of_selects Vᵒᵈ ι _ _ _ argmax_left_selects pairs t horder
  have hfast := @extremum_of_selects Vᵒᵈ ι _ _ argmax_fast_selects pairs t horder
  exact ⟨extremumLeft_of_selects argmax_left_selects horder, ⟨hleft.value, hleft.index⟩,
    extremum_of_selects argmax_fast_selects horder, ⟨hfast.value, hfast.index⟩⟩

theorem reduce_index_extremum_sample :
    ExtremumLeft IsGreatest [(5, 0), (7, 1), (7, 2)]
      (_reduce_with_indices _argmax_combine_tie_break_left
        (.node (.leaf (7, 2)) (.node (.leaf (5, 0)) (.leaf ((7 : ℤ), (1 : ℤ)))))) :=
  (reduce_index_extremum [(5, 0), (7, 1), (7, 2)]
    (.node (.leaf (7, 2)) (.node (.leaf (5, 0)) (.leaf (7, 1)))) (by decide)).1

end TritonCpu.IndexReduction
