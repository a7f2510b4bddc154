import Mathlib.Algebra.BigOperators.Group.List.Basic
import Mathlib.Algebra.Order.BigOperators.GroupWithZero.List
import Mathlib.Algebra.Order.Ring.Nat
import Mathlib.Data.List.GetD

/-!
# Decomposing a reshape

`getReshapeDecomposition` merges the dimensions of two shapes into groups of
equal size. Each turn of its loop takes the next dimension of the side that is
behind, or starts a new group when both sides agree.
-/

set_option autoImplicit false

namespace TritonCpu.ReshapeDecomposition

open List

/-- Source dimensions and the destination dimensions they become. -/
abbrev Group := List ℕ × List ℕ

/-- The ways to give no result: an assertion that fails, or no end yet. -/
inductive Stop where
  | assertion
  | unfinished
  deriving DecidableEq

/-- The variables of the loop. The last group of `ret` is `back`. -/
structure LoopState where
  srcIdx : ℕ
  dstIdx : ℕ
  srcNElems : ℕ
  dstNElems : ℕ
  ret : List Group
  back : Group
  deriving DecidableEq

section Code

variable (srcShape dstShape : List ℕ)

def active (s : LoopState) : Prop := s.srcIdx < srcShape.length ∨ s.dstIdx < dstShape.length

def takesSrc (s : LoopState) : Prop :=
  s.srcNElems < s.dstNElems ∨
  (s.srcIdx < srcShape.length ∧ s.srcNElems = 1) ∨
  (s.srcIdx < srcShape.length ∧ srcShape.getD s.srcIdx 0 = 1)

def takesDst (s : LoopState) : Prop :=
  s.dstNElems < s.srcNElems ∨ (s.dstIdx < dstShape.length ∧ dstShape.getD s.dstIdx 0 = 1)

instance (s : LoopState) : Decidable (active srcShape dstShape s) :=
  inferInstanceAs (Decidable (_ ∨ _))

instance (s : LoopState) : Decidable (takesSrc srcShape s) := inferInstanceAs (Decidable (_ ∨ _))

instance (s : LoopState) : Decidable (takesDst dstShape s) := inferInstanceAs (Decidable (_ ∨ _))

def step (s : LoopState) : Except Stop LoopState :=
  if takesSrc srcShape s then
    if s.srcIdx < srcShape.length then
      .ok { s with
        srcNElems := s.srcNElems * srcShape.getD s.srcIdx 0
        back := (s.back.1 ++ [s.srcIdx], s.back.2)
        srcIdx := s.srcIdx + 1 }
    else .error .assertion
  else if takesDst dstShape s then
    if s.dstIdx < dstShape.length then
      .ok { s with
        dstNElems := s.dstNElems * dstShape.getD s.dstIdx 0
        back := (s.back.1, s.back.2 ++ [s.dstIdx])
        dstIdx := s.dstIdx + 1 }
    else .error .assertion
  else
    .ok { s with
      ret := s.ret ++ [s.back]
      back := ([], [])
      srcNElems := 1
      dstNElems := 1 }

def loop : ℕ → LoopState → Except Stop LoopState
  | 0, s => if active srcShape dstShape s then .error .unfinished else .ok s
  | fuel + 1, s =>
    if active srcShape dstShape s then step srcShape dstShape s >>= loop fuel else .ok s

def LoopState.start : LoopState := ⟨0, 0, 1, 1, [], ([], [])⟩

def getReshapeDecomposition (fuel : ℕ) : Except Stop (List Group) :=
  if srcShape = [] then
    if dstShape = [] then .ok [] else .error .assertion
  else do
    let s ← loop srcShape dstShape fuel .start
    return s.ret ++ [s.back]

end Code

/-- The number of elements that dimensions of a shape have together. -/
def sizeOf (shape : List ℕ) (dims : List ℕ) : ℕ := (dims.map fun i => shape.getD i 0).prod

@[simp] theorem sizeOf_nil (shape : List ℕ) : sizeOf shape [] = 1 := rfl

@[simp] theorem sizeOf_append (shape dims dims' : List ℕ) :
    sizeOf shape (dims ++ dims') = sizeOf shape dims * sizeOf shape dims' := by
  rw [sizeOf, map_append, prod_append]
  rfl

@[simp] theorem sizeOf_singleton (shape : List ℕ) (i : ℕ) :
    sizeOf shape [i] = shape.getD i 0 := by
  simp [sizeOf]

def Splits (srcShape dstShape : List ℕ) (g : Group) : Prop :=
  ∃ first second : Group, g = (first.1 ++ second.1, first.2 ++ second.2) ∧
    sizeOf srcShape first.1 = sizeOf dstShape first.2 ∧ 1 < sizeOf srcShape first.1 ∧
    sizeOf srcShape second.1 = sizeOf dstShape second.2 ∧ 1 < sizeOf srcShape second.1

/-- What the groups say about the reshape. -/
structure Decomposes (srcShape dstShape : List ℕ) (groups : List Group) : Prop where
  src : groups.flatMap Prod.fst = List.range srcShape.length
  dst : groups.flatMap Prod.snd = List.range dstShape.length
  sizes : ∀ g ∈ groups, sizeOf srcShape g.1 = sizeOf dstShape g.2
  minimal : ∀ g ∈ groups, ¬ Splits srcShape dstShape g

section Group

variable {srcShape dstShape : List ℕ}

/-- The group that is being filled. A side got its last dimension above one when
it was behind, so both sides had the same size only where one of them ends. -/
structure Filling (srcShape dstShape : List ℕ) (g : Group) : Prop where
  src_pos : 0 < sizeOf srcShape g.1
  dst_pos : 0 < sizeOf dstShape g.2
  src_behind : ∀ S T, g.1 = S ++ T → 1 < sizeOf srcShape T →
    sizeOf srcShape S < sizeOf dstShape g.2 ∨ sizeOf srcShape S = 1
  dst_behind : ∀ S T, g.2 = S ++ T → 1 < sizeOf dstShape T →
    sizeOf dstShape S < sizeOf srcShape g.1
  agree : ∀ S T S' T', g.1 = S ++ T → g.2 = S' ++ T' → sizeOf srcShape S = sizeOf dstShape S' →
    1 < sizeOf srcShape S → sizeOf srcShape T = 1 ∧ sizeOf dstShape T' = 1

theorem Filling.nil : Filling srcShape dstShape ([], []) where
  src_pos := by simp
  dst_pos := by simp
  src_behind S T h hT := by
    obtain ⟨rfl, rfl⟩ := append_eq_nil_iff.mp h.symm
    exact absurd hT (by simp)
  dst_behind S T h hT := by
    obtain ⟨rfl, rfl⟩ := append_eq_nil_iff.mp h.symm
    exact absurd hT (by simp)
  agree S T S' T' h h' _ hS := by
    obtain ⟨rfl, rfl⟩ := append_eq_nil_iff.mp h.symm
    exact absurd hS (by simp)

theorem split_concat {α : Type} {l S T : List α} {a : α} (h : l ++ [a] = S ++ T) :
    (S = l ++ [a] ∧ T = []) ∨ ∃ T₀, T = T₀ ++ [a] ∧ l = S ++ T₀ := by
  obtain rfl | ⟨T₀, b, rfl⟩ := T.eq_nil_or_concat
  · exact Or.inl ⟨by simpa using h.symm, rfl⟩
  · rw [concat_eq_append, ← append_assoc] at h
    obtain ⟨hl, hab⟩ := append_inj' h rfl
    rw [singleton_inj] at hab
    exact Or.inr ⟨T₀, by rw [hab, concat_eq_append], hl⟩

theorem eq_one_of_mul {a b : ℕ} (h : 0 < a * b) (hb : ¬ 1 < b) : b = 1 := by
  have hpos : 0 < b := Nat.pos_of_mul_pos_left h
  omega

/-- Where a part is as large as 1, its last dimension is all of it. -/
theorem dim_of_concat {shape G S T₀ : List ℕ} {i : ℕ} (hpos : 0 < sizeOf shape G)
    (hg : G = S ++ T₀) (hT₀ : ¬ 1 < sizeOf shape T₀) (hT : 1 < sizeOf shape (T₀ ++ [i])) :
    sizeOf shape S = sizeOf shape G ∧ 1 < shape.getD i 0 := by
  rw [hg, sizeOf_append] at hpos ⊢
  have hone := eq_one_of_mul hpos hT₀
  rw [sizeOf_append, sizeOf_singleton, hone, one_mul] at hT
  rw [hone, mul_one]
  exact ⟨rfl, hT⟩

theorem Filling.push_src {g : Group} (h : Filling srcShape dstShape g) {i : ℕ}
    (hpos : 0 < srcShape.getD i 0)
    (hbehind : sizeOf srcShape g.1 < sizeOf dstShape g.2 ∨ sizeOf srcShape g.1 = 1 ∨
      srcShape.getD i 0 = 1) : Filling srcShape dstShape (g.1 ++ [i], g.2) where
  src_pos := by
    rw [sizeOf_append, sizeOf_singleton]
    exact Nat.mul_pos h.src_pos hpos
  dst_pos := h.dst_pos
  src_behind S T hsplit hT := by
    obtain ⟨-, rfl⟩ | ⟨T₀, rfl, hg⟩ := split_concat hsplit
    · exact absurd hT (by simp)
    · by_cases hT₀ : 1 < sizeOf srcShape T₀
      · exact h.src_behind S T₀ hg hT₀
      · obtain ⟨hsize, hdim⟩ := dim_of_concat h.src_pos hg hT₀ hT
        rw [hsize]
        rcases hbehind with hlt | hunit | hdim
        · exact Or.inl hlt
        · exact Or.inr hunit
        · omega
  dst_behind S T hsplit hT := by
    rw [sizeOf_append, sizeOf_singleton]
    exact (h.dst_behind S T hsplit hT).trans_le (Nat.le_mul_of_pos_right _ hpos)
  agree S T S' T' hsplit hsplit' hsize hS := by
    have hdst : sizeOf dstShape g.2 = sizeOf dstShape S' * sizeOf dstShape T' := by
      rw [← sizeOf_append]
      exact congrArg _ hsplit'
    obtain ⟨rfl, rfl⟩ | ⟨T₀, rfl, hg⟩ := split_concat hsplit
    · refine ⟨sizeOf_nil _, eq_one_of_mul (hdst ▸ h.dst_pos) fun hT' => ?_⟩
      have hlt := h.dst_behind S' T' hsplit' hT'
      rw [sizeOf_append, sizeOf_singleton] at hsize
      exact absurd (Nat.le_mul_of_pos_right _ hpos) (by rw [hsize]; omega)
    · obtain ⟨hT₀, hT'⟩ := h.agree S T₀ S' T' hg hsplit' hsize hS
      have hsrc : sizeOf srcShape g.1 = sizeOf srcShape S := by
        rw [hg, sizeOf_append, hT₀, mul_one]
      rw [hT', mul_one] at hdst
      rw [sizeOf_append, sizeOf_singleton, hT₀, one_mul]
      refine ⟨?_, hT'⟩
      rcases hbehind with hlt | hunit | hdim
      · omega
      · omega
      · exact hdim

theorem Filling.push_dst {g : Group} (h : Filling srcShape dstShape g) {i : ℕ}
    (hpos : 0 < dstShape.getD i 0)
    (hbehind : sizeOf dstShape g.2 < sizeOf srcShape g.1 ∨ dstShape.getD i 0 = 1) :
    Filling srcShape dstShape (g.1, g.2 ++ [i]) where
  src_pos := h.src_pos
  dst_pos := by
    rw [sizeOf_append, sizeOf_singleton]
    exact Nat.mul_pos h.dst_pos hpos
  src_behind S T hsplit hT := by
    rw [sizeOf_append, sizeOf_singleton]
    refine (h.src_behind S T hsplit hT).imp_left fun hlt => hlt.trans_le ?_
    exact Nat.le_mul_of_pos_right _ hpos
  dst_behind S T hsplit hT := by
    obtain ⟨-, rfl⟩ | ⟨T₀, rfl, hg⟩ := split_concat hsplit
    · exact absurd hT (by simp)
    · by_cases hT₀ : 1 < sizeOf dstShape T₀
      · exact h.dst_behind S T₀ hg hT₀
      · obtain ⟨hsize, hdim⟩ := dim_of_concat h.dst_pos hg hT₀ hT
        rw [hsize]
        rcases hbehind with hlt | hdim
        · exact hlt
        · omega
  agree S T S' T' hsplit hsplit' hsize hS := by
    have hsrc : sizeOf srcShape g.1 = sizeOf srcShape S * sizeOf srcShape T := by
      rw [← sizeOf_append]
      exact congrArg _ hsplit
    obtain ⟨rfl, rfl⟩ | ⟨T₀, rfl, hg⟩ := split_concat hsplit'
    · refine ⟨eq_one_of_mul (hsrc ▸ h.src_pos) fun hT => ?_, sizeOf_nil _⟩
      rw [sizeOf_append, sizeOf_singleton] at hsize
      have hle : sizeOf dstShape g.2 ≤ sizeOf srcShape S :=
        hsize ▸ Nat.le_mul_of_pos_right _ hpos
      rcases h.src_behind S T hsplit hT with hlt | hunit
      · omega
      · omega
    · obtain ⟨hT, hT₀⟩ := h.agree S T S' T₀ hsplit hg hsize hS
      have hdst : sizeOf dstShape g.2 = sizeOf dstShape S' := by
        rw [hg, sizeOf_append, hT₀, mul_one]
      rw [hT, mul_one] at hsrc
      rw [sizeOf_append, sizeOf_singleton, hT₀, one_mul]
      refine ⟨hT, ?_⟩
      rcases hbehind with hlt | hdim
      · omega
      · exact hdim

theorem Filling.not_splits {g : Group} (h : Filling srcShape dstShape g) :
    ¬ Splits srcShape dstShape g := by
  rintro ⟨first, second, rfl, hsize, hfirst, hsize', hsecond⟩
  have hone := (h.agree first.1 second.1 first.2 second.2 rfl rfl hsize hfirst).1
  omega

end Group

section Loop

variable {srcShape dstShape : List ℕ}

/-- Both sides go through their dimensions in order, the closed groups are right
and what is left of both sides makes them equal. -/
structure Inv (srcShape dstShape : List ℕ) (s : LoopState) : Prop where
  src_le : s.srcIdx ≤ srcShape.length
  dst_le : s.dstIdx ≤ dstShape.length
  src_dims : s.ret.flatMap Prod.fst ++ s.back.1 = List.range s.srcIdx
  dst_dims : s.ret.flatMap Prod.snd ++ s.back.2 = List.range s.dstIdx
  src_size : s.srcNElems = sizeOf srcShape s.back.1
  dst_size : s.dstNElems = sizeOf dstShape s.back.2
  filling : Filling srcShape dstShape s.back
  sizes : ∀ g ∈ s.ret, sizeOf srcShape g.1 = sizeOf dstShape g.2
  minimal : ∀ g ∈ s.ret, ¬ Splits srcShape dstShape g
  balance : s.srcNElems * (srcShape.drop s.srcIdx).prod =
    s.dstNElems * (dstShape.drop s.dstIdx).prod

/-- A bound on the turns to come: one for each dimension that is left, and one
for each group that they start. -/
def turns (srcShape dstShape : List ℕ) (s : LoopState) : ℕ :=
  2 * ((srcShape.length - s.srcIdx) + (dstShape.length - s.dstIdx)) +
    if s.srcNElems = 1 then 0 else 1

theorem prod_drop {shape : List ℕ} {i : ℕ} (h : i < shape.length) :
    (shape.drop i).prod = shape.getD i 0 * (shape.drop (i + 1)).prod := by
  rw [drop_eq_getElem_cons h, prod_cons, getD_eq_getElem _ _ h]

theorem prod_drop_pos {shape : List ℕ} (hpos : ∀ d ∈ shape, 0 < d) (i : ℕ) :
    0 < (shape.drop i).prod :=
  prod_pos fun d hd => hpos d (mem_of_mem_drop hd)

theorem getD_pos {shape : List ℕ} (hpos : ∀ d ∈ shape, 0 < d) {i : ℕ} (h : i < shape.length) :
    0 < shape.getD i 0 := by
  rw [getD_eq_getElem _ _ h]
  exact hpos _ (getElem_mem h)

theorem inv_start (hprod : srcShape.prod = dstShape.prod) :
    Inv srcShape dstShape .start where
  src_le := Nat.zero_le _
  dst_le := Nat.zero_le _
  src_dims := rfl
  dst_dims := rfl
  src_size := rfl
  dst_size := rfl
  filling := Filling.nil
  sizes := by simp [LoopState.start]
  minimal := by simp [LoopState.start]
  balance := by simpa [LoopState.start] using hprod

variable {s : LoopState}

theorem Inv.src_left (h : Inv srcShape dstShape s) (hdst : ∀ d ∈ dstShape, 0 < d)
    (htake : takesSrc srcShape s) : s.srcIdx < srcShape.length := by
  rcases htake with hlt | hunit | hdim
  · by_contra hend
    have hbalance := h.balance
    rw [drop_eq_nil_of_le (Nat.le_of_not_lt hend), prod_nil, mul_one] at hbalance
    have hle := Nat.le_mul_of_pos_right s.dstNElems (prod_drop_pos hdst s.dstIdx)
    omega
  · exact hunit.1
  · exact hdim.1

theorem Inv.dst_left (h : Inv srcShape dstShape s) (hsrc : ∀ d ∈ srcShape, 0 < d)
    (htake : takesDst dstShape s) : s.dstIdx < dstShape.length := by
  rcases htake with hlt | hdim
  · by_contra hend
    have hbalance := h.balance
    rw [drop_eq_nil_of_le (Nat.le_of_not_lt hend), prod_nil, mul_one] at hbalance
    have hle := Nat.le_mul_of_pos_right s.srcNElems (prod_drop_pos hsrc s.srcIdx)
    omega
  · exact hdim.1

theorem Inv.take_src (h : Inv srcShape dstShape s) (hsrc : ∀ d ∈ srcShape, 0 < d)
    (hleft : s.srcIdx < srcShape.length) (htake : takesSrc srcShape s) :
    Inv srcShape dstShape { s with
      srcNElems := s.srcNElems * srcShape.getD s.srcIdx 0
      back := (s.back.1 ++ [s.srcIdx], s.back.2)
      srcIdx := s.srcIdx + 1 } where
  src_le := hleft
  dst_le := h.dst_le
  src_dims := by
    rw [← append_assoc, h.src_dims, range_succ]
  dst_dims := h.dst_dims
  src_size := by
    rw [sizeOf_append, sizeOf_singleton, h.src_size]
  dst_size := h.dst_size
  filling := by
    apply h.filling.push_src (getD_pos hsrc hleft)
    rw [← h.src_size, ← h.dst_size]
    rcases htake with hlt | hunit | hdim
    · exact Or.inl hlt
    · exact Or.inr (Or.inl hunit.2)
    · exact Or.inr (Or.inr hdim.2)
  sizes := h.sizes
  minimal := h.minimal
  balance := by
    rw [mul_assoc, ← prod_drop hleft]
    exact h.balance

theorem Inv.take_dst (h : Inv srcShape dstShape s) (hdst : ∀ d ∈ dstShape, 0 < d)
    (hleft : s.dstIdx < dstShape.length) (htake : takesDst dstShape s) :
    Inv srcShape dstShape { s with
      dstNElems := s.dstNElems * dstShape.getD s.dstIdx 0
      back := (s.back.1, s.back.2 ++ [s.dstIdx])
      dstIdx := s.dstIdx + 1 } where
  src_le := h.src_le
  dst_le := hleft
  src_dims := h.src_dims
  dst_dims := by
    rw [← append_assoc, h.dst_dims, range_succ]
  src_size := h.src_size
  dst_size := by
    rw [sizeOf_append, sizeOf_singleton, h.dst_size]
  filling := by
    apply h.filling.push_dst (getD_pos hdst hleft)
    rw [← h.src_size, ← h.dst_size]
    exact htake.imp_right And.right
  sizes := h.sizes
  minimal := h.minimal
  balance := by
    rw [mul_assoc, ← prod_drop hleft]
    exact h.balance

theorem Inv.close (h : Inv srcShape dstShape s) (heq : s.srcNElems = s.dstNElems) :
    Inv srcShape dstShape { s with
      ret := s.ret ++ [s.back]
      back := ([], [])
      srcNElems := 1
      dstNElems := 1 } where
  src_le := h.src_le
  dst_le := h.dst_le
  src_dims := by
    rw [flatMap_append, flatMap_singleton, append_nil]
    exact h.src_dims
  dst_dims := by
    rw [flatMap_append, flatMap_singleton, append_nil]
    exact h.dst_dims
  src_size := rfl
  dst_size := rfl
  filling := Filling.nil
  sizes := by
    intro g hg
    rcases mem_append.mp hg with hg | hg
    · exact h.sizes g hg
    · rw [mem_singleton.mp hg, ← h.src_size, ← h.dst_size, heq]
  minimal := by
    intro g hg
    rcases mem_append.mp hg with hg | hg
    · exact h.minimal g hg
    · rw [mem_singleton.mp hg]
      exact h.filling.not_splits
  balance := by
    have hpos : 0 < s.dstNElems := h.dst_size ▸ h.filling.dst_pos
    have hbalance := h.balance
    rw [heq] at hbalance
    rw [one_mul, one_mul]
    exact Nat.eq_of_mul_eq_mul_left hpos hbalance

/-- A group is closed only before a source dimension above one, and it is not
one element then. -/
theorem Inv.close_progress (h : Inv srcShape dstShape s)
    (hactive : active srcShape dstShape s) (hsrc : ¬ takesSrc srcShape s)
    (hdst' : ¬ takesDst dstShape s) : s.srcNElems = s.dstNElems ∧ s.srcNElems ≠ 1 := by
  simp only [takesSrc, takesDst, not_or, not_and] at hsrc hdst'
  have heq : s.srcNElems = s.dstNElems := by omega
  refine ⟨heq, fun hone => ?_⟩
  have hend : ¬ s.srcIdx < srcShape.length := fun hlt => hsrc.2.1 hlt hone
  have hleft : s.dstIdx < dstShape.length := hactive.resolve_left hend
  have hbalance := h.balance
  rw [← heq, hone, drop_eq_nil_of_le (Nat.le_of_not_lt hend), prod_nil, one_mul, one_mul,
    prod_drop hleft] at hbalance
  exact hdst'.2 hleft (Nat.eq_one_of_mul_eq_one_right hbalance.symm)

theorem step_spec (h : Inv srcShape dstShape s) (hsrc : ∀ d ∈ srcShape, 0 < d)
    (hdst : ∀ d ∈ dstShape, 0 < d) (hactive : active srcShape dstShape s) :
    ∃ s', step srcShape dstShape s = .ok s' ∧ Inv srcShape dstShape s' ∧
      turns srcShape dstShape s' < turns srcShape dstShape s := by
  by_cases htake : takesSrc srcShape s
  · have hleft := h.src_left hdst htake
    refine ⟨_, by rw [step, if_pos htake, if_pos hleft], h.take_src hsrc hleft htake, ?_⟩
    simp only [turns]
    split_ifs <;> omega
  · by_cases htake' : takesDst dstShape s
    · have hleft := h.dst_left hsrc htake'
      refine ⟨_, by rw [step, if_neg htake, if_pos htake', if_pos hleft],
        h.take_dst hdst hleft htake', ?_⟩
      simp only [turns]
      split_ifs <;> omega
    · obtain ⟨heq, hne⟩ := h.close_progress hactive htake htake'
      refine ⟨_, by rw [step, if_neg htake, if_neg htake'], h.close heq, ?_⟩
      simp only [turns, if_neg hne, if_true]
      omega

theorem loop_spec (hsrc : ∀ d ∈ srcShape, 0 < d) (hdst : ∀ d ∈ dstShape, 0 < d)
    (h : Inv srcShape dstShape s) : ∃ s', Inv srcShape dstShape s' ∧
      ¬ active srcShape dstShape s' ∧
      ∀ fuel, turns srcShape dstShape s ≤ fuel → loop srcShape dstShape fuel s = .ok s' := by
  induction hn : turns srcShape dstShape s using Nat.strong_induction_on generalizing s with
  | _ n ih =>
    by_cases hactive : active srcShape dstShape s
    · obtain ⟨s', hstep, hinv, hlt⟩ := step_spec h hsrc hdst hactive
      obtain ⟨final, hfinal, hdone, hloop⟩ := ih _ (hn ▸ hlt) hinv rfl
      refine ⟨final, hfinal, hdone, fun fuel hfuel => ?_⟩
      cases fuel with
      | zero => omega
      | succ fuel =>
        rw [loop, if_pos hactive, hstep]
        exact hloop fuel (by omega)
    · refine ⟨s, h, hactive, fun fuel _ => ?_⟩
      cases fuel with
      | zero => rw [loop, if_neg hactive]
      | succ fuel => rw [loop, if_neg hactive]

theorem Inv.decomposes (h : Inv srcShape dstShape s) (hdone : ¬ active srcShape dstShape s) :
    Decomposes srcShape dstShape (s.ret ++ [s.back]) := by
  obtain ⟨hsrc, hdst⟩ := not_or.mp hdone
  have hsrcEnd : s.srcIdx = srcShape.length := le_antisymm h.src_le (Nat.le_of_not_lt hsrc)
  have hdstEnd : s.dstIdx = dstShape.length := le_antisymm h.dst_le (Nat.le_of_not_lt hdst)
  have heq : s.srcNElems = s.dstNElems := by
    have hbalance := h.balance
    rwa [hsrcEnd, hdstEnd, drop_length, drop_length, prod_nil, mul_one,
      mul_one] at hbalance
  have hclosed := h.close heq
  refine ⟨?_, ?_, hclosed.sizes, hclosed.minimal⟩
  · rw [← hsrcEnd, ← hclosed.src_dims, append_nil]
  · rw [← hdstEnd, ← hclosed.dst_dims, append_nil]

/-- The loop ends, no assertion fails and the groups decompose the reshape. The
function asserts that nothing is left of the destination where the source has no
dimensions. -/
theorem getReshapeDecomposition_decomposes (srcShape dstShape : List ℕ)
    (hsrc : ∀ d ∈ srcShape, 0 < d) (hdst : ∀ d ∈ dstShape, 0 < d)
    (hprod : srcShape.prod = dstShape.prod) (hempty : srcShape = [] → dstShape = []) :
    ∃ groups, Decomposes srcShape dstShape groups ∧
      ∀ fuel, 2 * (srcShape.length + dstShape.length) ≤ fuel →
        getReshapeDecomposition srcShape dstShape fuel = .ok groups := by
  by_cases hnil : srcShape = []
  · have hnil' := hempty hnil
    refine ⟨[], ⟨?_, ?_, by simp, by simp⟩, fun fuel _ => ?_⟩
    · rw [hnil]
      rfl
    · rw [hnil']
      rfl
    · rw [getReshapeDecomposition, if_pos hnil, if_pos hnil']
  · obtain ⟨s, hinv, hdone, hloop⟩ := loop_spec hsrc hdst (inv_start hprod)
    refine ⟨_, hinv.decomposes hdone, fun fuel hfuel => ?_⟩
    have hturns : turns srcShape dstShape .start ≤ fuel := by
      simpa [turns, LoopState.start] using hfuel
    rw [getReshapeDecomposition, if_neg hnil, hloop fuel hturns]
    rfl

/-- The reshape of the header's comment. -/
theorem getReshapeDecomposition_decomposes_comment :
    ∃ groups, Decomposes [4, 4, 4] [2, 2, 8, 2] groups ∧ ∀ fuel, 2 * (3 + 4) ≤ fuel →
      getReshapeDecomposition [4, 4, 4] [2, 2, 8, 2] fuel = .ok groups :=
  getReshapeDecomposition_decomposes [4, 4, 4] [2, 2, 8, 2] (by decide) (by decide) (by decide)
    (by decide)

example : getReshapeDecomposition [4, 4, 4] [2, 2, 8, 2] 14 =
    .ok [([0], [0, 1]), ([1, 2], [2, 3])] := by decide

/-- Shapes of one element without and with a dimension. -/
theorem getReshapeDecomposition_scalar : ([] : List ℕ).prod = [1].prod ∧
    ∀ fuel, getReshapeDecomposition [] [1] fuel = .error .assertion :=
  ⟨rfl, fun _ => rfl⟩

end Loop

end TritonCpu.ReshapeDecomposition
