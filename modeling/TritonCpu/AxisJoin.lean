import Mathlib
import TritonCpu.AxisCorrect

/-!
# Joins

Where control flow meets, the analysis keeps the greatest common divisor of each
entry. The groups of the join are those of the operand that has the shorter ones, so
the other operand has new group heads, which need not be multiples of what divided
the heads of its longer groups.
-/

set_option autoImplicit false

namespace TritonCpu.AxisAnalysis
open PowerOfTwo AlignedGroups TritonIR

variable {rank w : ℕ}

namespace AxisInfo

def join (lhs rhs : AxisInfo rank) : AxisInfo rank :=
  if rank = 0 then rhs
  else
    { contiguity := fun d => gcd (lhs.contiguity d) (rhs.contiguity d)
      divisibility := fun d => gcd (lhs.divisibility d) (rhs.divisibility d)
      constancy := fun d => gcd (lhs.constancy d) (rhs.constancy d)
      constantValue :=
        if lhs.constantValue.isSome ∧ rhs.constantValue.isSome ∧
            lhs.constantValue = rhs.constantValue then lhs.constantValue
        else none }

end AxisInfo

section Line

variable {step : BitVec w} {c d k e g : Pow2} {f : ℕ → BitVec w} {n : ℕ}

/-- The heads of shorter groups of `g` elements are multiples of `e` where the groups
do not get shorter on the line, or the steps between them are multiples. -/
def KeepsHeads (step : BitVec w) (c g e : Pow2) (n : ℕ) : Prop :=
  c = g ∨ n ≤ g.val ∨ Multiple e (step * (g.val : BitVec w))

instance (step : BitVec w) (c g e : Pow2) (n : ℕ) : Decidable (KeepsHeads step c g e n) :=
  inferInstanceAs (Decidable (c = g ∨ n ≤ g.val ∨ Multiple e (step * (g.val : BitVec w))))

theorem LineCorrect.heads_iff (h : LineCorrect step c d k f n) (hg : g.val ∣ c.val)
    (he : e.val ∣ d.val) : Heads g.val (Multiple e) f n ↔ KeepsHeads step c g e n := by
  constructor
  · intro hheads
    by_cases heq : c = g
    · exact Or.inl heq
    by_cases hn : n ≤ g.val
    · exact Or.inr (Or.inl hn)
    -- the second group of the shorter ones is inside the first of the longer ones
    right
    right
    have hlt : g.val < n := Nat.lt_of_not_le hn
    have hgc : g.val < c.val :=
      Nat.lt_of_le_of_ne (Nat.le_of_dvd c.pos hg) fun hval => heq (Pow2.ext hval.symm)
    have hhead := hheads g.val hlt dvd_rfl
    rwa [h.multiple_iff hlt he, Nat.mod_eq_of_lt hgc] at hhead
  · rintro (rfl | hn | hmultiple) p hp hdvd
    · exact (h.divisibility p hp hdvd).mono he
    · have hzero : p = 0 := Nat.eq_zero_of_dvd_of_lt hdvd (Nat.lt_of_lt_of_le hp hn)
      subst hzero
      exact (h.divisibility 0 hp (Nat.dvd_zero _)).mono he
    · rw [h.multiple_iff hp he]
      obtain ⟨m, hm⟩ := (Nat.dvd_mod_iff hg).mpr hdvd
      rw [hm, Nat.cast_mul, ← mul_assoc, mul_comm]
      exact hmultiple.mul_left _

/-- A line that is described by entries is described by divisors of them exactly when
it keeps the heads. -/
theorem LineCorrect.divisors_iff {k' : Pow2} (h : LineCorrect step c d k f n)
    (hg : g.val ∣ c.val) (he : e.val ∣ d.val) (hk : k'.val ∣ k.val) :
    LineCorrect step g e k' f n ↔ KeepsHeads step c g e n := by
  rw [← h.heads_iff hg he]
  constructor
  · exact fun h' => h'.divisibility
  · exact fun hheads => ⟨h.contiguity.mono hg, hheads, h.constancy.mono hk⟩

end Line

section Tensors

variable {shape : Shape rank} {step : BitVec w} {x y : Tensor rank w} {lhs rhs : AxisInfo rank}

/-- In every dimension both operands keep the heads of the groups of the join. -/
def JoinKeepsHeads (shape : Shape rank) (step : BitVec w) (lhs rhs : AxisInfo rank) : Prop :=
  ∀ d, let groups := gcd (lhs.contiguity d) (rhs.contiguity d)
    let divisor := gcd (lhs.divisibility d) (rhs.divisibility d)
    KeepsHeads step (lhs.contiguity d) groups divisor (shape d).val ∧
      KeepsHeads step (rhs.contiguity d) groups divisor (shape d).val

instance : Decidable (JoinKeepsHeads shape step lhs rhs) := by
  unfold JoinKeepsHeads
  infer_instance

/-- An info that is not initialized takes the constant of the other. -/
def ConstantMeets (x : Tensor rank w) (rhs : AxisInfo rank) : Prop :=
  rank = 0 → ∀ c, rhs.constantValue = some c → ∀ i, x i = c.setWidth w

theorem join_constant (hrank : rank ≠ 0) {c : BitVec 64}
    (h : (lhs.join rhs).constantValue = some c) :
    lhs.constantValue = some c ∧ rhs.constantValue = some c := by
  rw [AxisInfo.join, if_neg hrank] at h
  dsimp only at h
  split_ifs at h with hboth
  exact ⟨h, hboth.2.2 ▸ h⟩

/-- Which operand is described does not matter: its entries are multiples of those of
the join. -/
theorem join_correct_operand {z : Tensor rank w} {info : AxisInfo rank} (hrank : rank ≠ 0)
    (hz : Correct shape step z info)
    (hc : ∀ d, (gcd (lhs.contiguity d) (rhs.contiguity d)).val ∣ (info.contiguity d).val)
    (hd : ∀ d, (gcd (lhs.divisibility d) (rhs.divisibility d)).val ∣ (info.divisibility d).val)
    (hk : ∀ d, (gcd (lhs.constancy d) (rhs.constancy d)).val ∣ (info.constancy d).val)
    (hconstant : ∀ c, (lhs.join rhs).constantValue = some c → info.constantValue = some c) :
    Correct shape step z (lhs.join rhs) ↔ ∀ d, KeepsHeads step (info.contiguity d)
      (gcd (lhs.contiguity d) (rhs.contiguity d)) (gcd (lhs.divisibility d) (rhs.divisibility d))
      (shape d).val := by
  have haxes : AxesCorrect shape step z (lhs.join rhs) ↔ ∀ d, KeepsHeads step (info.contiguity d)
      (gcd (lhs.contiguity d) (rhs.contiguity d)) (gcd (lhs.divisibility d) (rhs.divisibility d))
      (shape d).val := by
    rw [AxisInfo.join, if_neg hrank]
    constructor
    · intro h d
      have hzero := inBounds_zero shape
      exact ((hz.axes _ hzero d).divisors_iff (hc d) (hd d) (hk d)).mp (h _ hzero d)
    · intro h i hi d
      exact ((hz.axes i hi d).divisors_iff (hc d) (hd d) (hk d)).mpr (h d)
  rw [← haxes]
  constructor
  · exact fun h => h.axes
  · exact fun h => ⟨h, fun c hjoin => hz.constant c (hconstant c hjoin)⟩

/-- The join describes both tensors exactly when both keep the heads of its groups. -/
theorem join_correct_iff (hx : Correct shape step x lhs) (hy : Correct shape step y rhs) :
    Correct shape step x (lhs.join rhs) ∧ Correct shape step y (lhs.join rhs) ↔
      JoinKeepsHeads shape step lhs rhs ∧ ConstantMeets x rhs := by
  by_cases hrank : rank = 0
  · subst hrank
    have hjoin : lhs.join rhs = rhs := rfl
    rw [hjoin]
    constructor
    · rintro ⟨hxr, -⟩
      refine ⟨fun d => d.elim0, fun _ c hc i => ?_⟩
      exact hxr.constant c hc i fun d => d.elim0
    · rintro ⟨-, hmeets⟩
      exact ⟨⟨fun _ _ d => d.elim0, fun c hc i _ => hmeets rfl c hc i⟩, hy⟩
  · have hconstant : ConstantMeets x rhs := fun hzero => absurd hzero hrank
    rw [join_correct_operand hrank hx (fun _ => gcd_dvd_left _ _) (fun _ => gcd_dvd_left _ _)
        (fun _ => gcd_dvd_left _ _) (fun c hc => (join_constant hrank hc).1),
      join_correct_operand hrank hy (fun _ => gcd_dvd_right _ _) (fun _ => gcd_dvd_right _ _)
        (fun _ => gcd_dvd_right _ _) (fun c hc => (join_constant hrank hc).2), and_iff_left hconstant]
    exact forall_and.symm

def JoinsKeepHeads (shape : Shape rank) (step : BitVec w) : AxisInfo rank → List (AxisInfo rank) →
    Prop
  | _, [] => True
  | info, other :: infos =>
    JoinKeepsHeads shape step info other ∧ JoinsKeepHeads shape step (info.join other) infos

/-- What the lattice holds of a value describes it on whichever edge it came. -/
theorem joins_correct (hrank : rank ≠ 0) {info : AxisInfo rank}
    {edges : List (Tensor rank w × AxisInfo rank)}
    (hedges : ∀ edge ∈ edges, Correct shape step edge.1 edge.2)
    (hkeeps : JoinsKeepHeads shape step info (edges.map Prod.snd)) {seen : List (Tensor rank w)}
    (hseen : ∀ z ∈ seen, Correct shape step z info) :
    ∀ z ∈ seen ++ edges.map Prod.fst,
      Correct shape step z ((edges.map Prod.snd).foldl AxisInfo.join info) := by
  induction edges generalizing info seen with
  | nil => simpa using hseen
  | cons edge edges ih =>
    obtain ⟨hjoin, hrest⟩ := hkeeps
    have hedge := hedges edge List.mem_cons_self
    have hall : ∀ z ∈ seen ++ [edge.1], Correct shape step z (info.join edge.2) := by
      intro z hz
      rcases List.mem_append.mp hz with hz | hz
      · exact (join_correct_operand hrank (hseen z hz) (fun _ => gcd_dvd_left _ _)
          (fun _ => gcd_dvd_left _ _) (fun _ => gcd_dvd_left _ _)
          (fun c hc => (join_constant hrank hc).1)).mpr fun d => (hjoin d).1
      · rw [List.mem_singleton.mp hz]
        -- the edge's own tensor is described whatever came before it
        exact (join_correct_operand hrank hedge (fun _ => gcd_dvd_right _ _)
          (fun _ => gcd_dvd_right _ _) (fun _ => gcd_dvd_right _ _)
          (fun c hc => (join_constant hrank hc).2)).mpr fun d => (hjoin d).2
    have hrun := ih (fun e he => hedges e (List.mem_cons_of_mem _ he)) hrest hall
    rwa [List.append_assoc] at hrun

/-- Rows of `[8, ..., 15]`, `[16, ..., 23]` and `[24, ..., 31]`: the join of the three
describes the first one. -/
theorem joins_correct_rows :
    Correct (fun _ => .ofExponent 3) (1 : BitVec 32) (ofLine fun p => BitVec.ofNat 32 (8 + p))
      (((lineInfo 3 3 0 none).join (lineInfo 3 4 0 none)).join (lineInfo 3 3 0 none)) :=
  @joins_correct 1 32 (fun _ => .ofExponent 3) 1 (by decide) (lineInfo 3 3 0 none)
    [(ofLine fun p => BitVec.ofNat 32 (16 + p), lineInfo 3 4 0 none),
      (ofLine fun p => BitVec.ofNat 32 (24 + p), lineInfo 3 3 0 none)]
    (by
      refine List.forall_mem_cons.mpr ⟨?_, List.forall_mem_singleton.mpr ?_⟩
      all_goals
        dsimp only
        exact correct_ofLine (by decide))
    ⟨by decide +kernel, by decide +kernel, trivial⟩ [ofLine fun p => BitVec.ofNat 32 (8 + p)]
    (List.forall_mem_singleton.mpr (correct_ofLine (by decide))) _ List.mem_cons_self

/-- Equal rows of `[8, ..., 15]` and `[16, ..., 23]`. -/
theorem join_correct_rows :
    Correct (fun _ => .ofExponent 3) (1 : BitVec 32) (ofLine fun p => BitVec.ofNat 32 (8 + p))
        ((lineInfo 3 3 0 none).join (lineInfo 3 4 0 none)) ∧
      Correct (fun _ => .ofExponent 3) (1 : BitVec 32) (ofLine fun p => BitVec.ofNat 32 (16 + p))
        ((lineInfo 3 3 0 none).join (lineInfo 3 4 0 none)) :=
  (join_correct_iff (correct_ofLine (by decide)) (correct_ofLine (by decide))).mpr
    ⟨by decide +kernel, fun h => absurd h (by decide)⟩

/-- `[0, ..., 7]` and multiples of 8 without groups: element 1 of the first is a head of
the join and no multiple of 8. -/
theorem join_incorrect :
    Correct (fun _ => .ofExponent 3) (1 : BitVec 32) (ofLine fun p => BitVec.ofNat 32 p)
        (lineInfo 3 3 0 none) ∧
      Correct (fun _ => .ofExponent 3) (1 : BitVec 32)
        (ofLine fun p => BitVec.ofNat 32 (8 * (p % 2))) (lineInfo 0 3 0 none) ∧
      ¬ Correct (fun _ => .ofExponent 3) (1 : BitVec 32) (ofLine fun p => BitVec.ofNat 32 p)
        ((lineInfo 3 3 0 none).join (lineInfo 0 3 0 none)) := by
  refine ⟨correct_ofLine (by decide), correct_ofLine (by decide), fun h => ?_⟩
  have haxes := h.axes
  rw [axes_ofLine] at haxes
  revert haxes
  decide +kernel

end Tensors

section InductionVar

local instance neZero_scalarRank : NeZero 1 := ⟨Nat.one_ne_zero⟩

def inductionVarInfo (lb step : AxisInfo 1) : AxisInfo 1 where
  contiguity := fun _ => 1
  divisibility := fun _ => gcd (lb.divisibility 0) (step.divisibility 0)
  constancy := fun _ => 1
  constantValue := none

theorem correct_scalar_divisibility {v : BitVec w} {info : AxisInfo 1}
    (h : Correct (fun _ => 1) 1 (fun _ => v) info) : Multiple (info.divisibility 0) v :=
  (h.axes _ (inBounds_zero _) 0).divisibility 0 Nat.one_pos (Nat.dvd_zero _)

/-- The induction variable is described in every iteration. -/
theorem inductionVarInfo_correct {lb step : BitVec w} {lbInfo stepInfo : AxisInfo 1}
    (hlb : Correct (fun _ => 1) 1 (fun _ => lb) lbInfo)
    (hstep : Correct (fun _ => 1) 1 (fun _ => step) stepInfo) (iteration : BitVec w) :
    Correct (fun _ => 1) 1 (fun _ => lb + iteration * step) (inductionVarInfo lbInfo stepInfo) where
  axes := fun i _ d => by
    have hmultiple : Multiple (gcd (lbInfo.divisibility 0) (stepInfo.divisibility 0))
        (lb + iteration * step) :=
      ((correct_scalar_divisibility hlb).mono (gcd_dvd_left _ _)).add
        (((correct_scalar_divisibility hstep).mono (gcd_dvd_right _ _)).mul_left iteration)
    constructor
    · exact contiguous_one _ _ _
    · exact fun p _ _ => hmultiple
    · exact constant_one _ _
  constant := fun c hc => by cases hc

end InductionVar

end TritonCpu.AxisAnalysis
