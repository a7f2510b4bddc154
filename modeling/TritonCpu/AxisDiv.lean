import TritonCpu.AxisCorrect
import TritonCpu.WordDivision

/-!
# Quotients and remainders

A contiguous line divided by a constant one is cut into groups that divide
both. The unsigned quotient is constant on them and the unsigned remainder
contiguous. The signed ones are as well, but for the groups that start at a
negative multiple of the divisor. Off these groups the divisibility of a
remainder speaks of every element, and that of two known constants is the
divisor of a signed 64-bit result.
-/

set_option autoImplicit false

namespace TritonCpu.AxisAnalysis
open PowerOfTwo AlignedGroups WordDivision TritonIR

inductive DivRemOp where
  | divsi
  | divui
  | remsi
  | remui
  deriving DecidableEq, Repr

namespace DivRemOp

variable {rank w : ℕ}

def apply : DivRemOp → BitVec w → BitVec w → BitVec w
  | .divsi, x, y => x.sdiv y
  | .divui, x, y => x / y
  | .remsi, x, y => x.srem y
  | .remui, x, y => x % y

def getAxisInfo (op : DivRemOp) (resTy : Option (Shape rank)) (lhs rhs : AxisInfo rank) :
    Option (AxisInfo rank) :=
  match op with
  | .divsi | .divui => divAxisInfo resTy lhs rhs
  | .remsi | .remui => remAxisInfo resTy lhs rhs

def quotient : DivRemOp → BitVec w → BitVec w → BitVec w
  | .divsi, x, y | .remsi, x, y => x.sdiv y
  | .divui, x, y | .remui, x, y => x / y

def slope (op : DivRemOp) (w : ℕ) : BitVec w :=
  match op with
  | .divsi | .divui => 0
  | .remsi | .remui => 1

/-- The signed operation meets a negative multiple of the divisor. -/
def ExactNegative : DivRemOp → BitVec w → BitVec w → Prop
  | .divsi, x, y | .remsi, x, y => WordDivision.ExactNegative x y
  | .divui, _, _ | .remui, _, _ => False

/-- The result of two stored constants, as signed 64-bit numbers. -/
def storedResult : DivRemOp → BitVec 64 → BitVec 64 → ℤ
  | .divsi, l, r | .divui, l, r => l.toInt.tdiv r.toInt
  | .remsi, l, r | .remui, l, r => l.toInt.tmod r.toInt

end DivRemOp

section Groups

variable {w n : ℕ} {f h : ℕ → BitVec w}

theorem apply_add_offset_iff (op : DivRemOp) {g : Pow2} {x y : BitVec w} {o : ℕ}
    (hx : Multiple g x) (hy : Multiple g y) (hne : y ≠ 0) (ho : o < g.val) :
    op.apply (x + (o : BitVec w)) y = op.apply x y + op.slope w * (o : BitVec w) ↔
      o = 0 ∨ ¬ op.ExactNegative x y := by
  cases op with
  | divsi =>
    show (x + (o : BitVec w)).sdiv y = x.sdiv y + 0 * (o : BitVec w) ↔ _
    rw [zero_mul, add_zero]
    exact sdiv_add_offset_iff hx hy hne ho
  | divui =>
    apply iff_of_true
    · show (x + (o : BitVec w)) / y = x / y + 0 * (o : BitVec w)
      rw [zero_mul, add_zero]
      exact udiv_add_offset hx hy hne ho
    · exact Or.inr not_false
  | remsi =>
    show (x + (o : BitVec w)).srem y = x.srem y + 1 * (o : BitVec w) ↔ _
    rw [one_mul]
    exact srem_add_offset_iff hx hy hne ho
  | remui =>
    apply iff_of_true
    · show (x + (o : BitVec w)) % y = x % y + 1 * (o : BitVec w)
      rw [one_mul]
      exact umod_add_offset hx hy hne ho
    · exact Or.inr not_false

/-- On groups that divide both lines the result is regular exactly when no group
starts at a negative multiple of the divisor. -/
theorem contiguous_apply_iff (op : DivRemOp) {g : Pow2} (hn : g.val ∣ n)
    (hf : Contiguous g.val 1 f n) (hfd : Heads g.val (Multiple g) f n) (hh : Constant g.val h n)
    (hhd : Heads g.val (Multiple g) h n) (hne : ∀ p < n, h p ≠ 0) :
    Contiguous g.val (op.slope w) (fun p => op.apply (f p) (h p)) n ↔
      (1 < g.val → ∀ p < n, g.val ∣ p → ¬ op.ExactNegative (f p) (h p)) := by
  have hstep : ∀ p < n, ∀ q < n, g.val ∣ q → groupStart g.val p = q →
      (op.apply (f p) (h p) = op.apply (f q) (h q) + op.slope w * ((p % g.val : ℕ) : BitVec w) ↔
        p % g.val = 0 ∨ ¬ op.ExactNegative (f q) (h q)) := by
    intro p hp q hq hdvd hstart
    have hvalue := hf p hp
    rw [one_mul, hstart] at hvalue
    rw [hvalue, hh p hp, hstart]
    exact apply_add_offset_iff op (hfd q hq hdvd) (hhd q hq hdvd) (hne q hq)
      (Nat.mod_lt p g.pos)
  constructor
  · intro hc hg q hq hdvd
    -- the position after the head lies in the same group
    have hnext : q + 1 < n := by
      obtain ⟨m, rfl⟩ := hn
      obtain ⟨j, rfl⟩ := hdvd
      have hjm : g.val * (j + 1) ≤ g.val * m := Nat.mul_le_mul_left _ (Nat.lt_of_mul_lt_mul_left hq)
      rw [Nat.mul_add, Nat.mul_one] at hjm
      omega
    have hmod : (q + 1) % g.val = 1 := by
      obtain ⟨j, rfl⟩ := hdvd
      rw [Nat.mul_add_mod, Nat.mod_eq_of_lt hg]
    have hstart : groupStart g.val (q + 1) = q := by
      rw [groupStart, hmod, Nat.add_sub_cancel]
    have h1 := hc (q + 1) hnext
    rw [hstart] at h1
    have h2 := (hstep (q + 1) hnext q hq hdvd hstart).mp h1
    rw [hmod] at h2
    exact h2.resolve_left (by decide)
  · intro hcond p hp
    have hq : groupStart g.val p < n := Nat.lt_of_le_of_lt (groupStart_le g.val p) hp
    apply (hstep p hp _ hq (dvd_groupStart g.val p) rfl).mpr
    rcases Nat.lt_or_ge 1 g.val with hg | hg
    · exact Or.inr (hcond hg _ hq (dvd_groupStart g.val p))
    · have hone : g.val = 1 := by
        have := g.pos
        omega
      rw [hone]
      exact Or.inl (Nat.mod_one p)

end Groups

/-- The visitors take the dimension for a contiguous line over a constant one. -/
def onGroups {rank : ℕ} (resTy : Option (Shape rank)) (lhs rhs : AxisInfo rank) (d : Fin rank) :
    Bool :=
  match resTy with
  | none => false
  | some shape => isContiguousDim lhs shape d && isConstantDim rhs shape d

/-- No group that a quotient or a remainder is cut into starts at a negative
multiple of the divisor, as far as the visitors rely on it. Off these groups the
offsets of the operands leave a remainder that keeps the divisibility. -/
def DivRemOp.LineMeets {rank w : ℕ} (op : DivRemOp) (resTy : Option (Shape rank))
    (lhs rhs : AxisInfo rank) (d : Fin rank) (f h : ℕ → BitVec w) (n : ℕ) : Prop :=
  let noneExact := ∀ p < n, (groupLength lhs rhs d).val ∣ p → ¬ op.ExactNegative (f p) (h p)
  match op with
  | .divsi | .divui => onGroups resTy lhs rhs d = true →
      (gcd (lhs.constancy d) (rhs.constancy d)).val < (groupLength lhs rhs d).val → noneExact
  | .remsi | .remui =>
    if onGroups resTy lhs rhs d then 1 < (groupLength lhs rhs d).val → noneExact
    else ∀ p < n, Multiple (Pow2.gcd (lhs.divisibility d) (rhs.divisibility d))
      (((p % (lhs.contiguity d).val : ℕ) : BitVec w) -
        op.quotient (f p) (h p) * ((p % (rhs.contiguity d).val : ℕ) : BitVec w))

section IntLines

variable {rank w : ℕ} {lhs rhs : AxisInfo rank} {d : Fin rank} {f h : ℕ → BitVec w} {n : ℕ}

theorem contiguous_groups_iff (op : DivRemOp) (hf : IntLine lhs d f n) (hh : IntLine rhs d h n)
    (hc : (lhs.contiguity d).val = n) (hk : (rhs.constancy d).val = n) (hne : ∀ p < n, h p ≠ 0) :
    Contiguous (groupLength lhs rhs d).val (op.slope w) (fun p => op.apply (f p) (h p)) n ↔
      (1 < (groupLength lhs rhs d).val → ∀ p < n, (groupLength lhs rhs d).val ∣ p →
        ¬ op.ExactNegative (f p) (h p)) := by
  have hgc : (groupLength lhs rhs d).val ∣ (lhs.contiguity d).val := gcd_dvd_left _ _
  have hgl : (groupLength lhs rhs d).val ∣ (lhs.divisibility d).val :=
    (gcd_dvd_right _ _).trans (gcd_dvd_left _ _)
  have hgr : (groupLength lhs rhs d).val ∣ (rhs.divisibility d).val :=
    (gcd_dvd_right _ _).trans (gcd_dvd_right _ _)
  have hgn : (groupLength lhs rhs d).val ∣ n := by
    rwa [hc] at hgc
  apply contiguous_apply_iff op hgn (hf.contiguity.mono hgc)
  · intro p hp hdvd
    rw [hf.multiple_iff hp hgl, one_mul]
    exact multiple_natCast _ _ ((Nat.dvd_mod_iff hgc).mpr hdvd)
  · apply hh.constancy.mono
    rwa [hk]
  · intro p hp _
    have hzero : 0 < n := Nat.lt_of_le_of_lt (Nat.zero_le p) hp
    have hsame := hh.constancy p hp
    rw [hk, groupStart_of_lt hp] at hsame
    rw [hsame]
    exact (hh.divisibility 0 hzero (Nat.dvd_zero _)).mono hgr
  · exact hne

theorem onGroups_eq {resTy : Option (Shape rank)} {shape : Shape rank}
    (hres : ∀ s, resTy = some s → s = shape) (h : onGroups resTy lhs rhs d = true) :
    resTy = some shape ∧ lhs.contiguity d = shape d ∧ rhs.constancy d = shape d := by
  cases resTy with
  | none => cases h
  | some s =>
    cases hres s rfl
    rw [onGroups, Bool.and_eq_true, isContiguousDim, isConstantDim, decide_eq_true_eq,
      decide_eq_true_eq] at h
    exact ⟨rfl, h⟩

theorem getConstancy_div {resTy : Option (Shape rank)} (hon : onGroups resTy lhs rhs d = true) :
    (divVisitor resTy).getConstancy lhs rhs d =
      Pow2.max (gcd (lhs.constancy d) (rhs.constancy d)) (groupLength lhs rhs d) := by
  cases resTy with
  | none => cases hon
  | some s => exact if_pos hon

theorem getConstancy_div_off {resTy : Option (Shape rank)}
    (hoff : onGroups resTy lhs rhs d = false) :
    ((divVisitor resTy).getConstancy lhs rhs d).val ∣
      (gcd (lhs.constancy d) (rhs.constancy d)).val := by
  cases resTy with
  | none => exact Nat.one_dvd _
  | some s =>
    have hnot : ¬ (isContiguousDim lhs s d && isConstantDim rhs s d) = true := by
      rw [show (isContiguousDim lhs s d && isConstantDim rhs s d) = false from hoff]
      exact Bool.false_ne_true
    show (if (isContiguousDim lhs s d && isConstantDim rhs s d) = true then _ else _ : Pow2).val ∣ _
    rw [if_neg hnot]

theorem constant_iff_contiguous (c : ℕ) : Constant c f n ↔ Contiguous c 0 f n := by
  unfold Constant Contiguous
  simp only [zero_mul, add_zero]

theorem constant_div_iff {op : DivRemOp} (hop : op = .divsi ∨ op = .divui)
    {resTy : Option (Shape rank)} {shape : Shape rank} (hres : ∀ s, resTy = some s → s = shape)
    (hf : IntLine lhs d f (shape d).val) (hh : IntLine rhs d h (shape d).val)
    (hne : ∀ p < (shape d).val, h p ≠ 0) :
    Constant ((divVisitor resTy).getConstancy lhs rhs d).val (fun p => op.apply (f p) (h p))
        (shape d).val ↔ op.LineMeets resTy lhs rhs d f h (shape d).val := by
  have hbase := constancy_gcd op.apply hf hh
  have hmeets : op.LineMeets resTy lhs rhs d f h (shape d).val ↔ (onGroups resTy lhs rhs d = true →
      (gcd (lhs.constancy d) (rhs.constancy d)).val < (groupLength lhs rhs d).val →
        ∀ p < (shape d).val, (groupLength lhs rhs d).val ∣ p → ¬ op.ExactNegative (f p) (h p)) := by
    rcases hop with rfl | rfl <;> exact Iff.rfl
  have hslope : op.slope w = 0 := by rcases hop with rfl | rfl <;> rfl
  rw [hmeets]
  cases hon : onGroups resTy lhs rhs d with
  | false =>
    apply iff_of_true (hbase.mono (getConstancy_div_off hon))
    intro h
    cases h
  | true =>
    obtain ⟨-, hc, hk⟩ := onGroups_eq hres hon
    rw [getConstancy_div hon]
    by_cases hlt : (gcd (lhs.constancy d) (rhs.constancy d)).val < (groupLength lhs rhs d).val
    · have hone : 1 < (groupLength lhs rhs d).val :=
        Nat.lt_of_le_of_lt (gcd (lhs.constancy d) (rhs.constancy d)).pos hlt
      rw [Pow2.max, if_pos (Nat.le_of_lt hlt), constant_iff_contiguous, ← hslope,
        contiguous_groups_iff op hf hh (by rw [hc]) (by rw [hk]) hne]
      exact ⟨fun h _ _ => h hone, fun h _ => h rfl hlt⟩
    · have hle : (Pow2.max (gcd (lhs.constancy d) (rhs.constancy d)) (groupLength lhs rhs d)).val ∣
          (gcd (lhs.constancy d) (rhs.constancy d)).val := by
        rw [Pow2.dvd_iff_le]
        unfold Pow2.max
        split_ifs
        · exact Nat.le_of_not_lt hlt
        · exact Nat.le_refl _
      exact iff_of_true (hbase.mono hle) (fun _ h => absurd h hlt)

theorem apply_one (op : DivRemOp) (hop : op = .divsi ∨ op = .divui) (x : BitVec w) :
    op.apply x 1 = x := by
  rcases hop with rfl | rfl
  · exact BitVec.sdiv_one
  · exact BitVec.udiv_one

theorem apply_zero (op : DivRemOp) (hop : op = .divsi ∨ op = .divui) (y : BitVec w) :
    op.apply 0 y = 0 := by
  rcases hop with rfl | rfl
  · exact BitVec.zero_sdiv
  · exact BitVec.zero_udiv

theorem line_div_iff {op : DivRemOp} (hop : op = .divsi ∨ op = .divui)
    {resTy : Option (Shape rank)} {shape : Shape rank} (hres : ∀ s, resTy = some s → s = shape)
    (hf : IntLine lhs d f (shape d).val) (hh : IntLine rhs d h (shape d).val)
    (hne : ∀ p < (shape d).val, h p ≠ 0)
    (hl : isKnown lhs 0 = true → ∀ p < (shape d).val, f p = 0)
    (hr : isKnown rhs 1 = true → ∀ p < (shape d).val, h p = 1) :
    LineCorrect 1 ((divVisitor resTy).getContiguity lhs rhs d)
        ((divVisitor resTy).getDivisibility lhs rhs d) ((divVisitor resTy).getConstancy lhs rhs d)
        (fun p => op.apply (f p) (h p)) (shape d).val ↔
      op.LineMeets resTy lhs rhs d f h (shape d).val := by
  rw [← constant_div_iff hop hres hf hh hne]
  constructor
  · exact fun hcorrect => hcorrect.constancy
  · intro hconst
    constructor
    · show Contiguous (if isKnown rhs 1 then lhs.contiguity d else 1).val 1 _ _
      split_ifs with hr1
      · apply hf.contiguity.congr
        intro p hp
        rw [hr hr1 p hp, apply_one op hop]
      · exact contiguous_one _ _ _
    · intro p hp hdvd
      show Multiple (if isKnown lhs 0 then lhs.divisibility d
        else if isKnown rhs 1 then lhs.divisibility d else 1) (op.apply (f p) (h p))
      change (if isKnown rhs 1 then lhs.contiguity d else 1).val ∣ p at hdvd
      split_ifs with hl0 hr1
      · rw [hl hl0 p hp, apply_zero op hop]
        exact multiple_zero _
      · rw [if_pos hr1] at hdvd
        rw [hr hr1 p hp, apply_one op hop]
        exact hf.divisibility p hp hdvd
      · exact multiple_one _
    · exact hconst

theorem rem_eq_sub {op : DivRemOp} (hop : op = .remsi ∨ op = .remui) (x y : BitVec w) :
    op.apply x y = x - op.quotient x y * y := by
  rcases hop with rfl | rfl
  · exact srem_eq_sub x y
  · exact umod_eq_sub x y

theorem gcd_dvd_head {a e : Pow2} {p : ℕ} (hp : p < a.val) (h : (gcd a e).val ∣ p) : e.val ∣ p := by
  rcases Nat.le_total e.val a.val with hle | hle
  · have hgcd : (gcd a e).val = e.val := by
      show gcdImpl a.val e.val = e.val
      rw [gcdImpl_eq]
      exact Nat.gcd_eq_right ((Pow2.dvd_iff_le e a).mpr hle)
    rwa [hgcd] at h
  · have hgcd : (gcd a e).val = a.val := by
      show gcdImpl a.val e.val = a.val
      rw [gcdImpl_eq]
      exact Nat.gcd_eq_left ((Pow2.dvd_iff_le a e).mpr hle)
    rw [hgcd] at h
    rw [Nat.eq_zero_of_dvd_of_lt h hp]
    exact Nat.dvd_zero _

theorem multiple_rem_iff {op : DivRemOp} (hop : op = .remsi ∨ op = .remui) {e : Pow2}
    (hf : IntLine lhs d f n) (hh : IntLine rhs d h n) (hel : e.val ∣ (lhs.divisibility d).val)
    (her : e.val ∣ (rhs.divisibility d).val) {p : ℕ} (hp : p < n) :
    Multiple e (op.apply (f p) (h p)) ↔ Multiple e (((p % (lhs.contiguity d).val : ℕ) : BitVec w) -
      op.quotient (f p) (h p) * ((p % (rhs.contiguity d).val : ℕ) : BitVec w)) := by
  have hrem := rem_eq_sub hop (f p) (h p)
  have hx : Multiple e (f (groupStart (lhs.contiguity d).val p)) := (hf.head hp).mono hel
  have hy : Multiple e (h (groupStart (rhs.contiguity d).val p)) := (hh.head hp).mono her
  generalize op.quotient (f p) (h p) = q at hrem ⊢
  have hsum : op.apply (f p) (h p) = (f (groupStart (lhs.contiguity d).val p) -
      q * h (groupStart (rhs.contiguity d).val p)) +
        (((p % (lhs.contiguity d).val : ℕ) : BitVec w) -
          q * ((p % (rhs.contiguity d).val : ℕ) : BitVec w)) := by
    rw [hrem, hf.value hp, hh.value hp]
    ring
  rw [hsum, multiple_add_iff ((multiple_sub_iff hx).mpr (hy.mul_left q))]

theorem line_rem_iff {op : DivRemOp} (hop : op = .remsi ∨ op = .remui)
    {resTy : Option (Shape rank)} {shape : Shape rank} (hres : ∀ s, resTy = some s → s = shape)
    (hf : IntLine lhs d f (shape d).val) (hh : IntLine rhs d h (shape d).val)
    (hne : ∀ p < (shape d).val, h p ≠ 0) (hr : isKnown rhs 1 = false) :
    LineCorrect 1 ((remVisitor resTy).getContiguity lhs rhs d)
        ((remVisitor resTy).getDivisibility lhs rhs d) ((remVisitor resTy).getConstancy lhs rhs d)
        (fun p => op.apply (f p) (h p)) (shape d).val ↔
      op.LineMeets resTy lhs rhs d f h (shape d).val := by
  have hslope : op.slope w = 1 := by rcases hop with rfl | rfl <;> rfl
  have hmeets : op.LineMeets resTy lhs rhs d f h (shape d).val ↔ if onGroups resTy lhs rhs d then
      1 < (groupLength lhs rhs d).val → ∀ p < (shape d).val, (groupLength lhs rhs d).val ∣ p →
        ¬ op.ExactNegative (f p) (h p)
      else ∀ p < (shape d).val, Multiple (Pow2.gcd (lhs.divisibility d) (rhs.divisibility d))
        (((p % (lhs.contiguity d).val : ℕ) : BitVec w) -
          op.quotient (f p) (h p) * ((p % (rhs.contiguity d).val : ℕ) : BitVec w)) := by
    rcases hop with rfl | rfl <;> exact Iff.rfl
  have hdivisor : (remVisitor resTy).getDivisibility lhs rhs d =
      Pow2.gcd (lhs.divisibility d) (rhs.divisibility d) := Pow2.ext (gcdImpl_eq _ _)
  have hconst : Constant ((remVisitor resTy).getConstancy lhs rhs d).val
      (fun p => op.apply (f p) (h p)) (shape d).val := by
    cases resTy with
    | none => exact constant_one _ _
    | some s =>
      show Constant (if isKnown rhs 1 = true then s d
        else gcd (lhs.constancy d) (rhs.constancy d)).val _ _
      rw [hr, if_neg Bool.false_ne_true]
      exact constancy_gcd op.apply hf hh
  rw [hmeets]
  cases hon : onGroups resTy lhs rhs d with
  | false =>
    have hcontiguity : (remVisitor resTy).getContiguity lhs rhs d = 1 := by
      cases resTy with
      | none => rfl
      | some s =>
        show (if onGroups (some s) lhs rhs d = true then _ else _) = _
        rw [hon, if_neg Bool.false_ne_true]
    rw [if_neg Bool.false_ne_true, hcontiguity, hdivisor]
    have hiff := fun p hp => multiple_rem_iff (p := p) hop hf hh (Pow2.gcd_dvd_left _ _)
      (Pow2.gcd_dvd_right _ _) hp
    constructor
    · exact fun hcorrect p hp => (hiff p hp).mp (hcorrect.divisibility p hp (Nat.one_dvd p))
    · exact fun hm => ⟨contiguous_one _ _ _, fun p hp _ => (hiff p hp).mpr (hm p hp), hconst⟩
  | true =>
    obtain ⟨hs, hc, hk⟩ := onGroups_eq hres hon
    have hcontiguity : (remVisitor resTy).getContiguity lhs rhs d = groupLength lhs rhs d := by
      subst hs
      show (if onGroups (some shape) lhs rhs d = true then _ else _) = _
      rw [if_pos hon]
      exact Pow2.max_one_left _
    have hiff := contiguous_groups_iff op hf hh (by rw [hc]) (by rw [hk]) hne
    rw [hslope] at hiff
    rw [if_pos rfl, ← hiff, hcontiguity, hdivisor]
    constructor
    · exact fun hcorrect => hcorrect.contiguity
    · intro hcontiguous
      refine ⟨hcontiguous, ?_, hconst⟩
      intro p hp hdvd
      have hdvd : (gcd (lhs.divisibility d) (rhs.divisibility d)).val ∣ p := by
        rw [groupLength, hc] at hdvd
        exact gcd_dvd_head hp hdvd
      have hx : Multiple (gcd (lhs.divisibility d) (rhs.divisibility d)) (f p) := by
        rw [hf.multiple_iff hp (gcd_dvd_left _ _), one_mul, hc, Nat.mod_eq_of_lt hp]
        exact multiple_natCast _ _ hdvd
      have hsame := hh.constancy p hp
      rw [hk, groupStart_of_lt hp] at hsame
      have hy : Multiple (gcd (lhs.divisibility d) (rhs.divisibility d)) (h p) := by
        rw [hsame]
        exact (hh.divisibility 0 (shape d).pos (Nat.dvd_zero _)).mono (gcd_dvd_right _ _)
      rw [← hdivisor]
      show Multiple (gcd (lhs.divisibility d) (rhs.divisibility d)) (op.apply (f p) (h p))
      rw [rem_eq_sub hop, multiple_sub_iff hx]
      exact hy.mul_left _

end IntLines

section Constants

variable {w : ℕ}

theorem multiple_highestPowOf2Divisor_iff (v : BitVec 64) (x : BitVec w) :
    Multiple (highestPowOf2Divisor v) x ↔
      ∀ k ≤ 62, Multiple (.ofExponent k) v → Multiple (.ofExponent k) x := by
  obtain ⟨j, hj, hj62, hv, hmax⟩ : ∃ j, highestPowOf2Divisor v = .ofExponent j ∧ j ≤ 62 ∧
      Multiple (.ofExponent j) v ∧ ∀ k ≤ 62, Multiple (.ofExponent k) v → k ≤ j := by
    by_cases h : v = 0 ∨ v = intMin
    · refine ⟨62, ?_, Nat.le_refl _, ?_, fun k hk _ => hk⟩
      · rw [highestPowOf2Divisor, dif_pos h]
        rfl
      · rcases h with rfl | rfl
        · exact multiple_zero _
        · decide
    · obtain ⟨j, hj, hdvd⟩ := lowestSetBit_eq (fun h0 => h (Or.inl h0))
      have hbit : v.getLsbD j = true := by
        have hset : (lowestSetBit v).getLsbD j = true := by
          rw [← BitVec.testBit_toNat, hj, Nat.testBit_two_pow_self]
        rw [getLsbD_lowestSetBit, Bool.and_eq_true] at hset
        exact hset.1
      have hj64 : j < 64 := BitVec.lt_of_getLsbD hbit
      refine ⟨j, ?_, ?_, hdvd, ?_⟩
      · rw [highestPowOf2Divisor, dif_neg h]
        exact Pow2.ext hj
      · by_contra hgt
        have h63 : j = 63 := by omega
        subst h63
        apply h
        obtain ⟨m, hm⟩ := hdvd
        have hlt := v.isLt
        have hne : v.toNat ≠ 0 := fun h0 => h (Or.inl (BitVec.eq_of_toNat_eq (by simpa using h0)))
        have hmin : intMin.toNat = 2 ^ 63 := by decide
        exact Or.inr (BitVec.eq_of_toNat_eq (by omega))
      · intro k _ hk
        by_contra hjk
        rw [(multiple_ofExponent_iff k v).mp hk j (by omega)] at hbit
        cases hbit
  rw [hj]
  constructor
  · intro hx k hk hvk
    exact hx.mono (Nat.pow_dvd_pow 2 (hmax k hk hvk))
  · exact fun h => h j hj62 hv

theorem multiple_storedResult_iff (op : DivRemOp) (l r : BitVec 64) {k : ℕ} (hk : k ≤ 62) :
    Multiple (.ofExponent k) (match op with
      | .divsi | .divui => l.sdiv r
      | .remsi | .remui => l.srem r) ↔ (2 ^ k : ℤ) ∣ op.storedResult l r := by
  have hk64 : k ≤ 64 := Nat.le_trans hk (by decide)
  cases op with
  | divsi | divui =>
    show Multiple _ (l.sdiv r) ↔ _
    rw [sdiv_eq_intCast, multiple_intCast_iff hk64]
    rfl
  | remsi | remui =>
    show Multiple _ (l.srem r) ↔ _
    rw [srem_eq_intCast, multiple_intCast_iff hk64]
    rfl

end Constants

namespace DivRemOp

variable {rank w : ℕ}

/-- The powers of two that divide the signed result of the stored constants
divide the result of the operation. -/
def ConstantsMeet (op : DivRemOp) (w : ℕ) (l r : BitVec 64) : Prop :=
  ∀ k ≤ 62, (2 ^ k : ℤ) ∣ op.storedResult l r →
    Multiple (.ofExponent k) (op.apply (l.setWidth w) (r.setWidth w))

def Meets (op : DivRemOp) (resTy : Option (Shape rank)) (shape : Shape rank) (x y : Tensor rank w)
    (lhs rhs : AxisInfo rank) : Prop :=
  match lhs.constantValue, rhs.constantValue with
  | some l, some r => divisionDefined lhs rhs = true ∧ (0 < rank → op.ConstantsMeet w l r)
  | _, _ => ((op = .remsi ∨ op = .remui) ∧ isKnown rhs 1 = true) ∨ ∀ i, InBounds shape i → ∀ d,
      op.LineMeets resTy lhs rhs d (line x i d) (line y i d) (shape d).val

end DivRemOp

section Tensors

variable {rank w : ℕ} {shape : Shape rank} {x y z : Tensor rank w} {lhs rhs : AxisInfo rank}

theorem axes_known_iff {visitor : BinaryOpVisitorImpl rank} {v : BitVec 64} {a : BitVec w}
    (h : visitor.getConstantValue lhs rhs = some v) (hz : ∀ i, InBounds shape i → z i = a) :
    AxesCorrect shape 1 z (visitor.getAxisInfo lhs rhs) ↔
      (0 < rank → Multiple (highestPowOf2Divisor v) a) := by
  rw [getAxisInfo_known h]
  constructor
  · intro hcorrect hrank
    have hline := hcorrect _ (inBounds_zero shape) ⟨0, hrank⟩
    have hhead := hline.divisibility 0 (shape ⟨0, hrank⟩).pos (Nat.dvd_zero _)
    change Multiple (highestPowOf2Divisor v) (z _) at hhead
    rwa [hz _ (inBounds_update (inBounds_zero shape) (shape ⟨0, hrank⟩).pos)] at hhead
  · intro hm i hi d
    exact lineCorrect_equal (fun p hp => hz _ (inBounds_update hi hp))
      (hm (Nat.lt_of_le_of_lt (Nat.zero_le d.val) d.isLt))

theorem axes_constants_iff (op : DivRemOp) {resTy : Option (Shape rank)}
    {l r : BitVec 64} (hx : Correct shape 1 x lhs) (hy : Correct shape 1 y rhs)
    (hl : lhs.constantValue = some l) (hr : rhs.constantValue = some r) :
    (∃ info, op.getAxisInfo resTy lhs rhs = some info ∧
        AxesCorrect shape 1 (fun i => op.apply (x i) (y i)) info) ↔
      divisionDefined lhs rhs = true ∧ (0 < rank → op.ConstantsMeet w l r) := by
  have hz : ∀ i, InBounds shape i → op.apply (x i) (y i) = op.apply (l.setWidth w) (r.setWidth w) :=
    fun i hi => by rw [hx.constant l hl i hi, hy.constant r hr i hi]
  have hmeets : ∀ v, (∀ k ≤ 62, Multiple (.ofExponent k) v ↔ (2 ^ k : ℤ) ∣ op.storedResult l r) →
      (Multiple (highestPowOf2Divisor v) (op.apply (l.setWidth w) (r.setWidth w)) ↔
        op.ConstantsMeet w l r) := by
    intro v hv
    rw [multiple_highestPowOf2Divisor_iff]
    exact forall_congr' fun k => forall_congr' fun hk => by rw [hv k hk]
  have hshape : ∀ (visitor : BinaryOpVisitorImpl rank) (v : BitVec 64),
      visitor.getConstantValue lhs rhs = some v →
      (∀ k ≤ 62, Multiple (.ofExponent k) v ↔ (2 ^ k : ℤ) ∣ op.storedResult l r) →
      ((∃ info, (if divisionDefined lhs rhs = true then some (visitor.getAxisInfo lhs rhs) else none) =
          some info ∧ AxesCorrect shape 1 (fun i => op.apply (x i) (y i)) info) ↔
        divisionDefined lhs rhs = true ∧ (0 < rank → op.ConstantsMeet w l r)) := by
    intro visitor v hvisitor hv
    rw [← hmeets v hv, ← axes_known_iff hvisitor hz]
    constructor
    · rintro ⟨info, hsome, hcorrect⟩
      split_ifs at hsome with hdef
      cases hsome
      exact ⟨hdef, hcorrect⟩
    · rintro ⟨hdef, hcorrect⟩
      rw [if_pos hdef]
      exact ⟨_, rfl, hcorrect⟩
  have hstored := fun k => multiple_storedResult_iff op l r (k := k)
  have hdiv : (divVisitor resTy).getConstantValue lhs rhs = some (l.sdiv r) :=
    foldConstants_of_some hl hr
  have hrem : (remVisitor resTy).getConstantValue lhs rhs = some (l.srem r) := by
    simp [remVisitor, hl, hr]
  cases op with
  | divsi => exact hshape _ _ hdiv hstored
  | divui => exact hshape _ _ hdiv hstored
  | remsi => exact hshape _ _ hrem hstored
  | remui => exact hshape _ _ hrem hstored

theorem axes_rem_one {op : DivRemOp} (hop : op = .remsi ∨ op = .remui) (hw : w ≤ 64)
    {resTy : Option (Shape rank)} (hy : Correct shape 1 y rhs) (hl : lhs.constantValue = none)
    (hr : isKnown rhs 1 = true) :
    AxesCorrect shape 1 (fun i => op.apply (x i) (y i)) ((remVisitor resTy).getAxisInfo lhs rhs) := by
  have hzero : (remVisitor resTy).getConstantValue lhs rhs = some 0 := by
    simp only [remVisitor, hl, hr, if_pos]
  apply axes_known hzero
  intro i hi
  have hone : (1 : BitVec 64).setWidth w = 1#w := BitVec.setWidth_ofNat_of_le hw 1
  have hnone : (0 : BitVec 64).setWidth w = 0#w := BitVec.setWidth_ofNat_of_le hw 0
  rw [hy.constant 1 (isKnown_iff.mp hr) i hi, hone, hnone]
  rcases hop with rfl | rfl
  · exact BitVec.srem_one
  · exact BitVec.umod_one

theorem line_known (hw : w ≤ 64) (hz : Correct shape 1 z lhs) {m : ℕ}
    (hm : isKnown lhs (BitVec.ofNat 64 m) = true) {i : Fin rank → ℕ} (hi : InBounds shape i)
    (d : Fin rank) : ∀ p < (shape d).val, line z i d p = BitVec.ofNat w m := by
  intro p hp
  rw [hz.line_constant (isKnown_iff.mp hm) hi d p hp]
  exact BitVec.setWidth_ofNat_of_le hw m

theorem axes_div_iff {op : DivRemOp} (hop : op = .divsi ∨ op = .divui) (hw : w ≤ 64)
    {resTy : Option (Shape rank)} (hres : ∀ s, resTy = some s → s = shape)
    (hx : Correct shape 1 x lhs) (hy : Correct shape 1 y rhs)
    (hnz : ∀ i, InBounds shape i → y i ≠ 0)
    (hunknown : lhs.constantValue = none ∨ rhs.constantValue = none) :
    AxesCorrect shape 1 (fun i => op.apply (x i) (y i)) ((divVisitor resTy).getAxisInfo lhs rhs) ↔
      ∀ i, InBounds shape i → ∀ d,
        op.LineMeets resTy lhs rhs d (line x i d) (line y i d) (shape d).val := by
  have hnone : (divVisitor resTy).getConstantValue lhs rhs = none := by
    show foldConstants BitVec.sdiv lhs rhs = none
    rcases hunknown with h | h <;> simp [foldConstants, h]
  rw [getAxisInfo_unknown hnone]
  refine forall_congr' fun i => forall_congr' fun hi => forall_congr' fun d => ?_
  exact line_div_iff hop hres (hx.axes i hi d) (hy.axes i hi d)
    (fun p hp => hnz _ (inBounds_update hi hp)) (fun hl => line_known hw hx hl hi d)
    (fun hr => line_known hw hy hr hi d)

theorem axes_rem_iff {op : DivRemOp} (hop : op = .remsi ∨ op = .remui)
    {resTy : Option (Shape rank)} (hres : ∀ s, resTy = some s → s = shape)
    (hx : Correct shape 1 x lhs) (hy : Correct shape 1 y rhs)
    (hnz : ∀ i, InBounds shape i → y i ≠ 0)
    (hunknown : lhs.constantValue = none ∨ rhs.constantValue = none)
    (hr : isKnown rhs 1 = false) :
    AxesCorrect shape 1 (fun i => op.apply (x i) (y i)) ((remVisitor resTy).getAxisInfo lhs rhs) ↔
      ∀ i, InBounds shape i → ∀ d,
        op.LineMeets resTy lhs rhs d (line x i d) (line y i d) (shape d).val := by
  have hnone : (remVisitor resTy).getConstantValue lhs rhs = none := by
    have hfalse : ¬ isKnown rhs 1 = true := by
      rw [hr]
      exact Bool.false_ne_true
    rcases hunknown with h | h
    · simp only [remVisitor, h, if_neg hfalse]
    · cases hl : lhs.constantValue <;> simp only [remVisitor, hl, h, if_neg hfalse]
  rw [getAxisInfo_unknown hnone]
  refine forall_congr' fun i => forall_congr' fun hi => forall_congr' fun d => ?_
  exact line_rem_iff hop hres (hx.axes i hi d) (hy.axes i hi d)
    (fun p hp => hnz _ (inBounds_update hi hp)) hr

theorem divisionDefined_unknown (h : lhs.constantValue = none ∨ rhs.constantValue = none) :
    divisionDefined lhs rhs = true := by
  rcases h with h | h
  · simp [divisionDefined, h]
  · cases hl : lhs.constantValue <;> simp [divisionDefined, hl, h]

theorem meets_unknown (op : DivRemOp) (resTy : Option (Shape rank))
    (h : lhs.constantValue = none ∨ rhs.constantValue = none) :
    op.Meets resTy shape x y lhs rhs ↔
      ((op = .remsi ∨ op = .remui) ∧ isKnown rhs 1 = true) ∨ ∀ i, InBounds shape i → ∀ d,
        op.LineMeets resTy lhs rhs d (line x i d) (line y i d) (shape d).val := by
  unfold DivRemOp.Meets
  rcases h with h | h
  · rw [h]
  · cases hl : lhs.constantValue <;> rw [h]

end Tensors

/-- The visitors of quotients and remainders are right exactly when, for unknown
operands, no group that they rely on starts at a negative multiple of a signed
divisor and the offsets of a remainder keep its divisibility, and, for known
ones, the host division is defined and its divisor is one of the result. -/
theorem divRem_correct_iff {rank w : ℕ} (hw : w ≤ 64) (op : DivRemOp)
    (resTy : Option (Shape rank)) (shape : Shape rank) (hres : ∀ s, resTy = some s → s = shape)
    (x y : Tensor rank w) (lhs rhs : AxisInfo rank) (hx : Correct shape 1 x lhs)
    (hy : Correct shape 1 y rhs) (hnz : ∀ i, InBounds shape i → y i ≠ 0) :
    (∃ info, op.getAxisInfo resTy lhs rhs = some info ∧
        AxesCorrect shape 1 (fun i => op.apply (x i) (y i)) info) ↔
      op.Meets resTy shape x y lhs rhs := by
  by_cases hknown : ∃ l r, lhs.constantValue = some l ∧ rhs.constantValue = some r
  · obtain ⟨l, r, hl, hr⟩ := hknown
    rw [axes_constants_iff op hx hy hl hr, DivRemOp.Meets, hl, hr]
  · have hunknown : lhs.constantValue = none ∨ rhs.constantValue = none := by
      cases hl : lhs.constantValue with
      | none => exact Or.inl rfl
      | some l =>
        cases hr : rhs.constantValue with
        | none => exact Or.inr rfl
        | some r => exact absurd ⟨l, r, hl, hr⟩ hknown
    have hdiv : op = .divsi ∨ op = .divui → ((∃ info, divAxisInfo resTy lhs rhs = some info ∧
        AxesCorrect shape 1 (fun i => op.apply (x i) (y i)) info) ↔
          op.Meets resTy shape x y lhs rhs) := by
      intro hop
      have hrem : ¬ ((op = .remsi ∨ op = .remui) ∧ isKnown rhs 1 = true) := by
        rintro ⟨h, -⟩
        rcases hop with rfl | rfl <;> simp at h
      rw [meets_unknown op resTy hunknown, or_iff_right hrem,
        ← axes_div_iff hop hw hres hx hy hnz hunknown, divAxisInfo,
        if_pos (divisionDefined_unknown hunknown)]
      simp
    have hrem : op = .remsi ∨ op = .remui → ((∃ info, remAxisInfo resTy lhs rhs = some info ∧
        AxesCorrect shape 1 (fun i => op.apply (x i) (y i)) info) ↔
          op.Meets resTy shape x y lhs rhs) := by
      intro hop
      rw [meets_unknown op resTy hunknown, remAxisInfo,
        if_pos (divisionDefined_unknown hunknown)]
      cases hr : isKnown rhs 1 with
      | true =>
        have hl : lhs.constantValue = none := by
          apply hunknown.resolve_right
          rw [isKnown_iff.mp hr]
          simp
        exact iff_of_true ⟨_, rfl, axes_rem_one hop hw hy hl hr⟩ (Or.inl ⟨hop, rfl⟩)
      | false =>
        rw [or_iff_right (fun h => Bool.false_ne_true h.2),
          ← axes_rem_iff hop hres hx hy hnz hunknown hr]
        simp
    cases op with
    | divsi => exact hdiv (Or.inl rfl)
    | divui => exact hdiv (Or.inr rfl)
    | remsi => exact hrem (Or.inl rfl)
    | remui => exact hrem (Or.inr rfl)

/-- `[8, ..., 15]` divided by 4. -/
theorem divRem_correct_iff_groups :
    ∃ info, DivRemOp.divsi.getAxisInfo (some fun _ => .ofExponent 3) (lineInfo 3 3 0 none)
        (lineInfo 0 2 3 none) = some info ∧
      AxesCorrect (fun _ => .ofExponent 3) (1 : BitVec 32)
        (fun i => DivRemOp.divsi.apply (ofLine (fun p => BitVec.ofNat 32 (8 + p)) i)
          (ofLine (fun _ => (4 : BitVec 32)) i)) info :=
  (divRem_correct_iff (by decide) .divsi _ _ (fun _ h => (Option.some.inj h).symm) _ _ _ _
    (correct_ofLine (by decide)) (correct_ofLine (by decide)) (fun _ _ => by
      show (4 : BitVec 32) ≠ 0
      decide)).mpr (Or.inr fun i _ d _ _ => by
      rw [line_ofLine, line_ofLine, Subsingleton.elim d 0]
      show ∀ p < 8, _ → ¬ WordDivision.ExactNegative _ _
      decide +kernel)

/-- `[-4, ..., 3]` divided by 4: -4 is a multiple of 4, and the quotients of its
group are -1, 0, 0, 0 and the remainders 0, -3, -2, -1. `[0, ..., 7]` modulo 8 or
16, not constant: 1 is no multiple of 8. The constants -16 and 5, stored
zero-extended: 858993456 is a multiple of 16, and -3 is not. -/
theorem divRem_incorrect :
    (Correct (fun _ => .ofExponent 3) (1 : BitVec 32) (ofLine fun p => BitVec.ofInt 32 (p - 4))
        (lineInfo 3 2 0 none) ∧
      Correct (fun _ => .ofExponent 3) (1 : BitVec 32) (ofLine fun _ => 4) (lineInfo 0 2 3 none) ∧
      (∀ info, DivRemOp.divsi.getAxisInfo (some fun _ => .ofExponent 3) (lineInfo 3 2 0 none)
          (lineInfo 0 2 3 none) = some info →
        ¬ AxesCorrect (fun _ => .ofExponent 3) (1 : BitVec 32)
          (ofLine fun p => (BitVec.ofInt 32 (p - 4)).sdiv 4) info) ∧
      ∀ info, DivRemOp.remsi.getAxisInfo (some fun _ => .ofExponent 3) (lineInfo 3 2 0 none)
          (lineInfo 0 2 3 none) = some info →
        ¬ AxesCorrect (fun _ => .ofExponent 3) (1 : BitVec 32)
          (ofLine fun p => (BitVec.ofInt 32 (p - 4)).srem 4) info) ∧
    (Correct (fun _ => .ofExponent 3) (1 : BitVec 32) (ofLine fun p => BitVec.ofNat 32 p)
        (lineInfo 3 3 0 none) ∧
      Correct (fun _ => .ofExponent 3) (1 : BitVec 32)
        (ofLine fun p => BitVec.ofNat 32 (8 * (1 + p % 2))) (lineInfo 0 3 0 none) ∧
      ∀ info, DivRemOp.remui.getAxisInfo (some fun _ => .ofExponent 3) (lineInfo 3 3 0 none)
          (lineInfo 0 3 0 none) = some info →
        ¬ AxesCorrect (fun _ => .ofExponent 3) (1 : BitVec 32)
          (ofLine fun p => BitVec.ofNat 32 p % BitVec.ofNat 32 (8 * (1 + p % 2))) info) ∧
    (Correct (fun _ => .ofExponent 0) (1 : BitVec 32) (ofLine fun _ => -16)
        (lineInfo 0 4 0 (some 4294967280)) ∧
      Correct (fun _ => .ofExponent 0) (1 : BitVec 32) (ofLine fun _ => 5)
        (lineInfo 0 0 0 (some 5)) ∧
      ∀ info, DivRemOp.divsi.getAxisInfo none (lineInfo 0 4 0 (some 4294967280))
          (lineInfo 0 0 0 (some 5)) = some info →
        ¬ AxesCorrect (fun _ => .ofExponent 0) (1 : BitVec 32)
          (ofLine fun _ => (-16 : BitVec 32).sdiv 5) info) := by
  refine ⟨⟨correct_ofLine (by decide), correct_ofLine (by decide), ?_, ?_⟩,
    ⟨correct_ofLine (by decide), correct_ofLine (by decide), ?_⟩,
    ⟨⟨axes_ofLine.mpr (by decide), fun c hc i _ => ?_⟩,
      ⟨axes_ofLine.mpr (by decide), fun c hc i _ => ?_⟩, ?_⟩⟩
  · intro info h
    rw [← Option.some.inj h, axes_ofLine]
    decide +kernel
  · intro info h
    rw [← Option.some.inj h, axes_ofLine]
    decide +kernel
  · intro info h
    rw [← Option.some.inj h, axes_ofLine]
    decide +kernel
  · cases hc
    rfl
  · cases hc
    rfl
  · intro info h
    rw [← Option.some.inj h, axes_ofLine]
    decide +kernel

end TritonCpu.AxisAnalysis
