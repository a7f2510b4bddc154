import Mathlib.Data.List.Zip
import TritonCpu.PtrVisit

/-!
# Sums with a modulo

`addState` keeps the modulo of one side where the other side has a constant
zero offset, and allows a scalar beside a modulo in the first of two dimensions
with a warning. Without that exception, and where the other side has no stride
along a modulo, an accepted sum denotes the sum of its operands.
-/

set_option autoImplicit false

namespace TritonCpu.AnalysisStructured
open Builder TritonIR OpFoldResult List

/-- The states that `arith.addi` and `tt.addptr` accept, from the states of
their operands. -/
def Accepted (ctx : Context) (lhs rhs : Value) (L R s : PtrState) : Prop :=
  Returns (addOperands ctx lhs rhs L R) s ∨ Returns (visitOperandAddptr ctx (pure L) (pure R)) s

/-- The sum that is allowed with a warning: two dimensions, a modulo in the
first, and a scalar with an offset there on the other side. -/
def allowedWithWarning (lhs rhs : PtrState) : Bool :=
  match lhs.dims, rhs.dims with
  | [d, _], [e, _] => d.hasModulo && !hasConstZero e.offset && rhs.scalar.isSome
  | _, _ => false

/-- The other side does not move along a dimension with a modulo. -/
def StillAlongModulo (ρ : Env) (lhs rhs : PtrState) : Prop :=
  ∀ p ∈ lhs.dims.zip rhs.dims, p.1.hasModulo = true → p.2.stride.eval ρ = 0

section Shapes

variable {scalar : Option Value} {i : ℕ} {l r : List Dim} {shapes : List OFR}

/-- What is left of `addShapes` when every dimension is structured and the
exception for a scalar is not taken. -/
theorem returns_addShapes (hlen : l.length = r.length)
    (hl : ∀ d ∈ l, d.isStructured = true) (hr : ∀ d ∈ r, d.isStructured = true)
    (hscalar : i = 0 → ∀ d d' e e', l = [d, d'] → r = [e, e'] → d.hasModulo = true →
      hasConstZero e.offset = false → scalar = none)
    (h : Returns (addShapes scalar i (l.zip r)) shapes) :
    shapes = l.map Dim.shape ∧
      ∀ p ∈ l.zip r, p.1.hasModulo = true → hasConstZero p.2.offset = true := by
  induction l generalizing i r shapes with
  | nil =>
    rw [zip_nil_left, addShapes, returns_pure] at h
    exact ⟨h, by simp⟩
  | cons d l ih =>
    cases r with
    | nil => simp at hlen
    | cons e r =>
      have hd := hl d mem_cons_self
      have he := hr e mem_cons_self
      rw [zip_cons_cons, addShapes, if_neg (by simp [hd, he])] at h
      by_cases hkeep : (!d.hasModulo || hasConstZero e.offset) = true
      · rw [if_pos hkeep] at h
        obtain ⟨rest, hrest, h⟩ := returns_bind h
        rw [returns_pure] at h
        subst h
        obtain ⟨hshapes, hzero⟩ := ih (by simpa using hlen)
          (fun x hx => hl x (mem_cons_of_mem _ hx))
          (fun x hx => hr x (mem_cons_of_mem _ hx)) (fun hi => by omega) hrest
        constructor
        · rw [hshapes, map_cons]
        · intro p hp hmod
          rw [zip_cons_cons] at hp
          rcases mem_cons.mp hp with rfl | hp
          · simpa [show d.hasModulo = true from hmod] using hkeep
          · exact hzero p hp hmod
      · -- only the exception is left, and it needs a scalar
        rw [if_neg hkeep] at h
        simp only [Bool.or_eq_true, Bool.not_eq_true', not_or, Bool.not_eq_false,
          Bool.not_eq_true] at hkeep
        unfold addShapeWithScalar at h
        split at h
        · next hrest =>
          split_ifs at h with hs
          · cases l with
            | nil => simp at hrest
            | cons d' l =>
              cases r with
              | nil => simp at hrest
              | cons e' r =>
                rw [zip_cons_cons, List.cons.injEq, zip_eq_nil_iff] at hrest
                have hlen : l.length = r.length := by simpa using hlen
                have hl' : l = [] := by
                  rcases hrest.2 with h' | h'
                  · exact h'
                  · exact length_eq_zero_iff.mp (by rw [hlen, h']; rfl)
                have hr' : r = [] := length_eq_zero_iff.mp (by rw [← hlen, hl']; rfl)
                rw [hscalar rfl d d' e e' (by rw [hl']) (by rw [hr']) hkeep.1 hkeep.2] at hs
                cases hs
          · exact absurd h not_returns_fail
        · exact absurd h not_returns_fail

end Shapes

section Terms

variable {mode : Bool} {L R : PtrState} {l r : Dim} {q : OFR × OFR} {ρ : Env}

theorem addDim_term (hl : l.isStructured = true) (hr : r.isStructured = true)
    (h : Returns (addDim mode L R l r) q) (size shape : OFR) (i : ℕ) :
    (makeDim q (size, shape)).term ρ i = l.term ρ i + r.term ρ i := by
  have hoffsetL := (structured_iff l).mp hl
  have hoffsetR := (structured_iff r).mp hr
  rw [addDim, if_pos (by simp [hl, hr])] at h
  obtain ⟨offset, ho, h⟩ := returns_bind h
  obtain ⟨stride, hs, h⟩ := returns_bind h
  rw [returns_pure] at h
  subst h
  have hoffset := returns_addOFRs (P := fun ty => ty.shape = none) rfl hoffsetL hoffsetR ho
  have hstride := eval_addOFRs hs ρ
  have hstructured : (makeDim (offset, stride) (size, shape)).isStructured = true :=
    (structured_iff _).mpr hoffset.1
  simp only [Dim.term, hl, hr, hstructured, if_true]
  show offset.eval ρ + stride.eval ρ * i = _
  rw [hoffset.2 ρ, hstride]
  ring

/-- Zero terms on a dimension with a modulo on the other side leave the
contribution of that side. -/
theorem contribution_sum {d m p : Dim} {i : ℕ}
    (hterm : d.term ρ i = m.term ρ i + p.term ρ i) (hshape : d.shape = m.shape)
    (hp : p.hasModulo = false) (hzero : m.hasModulo = true → p.term ρ i = 0) :
    d.contribution ρ i = m.contribution ρ i + p.contribution ρ i := by
  have hmod : d.hasModulo = m.hasModulo := by rw [Dim.hasModulo, Dim.hasModulo, hshape]
  unfold Dim.contribution
  rw [hmod, hp, hshape, hterm, if_neg Bool.false_ne_true]
  split_ifs with hm
  · rw [hzero hm, add_zero, add_zero]
  · rfl

/-- Dimensions that are made from the steps of a sum, with the shapes of one
side, contribute what both sides do. -/
theorem contributions_sum {l r : List Dim} {steps : List (OFR × OFR)} (idx : List ℕ)
    (shapeOf : Dim × Dim → OFR) (hlen : l.length = r.length)
    (hpair : ∀ p ∈ l.zip r, ∀ q, Returns (addDim mode L R p.1 p.2) q → ∀ (size : OFR) (i : ℕ),
      (makeDim q (size, shapeOf p)).contribution ρ i =
        p.1.contribution ρ i + p.2.contribution ρ i)
    (h : List.Forall₂ (fun p q => Returns (addDim mode L R p.1 p.2) q) (l.zip r) steps) :
    contributions ρ
        (List.zipWith makeDim steps ((l.map Dim.size).zip ((l.zip r).map shapeOf))) idx =
      contributions ρ l idx + contributions ρ r idx := by
  induction l generalizing r steps idx with
  | nil =>
    cases h
    cases r with
    | nil => rfl
    | cons e r => simp at hlen
  | cons x l ih =>
    cases r with
    | nil => simp at hlen
    | cons y r =>
      rw [zip_cons_cons] at h hpair
      cases h with
      | @cons _ q _ steps hq h =>
        cases idx with
        | nil => rfl
        | cons i is =>
          have hhead := hpair (x, y) mem_cons_self q hq x.size i
          have hrest := ih is (by simpa using hlen)
            (fun p hp => hpair p (mem_cons_of_mem _ hp)) h
          simp only [map_cons, zip_cons_cons, zipWith_cons_cons, contributions]
          rw [hhead, hrest]
          ring

theorem term_still {d : Dim} (hd : d.isStructured = true) (hzero : hasConstZero d.offset = true)
    (hstride : d.stride.eval ρ = 0) (i : ℕ) : d.term ρ i = 0 := by
  rw [Dim.term, if_pos hd, hasConstZero_eval hzero, hstride]
  ring

end Terms

theorem scalar_of_no_warning {M P : PtrState} (h : allowedWithWarning M P = false) :
    (0 : ℕ) = 0 → ∀ d d' e e', M.dims = [d, d'] → P.dims = [e, e'] → d.hasModulo = true →
      hasConstZero e.offset = false → P.scalar = none := by
  intro _ d d' e e' hm hp hmod hzero
  unfold allowedWithWarning at h
  rw [hm, hp] at h
  simpa [hmod, hzero] using h

section Sums

variable {mode : Bool} {L R s : PtrState} {steps : List (OFR × OFR)} {shapes : List OFR}

theorem contributions_left (h : Added mode L R s steps shapes) (hl : L.isStructured = true)
    (hr : R.isStructured = true) (hwarn : allowedWithWarning L R = false) {ρ : Env}
    (hstill : StillAlongModulo ρ L R) (hmod : R.anyModulo = false) (idx : List ℕ) :
    shapes.length = L.rank ∧
      contributions ρ s.dims idx = contributions ρ L.dims idx + contributions ρ R.dims idx := by
  have hlen : L.dims.length = R.dims.length := h.rank
  obtain ⟨hshapes, hzero⟩ := returns_addShapes hlen (structured_of_state hl)
    (structured_of_state hr) (scalar_of_no_warning hwarn) (h.modulo.left hmod)
  have hzip : shapes = (L.dims.zip R.dims).map fun p => p.1.shape := by
    rw [hshapes]
    conv_lhs => rw [← map_fst_zip (le_of_eq hlen), map_map]
    rfl
  constructor
  · rw [hshapes, length_map]
    rfl
  · rw [h.dims, hzip]
    apply contributions_sum idx (fun p => p.1.shape) hlen (fun p hp q hq size i => ?_) h.steps
    obtain ⟨hpl, hpr⟩ := of_mem_zip hp
    have hterm := addDim_term (structured_of_state hl _ hpl) (structured_of_state hr _ hpr) hq
      size p.1.shape i (ρ := ρ)
    apply contribution_sum hterm rfl (no_modulo_of_state hmod _ hpr)
    intro hm
    exact term_still (structured_of_state hr _ hpr) (hzero p hp hm) (hstill p hp hm) i

theorem contributions_right (h : Added mode L R s steps shapes) (hl : L.isStructured = true)
    (hr : R.isStructured = true) (hwarn : allowedWithWarning R L = false) {ρ : Env}
    (hstill : StillAlongModulo ρ R L) (hmod : R.anyModulo = true) (idx : List ℕ) :
    shapes.length = L.rank ∧
      contributions ρ s.dims idx = contributions ρ L.dims idx + contributions ρ R.dims idx := by
  have hlen : L.dims.length = R.dims.length := h.rank
  have hmodL : L.anyModulo = false := by
    rcases h.modulo.one_modulo with hno | hno
    · exact hno
    · rw [hmod] at hno
      cases hno
  obtain ⟨hshapes, hzero⟩ := returns_addShapes hlen.symm (structured_of_state hr)
    (structured_of_state hl) (scalar_of_no_warning hwarn) (h.modulo.right hmod)
  have hzip : shapes = (L.dims.zip R.dims).map fun p => p.2.shape := by
    rw [hshapes]
    conv_lhs => rw [← map_snd_zip (le_of_eq hlen.symm), map_map]
    rfl
  constructor
  · rw [hshapes, length_map]
    exact hlen.symm
  · rw [h.dims, hzip]
    apply contributions_sum idx (fun p => p.2.shape) hlen (fun p hp q hq size i => ?_) h.steps
    obtain ⟨hpl, hpr⟩ := of_mem_zip hp
    have hswap : (p.2, p.1) ∈ R.dims.zip L.dims := by
      rw [← zip_swap]
      exact mem_map.mpr ⟨p, hp, rfl⟩
    have hterm := addDim_term (structured_of_state hl _ hpl) (structured_of_state hr _ hpr) hq
      size p.2.shape i (ρ := ρ)
    rw [add_comm] at hterm ⊢
    apply contribution_sum hterm rfl (no_modulo_of_state hmodL _ hpl)
    intro hm
    exact term_still (structured_of_state hl _ hpl) (hzero _ hswap hm) (hstill _ hswap hm) i

/-- A sum of structured states that needs no warning, where neither side moves
along a modulo of the other. -/
theorem addState_denotes (hl : L.isStructured = true) (hr : R.isStructured = true)
    (hrank : 0 < L.rank) (hwarnL : allowedWithWarning L R = false)
    (hwarnR : allowedWithWarning R L = false) {ρ : Env} (hstillL : StillAlongModulo ρ L R)
    (hstillR : StillAlongModulo ρ R L) (h : Returns (addState L R mode) s) (idx : List ℕ) :
    s.address ρ idx = L.address ρ idx + R.address ρ idx := by
  obtain ⟨steps, shapes, h⟩ := returns_addState h
  have hlen : L.dims.length = R.dims.length := h.rank
  have hsum : shapes.length = L.rank ∧
      contributions ρ s.dims idx = contributions ρ L.dims idx + contributions ρ R.dims idx := by
    cases hmod : R.anyModulo with
    | false => exact contributions_left h hl hr hwarnL hstillL hmod idx
    | true => exact contributions_right h hl hr hwarnR hstillR hmod idx
  have hsteps : steps.length = L.dims.length := by
    rw [← h.steps.length_eq, length_zip, hlen, min_self]
  have hlength : s.dims.length = L.rank := by
    rw [h.dims, length_zipWith, length_zip, length_map, hsum.1, hsteps]
    simp [PtrState.rank]
  have hne : ∀ t : PtrState, t.dims.length = L.rank → t.dims ≠ [] := by
    intro t ht e
    rw [e, length_nil] at ht
    omega
  unfold PtrState.address
  rw [if_neg (hne s hlength), if_neg (hne L rfl), if_neg (hne R hlen.symm), added_source h ρ,
    hsum.2]
  ring

end Sums

section Entries

variable {ctx : Context} {lhs rhs : Value} {L R s : PtrState}

theorem returns_clearModulo_structured {p : PtrState × PtrState} (hl : L.isStructured = true)
    (hr : R.isStructured = true) (h : Returns (clearModulo ctx lhs rhs L R) p) : p = (L, R) := by
  obtain ⟨clearRhs, hclear, h⟩ := returns_bind h
  rw [hl, hasModuloIf, if_neg (by simp), returns_pure] at hclear
  subst hclear
  rw [if_neg Bool.false_ne_true] at h
  obtain ⟨lhsModulo, -, h⟩ := returns_bind h
  rw [if_neg (by simp [hr]), returns_pure] at h
  exact h

theorem Accepted.addState (hl : L.isStructured = true) (hr : R.isStructured = true)
    (h : Accepted ctx lhs rhs L R s) : Returns (addState L R ctx.isAnalysisingUnstructured) s := by
  rcases h with h | h
  · obtain ⟨lhsModulo, -, h⟩ := returns_bind h
    obtain ⟨rhsModulo, -, h⟩ := returns_bind h
    split_ifs at h
    · exact absurd h not_returns_fail
    obtain ⟨p, hp, h⟩ := returns_bind h
    have hp := returns_clearModulo_structured hl hr hp
    subst hp
    exact h
  · obtain ⟨L', R', hL, hR, hsum⟩ := returns_visitOperandAddptr h
    rw [returns_pure] at hL hR
    rwa [hL, hR] at hsum

/-- An accepted sum of structured states denotes the sum of its operands. -/
theorem accepted_denotes (ctx : Context) (lhs rhs : Value) {L R s : PtrState}
    (hrank : L.rank = 1 ∨ L.rank = 2) (hl : L.isStructured = true)
    (hr : R.isStructured = true) (hwarnL : allowedWithWarning L R = false)
    (hwarnR : allowedWithWarning R L = false) (ρ : Env) (hstillL : StillAlongModulo ρ L R)
    (hstillR : StillAlongModulo ρ R L) (h : Accepted ctx lhs rhs L R s) (idx : List ℕ) :
    s.address ρ idx = L.address ρ idx + R.address ρ idx := by
  have hpos : 0 < L.rank := by omega
  exact addState_denotes hl hr hpos hwarnL hwarnR hstillL hstillR (h.addState hl hr) idx

end Entries

def source0 : Option Value := some (.blockArg 0 ⟨none, .ptr⟩)

def range4 : Dim := ⟨.attr 0, .attr 4, .attr 1, .attr 0⟩

def still4 : Dim := ⟨.attr 0, .attr 4, .attr 0, .attr 0⟩

/-- `arange(0, 4) % 3`. -/
def modulo3 : Dim := ⟨.attr 0, .attr 4, .attr 1, .attr 3⟩

def scalar5 : Value := .constant 1 Ty.index 5

def splat5 : PtrState :=
  ⟨[{ still4 with offset := .value scalar5 }, still4], [], none, some scalar5⟩

theorem accepted_denotes_rows :
    PtrState.address emptyEnv ⟨[modulo3, range4], [], source0, none⟩ [3, 2] =
      PtrState.address emptyEnv ⟨[modulo3, still4], [], source0, none⟩ [3, 2] +
        PtrState.address emptyEnv ⟨[still4, range4], [], none, none⟩ [3, 2] := by
  apply accepted_denotes plainContext scalar5 scalar5 (.inr rfl)
  · decide
  · decide
  · decide
  · decide
  · simp [StillAlongModulo, modulo3, still4, range4, Dim.hasModulo, getIntAttr, OFR.eval]
  · simp [StillAlongModulo, modulo3, still4, range4, Dim.hasModulo, getIntAttr]
  · exact .inr ⟨0, 0, rfl⟩

def NotSum (L R s : PtrState) (idx : List ℕ) : Prop :=
  Accepted plainContext scalar5 scalar5 L R s ∧
    s.address emptyEnv idx ≠ L.address emptyEnv idx + R.address emptyEnv idx

/-- A range added to a modulo has a stride along it, a splat added to a modulo
in the first dimension moves it to the second, and a modulo beside an
unstructured offset is dropped. -/
theorem accepted_not_sum :
    NotSum ⟨[modulo3], [], source0, none⟩ ⟨[range4], [], none, none⟩
        ⟨[{ modulo3 with stride := .attr 2 }], [], source0, none⟩ [3] ∧
      NotSum ⟨[modulo3, still4], [], source0, none⟩ splat5
        ⟨[{ range4 with offset := .value scalar5 }, { still4 with shape := .attr 3 }], [],
          source0, none⟩ [3, 0] ∧
      NotSum ⟨[modulo3], [], source0, none⟩
        ⟨[{ range4 with offset := .value (.unknown 2 ⟨some [4], .int 32⟩) }], [], none, none⟩
        ⟨[{ range4 with offset := .value (.unknown 2 ⟨some [4], .int 32⟩) }], [], source0, none⟩
        [1] :=
  ⟨⟨.inr ⟨0, 0, rfl⟩, by decide⟩, ⟨.inr ⟨0, 0, rfl⟩, by decide⟩, .inr ⟨0, 0, rfl⟩, by decide⟩

end TritonCpu.AnalysisStructured
