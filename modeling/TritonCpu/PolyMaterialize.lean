import TritonCpu.PolyEval
import Mathlib.Data.List.Infix

/-!
# Code for a polynomial

A polynomial over top-level values becomes 64 bit arithmetic: every atom is widened once,
every term is a product, and the terms are summed, a term of coefficient minus one by a
subtraction. The operations are numbered in the order in which they are made.
-/

set_option autoImplicit false

namespace TritonCpu.PolyMaterialize
open PolyAlgebra PolyEval List

/-! ### The code generator -/

/-- A value of the function, or the result of one of the operations made here. -/
inductive Ref (V : Type) where
  | value (v : V)
  | result (n : ℕ)
  deriving DecidableEq, Repr

inductive Op (V : Type) where
  | indexCast (v : V)
  | extSI (v : V)
  | constant (c : BitVec 64)
  | mulI (a b : Ref V)
  | addI (a b : Ref V)
  | subI (a b : Ref V)

/-- The operations made so far, and `widened`: the atoms with their 64 bit values. -/
structure Builder (V : Type) where
  ops : List (Op V)
  widened : List (V × Ref V)

section Generator

variable {V : Type}

def create (op : Op V) (b : Builder V) : Ref V × Builder V :=
  (.result b.ops.length, { b with ops := b.ops ++ [op] })

def widen (type : V → IntType) (v : V) (b : Builder V) : Ref V × Builder V :=
  match type v with
  | .index => create (.indexCast v) b
  | .int width => if width < 64 then create (.extSI v) b else (.value v, b)

variable [DecidableEq V] (type : V → IntType)

def atom64 (b : Builder V) : Atom V → Option (Ref V × Builder V)
  | .dim _ => none
  | .value v =>
      match b.widened.lookup v with
      | some r => some (r, b)
      | none =>
          let (r, b) := widen type v b
          some (r, { b with widened := (v, r) :: b.widened })

def mulAtom (tb : Ref V × Builder V) (a : Atom V) : Option (Ref V × Builder V) := do
  let (r, b) ← atom64 type tb.2 a
  some (create (.mulI tb.1 r) b)

structure Accumulator (V : Type) where
  sum : Option (Ref V)
  constant : BitVec 64
  builder : Builder V

/-- `if (c != 1) t = t * c`. -/
def scale (c : BitVec 64) (t : Ref V) (b : Builder V) : Ref V × Builder V :=
  if c = 1 then (t, b)
  else
    let (k, b) := create (.constant c) b
    create (.mulI t k) b

def addProduct (c : BitVec 64) (acc : Accumulator V) (t : Ref V) (b : Builder V) :
    Accumulator V :=
  match acc.sum with
  | some sum =>
      if c = -1 then
        let (r, b) := create (.subI sum t) b
        ⟨some r, acc.constant, b⟩
      else
        let (t, b) := scale c t b
        let (r, b) := create (.addI sum t) b
        ⟨some r, acc.constant, b⟩
  | none =>
      let (t, b) := scale c t b
      ⟨some t, acc.constant, b⟩

def addMono (acc : Accumulator V) : Mono (Atom V) × BitVec 64 → Option (Accumulator V)
  | ([], c) => some { acc with constant := c }
  | (a :: mono, c) => do
      let tb ← atom64 type acc.builder a
      let tb ← mono.foldlM (mulAtom type) tb
      some (addProduct c acc tb.1 tb.2)

def finish (acc : Accumulator V) : Ref V × Builder V :=
  let (cst, b) := create (.constant acc.constant) acc.builder
  match acc.sum with
  | none => (cst, b)
  | some sum => if acc.constant = 0 then (sum, b) else create (.addI sum cst) b

def materialize (b : Builder V) (p : Poly (Atom V) (BitVec 64)) :
    Option (Ref V × Builder V) := do
  let acc ← p.terms.foldlM (addMono type) ⟨none, 0, b⟩
  some (finish acc)

end Generator

/-! ### What the code computes -/

section Machine

variable {V : Type} (type : V → IntType) (σ : V → ℤ)

def Ref.eval (rs : List (BitVec 64)) : Ref V → BitVec 64
  | .value v => BitVec.ofInt 64 (σ v)
  | .result n => rs.getD n 0

def Op.eval (rs : List (BitVec 64)) : Op V → BitVec 64
  | .indexCast v => BitVec.ofInt 64 (σ v)
  | .extSI v => (BitVec.ofInt (type v).width (σ v)).signExtend 64
  | .constant c => c
  | .mulI a b => a.eval σ rs * b.eval σ rs
  | .addI a b => a.eval σ rs + b.eval σ rs
  | .subI a b => a.eval σ rs - b.eval σ rs

def results (ops : List (Op V)) : List (BitVec 64) :=
  ops.foldl (fun rs op => rs ++ [op.eval type σ rs]) []

theorem results_concat (ops : List (Op V)) (op : Op V) :
    results type σ (ops ++ [op]) = results type σ ops ++ [op.eval type σ (results type σ ops)] := by
  simp [results]

theorem results_length (ops : List (Op V)) : (results type σ ops).length = ops.length := by
  induction ops using List.reverseRecOn with
  | nil => rfl
  | append_singleton ops op ih => simp [results_concat, ih]

theorem results_of_front {ops ops' : List (Op V)} (h : ops <+: ops') :
    results type σ ops <+: results type σ ops' := by
  obtain ⟨more, rfl⟩ := h
  induction more using List.reverseRecOn with
  | nil => simp
  | append_singleton more op ih =>
    rw [← append_assoc, results_concat]
    exact ih.trans (prefix_append _ _)

/-- The operand `r` stands for `x` once the operations made so far have run. -/
structure Computes (ops : List (Op V)) (r : Ref V) (x : BitVec 64) : Prop where
  defined : ∀ n, r = .result n → n < ops.length
  eval : r.eval σ (results type σ ops) = x

theorem Computes.mono {ops ops' : List (Op V)} {r : Ref V} {x : BitVec 64}
    (h : Computes type σ ops r x) (hb : ops <+: ops') : Computes type σ ops' r x := by
  refine ⟨fun n hn => (h.defined n hn).trans_le hb.length_le, ?_⟩
  rw [← h.eval]
  cases r with
  | value v => rfl
  | result n =>
    have hn : n < (results type σ ops).length := by
      rw [results_length]
      exact h.defined n rfl
    simp only [Ref.eval, getD_eq_getElem?_getD]
    rw [prefix_iff_getElem?.mp (results_of_front type σ hb) n hn,
      List.getElem?_eq_getElem hn]

def Widened (b : Builder V) : Prop :=
  ∀ v r, (v, r) ∈ b.widened → Computes type σ b.ops r (BitVec.ofInt 64 (σ v))

/-- From `b` to `b'` operations were added, after which `r` stands for `x`. -/
structure Emits (b b' : Builder V) (r : Ref V) (x : BitVec 64) : Prop where
  grows : b.ops <+: b'.ops
  widened : Widened type σ b'
  computes : Computes type σ b'.ops r x

variable {type σ}

theorem Widened.of_prefix {b b' : Builder V} (h : Widened type σ b)
    (hops : b.ops <+: b'.ops) (hw : b'.widened = b.widened) : Widened type σ b' := by
  intro v r hmem
  rw [hw] at hmem
  exact (h v r hmem).mono type σ hops

theorem create_emits {b : Builder V} (hb : Widened type σ b) (op : Op V) :
    Emits type σ b (create op b).2 (create op b).1 (op.eval type σ (results type σ b.ops)) := by
  have hops : b.ops <+: (create op b).2.ops := prefix_append _ _
  refine ⟨hops, hb.of_prefix hops rfl, ?_, ?_⟩
  · rintro n ⟨⟩
    simp [create]
  · simp only [create, Ref.eval, results_concat]
    rw [← results_length type σ b.ops]
    simp

theorem Emits.trans {b b' b'' : Builder V} {r r' : Ref V} {x x' : BitVec 64}
    (h : Emits type σ b b' r x) (h' : Emits type σ b' b'' r' x') :
    Emits type σ b b'' r' x' :=
  ⟨h.grows.trans h'.grows, h'.widened, h'.computes⟩

theorem Emits.refl {b : Builder V} (hb : Widened type σ b) {r : Ref V} {x : BitVec 64}
    (hr : Computes type σ b.ops r x) : Emits type σ b b r x :=
  ⟨prefix_rfl, hb, hr⟩

/-- The values of the function are numbers of their types, of at most 64 bits. -/
def Typed (type : V → IntType) (σ : V → ℤ) : Prop :=
  ∀ v, (type v).width ≤ 64 ∧ Signed (type v).width (σ v)

theorem extSI_eval (htype : Typed type σ) (v : V) (rs : List (BitVec 64)) :
    (Op.extSI v).eval type σ rs = BitVec.ofInt 64 (σ v) := by
  simp only [Op.eval, BitVec.signExtend, BitVec.toInt_ofInt]
  rw [(htype v).2]

theorem widen_emits (htype : Typed type σ) {b : Builder V} (hb : Widened type σ b) (v : V) :
    Emits type σ b (widen type v b).2 (widen type v b).1 (BitVec.ofInt 64 (σ v)) := by
  simp only [widen]
  cases hv : type v with
  | index => exact create_emits hb (.indexCast v)
  | int width =>
    by_cases hw : width < 64
    · simp only [if_pos hw]
      have h := create_emits hb (.extSI v)
      rwa [extSI_eval htype] at h
    · simp only [if_neg hw]
      exact .refl hb ⟨nofun, rfl⟩

variable [DecidableEq V]

theorem atom64_emits (htype : Typed type σ) {b : Builder V} (hb : Widened type σ b) (v : V) :
    ∃ r b', atom64 type b (.value v) = some (r, b') ∧
      Emits type σ b b' r (BitVec.ofInt 64 (σ v)) := by
  simp only [atom64]
  cases hlookup : b.widened.lookup v with
  | some r =>
    have hmem : (v, r) ∈ b.widened := by
      obtain ⟨l, l', heq, -⟩ := lookup_eq_some_iff.mp hlookup
      simp [heq]
    exact ⟨r, b, rfl, .refl hb (hb v r hmem)⟩
  | none =>
    have h := widen_emits htype hb v
    refine ⟨_, _, rfl, h.grows, fun u r hmem => ?_, h.computes⟩
    cases mem_cons.mp hmem with
    | inl heq =>
      obtain ⟨rfl, rfl⟩ := Prod.mk.inj heq
      exact h.computes
    | inr hmem => exact h.widened u r hmem

def OverValues (mono : Mono (Atom V)) : Prop := ∀ a ∈ mono, ∃ v, a = .value v

variable (lanes : Dim → ℕ)

def monoValue (σ : V → ℤ) (lanes : Dim → ℕ) (mono : Mono (Atom V)) : BitVec 64 :=
  (mono.map (ringValuation (BitVec 64) σ lanes)).prod

theorem foldlM_mulAtom_emits (htype : Typed type σ) (mono : Mono (Atom V))
    (hmono : OverValues mono) {b : Builder V} (hb : Widened type σ b) {t : Ref V}
    {x : BitVec 64} (ht : Computes type σ b.ops t x) :
    ∃ r b', mono.foldlM (mulAtom type) (t, b) = some (r, b') ∧
      Emits type σ b b' r (x * monoValue σ lanes mono) := by
  induction mono generalizing b t x with
  | nil => exact ⟨t, b, rfl, .refl hb (by simpa [monoValue] using ht)⟩
  | cons a mono ih =>
    obtain ⟨v, rfl⟩ := hmono a (by simp)
    obtain ⟨r, b', hr, hemits⟩ := atom64_emits htype hb v
    have hmul := create_emits hemits.widened (.mulI t r)
    have hvalue : (Op.mulI t r).eval type σ (results type σ b'.ops) =
        x * BitVec.ofInt 64 (σ v) := by
      simp only [Op.eval, hemits.computes.eval, (ht.mono type σ hemits.grows).eval]
    rw [hvalue] at hmul
    obtain ⟨r', b'', hr', hrest⟩ := ih (fun a ha => hmono a (mem_cons_of_mem _ ha))
      hmul.widened hmul.computes
    refine ⟨r', b'', ?_, ?_⟩
    · simpa [foldlM_cons, mulAtom, hr] using hr'
    · have h := (hemits.trans hmul).trans hrest
      have hprod : x * monoValue σ lanes (.value v :: mono) =
          x * BitVec.ofInt 64 (σ v) * monoValue σ lanes mono := by
        simp only [monoValue, map_cons, prod_cons, ← mul_assoc]
        rfl
      rwa [hprod]

omit [DecidableEq V] in
theorem scale_emits {b : Builder V} (hb : Widened type σ b) (c : BitVec 64) {t : Ref V}
    {x : BitVec 64} (ht : Computes type σ b.ops t x) :
    Emits type σ b (scale c t b).2 (scale c t b).1 (c * x) := by
  simp only [scale]
  by_cases hc : c = 1
  · simp only [if_pos hc]
    exact .refl hb (by simpa [hc] using ht)
  · simp only [if_neg hc]
    have hk := create_emits hb (.constant c)
    have hmul := create_emits hk.widened (.mulI t (create (.constant c) b).1)
    have hvalue : (Op.mulI t (create (.constant c) b).1).eval type σ
        (results type σ (create (.constant c) b).2.ops) = c * x := by
      simp only [Op.eval, hk.computes.eval, (ht.mono type σ hk.grows).eval, mul_comm]
    rw [hvalue] at hmul
    exact hk.trans hmul

variable (type σ) in
/-- The sum of the accumulator, without its constant, is `x`. -/
structure Sums (acc : Accumulator V) (x : BitVec 64) : Prop where
  widened : Widened type σ acc.builder
  none : acc.sum = none → x = 0
  some : ∀ r, acc.sum = some r → Computes type σ acc.builder.ops r x

variable (type σ) in
/-- The accumulator `acc'` continues `acc` and its sum is `x`. -/
structure Continues (acc acc' : Accumulator V) (x : BitVec 64) : Prop where
  grows : acc.builder.ops <+: acc'.builder.ops
  constant : acc'.constant = acc.constant
  sums : Sums type σ acc' x

omit [DecidableEq V] in
theorem sums_of_emits {b b' : Builder V} {r : Ref V} {x : BitVec 64} (k : BitVec 64)
    (h : Emits type σ b b' r x) : Sums type σ ⟨some r, k, b'⟩ x :=
  ⟨h.widened, nofun, fun _ hr => Option.some.inj hr ▸ h.computes⟩

omit [DecidableEq V] in
theorem addProduct_continues {acc : Accumulator V} {y : BitVec 64}
    (hacc : Sums type σ acc y) (c : BitVec 64) {t : Ref V} {b : Builder V}
    {x : BitVec 64} (hemits : Emits type σ acc.builder b t x) :
    Continues type σ acc (addProduct c acc t b) (y + c * x) := by
  have hscale := scale_emits hemits.widened c hemits.computes
  simp only [addProduct]
  cases hsum : acc.sum with
  | none =>
    rw [hacc.none hsum, zero_add]
    exact ⟨hemits.grows.trans hscale.grows, rfl, sums_of_emits _ hscale⟩
  | some sum =>
    have hy := hacc.some sum hsum
    by_cases hc : c = -1
    · simp only [if_pos hc]
      have hsub := create_emits hemits.widened (.subI sum t)
      have hvalue : (Op.subI sum t).eval type σ (results type σ b.ops) = y + c * x := by
        simp only [Op.eval, (hy.mono type σ hemits.grows).eval, hemits.computes.eval, hc]
        ring
      rw [hvalue] at hsub
      exact ⟨hemits.grows.trans hsub.grows, rfl, sums_of_emits _ hsub⟩
    · simp only [if_neg hc]
      have hadd := create_emits hscale.widened (.addI sum (scale c t b).1)
      have hvalue : (Op.addI sum (scale c t b).1).eval type σ
          (results type σ (scale c t b).2.ops) = y + c * x := by
        simp only [Op.eval, (hy.mono type σ (hemits.grows.trans hscale.grows)).eval,
          hscale.computes.eval]
      rw [hvalue] at hadd
      exact ⟨(hemits.grows.trans hscale.grows).trans hadd.grows, rfl, sums_of_emits _ hadd⟩

def termsValue (σ : V → ℤ) (lanes : Dim → ℕ) (ts : List (Mono (Atom V) × BitVec 64)) :
    BitVec 64 :=
  (ts.map fun t => t.2 * monoValue σ lanes t.1).sum

theorem foldlM_addMono_sums (htype : Typed type σ)
    (ts : List (Mono (Atom V) × BitVec 64)) (hkeys : ts.Pairwise (·.1 ≠ ·.1))
    (hts : ∀ t ∈ ts, OverValues t.1) {acc : Accumulator V} {y : BitVec 64}
    (hacc : Sums type σ acc y)
    (hconstant : (∃ t ∈ ts, t.1 = []) → acc.constant = 0) :
    ∃ acc' y', ts.foldlM (addMono type) acc = some acc' ∧
      acc.builder.ops <+: acc'.builder.ops ∧ Sums type σ acc' y' ∧
      y' + acc'.constant = y + acc.constant + termsValue σ lanes ts := by
  induction ts generalizing acc y with
  | nil => exact ⟨acc, y, rfl, prefix_rfl, hacc, by simp [termsValue]⟩
  | cons t ts ih =>
    obtain ⟨hkey, hkeys'⟩ := pairwise_cons.mp hkeys
    have hts' : ∀ u ∈ ts, OverValues u.1 := fun u hu => hts u (mem_cons_of_mem _ hu)
    obtain ⟨mono, c⟩ := t
    cases mono with
    | nil =>
      -- the constant term comes once, so it is assigned to a zero
      have hzero : acc.constant = 0 := hconstant ⟨_, mem_cons_self, rfl⟩
      have hlater : (∃ u ∈ ts, u.1 = []) → c = 0 := by
        rintro ⟨u, hu, hnil⟩
        exact absurd hnil.symm (hkey u hu)
      have hset : Sums type σ { acc with constant := c } y :=
        ⟨hacc.widened, hacc.none, hacc.some⟩
      obtain ⟨acc', y', hfold, hgrows, hsums, hvalue⟩ := ih hkeys' hts' hset hlater
      refine ⟨acc', y', by simpa [foldlM_cons, addMono] using hfold, hgrows, hsums, ?_⟩
      rw [hvalue, hzero]
      simp only [termsValue, monoValue, map_cons, sum_cons, map_nil,
        prod_nil]
      ring
    | cons a mono =>
      have hmono : OverValues (a :: mono) := hts _ mem_cons_self
      obtain ⟨v, rfl⟩ := hmono a (by simp)
      obtain ⟨r, b, hatom, hemits⟩ := atom64_emits htype hacc.widened v
      obtain ⟨t, b', hprod, hrest⟩ := foldlM_mulAtom_emits lanes htype mono
        (fun a ha => hmono a (mem_cons_of_mem _ ha)) hemits.widened hemits.computes
      have hnext := addProduct_continues hacc c (hemits.trans hrest)
      obtain ⟨acc', y', hfold, hgrows, hsums, hvalue⟩ := ih hkeys' hts' hnext.sums fun h => by
        rw [hnext.constant]
        obtain ⟨u, hu, hnil⟩ := h
        exact hconstant ⟨u, mem_cons_of_mem _ hu, hnil⟩
      refine ⟨acc', y', ?_, hnext.grows.trans hgrows, hsums, ?_⟩
      · simpa [foldlM_cons, addMono, hatom, hprod] using hfold
      · rw [hvalue, hnext.constant]
        have hmv : monoValue σ lanes (.value v :: mono) =
            BitVec.ofInt 64 (σ v) * monoValue σ lanes mono := rfl
        simp only [termsValue, map_cons, sum_cons, hmv]
        ring

omit [DecidableEq V] in
theorem finish_emits {acc : Accumulator V} {y : BitVec 64}
    (hacc : Sums type σ acc y) :
    Emits type σ acc.builder (finish acc).2 (finish acc).1 (y + acc.constant) := by
  have hcst := create_emits hacc.widened (.constant acc.constant)
  simp only [finish]
  cases hsum : acc.sum with
  | none =>
    rw [hacc.none hsum, zero_add]
    exact hcst
  | some sum =>
    have hy := (hacc.some sum hsum).mono type σ hcst.grows
    by_cases hzero : acc.constant = 0
    · simp only [hzero, if_true, add_zero]
      rw [hzero] at hcst hy
      exact ⟨hcst.grows, hcst.widened, hy⟩
    · simp only [if_neg hzero]
      have hadd := create_emits hcst.widened
        (.addI sum (create (.constant acc.constant) acc.builder).1)
      have hvalue : (Op.addI sum (create (.constant acc.constant) acc.builder).1).eval type σ
          (results type σ (create (.constant acc.constant) acc.builder).2.ops) =
            y + acc.constant := by
        simp only [Op.eval, hy.eval, hcst.computes.eval]
      rw [hvalue] at hadd
      exact hcst.trans hadd

variable [LinearOrder (Atom V)]

theorem materialize_emits (htype : Typed type σ) {b : Builder V} (hb : Widened type σ b)
    {p : Poly (Atom V) (BitVec 64)} (hkeys : p.terms.Pairwise (·.1 < ·.1))
    (hp : ∀ t ∈ p.terms, OverValues t.1) :
    ∃ r b', materialize type b p = some (r, b') ∧
      Emits type σ b b' r (p.eval (ringValuation (BitVec 64) σ lanes)) := by
  have hnone : Sums type σ ⟨none, 0, b⟩ 0 := ⟨hb, fun _ => rfl, nofun⟩
  obtain ⟨acc, y, hfold, hgrows, hsums, hvalue⟩ := foldlM_addMono_sums lanes htype p.terms
    (hkeys.imp fun h => h.ne) hp hnone fun _ => rfl
  have hfinish := finish_emits hsums
  refine ⟨(finish acc).1, (finish acc).2, ?_, hgrows.trans hfinish.grows, hfinish.widened, ?_⟩
  · rw [materialize, hfold]
    rfl
  · have heval : p.eval (ringValuation (BitVec 64) σ lanes) = y + acc.constant := by
      rw [hvalue]
      simp [Poly.eval, termsValue, monoValue]
    rw [heval]
    exact hfinish.computes

end Machine

/-! ### The algebra as a whole -/

/-- What the algebra gives. A polynomial read off an expression has the expression's value,
modulo 2^64 and, where the coefficients fit, over the integers; equality of polynomials is
decided modulo 2^64 and, where the coefficients fit, over the integers; `split` divides by
an atom; and the code for a polynomial over values computes its value. -/
theorem polyAlgebra_spec (V : Type) [DecidableEq V] [LinearOrder (Atom V)] :
    (∀ (a : Operand V) (lane : Dim) (p : Poly (Atom V) (BitVec 64)),
      operand (BitVec 64) a lane = some p → a.WellFormed →
      ∀ (σ : V → ℤ) (lanes : Dim → ℕ) (x : ℤ),
        List.Forall₂ (· < ·) (index lane lanes a.shape) a.shape →
        a.elem σ (index lane lanes a.shape) = some x →
        (a.Regular (BitVec 64) lane → p.eval (ringValuation (BitVec 64) σ lanes) = x) ∧
        ∀ q, operand ℤ a lane = some q → CoeffsFit q → a.Regular ℤ lane →
          (signed p).eval (valuation σ lanes) = x) ∧
    (∀ e f : PolyExpr (Atom V),
      ((e.build (BitVec 64)).beq (f.build (BitVec 64)) = true ↔
        MvPolynomial.map (Int.castRingHom (BitVec 64)) e.toMv =
          MvPolynomial.map (Int.castRingHom (BitVec 64)) f.toMv) ∧
      (CoeffsFit (e.build ℤ) → CoeffsFit (f.build ℤ) →
        ((e.build (BitVec 64)).beq (f.build (BitVec 64)) = true ↔ e.toMv = f.toMv))) ∧
    (∀ (p : Poly (Atom V) (BitVec 64)) (x : Atom V) (a b : Poly (Atom V) (BitVec 64)),
      Canonical p.terms → p.split x = some (a, b) →
      a.mentions x = false ∧ b.mentions x = false ∧
        (signed p).toMv = (signed a).toMv * MvPolynomial.X x + (signed b).toMv) ∧
    (∀ (type : V → IntType) (σ : V → ℤ) (lanes : Dim → ℕ) (b : Builder V)
      (p : Poly (Atom V) (BitVec 64)), Typed type σ → Widened type σ b →
      p.terms.Pairwise (·.1 < ·.1) → (∀ t ∈ p.terms, OverValues t.1) →
      ∃ r b', materialize type b p = some (r, b') ∧
        Emits type σ b b' r (p.eval (ringValuation (BitVec 64) σ lanes))) := by
  refine ⟨?_, ?_, ?_, ?_⟩
  · intro a lane p h hwf σ lanes x hidx hx
    constructor
    · intro hreg
      exact operand_eval σ h hwf hreg hidx hx
    · intro q hq hfit hreg
      exact operand_eval_signed σ h hq hfit hwf hreg hidx hx
  · intro e f
    exact ⟨PolyExpr.beq_build_iff (BitVec 64) e f, PolyExpr.beq_build_iff_int⟩
  · intro p x a b hp h
    exact split_signed hp h
  · intro type σ lanes b p htype hb hkeys hp
    exact materialize_emits lanes htype hb hkeys hp

/-! ### Small expressions -/

def Atom.code : Atom ℕ → ℕ
  | .dim .I => 0
  | .dim .J => 1
  | .value v => v + 2

theorem Atom.code_injective : Function.Injective Atom.code := by
  intro a b h
  cases a with
  | dim d =>
    cases b with
    | dim d' => cases d <;> cases d' <;> simp_all [code]
    | value v => cases d <;> simp [code] at h
  | value v =>
    cases b with
    | dim d => cases d <;> simp [code] at h
    | value w => simpa [code] using h

instance : LinearOrder (Atom ℕ) := .lift' Atom.code Atom.code_injective

/-- `tt.splat(%0 * 32) + tt.make_range(0, 32)`. -/
def blockOffsets : Operand ℕ :=
  .tensor (.binary .addI
    (.splat [32] (.binary .mulI (.int 32) (.value (.int 32) 0) (.constant (.int 32) 32)))
    (.makeRange 0 32))

theorem polyAlgebra_spec_blockOffsets :
    ∃ p : Poly (Atom ℕ) (BitVec 64), operand (BitVec 64) blockOffsets .I = some p ∧
      p.eval (ringValuation (BitVec 64) (fun _ => 3) fun _ => 7) = 103 := by
  obtain ⟨p, hp⟩ : ∃ p : Poly (Atom ℕ) (BitVec 64),
      operand (BitVec 64) blockOffsets .I = some p := ⟨_, rfl⟩
  have hwf : blockOffsets.WellFormed := by
    refine ⟨trivial, ?_, rfl⟩
    exact ⟨by decide, by decide, by decide⟩
  have hspec := (polyAlgebra_spec ℕ).1 blockOffsets .I p hp hwf (fun _ => 3) (fun _ => 7) 103
    (by decide) (by decide)
  refine ⟨p, hp, ?_⟩
  have hvalue := hspec.1 ⟨trivial, le_refl (0 : ℤ)⟩
  simpa using hvalue

/-- `tt.make_range(0, 1)` stretched to 16 lanes: zero everywhere. -/
def stretchedRange : Operand ℕ := .tensor (.broadcast [16] (.makeRange 0 1))

/-- The polynomial of a stretched range is its lane, so at lane 5 it gives 5 for 0; and
`2^32 * 2^32` compares equal to 0. -/
theorem polyAlgebra_limits :
    (∃ p : Poly (Atom ℕ) (BitVec 64), operand (BitVec 64) stretchedRange .I = some p ∧
      stretchedRange.WellFormed ∧
      stretchedRange.elem (fun _ => 0) (index .I (fun _ => 5) stretchedRange.shape) = some 0 ∧
      p.eval (ringValuation (BitVec 64) (fun _ => 0) fun _ => 5) = 5) ∧
    ((Poly.cst (2 ^ 32) : Poly (Atom ℕ) (BitVec 64)).mul (.cst (2 ^ 32))).beq (.cst 0) = true ∧
    (PolyExpr.mul (.cst (2 ^ 32)) (.cst (2 ^ 32)) : PolyExpr (Atom ℕ)).toMv ≠
      (PolyExpr.cst 0).toMv := by
  refine ⟨⟨_, rfl, ⟨⟨by decide, by decide, by decide⟩, ?_⟩, rfl, by decide⟩, by decide, ?_⟩
  · exact .cons (.inl rfl) .nil
  · intro h
    have hvalue := congrArg (MvPolynomial.eval fun _ => 0) h
    rw [PolyExpr.eval_toMv, PolyExpr.eval_toMv] at hvalue
    exact absurd hvalue (by decide)

end TritonCpu.PolyMaterialize
