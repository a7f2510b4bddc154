import Mathlib.Algebra.MvPolynomial.Eval
import Mathlib.Data.List.Lex
import Mathlib.Data.List.Sort
import Mathlib.Tactic.LinearCombination

/-!
# Polynomials as ordered tables of terms

A polynomial is a table from monomials to coefficients, in the order of the monomials; a
monomial is the sorted list of its atoms. The atoms are ordered in any way, as pointers
are, and the coefficients are those of any commutative ring. The operations keep the table
canonical, and a canonical table is determined by the polynomial it stands for.
-/

set_option autoImplicit false

namespace TritonCpu.PolyAlgebra

open List

abbrev Mono (A : Type) := List A

structure Poly (A R : Type) where
  terms : List (Mono A × R)
  deriving DecidableEq

section Operations

variable {A R : Type} [LinearOrder A] [CommRing R] [DecidableEq R]

/-- `if ((r.terms[m] += c) == 0) r.terms.erase(m)`. -/
def addTerm (m : Mono A) (c : R) : List (Mono A × R) → List (Mono A × R)
  | [] => if c = 0 then [] else [(m, c)]
  | t :: ts =>
      if m < t.1 then if c = 0 then t :: ts else (m, c) :: t :: ts
      else if m = t.1 then if t.2 + c = 0 then ts else (m, t.2 + c) :: ts
      else t :: addTerm m c ts

/-- `r.terms[m] = c`. -/
def setTerm (m : Mono A) (c : R) : List (Mono A × R) → List (Mono A × R)
  | [] => [(m, c)]
  | t :: ts =>
      if m < t.1 then (m, c) :: t :: ts
      else if m = t.1 then (m, c) :: ts
      else t :: setTerm m c ts

namespace Poly

def cst (c : R) : Poly A R := ⟨if c = 0 then [] else [([], c)]⟩

def atom (a : A) : Poly A R := ⟨[([a], 1)]⟩

def add (p o : Poly A R) : Poly A R :=
  ⟨o.terms.foldl (fun r t => addTerm t.1 t.2 r) p.terms⟩

def neg (p : Poly A R) : Poly A R := ⟨p.terms.map fun t => (t.1, -t.2)⟩

def sub (p o : Poly A R) : Poly A R := p.add o.neg

/-- The terms of one row of a product, added to `r`. -/
def mulTerm (o : Poly A R) (r : List (Mono A × R)) (ta : Mono A × R) : List (Mono A × R) :=
  o.terms.foldl
    (fun r tb => addTerm ((ta.1 ++ tb.1).insertionSort (· ≤ ·)) (ta.2 * tb.2) r) r

def mul (p o : Poly A R) : Poly A R := ⟨p.terms.foldl (mulTerm o) []⟩

def beq (p o : Poly A R) : Bool := (p.sub o).terms.isEmpty

def mentions (p : Poly A R) (a : A) : Bool := p.terms.any fun t => t.1.contains a

/-- `p = coeff * a + rest`, where `a` has degree at most one in every term. -/
def split (p : Poly A R) (a : A) : Option (Poly A R × Poly A R) :=
  p.terms.foldlM (fun (coeff, rest) t =>
    let n := t.1.count a
    if n > 1 then none
    else if n = 0 then some (coeff, ⟨setTerm t.1 t.2 rest.terms⟩)
    else some (⟨setTerm (t.1.erase a) t.2 coeff.terms⟩, rest)) (⟨[]⟩, ⟨[]⟩)

def eval (ρ : A → R) (p : Poly A R) : R :=
  (p.terms.map fun t => t.2 * (t.1.map ρ).prod).sum

end Poly

end Operations

/-! ### The polynomial of a table -/

section Denotation

variable {A R : Type} [CommRing R]

open MvPolynomial

noncomputable def degrees (m : Mono A) : A →₀ ℕ := (m.map fun a => Finsupp.single a 1).sum

noncomputable def denote (ts : List (Mono A × R)) : MvPolynomial A R :=
  (ts.map fun t => monomial (degrees t.1) t.2).sum

noncomputable def Poly.toMv (p : Poly A R) : MvPolynomial A R := denote p.terms

@[simp] theorem degrees_nil : degrees ([] : Mono A) = 0 := rfl

@[simp] theorem degrees_cons (a : A) (m : Mono A) :
    degrees (a :: m) = Finsupp.single a 1 + degrees m := rfl

theorem degrees_append (m n : Mono A) : degrees (m ++ n) = degrees m + degrees n := by
  simp [degrees]

theorem degrees_perm {m n : Mono A} (h : m.Perm n) : degrees m = degrees n :=
  (h.map _).sum_eq

theorem degrees_apply [LinearOrder A] (m : Mono A) (a : A) : degrees m a = m.count a := by
  induction m with
  | nil => simp
  | cons b m ih =>
    by_cases hb : b = a
    · subst hb
      simp [ih, Nat.add_comm]
    · simp [ih, hb]

theorem degrees_injective [LinearOrder A] {m n : Mono A} (hm : m.Pairwise (· ≤ ·)) (hn : n.Pairwise (· ≤ ·))
    (h : degrees m = degrees n) : m = n := by
  have hperm : m.Perm n := by
    rw [perm_iff_count]
    intro a
    rw [← degrees_apply, ← degrees_apply, h]
  exact hperm.eq_of_pairwise' hm hn

@[simp] theorem denote_nil : denote ([] : List (Mono A × R)) = 0 := rfl

@[simp] theorem denote_cons (t : Mono A × R) (ts : List (Mono A × R)) :
    denote (t :: ts) = monomial (degrees t.1) t.2 + denote ts := rfl

theorem eval_monomial_degrees (ρ : A → R) (m : Mono A) (c : R) :
    MvPolynomial.eval ρ (monomial (degrees m) c) = c * (m.map ρ).prod := by
  induction m with
  | nil => simp
  | cons a m ih =>
    rw [degrees_cons, monomial_single_add, map_mul, ih]
    simp only [pow_one, eval_X, map_cons, prod_cons]
    ring

theorem Poly.eval_eq (ρ : A → R) (p : Poly A R) : p.eval ρ = MvPolynomial.eval ρ p.toMv := by
  obtain ⟨ts⟩ := p
  induction ts with
  | nil => simp [Poly.eval, Poly.toMv]
  | cons t ts ih =>
    have ih' : (ts.map fun t => t.2 * (t.1.map ρ).prod).sum =
        MvPolynomial.eval ρ (denote ts) := ih
    simp only [Poly.eval, Poly.toMv, map_cons, sum_cons, denote_cons, map_add,
      eval_monomial_degrees, ih']

namespace Poly

theorem toMv_atom (a : A) : (atom a : Poly A R).toMv = X a := by
  simp [toMv, atom, X]

theorem toMv_neg (p : Poly A R) : p.neg.toMv = -p.toMv := by
  obtain ⟨ts⟩ := p
  simp only [toMv, neg]
  induction ts with
  | nil => simp
  | cons t ts ih =>
    rw [map_cons, denote_cons, ih, denote_cons, map_neg]
    ring

end Poly

variable [LinearOrder A] [DecidableEq R]

theorem denote_addTerm (m : Mono A) (c : R) (ts : List (Mono A × R)) :
    denote (addTerm m c ts) = denote ts + monomial (degrees m) c := by
  induction ts with
  | nil =>
    by_cases hc : c = 0
    · simp [addTerm, hc]
    · simp [addTerm, hc]
  | cons t ts ih =>
    by_cases hlt : m < t.1
    · by_cases hc : c = 0
      · simp [addTerm, hlt, hc]
      · simp only [addTerm, if_pos hlt, if_neg hc, denote_cons]
        ring
    · by_cases heq : m = t.1
      · by_cases hc : t.2 + c = 0
        · have hsum : monomial (degrees t.1) t.2 + monomial (degrees t.1) c = 0 := by
            rw [← map_add, hc, map_zero]
          simp only [addTerm, heq, lt_irrefl, if_false, if_true, hc, denote_cons]
          linear_combination -hsum
        · simp only [addTerm, heq, lt_irrefl, if_false, if_true, if_neg hc, denote_cons, map_add]
          ring
      · simp only [addTerm, if_neg hlt, if_neg heq, denote_cons, ih]
        ring

theorem denote_foldl_addTerm (ts r : List (Mono A × R)) :
    denote (ts.foldl (fun r t => addTerm t.1 t.2 r) r) = denote r + denote ts := by
  induction ts generalizing r with
  | nil => simp
  | cons t ts ih =>
    rw [foldl_cons, ih, denote_addTerm, denote_cons]
    ring

namespace Poly

omit [LinearOrder A] in
theorem toMv_cst (c : R) : (cst c : Poly A R).toMv = C c := by
  by_cases hc : c = 0
  · simp [toMv, cst, hc]
  · simp only [toMv, cst, if_neg hc, denote_cons, denote_nil, add_zero, degrees_nil]
    rfl

theorem toMv_add (p o : Poly A R) : (p.add o).toMv = p.toMv + o.toMv :=
  denote_foldl_addTerm _ _

theorem toMv_sub (p o : Poly A R) : (p.sub o).toMv = p.toMv - o.toMv := by
  rw [sub, toMv_add, toMv_neg, sub_eq_add_neg]

theorem denote_mulTerm (o : Poly A R) (r : List (Mono A × R)) (ta : Mono A × R) :
    denote (mulTerm o r ta) = denote r + monomial (degrees ta.1) ta.2 * o.toMv := by
  obtain ⟨ts⟩ := o
  simp only [mulTerm, toMv]
  induction ts generalizing r with
  | nil => simp
  | cons tb ts ih =>
    have hdeg : degrees ((ta.1 ++ tb.1).insertionSort (· ≤ ·)) =
        degrees ta.1 + degrees tb.1 := by
      rw [degrees_perm (perm_insertionSort _ _), degrees_append]
    rw [foldl_cons, ih, denote_addTerm, denote_cons, hdeg, mul_add, monomial_mul]
    ring

theorem toMv_mul (p o : Poly A R) : (p.mul o).toMv = p.toMv * o.toMv := by
  obtain ⟨ts⟩ := p
  have hrows : ∀ r, denote (ts.foldl (mulTerm o) r) = denote r + denote ts * o.toMv := by
    induction ts with
    | nil => simp
    | cons t ts ih =>
      intro r
      rw [foldl_cons, ih, denote_mulTerm, denote_cons]
      ring
  simpa [mul, toMv] using hrows []

end Poly

end Denotation

/-! ### Canonical tables -/

section Canonical

variable {A R : Type} [LinearOrder A] [CommRing R]

/-- The keys are in order, each monomial is sorted, and no coefficient is zero. -/
structure Canonical (ts : List (Mono A × R)) : Prop where
  keys : ts.Pairwise (·.1 < ·.1)
  sorted : ∀ t ∈ ts, t.1.Pairwise (· ≤ ·)
  nonzero : ∀ t ∈ ts, t.2 ≠ 0

theorem Canonical.nil : Canonical ([] : List (Mono A × R)) := ⟨.nil, by simp, by simp⟩

theorem Canonical.tail {t : Mono A × R} {ts : List (Mono A × R)} (h : Canonical (t :: ts)) :
    Canonical ts :=
  ⟨h.keys.of_cons, fun u hu => h.sorted u (mem_cons_of_mem _ hu),
    fun u hu => h.nonzero u (mem_cons_of_mem _ hu)⟩

theorem Canonical.cons {t : Mono A × R} {ts : List (Mono A × R)} (hts : Canonical ts)
    (hkey : ∀ u ∈ ts, t.1 < u.1) (hsorted : t.1.Pairwise (· ≤ ·)) (hc : t.2 ≠ 0) :
    Canonical (t :: ts) :=
  ⟨pairwise_cons.mpr ⟨hkey, hts.keys⟩,
    forall_mem_cons.mpr ⟨hsorted, hts.sorted⟩,
    forall_mem_cons.mpr ⟨hc, hts.nonzero⟩⟩

theorem Canonical.head_lt {t : Mono A × R} {ts : List (Mono A × R)} (h : Canonical (t :: ts)) :
    ∀ u ∈ ts, t.1 < u.1 :=
  (pairwise_cons.mp h.keys).1

open MvPolynomial

theorem coeff_denote_of_ne {ts : List (Mono A × R)} {d : A →₀ ℕ}
    (hd : ∀ t ∈ ts, degrees t.1 ≠ d) : coeff d (denote ts) = 0 := by
  induction ts with
  | nil => simp
  | cons t ts ih =>
    rw [denote_cons, coeff_add, coeff_monomial, if_neg (hd t (by simp)),
      ih fun u hu => hd u (mem_cons_of_mem _ hu), add_zero]

theorem coeff_denote_of_notMem {ts : List (Mono A × R)} {m : Mono A}
    (hm : m.Pairwise (· ≤ ·)) (hsorted : ∀ t ∈ ts, t.1.Pairwise (· ≤ ·))
    (hkey : ∀ t ∈ ts, t.1 ≠ m) : coeff (degrees m) (denote ts) = 0 :=
  coeff_denote_of_ne fun t ht heq => hkey t ht (degrees_injective (hsorted t ht) hm heq)

theorem Canonical.coeff_eq {ts : List (Mono A × R)} (h : Canonical ts) {t : Mono A × R}
    (ht : t ∈ ts) : coeff (degrees t.1) (denote ts) = t.2 := by
  induction ts with
  | nil => simp at ht
  | cons u ts ih =>
    rw [denote_cons, coeff_add, coeff_monomial]
    cases mem_cons.mp ht with
    | inl heq =>
      subst heq
      rw [if_pos rfl, coeff_denote_of_notMem (h.sorted t (by simp)) h.tail.sorted
        fun v hv => (h.head_lt v hv).ne', add_zero]
    | inr hmem =>
      have hne : degrees u.1 ≠ degrees t.1 := fun heq =>
        (h.head_lt t hmem).ne (degrees_injective (h.sorted u (by simp)) (h.sorted t ht) heq)
      rw [if_neg hne, zero_add, ih h.tail hmem]

theorem Canonical.mem_iff {ts : List (Mono A × R)} (h : Canonical ts) (t : Mono A × R) :
    t ∈ ts ↔ t.1.Pairwise (· ≤ ·) ∧ t.2 ≠ 0 ∧ coeff (degrees t.1) (denote ts) = t.2 := by
  constructor
  · intro ht
    exact ⟨h.sorted t ht, h.nonzero t ht, h.coeff_eq ht⟩
  · rintro ⟨hsorted, hc, hcoeff⟩
    by_contra hmem
    by_cases hkey : ∃ u ∈ ts, u.1 = t.1
    · obtain ⟨u, hu, hkey⟩ := hkey
      have heq : u.2 = t.2 := by rw [← h.coeff_eq hu, hkey, hcoeff]
      exact hmem (Prod.ext hkey heq ▸ hu)
    · rw [coeff_denote_of_notMem hsorted h.sorted fun u hu heq => hkey ⟨u, hu, heq⟩] at hcoeff
      exact hc hcoeff.symm

theorem Canonical.eq_of_denote_eq {ts us : List (Mono A × R)} (hts : Canonical ts)
    (hus : Canonical us) (h : denote ts = denote us) : ts = us := by
  have hmem (t : Mono A × R) : t ∈ ts ↔ t ∈ us := by rw [hts.mem_iff, hus.mem_iff, h]
  have hnodup {vs : List (Mono A × R)} (hvs : Canonical vs) : vs.Nodup :=
    hvs.keys.imp fun hlt heq => absurd (congrArg Prod.fst heq) hlt.ne
  have hperm : ts.Perm us := (perm_ext_iff_of_nodup (hnodup hts) (hnodup hus)).mpr hmem
  exact hperm.eq_of_pairwise (fun _ _ _ _ h h' => absurd h' (lt_asymm h)) hts.keys hus.keys

theorem Canonical.eq_nil_iff {ts : List (Mono A × R)} (h : Canonical ts) :
    ts = [] ↔ denote ts = 0 :=
  ⟨fun heq => by rw [heq, denote_nil], fun heq => h.eq_of_denote_eq .nil (by simpa using heq)⟩

variable [DecidableEq R]

theorem mem_addTerm {m : Mono A} {c : R} {ts : List (Mono A × R)} {t : Mono A × R}
    (ht : t ∈ addTerm m c ts) : t.1 = m ∨ t ∈ ts := by
  induction ts with
  | nil =>
    by_cases hc : c = 0
    · simp [addTerm, hc] at ht
    · simp only [addTerm, if_neg hc, mem_singleton] at ht
      exact .inl (ht ▸ rfl)
  | cons u ts ih =>
    simp only [addTerm] at ht
    split_ifs at ht
    · exact .inr ht
    · cases mem_cons.mp ht with
      | inl heq => exact .inl (heq ▸ rfl)
      | inr hmem => exact .inr hmem
    · exact .inr (mem_cons_of_mem _ ht)
    · cases mem_cons.mp ht with
      | inl heq => exact .inl (heq ▸ rfl)
      | inr hmem => exact .inr (mem_cons_of_mem _ hmem)
    · cases mem_cons.mp ht with
      | inl heq => exact .inr (heq ▸ mem_cons_self)
      | inr hmem => exact (ih hmem).imp_right (mem_cons_of_mem _)

theorem Canonical.addTerm {m : Mono A} (hm : m.Pairwise (· ≤ ·)) (c : R)
    {ts : List (Mono A × R)} (h : Canonical ts) : Canonical (addTerm m c ts) := by
  induction ts with
  | nil =>
    by_cases hc : c = 0
    · simpa [PolyAlgebra.addTerm, hc] using h
    · simpa [PolyAlgebra.addTerm, hc] using h.cons (t := (m, c)) (by simp) hm hc
  | cons t ts ih =>
    simp only [PolyAlgebra.addTerm]
    split_ifs with hlt hc heq hsum
    · exact h
    · refine h.cons (fun u hu => ?_) hm hc
      cases mem_cons.mp hu with
      | inl hut => exact hut ▸ hlt
      | inr hmem => exact hlt.trans (h.head_lt u hmem)
    · exact h.tail
    · exact h.tail.cons (fun u hu => heq ▸ h.head_lt u hu) hm hsum
    · refine (ih h.tail).cons (fun u hu => ?_) (h.sorted t (by simp)) (h.nonzero t (by simp))
      cases mem_addTerm hu with
      | inl hum => exact hum ▸ lt_of_le_of_ne (not_lt.mp hlt) (Ne.symm heq)
      | inr hmem => exact h.head_lt u hmem

namespace Poly

theorem canonical_cst (c : R) : Canonical (cst c : Poly A R).terms := by
  by_cases hc : c = 0
  · simpa [cst, hc] using Canonical.nil
  · simpa [cst, hc] using Canonical.nil.cons (t := ([], c)) (by simp) .nil hc

omit [DecidableEq R] in
theorem canonical_atom [Nontrivial R] (a : A) : Canonical (atom a : Poly A R).terms :=
  Canonical.nil.cons (t := ([a], 1)) (by simp) (pairwise_singleton _ a) one_ne_zero

theorem canonical_add {p o : Poly A R} (hp : Canonical p.terms)
    (ho : ∀ t ∈ o.terms, t.1.Pairwise (· ≤ ·)) : Canonical (p.add o).terms := by
  obtain ⟨ts⟩ := o
  simp only [add] at ho ⊢
  generalize p.terms = r at hp
  induction ts generalizing r with
  | nil => exact hp
  | cons t ts ih =>
    exact ih (fun u hu => ho u (mem_cons_of_mem _ hu)) _ (hp.addTerm (ho t (by simp)) t.2)

omit [DecidableEq R] in
theorem canonical_neg {p : Poly A R} (hp : Canonical p.terms) : Canonical p.neg.terms where
  keys := pairwise_map.mpr hp.keys
  sorted := by
    intro t ht
    obtain ⟨u, hu, rfl⟩ := mem_map.mp ht
    exact hp.sorted u hu
  nonzero := by
    intro t ht
    obtain ⟨u, hu, rfl⟩ := mem_map.mp ht
    exact neg_ne_zero.mpr (hp.nonzero u hu)

theorem canonical_sub {p o : Poly A R} (hp : Canonical p.terms) (ho : Canonical o.terms) :
    Canonical (p.sub o).terms :=
  canonical_add hp (canonical_neg ho).sorted

theorem canonical_mulTerm (o : Poly A R) {r : List (Mono A × R)} (hr : Canonical r)
    (ta : Mono A × R) : Canonical (mulTerm o r ta) := by
  obtain ⟨ts⟩ := o
  simp only [mulTerm]
  induction ts generalizing r with
  | nil => exact hr
  | cons tb ts ih =>
    exact ih (hr.addTerm (pairwise_insertionSort _ _) _)

theorem canonical_mul (p o : Poly A R) : Canonical (p.mul o).terms := by
  obtain ⟨ts⟩ := p
  simp only [mul]
  have hnil : Canonical ([] : List (Mono A × R)) := .nil
  generalize ([] : List (Mono A × R)) = r at hnil
  induction ts generalizing r with
  | nil => exact hnil
  | cons t ts ih => exact ih _ (canonical_mulTerm o hnil t)

theorem beq_iff {p o : Poly A R} (hp : Canonical p.terms) (ho : Canonical o.terms) :
    p.beq o = true ↔ p.toMv = o.toMv := by
  have hzero : denote (p.sub o).terms = 0 ↔ p.toMv = o.toMv := by
    rw [← sub_eq_zero (a := p.toMv), ← toMv_sub, toMv]
  rw [beq, List.isEmpty_iff, (canonical_sub hp ho).eq_nil_iff, hzero]

end Poly

end Canonical

/-! ### Splitting off an atom -/

section Split

variable {A R : Type} [LinearOrder A] [CommRing R]

open MvPolynomial

omit [CommRing R] in
theorem Poly.mentions_eq_false {p : Poly A R} {a : A} :
    p.mentions a = false ↔ ∀ t ∈ p.terms, a ∉ t.1 := by
  simp [mentions]

theorem Poly.eval_congr {p : Poly A R} {ρ ρ' : A → R}
    (h : ∀ a, p.mentions a = true → ρ a = ρ' a) : p.eval ρ = p.eval ρ' := by
  have hterm : ∀ t ∈ p.terms, t.2 * (t.1.map ρ).prod = t.2 * (t.1.map ρ').prod := by
    intro t ht
    rw [map_congr_left fun a ha => h a ?_]
    exact any_eq_true.mpr ⟨t, ht, by simpa using ha⟩
  rw [Poly.eval, map_congr_left hterm, Poly.eval]

theorem monomial_erase {m : Mono A} {a : A} (ha : a ∈ m) (c : R) :
    monomial (degrees (m.erase a)) c * X a = monomial (degrees m) c := by
  rw [degrees_perm (perm_cons_erase ha), degrees_cons, monomial_single_add, pow_one,
    mul_comm]

theorem erase_injective {m n : Mono A} {a : A} (hm : m.Pairwise (· ≤ ·))
    (hn : n.Pairwise (· ≤ ·)) (ham : a ∈ m) (han : a ∈ n) (h : m.erase a = n.erase a) :
    m = n := by
  have hperm : m.Perm n :=
    (perm_cons_erase ham).trans (h ▸ (perm_cons_erase han).symm)
  exact hperm.eq_of_pairwise' hm hn

variable [DecidableEq R]

theorem setTerm_eq_addTerm {m : Mono A} {c : R} (hc : c ≠ 0) {ts : List (Mono A × R)}
    (hm : ∀ t ∈ ts, t.1 ≠ m) : setTerm m c ts = addTerm m c ts := by
  induction ts with
  | nil => simp [setTerm, addTerm, hc]
  | cons t ts ih =>
    have hne : m ≠ t.1 := (hm t (by simp)).symm
    simp only [setTerm, addTerm, if_neg hne, if_neg hc,
      ih fun u hu => hm u (mem_cons_of_mem _ hu)]

/-- The two tables that `split` builds: canonical, and free of the atom. -/
structure Free (a : A) (p : Poly A R) : Prop where
  canonical : Canonical p.terms
  free : ∀ t ∈ p.terms, a ∉ t.1

theorem Free.set {a : A} {p : Poly A R} (hp : Free a p) {m : Mono A} {c : R}
    (hm : m.Pairwise (· ≤ ·)) (ha : a ∉ m) (hc : c ≠ 0) (hfresh : ∀ t ∈ p.terms, t.1 ≠ m) :
    Free a ⟨setTerm m c p.terms⟩ := by
  rw [setTerm_eq_addTerm hc hfresh]
  refine ⟨hp.canonical.addTerm hm c, fun t ht => ?_⟩
  cases mem_addTerm ht with
  | inl heq => exact heq ▸ ha
  | inr hmem => exact hp.free t hmem

theorem split_loop (a : A) (ts : List (Mono A × R)) (hts : Canonical ts)
    {coeff rest coeff' rest' : Poly A R} (hcoeff : Free a coeff) (hrest : Free a rest)
    (hfreshc : ∀ t ∈ ts, a ∈ t.1 → ∀ u ∈ coeff.terms, u.1 ≠ t.1.erase a)
    (hfreshr : ∀ t ∈ ts, ∀ u ∈ rest.terms, u.1 ≠ t.1)
    (h : ts.foldlM (fun (st : Poly A R × Poly A R) t =>
      if t.1.count a > 1 then none
      else if t.1.count a = 0 then some (st.1, ⟨setTerm t.1 t.2 st.2.terms⟩)
      else some (⟨setTerm (t.1.erase a) t.2 st.1.terms⟩, st.2)) (coeff, rest) =
        some (coeff', rest')) :
    Free a coeff' ∧ Free a rest' ∧
      coeff'.toMv * X a + rest'.toMv = coeff.toMv * X a + rest.toMv + denote ts := by
  induction ts generalizing coeff rest with
  | nil =>
    obtain ⟨rfl, rfl⟩ := Prod.mk.inj (Option.some.inj h)
    exact ⟨hcoeff, hrest, by simp⟩
  | cons t ts ih =>
    have hsorted := hts.sorted t (by simp)
    have hc := hts.nonzero t (by simp)
    have hlater : ∀ u ∈ ts, u.1 ≠ t.1 := fun u hu => (hts.head_lt u hu).ne'
    rw [foldlM_cons] at h
    by_cases hmany : t.1.count a > 1
    · simp [hmany] at h
    by_cases hnone : t.1.count a = 0
    · -- the term goes to the rest
      have ha : a ∉ t.1 := count_eq_zero.mp hnone
      have hfresh : ∀ u ∈ rest.terms, u.1 ≠ t.1 := hfreshr t (by simp)
      simp only [hnone, gt_iff_lt, not_lt_zero, if_false, if_true, Option.bind_eq_bind,
        Option.bind_some] at h
      have hfreshr' : ∀ u ∈ ts, ∀ v ∈ setTerm t.1 t.2 rest.terms, v.1 ≠ u.1 := by
        intro u hu v hv
        rw [setTerm_eq_addTerm hc hfresh] at hv
        cases mem_addTerm hv with
        | inl heq => exact heq ▸ (hlater u hu).symm
        | inr hmem => exact hfreshr u (mem_cons_of_mem _ hu) v hmem
      obtain ⟨hcoeff', hrest', hsum⟩ := ih hts.tail hcoeff (hrest.set hsorted ha hc hfresh)
        (fun u hu => hfreshc u (mem_cons_of_mem _ hu)) hfreshr' h
      refine ⟨hcoeff', hrest', ?_⟩
      rw [hsum]
      simp only [Poly.toMv, setTerm_eq_addTerm hc hfresh, denote_addTerm, denote_cons]
      ring
    · -- the term goes to the coefficient, without the atom
      have ha : a ∈ t.1 := count_pos_iff.mp (Nat.pos_of_ne_zero hnone)
      have herase : a ∉ t.1.erase a := by
        rw [← count_eq_zero, count_erase_self]
        omega
      have hfresh : ∀ u ∈ coeff.terms, u.1 ≠ t.1.erase a := hfreshc t (by simp) ha
      have hsorted' : (t.1.erase a).Pairwise (· ≤ ·) := hsorted.sublist erase_sublist
      simp only [if_neg hmany, if_neg hnone, Option.bind_eq_bind, Option.bind_some] at h
      have hfreshc' : ∀ u ∈ ts, a ∈ u.1 → ∀ v ∈ setTerm (t.1.erase a) t.2 coeff.terms,
          v.1 ≠ u.1.erase a := by
        intro u hu hau v hv
        rw [setTerm_eq_addTerm hc hfresh] at hv
        cases mem_addTerm hv with
        | inl heq =>
          intro heq'
          exact hlater u hu (erase_injective (hts.sorted u (mem_cons_of_mem _ hu)) hsorted
            hau ha (heq'.symm.trans heq))
        | inr hmem => exact hfreshc u (mem_cons_of_mem _ hu) hau v hmem
      obtain ⟨hcoeff', hrest', hsum⟩ := ih hts.tail (hcoeff.set hsorted' herase hc hfresh) hrest
        hfreshc' (fun u hu => hfreshr u (mem_cons_of_mem _ hu)) h
      refine ⟨hcoeff', hrest', ?_⟩
      rw [hsum]
      simp only [Poly.toMv, setTerm_eq_addTerm hc hfresh, denote_addTerm, denote_cons,
        ← monomial_erase ha]
      ring

theorem Poly.split_spec {p : Poly A R} (hp : Canonical p.terms) {a : A}
    {coeff rest : Poly A R} (h : p.split a = some (coeff, rest)) :
    Free a coeff ∧ Free a rest ∧ p.toMv = coeff.toMv * X a + rest.toMv := by
  have hnil : Free a (⟨[]⟩ : Poly A R) := ⟨.nil, by simp⟩
  obtain ⟨hcoeff, hrest, hsum⟩ :=
    split_loop a p.terms hp hnil hnil (by simp) (by simp) h
  refine ⟨hcoeff, hrest, ?_⟩
  rw [hsum]
  simp [toMv]

end Split

/-! ### Coefficients read in another ring -/

section MapCoeffs

variable {A R S : Type}

def Poly.mapCoeffs (f : R → S) (p : Poly A R) : Poly A S :=
  ⟨p.terms.map fun t => (t.1, f t.2)⟩

variable [LinearOrder A]

theorem setTerm_map (f : R → S) (m : Mono A) (c : R) (ts : List (Mono A × R)) :
    setTerm m (f c) (ts.map fun t => (t.1, f t.2)) =
      (setTerm m c ts).map fun t => (t.1, f t.2) := by
  induction ts with
  | nil => rfl
  | cons t ts ih =>
    simp only [map_cons, setTerm]
    split_ifs
    · rfl
    · rfl
    · rw [map_cons, ih]

theorem Poly.split_mapCoeffs (f : R → S) (p : Poly A R) (a : A) :
    (p.mapCoeffs f).split a = (p.split a).map fun (coeff, rest) =>
      (coeff.mapCoeffs f, rest.mapCoeffs f) := by
  obtain ⟨ts⟩ := p
  suffices h : ∀ coeff rest : Poly A R,
      (ts.map fun t => (t.1, f t.2)).foldlM (fun (st : Poly A S × Poly A S) t =>
        if t.1.count a > 1 then none
        else if t.1.count a = 0 then some (st.1, ⟨setTerm t.1 t.2 st.2.terms⟩)
        else some (⟨setTerm (t.1.erase a) t.2 st.1.terms⟩, st.2))
          (coeff.mapCoeffs f, rest.mapCoeffs f) =
      (ts.foldlM (fun (st : Poly A R × Poly A R) t =>
        if t.1.count a > 1 then none
        else if t.1.count a = 0 then some (st.1, ⟨setTerm t.1 t.2 st.2.terms⟩)
        else some (⟨setTerm (t.1.erase a) t.2 st.1.terms⟩, st.2)) (coeff, rest)).map
          fun st => (st.1.mapCoeffs f, st.2.mapCoeffs f) from h ⟨[]⟩ ⟨[]⟩
  induction ts with
  | nil => exact fun _ _ => rfl
  | cons t ts ih =>
    intro coeff rest
    simp only [map_cons, foldlM_cons]
    by_cases hmany : t.1.count a > 1
    · simp [hmany]
    by_cases hnone : t.1.count a = 0
    · simp only [hnone, gt_iff_lt, not_lt_zero, if_false, if_true, Option.bind_eq_bind,
        Option.bind_some]
      rw [← ih coeff ⟨setTerm t.1 t.2 rest.terms⟩]
      simp only [Poly.mapCoeffs, setTerm_map]
    · simp only [if_neg hmany, if_neg hnone, Option.bind_eq_bind, Option.bind_some]
      rw [← ih ⟨setTerm (t.1.erase a) t.2 coeff.terms⟩ rest]
      simp only [Poly.mapCoeffs, setTerm_map]

end MapCoeffs

end TritonCpu.PolyAlgebra
