import Mathlib.Data.List.Forall2
import Mathlib.Data.List.Lex
import Mathlib.Tactic.Ring

/-!
# Loop nests

A nest of counted loops visits the points of a box in lexicographic order. An
invariant of the visited points that one iteration extends holds of the whole
box after the nest, and an iteration may use every point before its own.
-/

set_option autoImplicit false

namespace TritonCpu.LoopNest

open List

variable {S : Type*}

/-- The nest of loops over `0 ≤ iv < ub`, the first bound outermost. -/
def buildLoopNest : List ℕ → (List ℤ → S → Option S) → S → Option S
  | [], body, s => body [] s
  | ub :: ubs, body, s =>
    (List.range ub).foldlM
      (fun s (iv : ℕ) => buildLoopNest ubs (fun ivs => body ((iv : ℤ) :: ivs)) s) s

def points : List ℕ → List (List ℤ)
  | [] => [[]]
  | ub :: ubs => (List.range ub).flatMap fun (iv : ℕ) => (points ubs).map ((iv : ℤ) :: ·)

def InBounds (shape : List ℕ) (idxs : List ℤ) : Prop :=
  List.Forall₂ (fun (i : ℤ) (d : ℕ) => 0 ≤ i ∧ i < d) idxs shape

instance (shape : List ℕ) (idxs : List ℤ) : Decidable (InBounds shape idxs) :=
  inferInstanceAs (Decidable (List.Forall₂ _ idxs shape))

theorem buildLoopNest_eq (ubs : List ℕ) (body : List ℤ → S → Option S) (s : S) :
    buildLoopNest ubs body s = (points ubs).foldlM (fun s ivs => body ivs s) s := by
  induction ubs generalizing body s with
  | nil => simp [buildLoopNest, points]
  | cons ub ubs ih =>
    rw [buildLoopNest, points]
    simp only [ih]
    generalize List.range ub = l
    induction l generalizing s with
    | nil => rfl
    | cons iv l ihl =>
      rw [foldlM_cons, flatMap_cons, foldlM_append, foldlM_map]
      exact bind_congr fun s' => ihl s'

theorem mem_points {ubs : List ℕ} {ivs : List ℤ} : ivs ∈ points ubs ↔ InBounds ubs ivs := by
  induction ubs generalizing ivs with
  | nil => simp [points, InBounds]
  | cons ub ubs ih =>
    simp only [points, mem_flatMap, mem_range, mem_map]
    constructor
    · rintro ⟨iv, hiv, rest, hrest, rfl⟩
      exact .cons ⟨Int.natCast_nonneg iv, Int.ofNat_lt.mpr hiv⟩ (ih.mp hrest)
    · intro h
      cases h with
      | @cons i _ rest _ hi hrest =>
        obtain ⟨iv, rfl⟩ := Int.eq_ofNat_of_zero_le hi.1
        exact ⟨iv, Int.ofNat_lt.mp hi.2, rest, ih.mpr hrest, rfl⟩

theorem points_sorted (ubs : List ℕ) : (points ubs).Pairwise (List.Lex (· < ·)) := by
  induction ubs with
  | nil => exact pairwise_singleton _ _
  | cons ub ubs ih =>
    rw [points, pairwise_flatMap]
    constructor
    · intro iv _
      rw [pairwise_map]
      exact ih.imp fun h => .cons h
    · refine List.pairwise_lt_range.imp fun hlt => ?_
      intro x hx y hy
      obtain ⟨_, -, rfl⟩ := mem_map.mp hx
      obtain ⟨_, -, rfl⟩ := mem_map.mp hy
      exact .rel (Int.ofNat_lt.mpr hlt)

theorem lex_irrefl (ivs : List ℤ) : ¬ List.Lex (· < ·) ivs ivs := by
  induction ivs with
  | nil => exact fun h => nomatch h
  | cons iv ivs ih =>
    intro h
    cases h with
    | cons h => exact ih h
    | rel h => exact lt_irrefl iv h

theorem lex_set {ivs : List ℤ} {axis : ℕ} {i j : ℤ} (hi : ivs[axis]? = some i) (hlt : j < i) :
    List.Lex (· < ·) (ivs.set axis j) ivs := by
  induction ivs generalizing axis with
  | nil => simp at hi
  | cons iv ivs ih =>
    cases axis with
    | zero =>
      obtain rfl : iv = i := Option.some.inj hi
      exact .rel hlt
    | succ axis => exact .cons (ih hi)

theorem InBounds.set {shape : List ℕ} {idxs : List ℤ} (h : InBounds shape idxs) {axis : ℕ} {d : ℕ}
    (hd : shape[axis]? = some d) {i : ℤ} (hi : 0 ≤ i ∧ i < d) : InBounds shape (idxs.set axis i) := by
  induction h generalizing axis with
  | nil => simp at hd
  | cons hfirst hrest ih =>
    cases axis with
    | zero =>
      rw [← Option.some.inj hd] at hi
      exact .cons hi hrest
    | succ axis => exact .cons hfirst (ih hd)

theorem InBounds.coordinate {shape : List ℕ} {idxs : List ℤ} (h : InBounds shape idxs) {axis : ℕ}
    {d : ℕ} (hd : shape[axis]? = some d) : ∃ i, idxs[axis]? = some i ∧ 0 ≤ i ∧ i < d := by
  induction h generalizing axis with
  | nil => simp at hd
  | @cons i _ _ _ hfirst hrest ih =>
    cases axis with
    | zero =>
      rw [← Option.some.inj hd]
      exact ⟨i, rfl, hfirst⟩
    | succ axis => exact ih hd

theorem foldlM_invariant {α : Type*} {f : S → α → Option S} {P : List α → S → Prop} (l : List α)
    {s : S} (hinit : P [] s)
    (hstep : ∀ before x after s, l = before ++ x :: after → P before s →
      ∃ s', f s x = some s' ∧ P (before ++ [x]) s') : ∃ s', l.foldlM f s = some s' ∧ P l s' := by
  suffices h : ∀ before after s, l = before ++ after → P before s →
      ∃ s', after.foldlM f s = some s' ∧ P l s' from h [] l s rfl hinit
  intro before after
  induction after generalizing before with
  | nil =>
    intro s hl hP
    rw [append_nil] at hl
    exact ⟨s, rfl, hl ▸ hP⟩
  | cons x after ih =>
    intro s hl hP
    obtain ⟨s₁, hx, hP₁⟩ := hstep before x after s hl hP
    obtain ⟨s₂, hrest, hP₂⟩ := ih (before ++ [x]) s₁ (by rw [hl, append_assoc]; rfl) hP₁
    refine ⟨s₂, ?_, hP₂⟩
    rw [foldlM_cons, hx]
    exact hrest

theorem buildLoopNest_invariant {ubs : List ℕ} {body : List ℤ → S → Option S}
    {P : List (List ℤ) → S → Prop} {s : S} (hinit : P [] s)
    (hstep : ∀ done ivs s, InBounds ubs ivs → ivs ∉ done →
      (∀ jvs, InBounds ubs jvs → List.Lex (· < ·) jvs ivs → jvs ∈ done) → P done s →
      ∃ s', body ivs s = some s' ∧ P (done ++ [ivs]) s') :
    ∃ s', buildLoopNest ubs body s = some s' ∧ P (points ubs) s' := by
  rw [buildLoopNest_eq]
  refine foldlM_invariant (points ubs) hinit fun before ivs after s hl hP => ?_
  have hsorted := points_sorted ubs
  rw [hl, pairwise_append] at hsorted
  obtain ⟨-, hafter, hbefore⟩ := hsorted
  refine hstep before ivs s (mem_points.mp (hl ▸ mem_append_right _ mem_cons_self))
    (fun hmem => lex_irrefl ivs (hbefore ivs hmem ivs mem_cons_self)) ?_ hP
  intro jvs hjvs hlex
  have hmem := mem_points.mpr hjvs
  rw [hl] at hmem
  rcases mem_append.mp hmem with hmem | hmem
  · exact hmem
  · exfalso
    rcases mem_cons.mp hmem with rfl | hmem
    · exact lex_irrefl jvs hlex
    · exact asymm hlex (rel_of_pairwise_cons hafter hmem)

/-! Prefix scans. -/

variable {α : Type*}

/-- The inclusive scan: the elements up to an index, combined from the left. -/
def inclusiveScan (op : α → α → α) (f : ℕ → α) : ℕ → α
  | 0 => f 0
  | k + 1 => op (inclusiveScan op f k) (f (k + 1))

end TritonCpu.LoopNest
