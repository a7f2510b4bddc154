import Mathlib.Order.WellFoundedSet
import Mathlib.Data.List.Nodup
import Mathlib.Logic.Relation

/-!
# Call graphs

The walk of a call graph visits a function after its callees, from every root
and once for every path. The first visits, in reverse, are an order in which
every function comes after all its callers.
-/

set_option autoImplicit false

namespace TritonCpu.CallWalk

open List

variable {F : Type}

/-- The functions of a module and the callees of each, in the order of its calls. -/
structure CallGraph (F : Type) where
  funcs : List F
  graph : F → List F
  nodup : funcs.Nodup
  resolved : ∀ f ∈ funcs, ∀ g ∈ graph f, g ∈ funcs

/-- Every function of the list comes after its callees, wherever it occurs. -/
def CalleesFirst (graph : F → List F) (l : List F) : Prop :=
  ∀ l₁ f l₂, l = l₁ ++ f :: l₂ → ∀ g ∈ graph f, g ∈ l₁

namespace CalleesFirst

variable {graph : F → List F} {l l' : List F}

theorem nil : CalleesFirst graph [] := by
  intro l₁ f l₂ h
  simp at h

theorem append (h : CalleesFirst graph l) (h' : CalleesFirst graph l') :
    CalleesFirst graph (l ++ l') := by
  intro l₁ f l₂ heq g hg
  rcases append_eq_append_iff.mp heq with ⟨mid, rfl, hmid⟩ | ⟨mid, hmid, heq'⟩
  · exact mem_append_right _ (h' mid f l₂ hmid g hg)
  · cases mid with
    | nil =>
      have hf := h' [] f l₂ heq'.symm g hg
      exact absurd hf not_mem_nil
    | cons e mid =>
      obtain ⟨rfl, rfl⟩ := List.cons.inj heq'
      exact h l₁ f mid hmid g hg

theorem concat {f : F} (h : CalleesFirst graph l) (hf : ∀ g ∈ graph f, g ∈ l) :
    CalleesFirst graph (l ++ [f]) := by
  intro l₁ e l₂ heq g hg
  cases l₂ using List.reverseRecOn with
  | nil =>
    obtain ⟨rfl, he⟩ := append_inj' heq rfl
    obtain rfl := singleton_inj.mp he
    exact hf g hg
  | append_singleton l₂ last =>
    have heq' : l ++ [f] = (l₁ ++ e :: l₂) ++ [last] := by simpa using heq
    obtain ⟨rfl, -⟩ := append_inj' heq' rfl
    exact h l₁ e l₂ rfl g hg

theorem of_append (h : CalleesFirst graph (l ++ l')) : CalleesFirst graph l := by
  intro l₁ f l₂ heq
  exact h l₁ f (l₂ ++ l') (by simp [heq])

end CalleesFirst

section SetVector

variable [DecidableEq F]

def setVector (l : List F) : List F :=
  l.foldl (fun set f => if f ∈ set then set else set ++ [f]) []

theorem setVector_concat (l : List F) (f : F) :
    setVector (l ++ [f]) = if f ∈ setVector l then setVector l else setVector l ++ [f] := by
  rw [setVector, foldl_append]
  rfl

@[simp] theorem mem_setVector (l : List F) (f : F) : f ∈ setVector l ↔ f ∈ l := by
  induction l using List.reverseRecOn with
  | nil => rfl
  | append_singleton l e ih =>
    rw [setVector_concat, mem_append, mem_singleton]
    by_cases he : e ∈ setVector l
    · rw [if_pos he, ih]
      constructor
      · exact Or.inl
      · rintro (hf | rfl)
        · exact hf
        · exact ih.mp he
    · rw [if_neg he, mem_append, mem_singleton, ih]

theorem nodup_setVector (l : List F) : (setVector l).Nodup := by
  induction l using List.reverseRecOn with
  | nil => exact nodup_nil
  | append_singleton l e ih =>
    rw [setVector_concat]
    by_cases he : e ∈ setVector l
    · rwa [if_pos he]
    · rw [if_neg he]
      exact nodup_append.mpr ⟨ih, nodup_singleton e, fun f hf e' he' => by
        obtain rfl := mem_singleton.mp he'
        exact fun h => he (h ▸ hf)⟩

theorem CalleesFirst.setVector {graph : F → List F} {l : List F} (h : CalleesFirst graph l) :
    CalleesFirst graph (setVector l) := by
  induction l using List.reverseRecOn with
  | nil => exact h
  | append_singleton l e ih =>
    have hl := ih h.of_append
    rw [setVector_concat]
    by_cases he : e ∈ CallWalk.setVector l
    · rwa [if_pos he]
    · rw [if_neg he]
      apply hl.concat
      intro g hg
      exact (mem_setVector l g).mpr (h l e [] rfl g hg)

end SetVector

namespace CallGraph

variable (G : CallGraph F)

def Calls (f g : F) : Prop := f ∈ G.funcs ∧ g ∈ G.graph f

def Acyclic : Prop := ∀ f, ¬ Relation.TransGen G.Calls f f

def roots [DecidableEq F] : List F := G.funcs.filter fun g => ∀ f ∈ G.funcs, g ∉ G.graph f

def visitEach (visit : F → Option (List F)) : List F → Option (List F)
  | [] => some []
  | f :: fs => do
    let visits ← visit f
    let rest ← visitEach visit fs
    some (visits ++ rest)

/-- The visits of the nodes below a function in post-order. Nothing is ever
inserted into the set of visited functions, so a function is visited once for
every path to it, and the recursion on a cycle does not end. -/
def doWalk : ℕ → F → Option (List F)
  | 0, _ => none
  | fuel + 1, f => do
    let below ← visitEach (doWalk fuel) (G.graph f)
    some (below ++ [f])

def walk [DecidableEq F] (fuel : ℕ) : Option (List F) := visitEach (G.doWalk fuel) G.roots

section Visits

variable {visit visit' : F → Option (List F)} {fs l : List F}

theorem visitEach_cons {f : F} (h : visitEach visit (f :: fs) = some l) :
    ∃ visits rest, visit f = some visits ∧ visitEach visit fs = some rest ∧ l = visits ++ rest := by
  rw [visitEach] at h
  obtain ⟨visits, hvisits, h⟩ := Option.bind_eq_some_iff.mp h
  obtain ⟨rest, hrest, h⟩ := Option.bind_eq_some_iff.mp h
  exact ⟨visits, rest, hvisits, hrest, (Option.some.inj h).symm⟩

theorem visitEach_calleesFirst {graph : F → List F} (h : visitEach visit fs = some l)
    (hvisit : ∀ f ∈ fs, ∀ visits, visit f = some visits → CalleesFirst graph visits) :
    CalleesFirst graph l := by
  induction fs generalizing l with
  | nil =>
    obtain rfl := Option.some.inj h
    exact CalleesFirst.nil
  | cons f fs ih =>
    obtain ⟨visits, rest, hvisits, hrest, rfl⟩ := visitEach_cons h
    apply CalleesFirst.append
    · exact hvisit f mem_cons_self visits hvisits
    · exact ih hrest fun e he => hvisit e (mem_cons_of_mem _ he)

theorem mem_visitEach (h : visitEach visit fs = some l) (g : F) :
    g ∈ l ↔ ∃ f ∈ fs, ∃ visits, visit f = some visits ∧ g ∈ visits := by
  induction fs generalizing l with
  | nil =>
    obtain rfl := Option.some.inj h
    simp
  | cons f fs ih =>
    obtain ⟨visits, rest, hvisits, hrest, rfl⟩ := visitEach_cons h
    rw [mem_append, ih hrest]
    simp [hvisits]

theorem visitEach_some (h : visitEach visit fs = some l) {f : F} (hf : f ∈ fs) :
    ∃ visits, visit f = some visits := by
  induction fs generalizing l with
  | nil => exact absurd hf not_mem_nil
  | cons e fs ih =>
    obtain ⟨visits, rest, hvisits, hrest, -⟩ := visitEach_cons h
    rcases mem_cons.mp hf with rfl | hf
    · exact ⟨visits, hvisits⟩
    · exact ih hrest hf

theorem visitEach_isSome (h : ∀ f ∈ fs, ∃ visits, visit f = some visits) :
    ∃ l, visitEach visit fs = some l := by
  induction fs with
  | nil => exact ⟨[], rfl⟩
  | cons f fs ih =>
    obtain ⟨visits, hvisits⟩ := h f mem_cons_self
    obtain ⟨rest, hrest⟩ := ih fun e he => h e (mem_cons_of_mem _ he)
    exact ⟨visits ++ rest, by rw [visitEach, hvisits, hrest]; rfl⟩

theorem visitEach_mono (hle : ∀ f visits, visit f = some visits → visit' f = some visits)
    (h : visitEach visit fs = some l) : visitEach visit' fs = some l := by
  induction fs generalizing l with
  | nil => exact h
  | cons f fs ih =>
    obtain ⟨visits, rest, hvisits, hrest, rfl⟩ := visitEach_cons h
    rw [visitEach, hle f visits hvisits, ih hrest]
    rfl

end Visits

variable {G}

theorem doWalk_succ {fuel : ℕ} {f : F} {l : List F} (h : G.doWalk (fuel + 1) f = some l) :
    ∃ below, visitEach (G.doWalk fuel) (G.graph f) = some below ∧ l = below ++ [f] := by
  rw [doWalk] at h
  obtain ⟨below, hbelow, h⟩ := Option.bind_eq_some_iff.mp h
  exact ⟨below, hbelow, (Option.some.inj h).symm⟩

theorem mem_doWalk {fuel : ℕ} {f : F} {l : List F} (h : G.doWalk fuel f = some l) : f ∈ l := by
  cases fuel with
  | zero => cases h
  | succ fuel =>
    obtain ⟨below, -, rfl⟩ := doWalk_succ h
    simp

theorem doWalk_calleesFirst {fuel : ℕ} {f : F} {l : List F} (h : G.doWalk fuel f = some l) :
    CalleesFirst G.graph l := by
  induction fuel generalizing f l with
  | zero => cases h
  | succ fuel ih =>
    obtain ⟨below, hbelow, rfl⟩ := doWalk_succ h
    apply CalleesFirst.concat
    · exact visitEach_calleesFirst hbelow fun g _ visits hvisits => ih hvisits
    · intro g hg
      obtain ⟨visits, hvisits⟩ := visitEach_some hbelow hg
      exact (mem_visitEach hbelow g).mpr ⟨g, hg, visits, hvisits, mem_doWalk hvisits⟩

theorem doWalk_subset {fuel : ℕ} {f : F} {l : List F} (h : G.doWalk fuel f = some l)
    (hf : f ∈ G.funcs) : ∀ g ∈ l, g ∈ G.funcs := by
  induction fuel generalizing f l with
  | zero => cases h
  | succ fuel ih =>
    obtain ⟨below, hbelow, rfl⟩ := doWalk_succ h
    intro g hg
    rcases mem_append.mp hg with hg | hg
    · obtain ⟨e, he, visits, hvisits, hmem⟩ := (mem_visitEach hbelow g).mp hg
      exact ih hvisits (G.resolved f hf e he) g hmem
    · obtain rfl := mem_singleton.mp hg
      exact hf

theorem doWalk_mono {fuel fuel' : ℕ} (hle : fuel ≤ fuel') {f : F} {l : List F}
    (h : G.doWalk fuel f = some l) : G.doWalk fuel' f = some l := by
  induction fuel generalizing fuel' f l with
  | zero => cases h
  | succ fuel ih =>
    obtain ⟨fuel', rfl⟩ : ∃ k, fuel' = k + 1 := ⟨fuel' - 1, by omega⟩
    obtain ⟨below, hbelow, rfl⟩ := doWalk_succ h
    rw [doWalk, visitEach_mono (fun g visits hvisits => ih (by omega) hvisits) hbelow]
    rfl

theorem Acyclic.isStrictOrder (h : G.Acyclic) : IsStrictOrder F (Relation.TransGen G.Calls) where
  irrefl := h
  trans _ _ _ := Relation.TransGen.trans

theorem Acyclic.callees_induction (h : G.Acyclic) {P : F → Prop}
    (step : ∀ f ∈ G.funcs, (∀ g ∈ G.graph f, P g) → P f) : ∀ f ∈ G.funcs, P f := by
  have hstrict : IsStrictOrder F (Function.swap (Relation.TransGen G.Calls)) :=
    { irrefl := h, trans := fun _ _ _ hab hbc => hbc.trans hab }
  have hwf : ({f | f ∈ G.funcs} : Set F).WellFoundedOn (Function.swap (Relation.TransGen G.Calls)) :=
    (finite_toSet G.funcs).wellFoundedOn
  intro f hf
  refine hwf.induction hf fun f hf ih => step f hf fun g hg => ?_
  exact ih g (G.resolved f hf g hg) (.single ⟨hf, hg⟩)

/-- What holds of the roots, and of a function as soon as it holds of a caller, holds of
all functions. -/
theorem Acyclic.callers_induction [DecidableEq F] (h : G.Acyclic) {P : F → Prop}
    (root : ∀ f ∈ G.roots, P f) (step : ∀ f g, G.Calls f g → P f → P g) : ∀ f ∈ G.funcs, P f := by
  have hstrict := h.isStrictOrder
  have hwf : ({f | f ∈ G.funcs} : Set F).WellFoundedOn (Relation.TransGen G.Calls) :=
    (finite_toSet G.funcs).wellFoundedOn
  intro f hf
  refine hwf.induction hf fun g hg ih => ?_
  by_cases hroot : g ∈ G.roots
  · exact root g hroot
  · obtain ⟨f, hf, hcall⟩ : ∃ f ∈ G.funcs, g ∈ G.graph f := by
      by_contra hnone
      apply hroot
      rw [roots, mem_filter, decide_eq_true_eq]
      exact ⟨hg, fun f hf hcall => hnone ⟨f, hf, hcall⟩⟩
    exact step f g ⟨hf, hcall⟩ (ih f hf (.single ⟨hf, hcall⟩))

theorem doWalk_common {fs : List F} (h : ∀ f ∈ fs, ∃ n l, G.doWalk n f = some l) :
    ∃ n, ∀ f ∈ fs, ∃ l, G.doWalk n f = some l := by
  induction fs with
  | nil => exact ⟨0, fun f hf => absurd hf not_mem_nil⟩
  | cons f fs ih =>
    obtain ⟨n, l, hl⟩ := h f mem_cons_self
    obtain ⟨n', hn'⟩ := ih fun e he => h e (mem_cons_of_mem _ he)
    refine ⟨n + n', fun e he => ?_⟩
    rcases mem_cons.mp he with rfl | he
    · exact ⟨l, doWalk_mono (Nat.le_add_right n n') hl⟩
    · obtain ⟨l', hl'⟩ := hn' e he
      exact ⟨l', doWalk_mono (Nat.le_add_left n' n) hl'⟩

theorem Acyclic.doWalk_isSome (h : G.Acyclic) :
    ∃ n, ∀ f ∈ G.funcs, ∃ l, G.doWalk n f = some l := by
  apply doWalk_common
  apply h.callees_induction (P := fun f => ∃ n l, G.doWalk n f = some l)
  intro f _ ih
  obtain ⟨n, hn⟩ := doWalk_common ih
  obtain ⟨below, hbelow⟩ := visitEach_isSome hn
  exact ⟨n + 1, below ++ [f], by rw [doWalk, hbelow]; rfl⟩

section Walk

variable [DecidableEq F]

theorem mem_funcs_of_mem_roots {f : F} (h : f ∈ G.roots) : f ∈ G.funcs :=
  (mem_filter.mp h).1

theorem Acyclic.walk_isSome (h : G.Acyclic) : ∃ n, ∀ fuel ≥ n, ∃ l, G.walk fuel = some l := by
  obtain ⟨n, hn⟩ := h.doWalk_isSome
  refine ⟨n, fun fuel hfuel => ?_⟩
  apply visitEach_isSome
  intro f hf
  obtain ⟨l, hl⟩ := hn f (mem_funcs_of_mem_roots hf)
  exact ⟨l, doWalk_mono hfuel hl⟩

theorem walk_calleesFirst {fuel : ℕ} {l : List F} (h : G.walk fuel = some l) :
    CalleesFirst G.graph l :=
  visitEach_calleesFirst h fun _ _ _ hvisits => doWalk_calleesFirst hvisits

theorem walk_subset {fuel : ℕ} {l : List F} (h : G.walk fuel = some l) : ∀ g ∈ l, g ∈ G.funcs := by
  intro g hg
  obtain ⟨f, hf, visits, hvisits, hmem⟩ := (mem_visitEach h g).mp hg
  exact doWalk_subset hvisits (mem_funcs_of_mem_roots hf) g hmem

theorem Acyclic.mem_walk (h : G.Acyclic) {fuel : ℕ} {l : List F} (hwalk : G.walk fuel = some l) :
    ∀ f ∈ G.funcs, f ∈ l := by
  apply h.callers_induction (P := (· ∈ l))
  · intro f hf
    obtain ⟨visits, hvisits⟩ := visitEach_some hwalk hf
    exact (mem_visitEach hwalk f).mpr ⟨f, hf, visits, hvisits, mem_doWalk hvisits⟩
  · intro f g hcall hf
    obtain ⟨l₁, l₂, rfl⟩ := append_of_mem hf
    exact mem_append_left _ (walk_calleesFirst hwalk l₁ f l₂ rfl g hcall.2)

end Walk

end CallGraph

/-- In the reverse of an order without repetition that puts callees first, every
function comes after all its callers. -/
theorem CalleesFirst.reverse {graph : F → List F} {l : List F} (h : CalleesFirst graph l)
    (hnodup : l.Nodup) {l₁ l₂ : List F} {g : F} (heq : l.reverse = l₁ ++ g :: l₂) :
    ∀ f ∈ l, g ∈ graph f → f ∈ l₁ := by
  intro f hf hg
  have hl : l = l₂.reverse ++ g :: l₁.reverse := by
    rw [← reverse_reverse l, heq]
    simp
  subst hl
  rcases mem_append.mp hf with hbefore | hafter
  · -- a caller before `g` would have another `g` before it
    obtain ⟨a, b, hab⟩ := append_of_mem hbefore
    have hga : g ∈ a := h a f (b ++ g :: l₁.reverse) (by simp [hab]) g hg
    have hdisjoint := disjoint_of_nodup_append hnodup
    exact absurd (mem_cons_self) (hdisjoint (by rw [hab]; exact mem_append_left _ hga))
  · rcases mem_cons.mp hafter with rfl | hafter
    · have hself : f ∈ l₂.reverse := h l₂.reverse f l₁.reverse rfl f hg
      have hdisjoint := disjoint_of_nodup_append hnodup
      exact absurd mem_cons_self (hdisjoint hself)
    · exact mem_reverse.mp hafter

end TritonCpu.CallWalk
