import Mathlib.Data.List.Forall2
import Mathlib.Data.Nat.Notation

/-!
# Builders

A computation that creates operations with fresh identifiers and may stop
early. `Returns x a` says that `x` gives `a` from some counter, so a proof
about what was built need not follow the identifiers.
-/

set_option autoImplicit false

namespace TritonCpu.Builder

abbrev BuildM (ε α : Type) := StateT ℕ (Except ε) α

variable {ε α β : Type}

def fresh : BuildM ε ℕ := fun n => .ok (n, n + 1)

def stop (e : ε) : BuildM ε α := fun _ => .error e

def Returns (x : BuildM ε α) (a : α) : Prop := ∃ n m, x n = .ok (a, m)

@[simp] theorem returns_pure (a b : α) : Returns (pure a : BuildM ε α) b ↔ b = a := by
  constructor
  · rintro ⟨n, m, h⟩
    cases h
    rfl
  · rintro rfl
    exact ⟨0, 0, rfl⟩

@[simp] theorem not_returns_stop (e : ε) (a : α) : ¬ Returns (stop e) a := by
  rintro ⟨n, m, h⟩
  cases h

theorem returns_bind {x : BuildM ε α} {f : α → BuildM ε β} {b : β} (h : Returns (x >>= f) b) :
    ∃ a, Returns x a ∧ Returns (f a) b := by
  obtain ⟨n, m, h⟩ := h
  change Except.bind (x n) (fun p => f p.1 p.2) = .ok (b, m) at h
  cases hx : x n with
  | error e =>
    rw [hx] at h
    cases h
  | ok p =>
    rw [hx] at h
    exact ⟨p.1, ⟨n, p.2, hx⟩, p.2, m, h⟩

@[simp] theorem returns_pure_bind {f : α → BuildM ε β} {a : α} {b : β} :
    Returns (pure a >>= f) b ↔ Returns (f a) b := Iff.rfl

theorem returns_map {f : α → β} {x : BuildM ε α} {b : β} (h : Returns (f <$> x) b) :
    ∃ a, Returns x a ∧ b = f a := by
  obtain ⟨n, m, h⟩ := h
  change Except.bind (x n) (fun p => .ok (f p.1, p.2)) = .ok (b, m) at h
  cases hx : x n with
  | error e =>
    rw [hx] at h
    cases h
  | ok p =>
    rw [hx] at h
    cases h
    exact ⟨p.1, ⟨n, p.2, hx⟩, rfl⟩

theorem returns_mapM {f : α → BuildM ε β} {l : List α} {l' : List β}
    (h : Returns (l.mapM f) l') : List.Forall₂ (fun a b => Returns (f a) b) l l' := by
  induction l generalizing l' with
  | nil =>
    rw [List.mapM_nil, returns_pure] at h
    subst h
    exact .nil
  | cons a l ih =>
    rw [List.mapM_cons] at h
    obtain ⟨b, hb, h⟩ := returns_bind h
    obtain ⟨bs, hbs, h⟩ := returns_bind h
    rw [returns_pure] at h
    subst h
    exact .cons hb (ih hbs)

end TritonCpu.Builder
