import Mathlib.Data.Set.Insert
import Mathlib.Data.List.Basic

/-!
# Synchronised traces

A trace interleaves accesses, taken from any type with a conflict relation,
and synchronisation points. It is synchronised when every two conflicting
accesses have a synchronisation point between them. The property is decided
from left to right by the set of accesses still pending since the last
synchronisation point; that set is what a static analysis over-approximates.
-/

set_option autoImplicit false

namespace TritonCpu.SyncTrace

inductive Event (α : Type*) where
  | access (a : α)
  | sync

variable {α β : Type*}

def Event.map (f : α → β) : Event α → Event β
  | .access a => .access (f a)
  | .sync => .sync

/-- Between any two conflicting accesses of the trace there is a
synchronisation point. -/
def Synchronised (conflict : α → α → Prop) (tr : List (Event α)) : Prop :=
  ∀ p q r a b, tr = p ++ .access a :: (q ++ .access b :: r) → conflict a b → .sync ∈ q

def pending : Set α → List (Event α) → Set α
  | P, [] => P
  | P, .access a :: tr => pending (insert a P) tr
  | _, .sync :: tr => pending ∅ tr

def Safe (conflict : α → α → Prop) : Set α → List (Event α) → Prop
  | _, [] => True
  | P, .access a :: tr => (∀ x ∈ P, ¬ conflict x a) ∧ Safe conflict (insert a P) tr
  | _, .sync :: tr => Safe conflict ∅ tr

theorem pending_append (P : Set α) (s t : List (Event α)) :
    pending P (s ++ t) = pending (pending P s) t := by
  induction s generalizing P with
  | nil => rfl
  | cons e s ih => cases e <;> exact ih _

theorem safe_append (conflict : α → α → Prop) (P : Set α) (s t : List (Event α)) :
    Safe conflict P (s ++ t) ↔ Safe conflict P s ∧ Safe conflict (pending P s) t := by
  induction s generalizing P with
  | nil => simp [Safe, pending]
  | cons e s ih =>
    cases e with
    | access a => simp [Safe, pending, ih, and_assoc]
    | sync => simp [Safe, pending, ih]

theorem mem_pending (P : Set α) (q : List (Event α)) (a : α) (ha : a ∈ P)
    (hq : .sync ∉ q) : a ∈ pending P q := by
  induction q generalizing P with
  | nil => exact ha
  | cons e q ih =>
    cases e with
    | access b => exact ih _ (Set.mem_insert_of_mem b ha) (fun h => hq (by simp [h]))
    | sync => simp at hq

theorem safe_synchronised (conflict : α → α → Prop) (P : Set α) (tr : List (Event α))
    (hs : Safe conflict P tr) : Synchronised conflict tr := by
  rintro p q r a b rfl hab
  by_contra hq
  rw [safe_append] at hs
  have hmid := hs.2.2
  rw [safe_append] at hmid
  exact hmid.2.1 a (mem_pending _ q a (Set.mem_insert a _) hq) hab

theorem safe_iff_synchronised (conflict : α → α → Prop) (tr : List (Event α)) :
    Safe conflict ∅ tr ↔ Synchronised conflict tr := by
  refine ⟨safe_synchronised conflict ∅ tr, fun h => ?_⟩
  suffices hgen : ∀ (P : Set α) (done rest : List (Event α)), tr = done ++ rest →
      (∀ x ∈ P, ∃ p q, done = p ++ .access x :: q ∧ .sync ∉ q) → Safe conflict P rest from
    hgen ∅ [] tr rfl (by simp)
  intro P done rest
  induction rest generalizing P done with
  | nil => intros; trivial
  | cons e rest ih =>
    intro htr hP
    cases e with
    | access b =>
      refine ⟨fun x hx hc => ?_, ih (insert b P) (done ++ [.access b]) (by simp [htr]) ?_⟩
      · obtain ⟨p, q, rfl, hq⟩ := hP x hx
        exact hq (h p q rest x b (by simp [htr]) hc)
      · intro x hx
        rcases Set.mem_insert_iff.mp hx with rfl | hx
        · exact ⟨done, [], rfl, by simp⟩
        · obtain ⟨p, q, rfl, hq⟩ := hP x hx
          exact ⟨p, q ++ [.access b], by simp, by simp [hq]⟩
    | sync => exact ih ∅ (done ++ [.sync]) (by simp [htr]) (by simp)

/-- The accesses a trace makes before its first synchronisation point. -/
def exposed : List (Event α) → Set α
  | [] => ∅
  | .access a :: tr => insert a (exposed tr)
  | .sync :: _ => ∅

theorem exposed_append_subset (s t : List (Event α)) :
    exposed (s ++ t) ⊆ exposed s ∪ exposed t := by
  induction s with
  | nil => simp [exposed]
  | cons e s ih =>
    cases e with
    | access a => exact (Set.insert_subset_insert ih).trans (Set.insert_union ..).superset
    | sync => simp [exposed]

theorem pending_subset (P : Set α) (tr : List (Event α)) :
    pending P tr ⊆ P ∪ pending ∅ tr := by
  suffices h : ∀ Q : Set α, pending (P ∪ Q) tr ⊆ P ∪ pending Q tr by
    simpa using h ∅
  induction tr with
  | nil => exact fun Q => subset_rfl
  | cons e tr ih =>
    intro Q
    cases e with
    | access a => simpa [pending, ← Set.union_insert] using ih (insert a Q)
    | sync => exact Set.subset_union_right

/-- Accesses that were pending before a trace can only conflict with the
accesses it exposes. -/
theorem safe_of_exposed (conflict : α → α → Prop) (P : Set α) (tr : List (Event α))
    (hs : Safe conflict ∅ tr) (h : ∀ x ∈ P, ∀ a ∈ exposed tr, ¬ conflict x a) :
    Safe conflict P tr := by
  suffices hgen : ∀ Q : Set α, Safe conflict Q tr → Safe conflict (P ∪ Q) tr by
    simpa using hgen ∅ hs
  clear hs
  induction tr with
  | nil => exact fun Q _ => trivial
  | cons e tr ih =>
    intro Q hQ
    cases e with
    | access a =>
      refine ⟨?_, ?_⟩
      · rintro x (hx | hx)
        · exact h x hx a (Set.mem_insert a _)
        · exact hQ.1 x hx
      · have hrest := ih (fun x hx b hb => h x hx b (Set.mem_insert_of_mem a hb)) _ hQ.2
        rwa [Set.union_insert] at hrest
    | sync => exact hQ

end TritonCpu.SyncTrace
