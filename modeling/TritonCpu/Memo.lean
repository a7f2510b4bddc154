import Mathlib.Data.List.Basic
import Mathlib.Data.List.Induction
import Mathlib.Tactic.Common

/-!
# Results kept under a key

A request whose key is new is computed, and the result is kept under the key; a
request with a known key gets what was kept. It gets the result of a request with the
same key, which is as good as its own when keys tell requests apart.
-/

set_option autoImplicit false

namespace TritonCpu.Memo

variable {α β κ : Type} [DecidableEq κ] (key : α → κ) (make : α → β)

def lookup (memo : List (κ × β)) (request : α) : List (κ × β) × β :=
  match memo.lookup (key request) with
  | some result => (memo, result)
  | none => ((key request, make request) :: memo, make request)

def runs (requests : List α) : List (κ × β) :=
  requests.foldl (fun memo request => (lookup key make memo request).1) []

/-- What is kept under a key was made for a request with that key. -/
def Made (memo : List (κ × β)) (requests : List α) : Prop :=
  ∀ entry ∈ memo, ∃ request ∈ requests, key request = entry.1 ∧ make request = entry.2

variable {key make} {memo : List (κ × β)} {requests : List α}

theorem Made.step (h : Made key make memo requests) (request : α) :
    Made key make (lookup key make memo request).1 (requests ++ [request]) := by
  have hold : ∀ entry ∈ memo, ∃ r ∈ requests ++ [request], key r = entry.1 ∧ make r = entry.2 := by
    intro entry hentry
    obtain ⟨r, hr, hsame⟩ := h entry hentry
    exact ⟨r, List.mem_append_left _ hr, hsame⟩
  unfold lookup
  split
  · exact hold
  · intro entry hentry
    rcases List.mem_cons.mp hentry with rfl | hentry
    · exact ⟨request, List.mem_append_right _ List.mem_cons_self, rfl, rfl⟩
    · exact hold entry hentry

theorem made_runs (requests : List α) : Made key make (runs key make requests) requests := by
  induction requests using List.reverseRecOn with
  | nil => exact fun entry hentry => absurd hentry List.not_mem_nil
  | append_singleton requests request ih =>
    rw [runs, List.foldl_append]
    exact ih.step request

/-- When requests with the key of this one are like it, it gets the result of a request
that is like it. -/
theorem lookup_runs {like : α → α → Prop} {request : α} (hself : like request request)
    (h : ∀ r ∈ requests, key r = key request → like r request) :
    ∃ r ∈ requests ++ [request], like r request ∧
      (lookup key make (runs key make requests) request).2 = make r := by
  unfold lookup
  split
  · next result hresult =>
    obtain ⟨before, after, hmemo, -⟩ := List.lookup_eq_some_iff.mp hresult
    have hmade : Made key make (runs key make requests) requests := made_runs requests
    obtain ⟨r, hr, hkey, hmake⟩ := hmade (key request, result) (by rw [hmemo]; simp)
    exact ⟨r, List.mem_append_left _ hr, h r hr hkey, hmake.symm⟩
  · exact ⟨request, List.mem_append_right _ List.mem_cons_self, hself, rfl⟩

end TritonCpu.Memo
