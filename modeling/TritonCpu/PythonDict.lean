import Mathlib.Data.List.Lex
import Mathlib.Data.List.Sigma
import Mathlib.Data.List.Sort
import Mathlib.Data.String.Basic

/-!
# Dictionaries and their sorted items

Dictionaries with names as keys, in insertion order. Two dictionaries are equal
when they have the same items, and then so are their sorted items.
-/

set_option autoImplicit false

namespace TritonCpu.Python

variable {α β : Type}

abbrev Dict (α : Type) := List (String × α)

def keys (d : Dict α) : List String := d.map Prod.fst

/-- `sorted(l)` -/
def sorted [LinearOrder β] (l : List β) : List β := l.mergeSort (· ≤ ·)

/-- `sorted(d.items())`: no two keys are the same, so the keys decide the order. -/
def sortedItems (d : Dict α) : Dict α := d.mergeSort (·.1 ≤ ·.1)

theorem sorted_perm [LinearOrder β] (l : List β) : (sorted l).Perm l := List.mergeSort_perm l _

theorem sorted_eq_iff [LinearOrder β] {l r : List β} : sorted l = sorted r ↔ l.Perm r := by
  constructor
  · intro h
    exact (sorted_perm l).symm.trans (h ▸ sorted_perm r)
  · intro h
    have hperm : (sorted l).Perm (sorted r) :=
      (sorted_perm l).trans (h.trans (sorted_perm r).symm)
    exact hperm.eq_of_pairwise' (List.pairwise_mergeSort' (· ≤ ·) l)
      (List.pairwise_mergeSort' (· ≤ ·) r)

theorem sortedItems_perm (d : Dict α) : (sortedItems d).Perm d := List.mergeSort_perm d _

theorem mem_keys_sortedItems {d : Dict α} {name : String} :
    name ∈ keys (sortedItems d) ↔ name ∈ keys d := ((sortedItems_perm d).map Prod.fst).mem_iff

theorem keys_sortedItems (d : Dict α) : keys (sortedItems d) = sorted (keys d) :=
  List.map_mergeSort fun _ _ _ _ => rfl

theorem sortedItems_eq_iff {d e : Dict α} : sortedItems d = sortedItems e ↔
    (keys d).Perm (keys e) ∧ (sortedItems d).map Prod.snd = (sortedItems e).map Prod.snd := by
  constructor
  · intro h
    refine ⟨?_, congrArg _ h⟩
    rw [← sorted_eq_iff, ← keys_sortedItems, ← keys_sortedItems, h]
  · rintro ⟨hkeys, hvalues⟩
    have hnames : keys (sortedItems d) = keys (sortedItems e) := by
      rw [keys_sortedItems, keys_sortedItems, sorted_eq_iff.mpr hkeys]
    have unzip (l : Dict α) : l = (keys l).zip (l.map Prod.snd) := by
      induction l with
      | nil => rfl
      | cons item l ih => exact congrArg (item :: ·) ih
    rw [unzip (sortedItems d), unzip (sortedItems e), hnames, hvalues]

theorem sortedItems_eq_of_perm {d e : Dict α} (hnodup : (keys d).Nodup) (h : d.Perm e) :
    sortedItems d = sortedItems e := by
  have hperm : (sortedItems d).Perm (sortedItems e) :=
    (sortedItems_perm d).trans (h.trans (sortedItems_perm e).symm)
  have ordered (l : Dict α) : (sortedItems l).Pairwise (·.1 ≤ ·.1) := by
    have hsort := @List.pairwise_mergeSort (String × α) (fun a b => decide (a.1 ≤ b.1))
      (fun a b c hab hbc => by simp only [decide_eq_true_eq] at *; exact hab.trans hbc)
      (fun a b => by simpa using le_total a.1 b.1) l
    unfold sortedItems
    simpa only [decide_eq_true_eq] using hsort
  refine hperm.eq_of_pairwise ?_ (ordered d) (ordered e)
  intro a b ha hb hab hba
  have ha' : a ∈ d := (sortedItems_perm d).mem_iff.mp ha
  have hb' : b ∈ d := h.mem_iff.mpr ((sortedItems_perm e).mem_iff.mp hb)
  exact List.inj_on_of_nodup_map hnodup ha' hb' (le_antisymm hab hba)

theorem sortedItems_eq_iff_perm {d e : Dict α} (hnodup : (keys d).Nodup) :
    sortedItems d = sortedItems e ↔ d.Perm e := by
  constructor
  · intro h
    exact (sortedItems_perm d).symm.trans (h ▸ sortedItems_perm e)
  · exact sortedItems_eq_of_perm hnodup

end TritonCpu.Python
