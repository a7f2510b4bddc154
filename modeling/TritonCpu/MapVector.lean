import Mathlib.Data.List.Induction
import Mathlib.Data.List.Nodup

/-!
# Maps that keep the order of insertion

A map is the list of its entries in the order in which their keys were first
inserted; no key occurs twice.
-/

set_option autoImplicit false

namespace TritonCpu

open List

/-- A map with string keys in the order of insertion. -/
structure MapVector (β : Type) where
  entries : List (String × β)
  nodup : (entries.map Prod.fst).Nodup
  deriving DecidableEq, Repr

namespace MapVector

variable {α β : Type}

def empty : MapVector β := ⟨[], nodup_nil⟩

def single (key : String) (b : β) : MapVector β :=
  ⟨[(key, b)], nodup_singleton key⟩

def keys (m : MapVector β) : List String := m.entries.map Prod.fst

def values (m : MapVector β) : List β := m.entries.map Prod.snd

def find (m : MapVector β) (key : String) : Option β := m.entries.lookup key

theorem keys_modify_entry (key : String) (f : β → β) (es : List (String × β)) :
    (es.map fun e => if e.1 = key then (e.1, f e.2) else e).map Prod.fst = es.map Prod.fst := by
  rw [map_map]
  apply map_congr_left
  intro e _
  rw [Function.comp_apply]
  split_ifs <;> rfl

/-- `m[key]` is replaced by `f` of what it holds; a new key is put last. -/
def modify (m : MapVector β) (key : String) (f : Option β → β) : MapVector β :=
  if h : key ∈ m.keys then
    ⟨m.entries.map fun e => if e.1 = key then (e.1, f (some e.2)) else e,
      (keys_modify_entry key (fun b => f (some b)) m.entries).symm ▸ m.nodup⟩
  else
    ⟨m.entries ++ [(key, f none)], by
      rw [map_append, nodup_append]
      refine ⟨m.nodup, by simp, ?_⟩
      intro a ha b hb
      have hkey : b = key := by simpa using hb
      rw [hkey]
      rintro rfl
      exact h ha⟩

def mapValues (f : β → α) (m : MapVector β) : MapVector α :=
  ⟨m.entries.map fun e => (e.1, f e.2), by
    rw [map_map]
    exact m.nodup⟩

@[simp] theorem keys_mapValues (f : β → α) (m : MapVector β) : (m.mapValues f).keys = m.keys := by
  rw [keys, mapValues, map_map]
  rfl

@[simp] theorem values_mapValues (f : β → α) (m : MapVector β) :
    (m.mapValues f).values = m.values.map f := by
  rw [values, mapValues, values, map_map, map_map]
  rfl

def build (f : Option β → α → β) (es : List (String × α)) : MapVector β :=
  es.foldl (fun m e => m.modify e.1 fun b => f b e.2) empty

@[ext] theorem ext {m m' : MapVector β} (h : m.entries = m'.entries) : m = m' := by
  cases m
  cases m'
  cases h
  rfl

theorem entries_modify_new (m : MapVector β) {key : String} (f : Option β → β)
    (h : key ∉ m.keys) : (m.modify key f).entries = m.entries ++ [(key, f none)] := by
  rw [modify, dif_neg h]

theorem entries_build (f : Option β → α → β) {es : List (String × α)}
    (h : (es.map Prod.fst).Nodup) :
    (build f es).entries = es.map fun e => (e.1, f none e.2) := by
  induction es using List.reverseRecOn with
  | nil => rfl
  | append_singleton es e ih =>
    rw [map_append, nodup_append] at h
    have hkeys : (build f es).keys = es.map Prod.fst := by
      rw [keys, ih h.1, map_map]
      rfl
    have hnew : e.1 ∉ (build f es).keys := by
      rw [hkeys]
      intro hmem
      exact h.2.2 _ hmem e.1 (by simp) rfl
    have hsplit : build f (es ++ [e]) = (build f es).modify e.1 fun b => f b e.2 := by
      rw [build, build, foldl_append]
      rfl
    rw [hsplit, entries_modify_new _ _ hnew, ih h.1, map_append]
    rfl

theorem find_of_mem {m : MapVector β} {key : String} {b : β} (h : (key, b) ∈ m.entries) :
    m.find key = some b := by
  obtain ⟨es, hnodup⟩ := m
  change es.lookup key = some b
  induction es with
  | nil => simp at h
  | cons e es ih =>
    obtain ⟨key', b'⟩ := e
    rw [map_cons, nodup_cons] at hnodup
    rcases mem_cons.mp h with heq | hmem
    · obtain ⟨rfl, rfl⟩ := Prod.mk.inj heq
      exact lookup_cons_self
    · have hne : key ≠ key' := by
        rintro rfl
        exact hnodup.1 (mem_map.mpr ⟨_, hmem, rfl⟩)
      rw [lookup_cons, beq_false_of_ne hne]
      exact ih hnodup.2 hmem

theorem find_eq_none {m : MapVector β} {key : String} (h : key ∉ m.keys) : m.find key = none := by
  rw [find, lookup_eq_none_iff]
  intro e he
  rw [bne_iff_ne]
  rintro rfl
  exact h (mem_map_of_mem he)

theorem exists_find {m : MapVector β} {key : String} (h : key ∈ m.keys) :
    ∃ b, (key, b) ∈ m.entries ∧ m.find key = some b := by
  obtain ⟨e, he, rfl⟩ := mem_map.mp h
  exact ⟨e.2, he, find_of_mem he⟩

theorem keys_modify (m : MapVector β) (key : String) (f : Option β → β) :
    (m.modify key f).keys = if key ∈ m.keys then m.keys else m.keys ++ [key] := by
  by_cases h : key ∈ m.keys
  · rw [if_pos h, modify, dif_pos h]
    exact keys_modify_entry key (fun b => f (some b)) m.entries
  · rw [if_neg h, keys, entries_modify_new m f h, map_append]
    rfl

theorem find_modify (m : MapVector β) (key key' : String) (f : Option β → β) :
    (m.modify key f).find key' = if key' = key then some (f (m.find key)) else m.find key' := by
  by_cases h : key ∈ m.keys
  · obtain ⟨b, hb, hfind⟩ := exists_find h
    have hentries : (m.modify key f).entries =
        m.entries.map fun e => if e.1 = key then (e.1, f (some e.2)) else e := by
      rw [modify, dif_pos h]
    split_ifs with hkey
    · rw [hkey, hfind]
      apply find_of_mem
      rw [hentries]
      exact mem_map.mpr ⟨(key, b), hb, if_pos rfl⟩
    · by_cases hmem : key' ∈ m.keys
      · obtain ⟨b', hb', hfind'⟩ := exists_find hmem
        rw [hfind']
        apply find_of_mem
        rw [hentries]
        exact mem_map.mpr ⟨(key', b'), hb', if_neg hkey⟩
      · rw [find_eq_none hmem]
        apply find_eq_none
        rwa [keys_modify, if_pos h]
  · have hentries := entries_modify_new m f h
    rw [find_eq_none h]
    split_ifs with hkey
    · rw [hkey]
      apply find_of_mem
      rw [hentries]
      simp
    · by_cases hmem : key' ∈ m.keys
      · obtain ⟨b', hb', hfind'⟩ := exists_find hmem
        rw [hfind']
        apply find_of_mem
        rw [hentries]
        exact mem_append_left _ hb'
      · rw [find_eq_none hmem]
        apply find_eq_none
        rw [keys_modify, if_neg h]
        simp [hmem, hkey]

def mapEntries (f : String → β → α) (m : MapVector β) : MapVector α :=
  ⟨m.entries.map fun e => (e.1, f e.1 e.2), by
    rw [map_map]
    exact m.nodup⟩

@[simp] theorem keys_mapEntries (f : String → β → α) (m : MapVector β) :
    (m.mapEntries f).keys = m.keys := by
  rw [keys, mapEntries, map_map]
  rfl

theorem find_mapEntries (f : String → β → α) (m : MapVector β) (key : String) :
    (m.mapEntries f).find key = (m.find key).map (f key) := by
  by_cases h : key ∈ m.keys
  · obtain ⟨b, hb, hfind⟩ := exists_find h
    rw [hfind, Option.map_some]
    exact find_of_mem (mem_map.mpr ⟨(key, b), hb, rfl⟩)
  · rw [find_eq_none h, find_eq_none (by rwa [keys_mapEntries])]
    rfl

@[simp] theorem length_keys (m : MapVector β) : m.keys.length = m.entries.length := by
  simp [keys]

@[simp] theorem length_values (m : MapVector β) : m.values.length = m.entries.length := by
  simp [values]

theorem find_mapValues (f : β → α) (m : MapVector β) (key : String) :
    (m.mapValues f).find key = (m.find key).map f := by
  by_cases h : key ∈ m.keys
  · obtain ⟨b, hb, hfind⟩ := exists_find h
    rw [hfind]
    exact find_of_mem (mem_map_of_mem (f := fun e => (e.1, f e.2)) hb)
  · rw [find_eq_none h, find_eq_none (by rwa [keys_mapValues])]
    rfl

def filterKeys (p : String → Bool) (m : MapVector β) : MapVector β :=
  ⟨m.entries.filter fun e => p e.1, m.nodup.sublist (List.filter_sublist.map Prod.fst)⟩

@[simp] theorem keys_filterKeys (p : String → Bool) (m : MapVector β) :
    (m.filterKeys p).keys = m.keys.filter p := by
  rw [keys, keys, filterKeys, filter_map]
  rfl

theorem find_filterKeys (p : String → Bool) (m : MapVector β) {key : String} (h : p key = true) :
    (m.filterKeys p).find key = m.find key := by
  by_cases hkey : key ∈ m.keys
  · obtain ⟨b, hb, hfind⟩ := exists_find hkey
    rw [hfind]
    exact find_of_mem (mem_filter.mpr ⟨hb, h⟩)
  · rw [find_eq_none hkey, find_eq_none]
    rw [keys_filterKeys, mem_filter]
    exact fun hmem => hkey hmem.1

end MapVector

end TritonCpu
