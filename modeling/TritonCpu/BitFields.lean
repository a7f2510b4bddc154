import TritonCpu.RowEchelon

/-!
# Numbers made of bit fields

A list of widths divides a number into fields, the lowest first. Packing and
unpacking are inverse, and both keep xor, so that a field of a combination of
columns is the combination of the fields.
-/

set_option autoImplicit false

namespace TritonCpu.BitFields

open XorSpan List

def pack : List ℕ → List ℕ → ℕ
  | k :: ks, v :: vs => v + 2 ^ k * pack ks vs
  | _, _ => 0

def unpack : List ℕ → ℕ → List ℕ
  | [], _ => []
  | k :: ks, b => b % 2 ^ k :: unpack ks (b / 2 ^ k)

/-- Every value fits into its field. -/
abbrev Fits (vs ks : List ℕ) : Prop := List.Forall₂ (fun v k => v < 2 ^ k) vs ks

section Pack

variable {ks vs : List ℕ}

@[simp] theorem length_unpack (b : ℕ) : (unpack ks b).length = ks.length := by
  induction ks generalizing b with
  | nil => rfl
  | cons k ks ih => simp [unpack, ih]

theorem fits_unpack (ks : List ℕ) (b : ℕ) : Fits (unpack ks b) ks := by
  induction ks generalizing b with
  | nil => exact List.Forall₂.nil
  | cons k ks ih => exact List.Forall₂.cons (Nat.mod_lt _ (Nat.two_pow_pos k)) (ih _)

theorem pack_lt (h : Fits vs ks) : pack ks vs < 2 ^ ks.sum := by
  induction h with
  | nil => simp [pack]
  | @cons v k vs ks hv _ ih =>
    rw [pack, sum_cons, Nat.pow_add]
    calc v + 2 ^ k * pack ks vs < 2 ^ k + 2 ^ k * pack ks vs := by omega
      _ = 2 ^ k * (pack ks vs + 1) := by ring
      _ ≤ 2 ^ k * 2 ^ ks.sum := Nat.mul_le_mul_left _ ih

theorem unpack_pack (h : Fits vs ks) : unpack ks (pack ks vs) = vs := by
  induction h with
  | nil => rfl
  | @cons v k vs ks hv _ ih =>
    rw [pack, unpack, Nat.add_mul_mod_self_left, Nat.mod_eq_of_lt hv,
      Nat.add_mul_div_left _ _ (Nat.two_pow_pos k), Nat.div_eq_of_lt hv, Nat.zero_add, ih]

theorem pack_unpack {b : ℕ} (h : b < 2 ^ ks.sum) : pack ks (unpack ks b) = b := by
  induction ks generalizing b with
  | nil =>
    have hb : b < 1 := h
    simp only [pack]
    omega
  | cons k ks ih =>
    rw [sum_cons, Nat.pow_add] at h
    rw [unpack, pack, ih (Nat.div_lt_of_lt_mul h)]
    exact Nat.mod_add_div b (2 ^ k)

theorem getD_lt_of_fits (h : Fits vs ks) (t : ℕ) : vs.getD t 0 < 2 ^ ks.getD t 0 := by
  induction h generalizing t with
  | nil => simp
  | @cons v k vs ks hv _ ih =>
    cases t with
    | zero => exact hv
    | succ t => exact ih t

theorem unpack_zero : unpack ks 0 = List.replicate ks.length 0 := by
  induction ks with
  | nil => rfl
  | cons k ks ih => rw [unpack, Nat.zero_mod, Nat.zero_div, ih]; rfl

theorem getD_unpack_xor (t a b : ℕ) :
    (unpack ks (a ^^^ b)).getD t 0 = (unpack ks a).getD t 0 ^^^ (unpack ks b).getD t 0 := by
  induction ks generalizing t a b with
  | nil => simp [unpack]
  | cons k ks ih =>
    rw [unpack, unpack, unpack]
    cases t with
    | zero => exact Nat.xor_mod_two_pow
    | succ t =>
      rw [getD_cons_succ, getD_cons_succ, getD_cons_succ, Nat.xor_div_two_pow, ih]

theorem getD_unpack_zero (t : ℕ) : (unpack ks 0).getD t 0 = 0 := by
  rw [unpack_zero]
  by_cases ht : t < ks.length
  · rw [getD_replicate _ ht]
  · rw [getD_eq_default _ _ (by simpa using ht)]

theorem pack_eq_zero (h : vs.length = ks.length) : pack ks vs = 0 ↔ ∀ v ∈ vs, v = 0 := by
  induction ks generalizing vs with
  | nil => simp [pack, length_eq_zero_iff.mp h]
  | cons k ks ih =>
    cases vs with
    | nil => simp at h
    | cons v vs =>
      have hpos := Nat.two_pow_pos k
      rw [pack, Nat.add_eq_zero_iff, Nat.mul_eq_zero, or_iff_right hpos.ne',
        ih (by simpa using h), forall_mem_cons]

variable {ks' : List ℕ}

theorem pack_le_pack (hle : List.Forall₂ (· ≤ ·) ks ks') (vs : List ℕ) :
    pack ks vs ≤ pack ks' vs := by
  induction hle generalizing vs with
  | nil => exact le_rfl
  | @cons k k' ks ks' hk _ ih =>
    cases vs with
    | nil => exact le_rfl
    | cons v vs =>
      exact Nat.add_le_add_left
        (Nat.mul_le_mul (Nat.pow_le_pow_right (by omega) hk) (ih vs)) v

/-- Packed with wider fields a list of values gives the same number exactly when
there is nothing after the first field that became wider. -/
theorem pack_eq_pack_iff (hle : List.Forall₂ (· ≤ ·) ks ks') (h : vs.length = ks.length) :
    pack ks vs = pack ks' vs ↔
      ∀ s t, s < t → ks.getD s 0 < ks'.getD s 0 → vs.getD t 0 = 0 := by
  induction hle generalizing vs with
  | nil => simp [length_eq_zero_iff.mp h]
  | @cons k k' ks ks' hk hks ih =>
    cases vs with
    | nil => simp at h
    | cons v vs =>
      have htail : vs.length = ks.length := by simpa using h
      have hmono := pack_le_pack hks vs
      rw [pack, pack, Nat.add_left_cancel_iff]
      constructor
      · intro heq s t hst hnarrow
        obtain ⟨t, rfl⟩ : ∃ t', t = t' + 1 := ⟨t - 1, by omega⟩
        rw [getD_cons_succ]
        rcases hk.eq_or_lt with rfl | hlt
        · have hpack : pack ks vs = pack ks' vs := Nat.eq_of_mul_eq_mul_left (Nat.two_pow_pos k) heq
          cases s with
          | zero => exact absurd hnarrow (by simp)
          | succ s => exact (ih htail).mp hpack s t (by omega) hnarrow
        · -- a wider first field leaves no room for the others
          have hzero : pack ks vs = 0 := by
            by_contra hne
            have hstep : 2 ^ k * pack ks vs < 2 ^ k' * pack ks' vs :=
              Nat.mul_lt_mul_of_lt_of_le (Nat.pow_lt_pow_right (by omega) hlt) hmono
                (by omega)
            omega
          have hall := (pack_eq_zero htail).mp hzero
          by_cases ht : t < vs.length
          · rw [getD_eq_getElem _ _ ht]
            exact hall _ (getElem_mem ht)
          · rw [getD_eq_default _ _ (by omega)]
      · intro hlater
        rcases hk.eq_or_lt with rfl | hlt
        · congr 1
          apply (ih htail).mpr
          intro s t hst hnarrow
          exact hlater (s + 1) (t + 1) (by omega) hnarrow
        · have hall : ∀ w ∈ vs, w = 0 := by
            intro w hw
            obtain ⟨t, ht, rfl⟩ := getElem_of_mem hw
            have hzero := hlater 0 (t + 1) (by omega) hlt
            rwa [getD_cons_succ, getD_eq_getElem _ _ ht] at hzero
          rw [(pack_eq_zero htail).mpr hall,
            (pack_eq_zero (htail.trans hks.length_eq)).mpr hall, Nat.mul_zero, Nat.mul_zero]

end Pack

section Columns

variable {ks : List ℕ}

theorem combine_field {cols : List (List ℕ)} (h : ∀ b ∈ cols, Fits b ks) (t x : ℕ) :
    combine (cols.map fun b => b.getD t 0) x =
      (unpack ks (combine (cols.map (pack ks)) x)).getD t 0 := by
  rw [← combine_map _ _ (fun y => (unpack ks y).getD t 0) (getD_unpack_zero t) (getD_unpack_xor t),
    map_map]
  congr 1
  apply map_congr_left
  intro b hb
  rw [Function.comp_apply, unpack_pack (h b hb)]

theorem pack_mod {k : ℕ} {b : List ℕ} (h : Fits b (k :: ks)) :
    pack (k :: ks) b % 2 ^ k = b.getD 0 0 := by
  cases h with
  | cons hv _ => rw [pack, Nat.add_mul_mod_self_left, Nat.mod_eq_of_lt hv, getD_cons_zero]

theorem pack_div {k : ℕ} {b : List ℕ} (h : Fits b (k :: ks)) :
    pack (k :: ks) b / 2 ^ k = pack ks b.tail := by
  cases h with
  | cons hv _ =>
    rw [pack, Nat.add_mul_div_left _ _ (Nat.two_pow_pos k), Nat.div_eq_of_lt hv, Nat.zero_add,
      tail_cons]

theorem fits_tail {k : ℕ} {b : List ℕ} (h : Fits b (k :: ks)) : Fits b.tail ks := by
  cases h with
  | cons _ htail => exact htail

theorem transposeBits_pack {cols : List (List ℕ)} (h : ∀ b ∈ cols, Fits b ks) :
    transposeBits ks.sum (cols.map (pack ks)) =
      (List.range ks.length).flatMap fun t => (List.range (ks.getD t 0)).map fun j =>
        maskOf (cols.map fun b => (b.getD t 0).testBit j) := by
  induction ks generalizing cols with
  | nil => rfl
  | cons k ks ih =>
    have htail : ∀ b ∈ cols.map List.tail, Fits b ks := by
      intro b hb
      obtain ⟨b', hb', rfl⟩ := mem_map.mp hb
      exact fits_tail (h b' hb')
    rw [sum_cons, transposeBits, range_add, map_append, length_cons,
      range_succ_eq_map, flatMap_cons, flatMap_map, map_map]
    congr 1
    · -- the bits of the first field
      apply map_congr_left
      intro j hj
      rw [map_map]
      congr 1
      apply map_congr_left
      intro b hb
      have hbit := Nat.testBit_mod_two_pow (pack (k :: ks) b) k j
      rw [pack_mod (h b hb)] at hbit
      simp only [mem_range] at hj
      simpa [hj] using hbit.symm
    · -- the other fields
      have hrest := ih htail
      rw [transposeBits, map_map] at hrest
      have hgoal : ∀ r, maskOf ((cols.map (pack (k :: ks))).map fun m => m.testBit (k + r)) =
          maskOf ((cols.map (pack ks ∘ List.tail)).map fun m => m.testBit r) := by
        intro r
        rw [map_map, map_map]
        congr 1
        apply map_congr_left
        intro b hb
        rw [Function.comp_apply, Function.comp_apply, Function.comp_apply, ← pack_div (h b hb),
          Nat.testBit_div_two_pow, Nat.add_comm]
      simp only [Function.comp_def, hgoal]
      refine hrest.trans ?_
      apply flatMap_congr
      intro t _
      rw [getD_cons_succ]
      apply map_congr_left
      intro j _
      rw [map_map]
      congr 1
      apply map_congr_left
      intro b hb
      cases h b hb with
      | cons _ _ => rfl

theorem onto_iff_fields {cols : List (List ℕ)} (h : ∀ b ∈ cols, Fits b ks) :
    Onto ks.sum (cols.map (pack ks)) ↔ ∀ vs, Fits vs ks → ∃ x < 2 ^ cols.length,
      ∀ t < ks.length, combine (cols.map fun b => b.getD t 0) x = vs.getD t 0 := by
  have hlt : ∀ c ∈ cols.map (pack ks), c < 2 ^ ks.sum := by
    intro c hc
    obtain ⟨b, hb, rfl⟩ := mem_map.mp hc
    exact pack_lt (h b hb)
  constructor
  · intro honto vs hvs
    obtain ⟨x, hx, hxy⟩ := honto (pack ks vs) (pack_lt hvs)
    rw [length_map] at hx
    refine ⟨x, hx, fun t _ => ?_⟩
    rw [combine_field h, hxy, unpack_pack hvs]
  · intro hreach y hy
    obtain ⟨x, hx, hfields⟩ := hreach (unpack ks y) (fits_unpack ks y)
    refine ⟨x, by rwa [length_map], ?_⟩
    have hunpack : unpack ks (combine (cols.map (pack ks)) x) = unpack ks y := by
      apply ext_getElem (by simp)
      intro t ht ht'
      rw [length_unpack] at ht
      have hfield := hfields t ht
      rw [combine_field h] at hfield
      rwa [getD_eq_getElem _ _ (by simpa using ht),
        getD_eq_getElem _ _ (by simpa using ht)] at hfield
    rw [← pack_unpack (combine_lt hlt), hunpack, pack_unpack hy]

theorem combine_groups {n : ℕ} (ns vs : List ℕ) (group : List ℕ) (rest : List ℕ) {v : ℕ}
    (hgroup : group.length = n) (hv : v < 2 ^ n) :
    combine (group ++ rest) (pack (n :: ns) (v :: vs)) =
      combine group v ^^^ combine rest (pack ns vs) := by
  subst hgroup
  have hlow : combine group (pack (group.length :: ns) (v :: vs)) = combine group v := by
    rw [← combine_mod group (pack _ _), pack, Nat.add_mul_mod_self_left, combine_mod]
  rw [combine_append, hlow, pack, Nat.add_mul_div_left _ _ (Nat.two_pow_pos _),
    Nat.div_eq_of_lt hv, Nat.zero_add]

end Columns

end TritonCpu.BitFields
