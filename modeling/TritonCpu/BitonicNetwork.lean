import TritonCpu.BitPositions
import Mathlib.Order.MinMax
import Mathlib.Order.Basic
import Mathlib.Logic.Equiv.Basic

/-!
# Bitonic sorting networks

A round exchanges the elements of each pair of positions that differ in one bit.
A block is bitonic when every threshold cuts it in an arc; a round leaves its two
halves bitonic and ordered, so the rounds of a stage sort it. Elements are
compared by a key and moved whole.
-/

set_option autoImplicit false

namespace TritonCpu.BitonicNetwork
open BitPositions

/-! Arcs of a cycle of positions. -/

/-- The predicate holds on an interval of the first `n` positions, or outside one. -/
def Arc (n : ℕ) (p : ℕ → Prop) : Prop :=
  ∃ a b, (∀ x < n, p x ↔ a ≤ x ∧ x < b) ∨ ∀ x < n, p x ↔ ¬ (a ≤ x ∧ x < b)

section Arcs

variable {n : ℕ} {p q : ℕ → Prop}

theorem Arc.congr (h : Arc n p) (hpq : ∀ x < n, p x ↔ q x) : Arc n q := by
  obtain ⟨a, b, h | h⟩ := h
  · exact ⟨a, b, .inl fun x hx => (hpq x hx).symm.trans (h x hx)⟩
  · exact ⟨a, b, .inr fun x hx => (hpq x hx).symm.trans (h x hx)⟩

theorem Arc.not (h : Arc n p) : Arc n fun x => ¬ p x := by
  obtain ⟨a, b, h | h⟩ := h
  · exact ⟨a, b, .inr fun x hx => not_congr (h x hx)⟩
  · exact ⟨a, b, .inl fun x hx => (not_congr (h x hx)).trans not_not⟩

theorem interval_and (n a b : ℕ) : Arc n fun x => (a ≤ x ∧ x < b) ∧ a ≤ n + x ∧ n + x < b :=
  ⟨a, b - n, .inl fun x hx => by omega⟩

theorem interval_or (n a b : ℕ) : Arc n fun x => (a ≤ x ∧ x < b) ∨ a ≤ n + x ∧ n + x < b := by
  by_cases hlow : b ≤ n
  · exact ⟨a, b, .inl fun x hx => by omega⟩
  by_cases hhigh : n ≤ a
  · exact ⟨a - n, b - n, .inl fun x hx => by omega⟩
  -- the interval crosses the middle, and its halves leave a gap between them
  · exact ⟨b - n, a, .inr fun x hx => by omega⟩

theorem Arc.and_half (h : Arc (n + n) p) : Arc n fun x => p x ∧ p (n + x) := by
  obtain ⟨a, b, h | h⟩ := h
  · exact (interval_and n a b).congr fun x hx =>
      (and_congr (h x (by omega)) (h (n + x) (by omega))).symm
  · refine (interval_or n a b).not.congr fun x hx => ?_
    rw [h x (by omega), h (n + x) (by omega), not_or]

theorem Arc.or_half (h : Arc (n + n) p) : Arc n fun x => p x ∨ p (n + x) := by
  refine h.not.and_half.not.congr fun x _ => ?_
  rw [not_and_or, not_not, not_not]

theorem Arc.no_crossing (h : Arc (n + n) p) {x y : ℕ} (hx : x < n) (hy : y < n)
    (hin : p x ∧ p (n + x)) : p y ∨ p (n + y) := by
  obtain ⟨a, b, h | h⟩ := h
  · rw [h x (by omega), h (n + x) (by omega)] at hin
    rw [h y (by omega), h (n + y) (by omega)]
    omega
  · rw [h x (by omega), h (n + x) (by omega)] at hin
    rw [h y (by omega), h (n + y) (by omega)]
    omega

theorem exists_threshold (h : ∀ x y, x ≤ y → y < n → p x → p y) : ∃ a, ∀ x < n, p x ↔ a ≤ x := by
  induction n with
  | zero => exact ⟨0, fun x hx => absurd hx (Nat.not_lt_zero x)⟩
  | succ n ih =>
    obtain ⟨a, ha⟩ := ih fun x y hxy hy => h x y hxy (by omega)
    by_cases hn : p n
    · refine ⟨min a n, fun x hx => ?_⟩
      rcases Nat.lt_or_eq_of_le (Nat.le_of_lt_succ hx) with hlt | rfl
      · rw [ha x hlt]
        omega
      · exact iff_of_true hn (Nat.min_le_right _ _)
    · refine ⟨n + 1, fun x hx => iff_of_false (fun hpx => hn (h x n (by omega) (by omega) hpx)) ?_⟩
      omega

end Arcs

/-! Bitonic blocks. -/

section Blocks

variable {β : Type*} [LinearOrder β] {n : ℕ} {g : ℕ → β}

def Bitonic (n : ℕ) (g : ℕ → β) : Prop := ∀ c, Arc n fun x => c ≤ g x

def Sorted (descending : Bool) (n : ℕ) (g : ℕ → β) : Prop :=
  ∀ x y, x ≤ y → y < n → if descending then g y ≤ g x else g x ≤ g y

theorem Bitonic.congr {g' : ℕ → β} (h : Bitonic n g) (hg : ∀ x < n, g x = g' x) : Bitonic n g' :=
  fun c => (h c).congr fun x hx => by rw [hg x hx]

theorem Sorted.congr {d : Bool} {g' : ℕ → β} (h : Sorted d n g) (hg : ∀ x < n, g x = g' x) :
    Sorted d n g' := by
  intro x y hxy hy
  rw [← hg x (hxy.trans_lt hy), ← hg y hy]
  exact h x y hxy hy

theorem Bitonic.min_half (h : Bitonic (n + n) g) : Bitonic n fun x => min (g x) (g (n + x)) :=
  fun c => (h c).and_half.congr fun _ _ => le_min_iff.symm

theorem Bitonic.max_half (h : Bitonic (n + n) g) : Bitonic n fun x => max (g x) (g (n + x)) :=
  fun c => (h c).or_half.congr fun _ _ => le_max_iff.symm

theorem Bitonic.min_le_max (h : Bitonic (n + n) g) {x y : ℕ} (hx : x < n) (hy : y < n) :
    min (g x) (g (n + x)) ≤ max (g y) (g (n + y)) :=
  le_max_iff.mpr ((h _).no_crossing hx hy ⟨min_le_left _ _, min_le_right _ _⟩)

theorem Bitonic.halves (d : Bool) (h : Bitonic (n + n) g) :
    (Bitonic n fun x => (if d then max else min) (g x) (g (n + x))) ∧
      (Bitonic n fun x => (if d then min else max) (g x) (g (n + x))) ∧
      ∀ x y, x < n → y < n →
        if d then (if d then min else max) (g y) (g (n + y)) ≤ (if d then max else min) (g x) (g (n + x))
        else (if d then max else min) (g x) (g (n + x)) ≤ (if d then min else max) (g y) (g (n + y)) := by
  cases d with
  | false => exact ⟨h.min_half, h.max_half, fun x y hx hy => h.min_le_max hx hy⟩
  | true => exact ⟨h.max_half, h.min_half, fun x y hx hy => h.min_le_max hy hx⟩

theorem bitonic_of_halves (hlow : Sorted false n g) (hhigh : Sorted true n fun x => g (n + x)) :
    Bitonic (n + n) g := by
  intro c
  obtain ⟨a, ha⟩ := exists_threshold (n := n) (p := fun x => c ≤ g x) fun x y hxy hy hx =>
    hx.trans (hlow x y hxy hy)
  obtain ⟨b, hb⟩ := exists_threshold (n := n) (p := fun x => ¬ c ≤ g (n + x)) fun x y hxy hy hx h =>
    hx (h.trans (hhigh x y hxy hy))
  refine ⟨min a n, n + min b n, .inl fun x hx => ?_⟩
  by_cases hxn : x < n
  · refine (ha x hxn).trans ?_
    omega
  · obtain ⟨y, rfl⟩ := Nat.exists_eq_add_of_le (Nat.le_of_not_lt hxn)
    have hy : c ≤ g (n + y) ↔ ¬ b ≤ y := by rw [← hb y (by omega), not_not]
    refine hy.trans ?_
    omega

theorem sorted_join {d : Bool} (hlow : Sorted d n g) (hhigh : Sorted d n fun x => g (n + x))
    (hacross : ∀ x y, x < n → y < n → if d then g (n + y) ≤ g x else g x ≤ g (n + y)) :
    Sorted d (n + n) g := by
  intro x y hxy hy
  by_cases hyn : y < n
  · exact hlow x y hxy hyn
  obtain ⟨y, rfl⟩ := Nat.exists_eq_add_of_le (Nat.le_of_not_lt hyn)
  by_cases hxn : x < n
  · exact hacross x y hxn (by omega)
  obtain ⟨x, rfl⟩ := Nat.exists_eq_add_of_le (Nat.le_of_not_lt hxn)
  exact hhigh x y (by omega) (by omega)

end Blocks

/-! The rounds. -/

section Rounds

variable {α β : Type*} [LinearOrder β] (key : α → β) (descending : ℕ → Bool)

def lower (q k : ℕ) : ℕ := if k / q % 2 = 0 then k else k - q

def swaps (q : ℕ) (f : ℕ → α) (k : ℕ) : Bool :=
  decide (key (f (lower q k + q)) < key (f (lower q k))) != descending k

def exchange (q : ℕ) (f : ℕ → α) (k : ℕ) : α :=
  if swaps key descending q f k then f (flipBit q k) else f k

/-- The rounds of weights `2 ^ (t - 1)` down to one. -/
def merge : ℕ → (ℕ → α) → ℕ → α
  | 0, f => f
  | t + 1, f => merge t (exchange key descending (2 ^ t) f)

variable {key descending} {q a c : ℕ} {f : ℕ → α}

theorem lower_row {b : ℕ} (hb : b < 2) (hc : c < q) : lower q ((a * 2 + b) * q + c) = a * 2 * q + c := by
  rw [lower, (split_row hc _).1, Nat.mul_add_mod_self_right, Nat.mod_eq_of_lt hb]
  obtain rfl | rfl : b = 0 ∨ b = 1 := by omega
  · rw [if_pos rfl, Nat.add_zero]
  · rw [if_neg Nat.one_ne_zero, Nat.add_mul, Nat.one_mul]
    omega

theorem key_exchange {d : Bool} (hc : c < q) (hlow : descending (a * 2 * q + c) = d)
    (hhigh : descending ((a * 2 + 1) * q + c) = d) :
    key (exchange key descending q f (a * 2 * q + c)) =
        (if d then max else min) (key (f (a * 2 * q + c))) (key (f ((a * 2 + 1) * q + c))) ∧
      key (exchange key descending q f ((a * 2 + 1) * q + c)) =
        (if d then min else max) (key (f (a * 2 * q + c))) (key (f ((a * 2 + 1) * q + c))) := by
  have hsum : a * 2 * q + c + q = (a * 2 + 1) * q + c := by ring
  have hflipLow := flipBit_row two_pos hc a
  have hflipHigh := flipBit_row one_lt_two hc a
  have hlowerLow := lower_row (a := a) two_pos hc
  have hlowerHigh := lower_row (a := a) one_lt_two hc
  simp only [Nat.add_zero, Nat.sub_zero, Nat.sub_self] at hflipLow hflipHigh hlowerLow
  simp only [exchange, swaps, hlowerLow, hlowerHigh, hflipLow, hflipHigh, hsum, hlow, hhigh]
  rcases lt_or_ge (key (f ((a * 2 + 1) * q + c))) (key (f (a * 2 * q + c))) with hlt | hge
  · have hle := hlt.le
    cases d <;> simp [hlt, hle]
  · have hnot := not_lt.mpr hge
    cases d <;> simp [hnot, hge]

theorem merge_mem (key : α → β) (descending : ℕ → Bool) (t a : ℕ) (f : ℕ → α) {c : ℕ} (hc : c < 2 ^ t) :
    ∃ c' < 2 ^ t, merge key descending t f (a * 2 ^ t + c) = f (a * 2 ^ t + c') := by
  induction t generalizing a f c with
  | zero => exact ⟨c, hc, rfl⟩
  | succ t ih =>
    have hq : 0 < 2 ^ t := Nat.two_pow_pos t
    have hblock : ∀ b c, a * 2 ^ (t + 1) + (b * 2 ^ t + c) = (a * 2 + b) * 2 ^ t + c := fun b c => by
      ring
    obtain ⟨b, e, hb, he, rfl⟩ : ∃ b e, b < 2 ∧ e < 2 ^ t ∧ c = b * 2 ^ t + e :=
      ⟨c / 2 ^ t, c % 2 ^ t, Nat.div_lt_of_lt_mul (by rwa [Nat.pow_succ] at hc), Nat.mod_lt _ hq,
        (Nat.div_add_mod' _ _).symm⟩
    obtain ⟨e', he', hmem⟩ := ih (a * 2 + b) (exchange key descending (2 ^ t) f) he
    rw [hblock, merge, hmem, exchange]
    have hlt : ∀ b < 2, b * 2 ^ t + e' < 2 ^ (t + 1) := fun b hb => by
      rw [Nat.pow_succ']
      exact row_lt hb he'
    split
    · refine ⟨(1 - b) * 2 ^ t + e', hlt _ (by omega), ?_⟩
      rw [flipBit_row hb he', hblock]
    · exact ⟨b * 2 ^ t + e', hlt b hb, by rw [hblock]⟩

theorem merge_sorted (t a : ℕ) (f : ℕ → α) {d : Bool}
    (hd : ∀ c < 2 ^ t, descending (a * 2 ^ t + c) = d)
    (h : Bitonic (2 ^ t) fun c => key (f (a * 2 ^ t + c))) :
    Sorted d (2 ^ t) fun c => key (merge key descending t f (a * 2 ^ t + c)) := by
  induction t generalizing a f with
  | zero =>
    intro x y hxy hy
    obtain rfl : x = y := by omega
    cases d <;> exact le_rfl
  | succ t ih =>
    have hsize : 2 ^ (t + 1) = 2 ^ t + 2 ^ t := by rw [Nat.pow_succ, Nat.mul_two]
    have hbase : a * 2 ^ (t + 1) = a * 2 * 2 ^ t := by ring
    have hsecond : ∀ c, a * 2 * 2 ^ t + (2 ^ t + c) = (a * 2 + 1) * 2 ^ t + c := fun c => by ring
    rw [hbase, hsize] at h ⊢
    rw [hbase] at hd
    have hlowd : ∀ c < 2 ^ t, descending (a * 2 * 2 ^ t + c) = d := fun c hc => hd c (by omega)
    have hhighd : ∀ c < 2 ^ t, descending ((a * 2 + 1) * 2 ^ t + c) = d := fun c hc => by
      rw [← hsecond]
      exact hd _ (by omega)
    have hkeys : ∀ c < 2 ^ t, _ ∧ _ := fun c hc =>
      @key_exchange _ _ _ key descending _ _ _ f _ hc (hlowd c hc) (hhighd c hc)
    obtain ⟨hlow, hhigh, hacross⟩ := h.halves d
    simp only [hsecond] at hlow hhigh hacross
    refine sorted_join (ih (a * 2) _ hlowd (hlow.congr fun c hc => (hkeys c hc).1.symm)) ?_ ?_
    · simp only [hsecond]
      exact ih (a * 2 + 1) _ hhighd (hhigh.congr fun c hc => (hkeys c hc).2.symm)
    · intro x y hx hy
      obtain ⟨x', hx', hxmem⟩ := merge_mem key descending t (a * 2)
        (exchange key descending (2 ^ t) f) hx
      obtain ⟨y', hy', hymem⟩ := merge_mem key descending t (a * 2 + 1)
        (exchange key descending (2 ^ t) f) hy
      rw [merge, hsecond, hxmem, hymem, (hkeys x' hx').1, (hkeys y' hy').2]
      exact hacross x' y' hx' hy'

/-! The whole network. -/

def alternating (s : ℕ) (k : ℕ) : Bool := k / 2 ^ s % 2 == 1

def stages (key : α → β) : ℕ → (ℕ → α) → ℕ → α
  | 0, f => f
  | s + 1, f => merge key (alternating (s + 1)) (s + 1) (stages key s f)

theorem alternating_block {s a c : ℕ} (hc : c < 2 ^ s) :
    alternating s (a * 2 ^ s + c) = (a % 2 == 1) := by
  rw [alternating, (split_row hc a).1]

theorem bitonic_pair {s : ℕ} {g : ℕ → β}
    (h : ∀ a, Sorted (a % 2 == 1) (2 ^ s) fun c => g (a * 2 ^ s + c)) (a : ℕ) :
    Bitonic (2 ^ (s + 1)) fun c => g (a * 2 ^ (s + 1) + c) := by
  have hlow := h (a * 2)
  have hhigh := h (a * 2 + 1)
  rw [Nat.mul_mod_left] at hlow
  rw [Nat.mul_add_mod_self_right] at hhigh
  have hbase : a * 2 ^ (s + 1) = a * 2 * 2 ^ s := by ring
  have hsecond : ∀ c, (a * 2 + 1) * 2 ^ s + c = a * 2 * 2 ^ s + (2 ^ s + c) := fun c => by ring
  simp only [hsecond] at hhigh
  rw [hbase, Nat.pow_succ, Nat.mul_two]
  exact bitonic_of_halves hlow hhigh

theorem stages_sorted (key : α → β) (s a : ℕ) (f : ℕ → α) :
    Sorted (a % 2 == 1) (2 ^ s) fun c => key (stages key s f (a * 2 ^ s + c)) := by
  induction s generalizing a with
  | zero =>
    intro x y hxy hy
    obtain rfl : x = y := by omega
    split <;> exact le_rfl
  | succ s ih =>
    refine merge_sorted (s + 1) a _ (fun c hc => alternating_block hc) ?_
    exact bitonic_pair (g := fun k => key (stages key s f k)) ih a

def network (key : α → β) (d : Bool) (m : ℕ) (f : ℕ → α) : ℕ → α :=
  (List.range' 1 m).foldl
    (fun f i => merge key (if i < m then alternating i else fun _ => d) i f) f

theorem stages_eq (key : α → β) (d : Bool) {s m : ℕ} (hs : s < m) (f : ℕ → α) :
    (List.range' 1 s).foldl
      (fun f i => merge key (if i < m then alternating i else fun _ => d) i f) f = stages key s f := by
  induction s with
  | zero => rfl
  | succ s ih =>
    rw [List.range'_1_concat, List.foldl_append, ih (by omega), List.foldl_cons, List.foldl_nil,
      Nat.add_comm 1 s, if_pos hs, stages]

theorem network_succ (key : α → β) (d : Bool) (m : ℕ) (f : ℕ → α) :
    network key d (m + 1) f = merge key (fun _ => d) (m + 1) (stages key m f) := by
  rw [network, List.range'_1_concat, List.foldl_append, stages_eq key d (Nat.lt_succ_self m),
    List.foldl_cons, List.foldl_nil, Nat.add_comm 1 m, if_neg (lt_irrefl _)]

theorem network_sorted (key : α → β) (d : Bool) (m a : ℕ) (f : ℕ → α) :
    Sorted d (2 ^ m) fun c => key (network key d m f (a * 2 ^ m + c)) := by
  cases m with
  | zero =>
    intro x y hxy hy
    obtain rfl : x = y := by omega
    cases d <;> exact le_rfl
  | succ m =>
    rw [network_succ]
    exact merge_sorted (m + 1) a _ (fun _ _ => rfl)
      (bitonic_pair (g := fun k => key (stages key m f k)) (fun a => stages_sorted key m a f) a)

/-! The elements are moved, never changed. -/

def Rearranges (n : ℕ) (f g : ℕ → α) : Prop :=
  ∃ σ : Equiv.Perm ℕ, (∀ k, σ k / n = k / n) ∧ ∀ k, g k = f (σ k)

theorem Rearranges.refl (n : ℕ) (f : ℕ → α) : Rearranges n f f :=
  ⟨Equiv.refl ℕ, fun _ => rfl, fun _ => rfl⟩

theorem Rearranges.trans {n : ℕ} {f g h : ℕ → α} (hfg : Rearranges n f g) (hgh : Rearranges n g h) :
    Rearranges n f h := by
  obtain ⟨σ, hσ, hg⟩ := hfg
  obtain ⟨τ, hτ, hh⟩ := hgh
  refine ⟨τ.trans σ, fun k => ?_, fun k => ?_⟩
  · rw [Equiv.trans_apply, hσ, hτ]
  · rw [hh, hg, Equiv.trans_apply]

theorem Rearranges.row {n : ℕ} {f g : ℕ → α} (h : Rearranges n f g) (r : ℕ) :
    ∃ σ : Equiv.Perm (Fin n), ∀ j : Fin n, g (r * n + j) = f (r * n + σ j) := by
  obtain ⟨σ, hσ, hg⟩ := h
  have hsymm : ∀ k, σ.symm k / n = k / n := fun k => by
    rw [← hσ (σ.symm k), Equiv.apply_symm_apply]
  have hrow : ∀ {τ : Equiv.Perm ℕ}, (∀ k, τ k / n = k / n) → ∀ j : Fin n,
      r * n + τ (r * n + j) % n = τ (r * n + j) := fun {τ} hτ j => by
    have hdiv := hτ (r * n + j)
    rw [(split_row j.isLt r).1] at hdiv
    have hsplit := Nat.div_add_mod' (τ (r * n + j)) n
    rwa [hdiv] at hsplit
  have hmod : ∀ j : Fin n, (r * n + j) % n = j := fun j => (split_row j.isLt r).2
  refine ⟨⟨fun j => ⟨σ (r * n + j) % n, Nat.mod_lt _ j.pos⟩,
    fun j => ⟨σ.symm (r * n + j) % n, Nat.mod_lt _ j.pos⟩, fun j => ?_, fun j => ?_⟩, fun j => ?_⟩
  · apply Fin.ext
    simp only [hrow hσ j, Equiv.symm_apply_apply, hmod j]
  · apply Fin.ext
    simp only [hrow hsymm j, Equiv.apply_symm_apply, hmod j]
  · exact (hg _).trans (congrArg f (hrow hσ j).symm)

theorem swaps_flipBit (hq : 0 < q) (hd : ∀ k, descending (flipBit q k) = descending k) (k : ℕ) :
    swaps key descending q f (flipBit q k) = swaps key descending q f k := by
  have hlower : lower q (flipBit q k) = lower q k := by
    obtain ⟨a, b, c, hb, hc, rfl⟩ := exists_row hq k
    rw [flipBit_row hb hc, lower_row (by omega) hc, lower_row hb hc]
  rw [swaps, swaps, hlower, hd]

theorem exchange_rearranges {n : ℕ} (hq : 0 < q) (hn : 2 * q ∣ n)
    (hd : ∀ k, descending (flipBit q k) = descending k) (f : ℕ → α) :
    Rearranges n f (exchange key descending q f) := by
  have hinvolutive : Function.Involutive fun k =>
      if swaps key descending q f k then flipBit q k else k := by
    intro k
    by_cases hk : swaps key descending q f k = true
    · simp [hk, swaps_flipBit hq hd, flipBit_flipBit hq]
    · simp [hk]
  refine ⟨hinvolutive.toPerm _, fun k => ?_, fun k => ?_⟩
  · obtain ⟨m, rfl⟩ := hn
    rw [Function.Involutive.coe_toPerm]
    split
    · rw [← Nat.div_div_eq_div_mul, flipBit_div hq, Nat.div_div_eq_div_mul]
    · rfl
  · rw [Function.Involutive.coe_toPerm, exchange]
    split <;> rfl

theorem merge_rearranges {n : ℕ} (t : ℕ) (hn : 2 ^ t ∣ n)
    (hd : ∀ s < t, ∀ k, descending (flipBit (2 ^ s) k) = descending k) (f : ℕ → α) :
    Rearranges n f (merge key descending t f) := by
  induction t generalizing f with
  | zero => exact .refl n f
  | succ t ih =>
    have hfirst : Rearranges n f (exchange key descending (2 ^ t) f) :=
      exchange_rearranges (Nat.two_pow_pos t) (Nat.pow_succ' ▸ hn) (hd t (Nat.lt_succ_self t)) f
    exact hfirst.trans (ih (dvd_trans (pow_dvd_pow 2 (Nat.le_succ t)) hn)
      (fun s hs => hd s (by omega)) _)

theorem alternating_flipBit {s t : ℕ} (hs : s < t) (k : ℕ) :
    alternating t (flipBit (2 ^ s) k) = alternating t k := by
  have hsplit : 2 ^ t = 2 * 2 ^ s * 2 ^ (t - (s + 1)) := by
    rw [← Nat.pow_succ', ← Nat.pow_add]
    congr 1
    omega
  rw [alternating, alternating, hsplit, ← Nat.div_div_eq_div_mul, flipBit_div (Nat.two_pow_pos s),
    Nat.div_div_eq_div_mul]

theorem network_rearranges (key : α → β) (d : Bool) (m : ℕ) (f : ℕ → α) :
    Rearranges (2 ^ m) f (network key d m f) := by
  have hstages : ∀ s ≤ m, Rearranges (2 ^ m) f (stages key s f) := by
    intro s hs
    induction s with
    | zero => exact .refl _ f
    | succ s ih =>
      exact (ih (by omega)).trans (merge_rearranges (s + 1) (pow_dvd_pow 2 hs)
        (fun _ ht => alternating_flipBit ht) _)
  cases m with
  | zero => exact .refl _ f
  | succ m =>
    rw [network_succ]
    exact (hstages m (Nat.le_succ m)).trans
      (merge_rearranges (m + 1) dvd_rfl (fun _ _ _ => rfl) _)

end Rounds

end TritonCpu.BitonicNetwork
