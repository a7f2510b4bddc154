import Mathlib

/-!
# The text of a value and where it ends

The texts Python's `repr` gives strings, integers and lists. A text is read from
the left: two values whose texts begin the same characters are the same value,
and what follows the texts is the same, so texts can be written one after another.
-/

set_option autoImplicit false

namespace TritonCpu.PythonRepr

open List

variable {α β : Type}

/-- The text of a value ends where it does, whatever admitted text follows. -/
def Delimits (text : α → List Char) (next : List Char → Prop) : Prop :=
  ∀ a b s t, next s → next t → text a ++ s = text b ++ t → a = b ∧ s = t

def Stops (excluded : Char → Bool) (s : List Char) : Prop := ∀ c ∈ s.head?, excluded c = false

@[simp] theorem stops_cons (excluded : Char → Bool) (c : Char) (s : List Char) :
    Stops excluded (c :: s) ↔ excluded c = false := by
  simp [Stops]

theorem append_inj_of_stops (kind : Char → Bool) (l l' s t : List Char)
    (hl : ∀ c ∈ l, kind c = true) (hl' : ∀ c ∈ l', kind c = true)
    (hs : Stops kind s) (ht : Stops kind t) (h : l ++ s = l' ++ t) : l = l' ∧ s = t := by
  have stop (u : List Char) (hu : Stops kind u) : u.takeWhile kind = [] := by
    cases u with
    | nil => rfl
    | cons c u => simp [List.takeWhile, (stops_cons kind c u).mp hu]
  have hl₀ : (l ++ s).takeWhile kind = l ++ s.takeWhile kind := takeWhile_append_of_pos hl
  have hl₁ : (l' ++ t).takeWhile kind = l' ++ t.takeWhile kind :=
    takeWhile_append_of_pos hl'
  have heq : l = l' := by
    calc l = (l ++ s).takeWhile kind := by rw [hl₀, stop s hs, append_nil]
      _ = (l' ++ t).takeWhile kind := by rw [h]
      _ = l' := by rw [hl₁, stop t ht, append_nil]
  subst heq
  exact ⟨rfl, append_cancel_left h⟩

section Integers

def intRepr : ℤ → List Char
  | .ofNat n => Nat.toDigits 10 n
  | .negSucc n => '-' :: Nat.toDigits 10 (n + 1)

theorem isDigit_toDigits (n : ℕ) : ∀ c ∈ Nat.toDigits 10 n, c.isDigit = true := by
  intro c hc
  exact Nat.isDigit_of_mem_toDigits (by decide) (by decide) hc

theorem toDigits_inj {m n : ℕ} (h : Nat.toDigits 10 m = Nat.toDigits 10 n) : m = n := by
  rw [← Nat.ofDigitChars_ten_toDigits (n := m), h, Nat.ofDigitChars_ten_toDigits]

theorem digits_delimit : Delimits (Nat.toDigits 10) (Stops Char.isDigit) := by
  intro m n s t hs ht h
  obtain ⟨hdigits, htail⟩ := append_inj_of_stops Char.isDigit _ _ s t (isDigit_toDigits m)
    (isDigit_toDigits n) hs ht h
  exact ⟨toDigits_inj hdigits, htail⟩

theorem digits_ne_sign (n : ℕ) (s t : List Char) : Nat.toDigits 10 n ++ s ≠ '-' :: t := by
  intro h
  obtain ⟨c, l, hl⟩ := exists_cons_of_ne_nil (Nat.toDigits_ne_nil (n := n) (b := 10))
  have hdigit := isDigit_toDigits n c (by simp [hl])
  rw [hl, cons_append, List.cons.injEq] at h
  rw [h.1] at hdigit
  exact absurd hdigit (by decide)

theorem intRepr_delimits : Delimits intRepr (Stops Char.isDigit) := by
  intro a b s t hs ht h
  cases a with
  | ofNat m =>
    cases b with
    | ofNat n =>
      obtain ⟨hmn, htail⟩ := digits_delimit m n s t hs ht h
      exact ⟨congrArg Int.ofNat hmn, htail⟩
    | negSucc n => exact absurd h (digits_ne_sign m s _)
  | negSucc m =>
    cases b with
    | ofNat n => exact absurd h.symm (digits_ne_sign n t _)
    | negSucc n =>
      obtain ⟨hmn, htail⟩ := digits_delimit (m + 1) (n + 1) s t hs ht (List.cons.inj h).2
      exact ⟨congrArg Int.negSucc (by omega), htail⟩

end Integers

section Lists

def itemsRepr (text : α → List Char) : List α → List Char
  | [] => [']']
  | a :: l => ',' :: ' ' :: (text a ++ itemsRepr text l)

def listRepr (text : α → List Char) : List α → List Char
  | [] => ['[', ']']
  | a :: l => '[' :: (text a ++ itemsRepr text l)

/-- An item does not begin with the bracket that closes the list. -/
def Opens (text : α → List Char) : Prop := ∀ a, ∃ c l, text a = c :: l ∧ c ≠ ']'

variable {text : α → List Char} {next : List Char → Prop}

theorem itemsRepr_head (l : List α) (s : List Char) :
    ∃ c u, itemsRepr text l ++ s = c :: u ∧ (c = ',' ∨ c = ']') := by
  cases l with
  | nil => exact ⟨']', s, rfl, Or.inr rfl⟩
  | cons a l => exact ⟨',', _, rfl, Or.inl rfl⟩

theorem itemsRepr_next (hnext : ∀ c u, c = ',' ∨ c = ']' → next (c :: u)) (l : List α)
    (s : List Char) : next (itemsRepr text l ++ s) := by
  obtain ⟨c, u, hu, hc⟩ := itemsRepr_head l s
  rw [hu]
  exact hnext c u hc

theorem itemsRepr_delimits (htext : Delimits text next)
    (hnext : ∀ c u, c = ',' ∨ c = ']' → next (c :: u)) :
    Delimits (itemsRepr text) fun _ => True := by
  intro l
  induction l with
  | nil =>
    intro l' s t _ _ h
    cases l' with
    | nil => exact ⟨rfl, (List.cons.inj h).2⟩
    | cons b l' => exact absurd (List.cons.inj h).1 (by decide)
  | cons a l ih =>
    intro l' s t _ _ h
    cases l' with
    | nil => exact absurd (List.cons.inj h).1 (by decide)
    | cons b l' =>
      simp only [itemsRepr, cons_append, List.cons.injEq, true_and, append_assoc] at h
      obtain ⟨hab, hrest⟩ :=
        htext a b _ _ (itemsRepr_next hnext l s) (itemsRepr_next hnext l' t) h
      obtain ⟨hl, htail⟩ := ih l' s t trivial trivial hrest
      exact ⟨by rw [hab, hl], htail⟩

theorem listRepr_delimits (htext : Delimits text next) (hopens : Opens text)
    (hnext : ∀ c u, c = ',' ∨ c = ']' → next (c :: u)) :
    Delimits (listRepr text) fun _ => True := by
  have empty (a : α) (l : List α) (s t : List Char) :
      listRepr text [] ++ s ≠ listRepr text (a :: l) ++ t := by
    intro h
    obtain ⟨c, u, hu, hc⟩ := hopens a
    simp only [listRepr, hu, cons_append, nil_append, List.cons.injEq, true_and] at h
    exact hc h.1.symm
  intro l l' s t _ _ h
  cases l with
  | nil =>
    cases l' with
    | nil => exact ⟨rfl, append_cancel_left h⟩
    | cons b l' => exact absurd h (empty b l' s t)
  | cons a l =>
    cases l' with
    | nil => exact absurd h.symm (empty a l t s)
    | cons b l' =>
      simp only [listRepr, cons_append, List.cons.injEq, true_and, append_assoc] at h
      obtain ⟨hab, hrest⟩ :=
        htext a b _ _ (itemsRepr_next hnext l s) (itemsRepr_next hnext l' t) h
      obtain ⟨hl, htail⟩ := itemsRepr_delimits htext hnext l l' s t trivial trivial hrest
      exact ⟨by rw [hab, hl], htail⟩

theorem listRepr_opens : Opens (listRepr text) := by
  intro l
  cases l with
  | nil => exact ⟨'[', [']'], rfl, by decide⟩
  | cons a l => exact ⟨'[', _, rfl, by decide⟩

theorem intRepr_opens : Opens intRepr := by
  intro z
  cases z with
  | ofNat n =>
    obtain ⟨c, l, hl⟩ := exists_cons_of_ne_nil (Nat.toDigits_ne_nil (n := n) (b := 10))
    refine ⟨c, l, hl, ?_⟩
    rintro rfl
    exact absurd (isDigit_toDigits n ']' (by simp [hl])) (by decide)
  | negSucc n => exact ⟨'-', _, rfl, by decide⟩

end Lists

section Strings

/-- The last `width` hexadecimal digits of a number. -/
def hexDigits : ℕ → ℕ → List Char
  | 0, _ => []
  | width + 1, n => hexDigits width (n / 16) ++ [Nat.digitChar (n % 16)]

def digitValue (c : Char) : ℕ := if c.isDigit then c.toNat - 48 else c.toNat - 87

def hexValue (digits : List Char) : ℕ := digits.foldl (fun n c => 16 * n + digitValue c) 0

theorem digitValue_digitChar : ∀ d < 16, digitValue (Nat.digitChar d) = d := by decide

theorem length_hexDigits (width n : ℕ) : (hexDigits width n).length = width := by
  induction width generalizing n with
  | zero => rfl
  | succ width ih => simp [hexDigits, ih]

theorem mem_hexDigits (width n : ℕ) : ∀ c ∈ hexDigits width n, c ∈ "0123456789abcdef".toList := by
  have digit : ∀ d < 16, Nat.digitChar d ∈ "0123456789abcdef".toList := by decide
  induction width generalizing n with
  | zero => simp [hexDigits]
  | succ width ih =>
    intro c hc
    rcases mem_append.mp hc with h | h
    · exact ih (n / 16) c h
    · rw [mem_singleton.mp h]
      exact digit (n % 16) (Nat.mod_lt n (by decide))

theorem hexValue_hexDigits (width n : ℕ) : hexValue (hexDigits width n) = n % 16 ^ width := by
  induction width generalizing n with
  | zero => simp [hexValue, hexDigits, Nat.mod_one]
  | succ width ih =>
    have hlast := digitValue_digitChar (n % 16) (Nat.mod_lt n (by decide))
    have hsplit := ih (n / 16)
    simp only [hexValue] at hsplit
    simp only [hexValue, hexDigits, foldl_append, foldl_cons, foldl_nil, hlast,
      hsplit]
    rw [Nat.pow_succ', Nat.mod_mul, Nat.add_comm]

def backslash : Char := Char.ofNat 92
def singleQuote : Char := Char.ofNat 39
def doubleQuote : Char := Char.ofNat 34

/-- How a character stands in a text between `quote` characters. `isprintable`
decides the characters outside ASCII. -/
def escape (isprintable : Char → Bool) (quote c : Char) : List Char :=
  if c = quote ∨ c = backslash then [backslash, c]
  else if c.toNat = 9 then [backslash, 't']
  else if c.toNat = 10 then [backslash, 'n']
  else if c.toNat = 13 then [backslash, 'r']
  else if 32 ≤ c.toNat ∧ c.toNat < 127 ∨ 127 < c.toNat ∧ isprintable c = true then [c]
  else if c.toNat ≤ 0xff then backslash :: 'x' :: hexDigits 2 c.toNat
  else if c.toNat ≤ 0xffff then backslash :: 'u' :: hexDigits 4 c.toNat
  else backslash :: 'U' :: hexDigits 8 c.toNat

def unescape : List Char → Option (Char × List Char)
  | [] => none
  | c :: s =>
    if c = backslash then
      match s with
      | [] => none
      | 't' :: s => some (Char.ofNat 9, s)
      | 'n' :: s => some (Char.ofNat 10, s)
      | 'r' :: s => some (Char.ofNat 13, s)
      | 'x' :: s => some (Char.ofNat (hexValue (s.take 2)), s.drop 2)
      | 'u' :: s => some (Char.ofNat (hexValue (s.take 4)), s.drop 4)
      | 'U' :: s => some (Char.ofNat (hexValue (s.take 8)), s.drop 8)
      | d :: s => some (d, s)
    else some (c, s)

variable (isprintable : Char → Bool) {quote : Char}

theorem take_hexDigits (width n : ℕ) (s : List Char) :
    (hexDigits width n ++ s).take width = hexDigits width n :=
  take_left' (length_hexDigits width n)

theorem drop_hexDigits (width n : ℕ) (s : List Char) :
    (hexDigits width n ++ s).drop width = s :=
  drop_left' (length_hexDigits width n)

theorem ofNat_hexValue (width : ℕ) (c : Char) (h : c.toNat < 16 ^ width) :
    Char.ofNat (hexValue (hexDigits width c.toNat)) = c := by
  rw [hexValue_hexDigits, Nat.mod_eq_of_lt h, Char.ofNat_toNat]

theorem char_eq_of_toNat (c : Char) (n : ℕ) (h : c.toNat = n) : Char.ofNat n = c := by
  rw [← h, Char.ofNat_toNat]

theorem unescape_escape (hquote : quote = singleQuote ∨ quote = doubleQuote) (c : Char)
    (s : List Char) : unescape (escape isprintable quote c ++ s) = some (c, s) := by
  have hbound : c.toNat < 16 ^ 8 := Nat.lt_of_lt_of_eq c.val.toNat_lt (by decide)
  unfold escape
  by_cases hspecial : c = quote ∨ c = backslash
  · rw [if_pos hspecial]
    rcases hspecial with rfl | rfl
    · rcases hquote with rfl | rfl <;> rfl
    · rfl
  rw [if_neg hspecial]
  rw [not_or] at hspecial
  by_cases htab : c.toNat = 9
  · simp [unescape, ← char_eq_of_toNat c 9 htab]
  by_cases hnewline : c.toNat = 10
  · simp [unescape, ← char_eq_of_toNat c 10 hnewline]
  by_cases hreturn : c.toNat = 13
  · simp [unescape, ← char_eq_of_toNat c 13 hreturn]
  rw [if_neg htab, if_neg hnewline, if_neg hreturn]
  split_ifs with hplain hbyte hword
  · simp [unescape, hspecial.2]
  · simp [unescape, take_hexDigits, drop_hexDigits, ofNat_hexValue 2 c (by omega)]
  · simp [unescape, take_hexDigits, drop_hexDigits, ofNat_hexValue 4 c (by omega)]
  · simp [unescape, take_hexDigits, drop_hexDigits, ofNat_hexValue 8 c hbound]

theorem escape_head (hquote : quote = singleQuote ∨ quote = doubleQuote) (c : Char) :
    ∃ d l, escape isprintable quote c = d :: l ∧ d ≠ quote := by
  have hback : backslash ≠ quote := by rcases hquote with rfl | rfl <;> decide
  unfold escape
  by_cases hspecial : c = quote ∨ c = backslash
  · exact ⟨backslash, [c], if_pos hspecial, hback⟩
  rw [if_neg hspecial]
  rw [not_or] at hspecial
  split_ifs
  all_goals first
    | exact ⟨backslash, _, rfl, hback⟩
    | exact ⟨c, [], rfl, hspecial.1⟩

/-- Single quotes, unless the string has one and no double quote. -/
def quoteOf (s : List Char) : Char :=
  if singleQuote ∈ s ∧ doubleQuote ∉ s then doubleQuote else singleQuote

def strRepr (s : String) : List Char :=
  quoteOf s.toList ::
    (s.toList.flatMap (escape isprintable (quoteOf s.toList)) ++ [quoteOf s.toList])

theorem quoteOf_eq (s : List Char) : quoteOf s = singleQuote ∨ quoteOf s = doubleQuote := by
  unfold quoteOf
  split_ifs
  · exact Or.inr rfl
  · exact Or.inl rfl

theorem escaped_inj (hquote : quote = singleQuote ∨ quote = doubleQuote) (l l' s t : List Char)
    (h : l.flatMap (escape isprintable quote) ++ quote :: s =
      l'.flatMap (escape isprintable quote) ++ quote :: t) : l = l' ∧ s = t := by
  induction l generalizing l' with
  | nil =>
    cases l' with
    | nil => exact ⟨rfl, (List.cons.inj h).2⟩
    | cons c l' =>
      obtain ⟨d, u, hd, hne⟩ := escape_head isprintable hquote c
      rw [flatMap_cons, hd] at h
      exact absurd (List.cons.inj h).1.symm hne
  | cons c l ih =>
    cases l' with
    | nil =>
      obtain ⟨d, u, hd, hne⟩ := escape_head isprintable hquote c
      rw [flatMap_cons, hd] at h
      exact absurd (List.cons.inj h).1 hne
    | cons c' l' =>
      have hread := congrArg unescape h
      simp only [flatMap_cons, append_assoc, unescape_escape isprintable hquote,
        Option.some.injEq, Prod.mk.injEq] at hread
      obtain ⟨hl, htail⟩ := ih l' hread.2
      exact ⟨by rw [hread.1, hl], htail⟩

theorem strRepr_delimits : Delimits (strRepr isprintable) fun _ => True := by
  intro a b s t _ _ h
  simp only [strRepr, cons_append, List.cons.injEq, append_assoc, nil_append] at h
  obtain ⟨hquote, hbody⟩ := h
  rw [← hquote] at hbody
  obtain ⟨hlist, htail⟩ := escaped_inj isprintable (quoteOf_eq a.toList) _ _ s t hbody
  exact ⟨String.toList_inj.mp hlist, htail⟩

theorem strRepr_opens : Opens (strRepr isprintable) := by
  intro a
  refine ⟨quoteOf a.toList, _, rfl, ?_⟩
  rcases quoteOf_eq a.toList with h | h
  · rw [h]; decide
  · rw [h]; decide

end Strings

end TritonCpu.PythonRepr
