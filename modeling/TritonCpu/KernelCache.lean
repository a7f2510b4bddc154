import TritonCpu.JITFunction

/-!
# The in-memory cache of compiled kernels

Two calls with one key pass the same types, letters, constexpr values and excess
keywords. The rest of what a compilation reads follows from these, except
whether an annotated parameter is `None` and what a keyword that names both a
parameter and an option says.
-/

set_option autoImplicit false

namespace TritonCpu.JIT

open Python PythonRepr List

/-- A parameter and its arguments in two calls. -/
abbrev Pair := KernelParam × PyValue × PyValue

def Pair.left (x : Pair) : KernelParam × PyValue := (x.1, x.2.1)
def Pair.right (x : Pair) : KernelParam × PyValue := (x.1, x.2.2)

/-- What the key has of a parameter is the same for both arguments. -/
structure SameArgument (x : Pair) : Prop where
  constexpr : x.1.is_constexpr = true → x.2.1 = x.2.2
  type : x.1.is_constexpr = false → signatureType x.1 x.2.1 = signatureType x.1 x.2.2
  letter : x.1.is_constexpr = false → x.1.do_not_specialize = false →
    specialisation x.left = specialisation x.right

section Decoding

variable {l : List Pair} {a : KernelParam × PyValue} {arguments : List (KernelParam × PyValue)}
  {ts us : List (List Char)} {s t : List Char}

theorem signatureTypes_cons (a : KernelParam × PyValue) (arguments : List (KernelParam × PyValue)) :
    signatureTypes (a :: arguments) =
      if a.1.is_constexpr then signatureTypes arguments
      else (signatureType a.1 a.2).bind fun type => (signatureTypes arguments).map (type :: ·) := by
  unfold signatureTypes
  by_cases h : a.1.is_constexpr = true
  · simp only [filter_cons, h, Bool.not_true, Bool.false_eq_true, if_false, if_true]
  · rw [Bool.not_eq_true] at h
    simp only [filter_cons, h, Bool.not_false, if_true, Bool.false_eq_true, if_false,
      mapM_cons, Option.bind_eq_bind, Option.pure_def, Option.map_eq_bind]
    rfl

theorem signatureTypes_constexpr (h : a.1.is_constexpr = true) :
    signatureTypes (a :: arguments) = signatureTypes arguments := by
  rw [signatureTypes_cons, if_pos h]

theorem signatureTypes_typed (h : a.1.is_constexpr = false)
    (hts : signatureTypes (a :: arguments) = some ts) :
    ∃ type types, signatureType a.1 a.2 = some type ∧ signatureTypes arguments = some types ∧
      ts = type :: types := by
  rw [signatureTypes_cons, if_neg (by simp [h]), Option.bind_eq_some_iff] at hts
  obtain ⟨type, htype, hrest⟩ := hts
  obtain ⟨types, htypes, rfl⟩ := Option.map_eq_some_iff.mp hrest
  exact ⟨type, types, htype, htypes, rfl⟩

theorem types_follow (hts : signatureTypes arguments = some ts) (hs : Follows s) :
    Follows (ts.flatten ++ s) := by
  induction arguments generalizing ts with
  | nil =>
    obtain rfl := Option.some.inj hts
    exact hs
  | cons a arguments ih =>
    by_cases h : a.1.is_constexpr = true
    · exact ih (signatureTypes_constexpr h ▸ hts)
    · rw [Bool.not_eq_true] at h
      obtain ⟨type, types, htype, htypes, rfl⟩ := signatureTypes_typed h hts
      rw [flatten_cons, append_assoc]
      exact signatureType_follows htype

theorem types_inj (hts : signatureTypes (l.map Pair.left) = some ts)
    (hus : signatureTypes (l.map Pair.right) = some us) (hs : Follows s)
    (ht : Follows t) (h : ts.flatten ++ s = us.flatten ++ t) : ts = us ∧ s = t := by
  induction l generalizing ts us with
  | nil =>
    obtain rfl := Option.some.inj hts
    obtain rfl := Option.some.inj hus
    exact ⟨rfl, h⟩
  | cons x l ih =>
    rw [map_cons] at hts hus
    by_cases hconstexpr : x.1.is_constexpr = true
    · rw [signatureTypes_constexpr (a := x.left) hconstexpr] at hts
      rw [signatureTypes_constexpr (a := x.right) hconstexpr] at hus
      exact ih hts hus h
    · rw [Bool.not_eq_true] at hconstexpr
      obtain ⟨type, types, htype, htypes, rfl⟩ :=
        signatureTypes_typed (a := x.left) hconstexpr hts
      obtain ⟨type', types', htype', htypes', rfl⟩ :=
        signatureTypes_typed (a := x.right) hconstexpr hus
      rw [flatten_cons, flatten_cons, append_assoc, append_assoc] at h
      obtain ⟨hhead, htail⟩ := @signatureType_inj x.1 x.2.1 x.2.2 type type' _ _ htype htype'
        (types_follow htypes hs) (types_follow htypes' ht) h
      obtain ⟨hrest, hst⟩ := ih htypes htypes' htail
      exact ⟨by rw [hhead, hrest], hst⟩

theorem length_specialisation (a : KernelParam × PyValue) : (specialisation a).length = 1 := by
  rw [specialisation, get_property_key]
  split_ifs <;> rfl

theorem letters_follow (arguments : List (KernelParam × PyValue)) (hs : Follows s) :
    Follows ((specialisations arguments).flatten ++ s) := by
  cases h : specialisations arguments with
  | nil => exact hs
  | cons letter letters =>
    obtain ⟨a, -, ha⟩ := mem_map.mp (h ▸ mem_cons_self (a := letter) (l := letters))
    rw [flatten_cons, append_assoc, ← ha, specialisation, get_property_key]
    split_ifs <;> rw [singleton_append, Follows, stops_cons] <;> rfl

theorem specialisations_cons (a : KernelParam × PyValue) (arguments : List (KernelParam × PyValue)) :
    specialisations (a :: arguments) =
      if a.1.is_constexpr = false ∧ a.1.do_not_specialize = false
      then specialisation a :: specialisations arguments else specialisations arguments := by
  unfold specialisations
  rw [filter_cons]
  by_cases hc : a.1.is_constexpr = true <;> by_cases hd : a.1.do_not_specialize = true <;>
    simp [hc, hd]

theorem specialisations_letter (h : a.1.is_constexpr = false ∧ a.1.do_not_specialize = false) :
    specialisations (a :: arguments) = specialisation a :: specialisations arguments := by
  rw [specialisations_cons, if_pos h]

theorem specialisations_skip (h : ¬(a.1.is_constexpr = false ∧ a.1.do_not_specialize = false)) :
    specialisations (a :: arguments) = specialisations arguments := by
  rw [specialisations_cons, if_neg h]

theorem letters_inj (h : (specialisations (l.map Pair.left)).flatten ++ s =
      (specialisations (l.map Pair.right)).flatten ++ t) :
    specialisations (l.map Pair.left) = specialisations (l.map Pair.right) ∧ s = t := by
  induction l with
  | nil => exact ⟨rfl, h⟩
  | cons x l ih =>
    rw [map_cons, map_cons] at *
    by_cases hletter : x.1.is_constexpr = false ∧ x.1.do_not_specialize = false
    · have hleft := @specialisations_letter x.left (l.map Pair.left) hletter
      have hright := @specialisations_letter x.right (l.map Pair.right) hletter
      rw [hleft, hright] at h ⊢
      rw [flatten_cons, flatten_cons, append_assoc, append_assoc] at h
      obtain ⟨hhead, htail⟩ := append_inj h
        ((length_specialisation _).trans (length_specialisation _).symm)
      obtain ⟨hrest, hst⟩ := ih htail
      exact ⟨by rw [hhead, hrest], hst⟩
    · have hleft := @specialisations_skip x.left (l.map Pair.left) hletter
      have hright := @specialisations_skip x.right (l.map Pair.right) hletter
      rw [hleft, hright] at h ⊢
      exact ih h

end Decoding

section Elementwise

variable {l : List Pair} {ts : List (List Char)}

theorem signatureTypes_congr (h : ∀ x ∈ l, x.1.is_constexpr = false →
    signatureType x.1 x.2.1 = signatureType x.1 x.2.2) :
    signatureTypes (l.map Pair.left) = signatureTypes (l.map Pair.right) := by
  induction l with
  | nil => rfl
  | cons x l ih =>
    rw [forall_mem_cons] at h
    rw [map_cons, map_cons]
    by_cases hconstexpr : x.1.is_constexpr = true
    · rw [signatureTypes_constexpr (a := x.left) hconstexpr,
        signatureTypes_constexpr (a := x.right) hconstexpr, ih h.2]
    · have htype : signatureType x.left.1 x.left.2 = signatureType x.right.1 x.right.2 :=
        h.1 (by simpa using hconstexpr)
      rw [signatureTypes_cons, signatureTypes_cons, ih h.2, htype]
      rfl

theorem types_of_eq (hts : signatureTypes (l.map Pair.left) = some ts)
    (hus : signatureTypes (l.map Pair.right) = some ts) :
    ∀ x ∈ l, x.1.is_constexpr = false → signatureType x.1 x.2.1 = signatureType x.1 x.2.2 := by
  induction l generalizing ts with
  | nil => simp
  | cons x l ih =>
    rw [map_cons] at hts hus
    rw [forall_mem_cons]
    by_cases hconstexpr : x.1.is_constexpr = true
    · rw [signatureTypes_constexpr (a := x.left) hconstexpr] at hts
      rw [signatureTypes_constexpr (a := x.right) hconstexpr] at hus
      exact ⟨fun h => absurd hconstexpr (by simp [h]), ih hts hus⟩
    · rw [Bool.not_eq_true] at hconstexpr
      obtain ⟨type, types, htype, htypes, rfl⟩ :=
        signatureTypes_typed (a := x.left) hconstexpr hts
      obtain ⟨type', types', htype', htypes', heq⟩ :=
        signatureTypes_typed (a := x.right) hconstexpr hus
      rw [List.cons.injEq] at heq
      obtain ⟨rfl, rfl⟩ := heq
      exact ⟨fun _ => htype.trans htype'.symm, ih htypes htypes'⟩

theorem letters_eq_iff :
    specialisations (l.map Pair.left) = specialisations (l.map Pair.right) ↔
      ∀ x ∈ l, x.1.is_constexpr = false → x.1.do_not_specialize = false →
        specialisation x.left = specialisation x.right := by
  induction l with
  | nil => simp [specialisations]
  | cons x l ih =>
    rw [map_cons, map_cons, forall_mem_cons]
    by_cases hletter : x.1.is_constexpr = false ∧ x.1.do_not_specialize = false
    · rw [specialisations_letter (a := x.left) hletter,
        specialisations_letter (a := x.right) hletter, List.cons.injEq, ih]
      exact and_congr_left fun _ => ⟨fun h _ _ => h, fun h => h hletter.1 hletter.2⟩
    · rw [specialisations_skip (a := x.left) hletter,
        specialisations_skip (a := x.right) hletter, ih]
      exact (and_iff_right fun hc hd => absurd ⟨hc, hd⟩ hletter).symm

theorem constexprVals_cons (a : KernelParam × PyValue) (arguments : List (KernelParam × PyValue)) :
    constexprVals (a :: arguments) =
      if a.1.is_constexpr then a.2 :: constexprVals arguments else constexprVals arguments := by
  unfold constexprVals
  rw [filter_cons]
  split <;> rfl

theorem constexprVals_eq_iff :
    constexprVals (l.map Pair.left) = constexprVals (l.map Pair.right) ↔
      ∀ x ∈ l, x.1.is_constexpr = true → x.2.1 = x.2.2 := by
  induction l with
  | nil => simp [constexprVals]
  | cons x l ih =>
    rw [forall_mem_cons, ← ih, map_cons, map_cons, constexprVals_cons,
      constexprVals_cons]
    by_cases hconstexpr : x.1.is_constexpr = true <;>
      simp [Pair.left, Pair.right, hconstexpr]

end Elementwise

def pairs (f : JITFunction) (b c : Bound) : List Pair :=
  f.params.zip (b.bound_vals.zip c.bound_vals)

section Bound

variable {f : JITFunction} {b c : Bound} {args args' : List PyValue} {kwargs kwargs' : Dict PyValue}

theorem bindArgs_length {ps : List KernelParam} {vals : List PyValue}
    (h : bindArgs ps args kwargs = some vals) : vals.length = ps.length := by
  induction ps generalizing args vals with
  | nil =>
    cases args with
    | nil => rw [← Option.some.inj h]; rfl
    | cons a args => simp [bindArgs] at h
  | cons p ps ih =>
    cases args with
    | nil =>
      simp only [bindArgs] at h
      split at h
      · obtain ⟨rest, hrest, rfl⟩ := Option.map_eq_some_iff.mp h
        simp [ih hrest]
      · simp at h
    | cons a args =>
      simp only [bindArgs] at h
      split at h
      · simp at h
      · obtain ⟨rest, hrest, rfl⟩ := Option.map_eq_some_iff.mp h
        simp [ih hrest]

/-- The binder's results, from the bound arguments. -/
structure BoundBy (f : JITFunction) (args : List PyValue) (kwargs : Dict PyValue) (b : Bound) :
    Prop where
  binds : bindArgs f.params args kwargs = some b.bound_vals
  types : signatureTypes (f.params.zip b.bound_vals) = some b.signature_types
  letters : b.specialisations = specialisations (f.params.zip b.bound_vals)
  constexpr : b.constexpr_vals = constexprVals (f.params.zip b.bound_vals)
  excess : b.excess_kwargs = kwargs.filter fun kw => kw.1 ∉ f.names

theorem dynamic_func_bound (h : f.dynamic_func args kwargs = some b) :
    BoundBy f args kwargs b := by
  obtain ⟨vals, hvals, hrest⟩ := Option.bind_eq_some_iff.mp h
  obtain ⟨types, htypes, rfl⟩ := Option.map_eq_some_iff.mp hrest
  exact ⟨hvals, htypes, rfl, rfl, rfl⟩

theorem BoundBy.length (h : BoundBy f args kwargs b) : b.bound_vals.length = f.params.length :=
  bindArgs_length h.binds

theorem map_zip (ps : List KernelParam) {vals vals' : List PyValue}
    (h : vals.length = vals'.length) :
    (ps.zip (vals.zip vals')).map Pair.left = ps.zip vals ∧
      (ps.zip (vals.zip vals')).map Pair.right = ps.zip vals' := by
  induction ps generalizing vals vals' with
  | nil => exact ⟨rfl, rfl⟩
  | cons p ps ih =>
    cases vals with
    | nil => simp [List.length_eq_zero_iff.mp h.symm]
    | cons v vals =>
      cases vals' with
      | nil => simp at h
      | cons w vals' =>
        obtain ⟨hleft, hright⟩ := ih (by simpa using h)
        simp only [zip_cons_cons, map_cons]
        rw [hleft, hright]
        exact ⟨rfl, rfl⟩

theorem pairs_left (hb : BoundBy f args kwargs b) (hc : BoundBy f args' kwargs' c) :
    (pairs f b c).map Pair.left = f.params.zip b.bound_vals :=
  (map_zip _ (hb.length.trans hc.length.symm)).1

theorem pairs_right (hb : BoundBy f args kwargs b) (hc : BoundBy f args' kwargs' c) :
    (pairs f b c).map Pair.right = f.params.zip c.bound_vals :=
  (map_zip _ (hb.length.trans hc.length.symm)).2

end Bound

end TritonCpu.JIT
