import TritonCpu.AttrsDescriptor

/-!
# The hash of a kernel source

The on-disk cache looks a kernel up by this hash. The descriptor's part of it keeps the
index lists and not the properties they belong to, and the signature's part keeps
the types and not the names. Everything else can be read back from it.
-/

set_option autoImplicit false

namespace TritonCpu.JIT

open Python PythonRepr

structure ASTSource where
  signature : Dict String
  constants : Dict PyValue
  attrs : AttrsDescriptor
  signature_nodup : (keys signature).Nodup
  constants_nodup : (keys constants).Nodup

/-- `hashlib.sha256(key).hexdigest()`, without collisions. -/
structure Sha256 where
  hexdigest : List Char → List Char
  injective : Function.Injective hexdigest
  hex : ∀ key, ∀ c ∈ hexdigest key, c ∈ "0123456789abcdef".toList

/-- The digest that spells the key out, eight digits for a character. -/
def spelledDigest : Sha256 where
  hexdigest key := key.flatMap fun c => hexDigits 8 c.toNat
  injective := by
    intro a b h
    induction a generalizing b with
    | nil =>
      cases b with
      | nil => rfl
      | cons c b => exact absurd (congrArg List.length h) (by simp [length_hexDigits]; omega)
    | cons c a ih =>
      cases b with
      | nil => exact absurd (congrArg List.length h) (by simp [length_hexDigits])
      | cons d b =>
        simp only [List.flatMap_cons] at h
        obtain ⟨hcode, hrest⟩ := List.append_inj h (by simp [length_hexDigits])
        have hbound (e : Char) : e.toNat < 16 ^ 8 := Nat.lt_of_lt_of_eq e.val.toNat_lt (by decide)
        rw [← ofNat_hexValue 8 c (hbound c), hcode, ofNat_hexValue 8 d (hbound d), ih hrest]
  hex := by
    intro key c hc
    obtain ⟨d, -, hd⟩ := List.mem_flatMap.mp hc
    exact mem_hexDigits 8 d.toNat c hd

variable (py : Interpreter) (sha : Sha256)

namespace AttrsDescriptor

/-- The text of the sorted index lists, property values and constant properties. -/
def hashKey (d : AttrsDescriptor) : List Char :=
  '[' :: (listRepr (listRepr (Nat.toDigits 10)) (sorted (d.arg_properties.map Prod.snd)) ++
    ',' :: ' ' :: (listRepr intRepr (sorted (d.property_values.map Prod.snd)) ++
    ',' :: ' ' :: (listRepr (strRepr py.isprintable) (sorted d.constant_properties) ++ [']'])))

def hash (d : AttrsDescriptor) : List Char := sha.hexdigest (d.hashKey py)

end AttrsDescriptor

def constantRepr (item : String × PyValue) : List Char :=
  '(' :: (strRepr py.isprintable item.1 ++ ',' :: ' ' :: (item.2.repr py ++ [')']))

namespace ASTSource

def sorted_sig (s : ASTSource) : List String := (sortedItems s.signature).map Prod.snd

def sorted_constants (s : ASTSource) : Dict PyValue := sortedItems s.constants

def hashKey (cache_key : List Char) (s : ASTSource) : List Char :=
  cache_key ++ '-' :: (s.attrs.hash py sha ++
    '-' :: (listRepr (strRepr py.isprintable) s.sorted_sig ++
    '-' :: listRepr (constantRepr py) s.sorted_constants))

def hash (cache_key : List Char) (s : ASTSource) : List Char :=
  sha.hexdigest (s.hashKey py sha cache_key)

end ASTSource

section Decoding

theorem digits_opens : Opens (Nat.toDigits 10) := fun n => intRepr_opens (Int.ofNat n)

theorem stops_at_separator (c : Char) (u : List Char) (h : c = ',' ∨ c = ']') :
    Stops Char.isDigit (c :: u) := by
  rw [stops_cons]
  rcases h with rfl | rfl <;> decide

theorem indexLists_delimit : Delimits (listRepr (listRepr (Nat.toDigits 10))) fun _ => True :=
  listRepr_delimits (listRepr_delimits digits_delimit digits_opens stops_at_separator)
    listRepr_opens fun _ _ _ => trivial

theorem integers_delimit : Delimits (listRepr intRepr) fun _ => True :=
  listRepr_delimits intRepr_delimits intRepr_opens stops_at_separator

theorem strings_delimit : Delimits (listRepr (strRepr py.isprintable)) fun _ => True :=
  listRepr_delimits (strRepr_delimits py.isprintable) (strRepr_opens py.isprintable)
    fun _ _ _ => trivial

theorem digest_append_inj {a b s t : List Char}
    (h : sha.hexdigest a ++ '-' :: s = sha.hexdigest b ++ '-' :: t) : a = b ∧ s = t := by
  have kind (key : List Char) : ∀ c ∈ sha.hexdigest key, (c != '-') = true := by
    intro c hc
    have hhex : "0123456789abcdef".toList.all (· != '-') = true := by decide +kernel
    exact List.all_eq_true.mp hhex c (sha.hex key c hc)
  have dash (u : List Char) : Stops (· != '-') ('-' :: u) := (stops_cons _ _ _).mpr rfl
  obtain ⟨hdigest, htail⟩ :=
    append_inj_of_stops (· != '-') _ _ _ _ (kind a) (kind b) (dash s) (dash t) h
  exact ⟨sha.injective hdigest, (List.cons.inj htail).2⟩

/-- What a descriptor's hash keeps. -/
structure SameLists (d e : AttrsDescriptor) : Prop where
  indices : (d.arg_properties.map Prod.snd).Perm (e.arg_properties.map Prod.snd)
  values : (d.property_values.map Prod.snd).Perm (e.property_values.map Prod.snd)
  constants : d.constant_properties.Perm e.constant_properties

theorem hashKey_eq_iff {d e : AttrsDescriptor} : d.hashKey py = e.hashKey py ↔ SameLists d e := by
  constructor
  · intro h
    simp only [AttrsDescriptor.hashKey, List.cons.injEq, true_and] at h
    obtain ⟨hindices, h⟩ := indexLists_delimit _ _ _ _ trivial trivial h
    simp only [List.cons.injEq, true_and] at h
    obtain ⟨hvalues, h⟩ := integers_delimit _ _ _ _ trivial trivial h
    simp only [List.cons.injEq, true_and] at h
    obtain ⟨hconstants, -⟩ := strings_delimit py _ _ _ _ trivial trivial h
    exact ⟨sorted_eq_iff.mp hindices, sorted_eq_iff.mp hvalues, sorted_eq_iff.mp hconstants⟩
  · rintro ⟨hindices, hvalues, hconstants⟩
    rw [AttrsDescriptor.hashKey, AttrsDescriptor.hashKey, sorted_eq_iff.mpr hindices,
      sorted_eq_iff.mpr hvalues, sorted_eq_iff.mpr hconstants]

end Decoding

section Soundness

variable {cache_key : List Char} {s t : ASTSource}

/-- `repr` tells the constants of the two sources apart. -/
def ReprInjective (s t : ASTSource) : Prop :=
  listRepr (constantRepr py) s.sorted_constants = listRepr (constantRepr py) t.sorted_constants →
    s.sorted_constants = t.sorted_constants

/-- What a source's hash keeps. -/
structure SameKept (s t : ASTSource) : Prop where
  types : s.sorted_sig = t.sorted_sig
  constants : s.constants.Perm t.constants
  attrs : SameLists s.attrs t.attrs

def SameProperties (d e : AttrsDescriptor) : Prop := ∀ name num, d.Holds name num ↔ e.Holds name num

/-- The sources are the same: equal dictionaries and equal properties. -/
structure Agree (s t : ASTSource) : Prop where
  signature : s.signature.Perm t.signature
  constants : s.constants.Perm t.constants
  attrs : SameProperties s.attrs t.attrs

theorem hash_eq_iff (hrepr : ReprInjective py s t) :
    s.hash py sha cache_key = t.hash py sha cache_key ↔ SameKept s t := by
  constructor
  · intro h
    have hkey := List.append_cancel_left (sha.injective h)
    rw [List.cons.injEq] at hkey
    obtain ⟨hattrs, hkey⟩ := digest_append_inj sha hkey.2
    obtain ⟨htypes, hkey⟩ := strings_delimit py _ _ _ _ trivial trivial hkey
    have hconstants := hrepr (List.cons.inj hkey).2
    exact ⟨htypes, (sortedItems_eq_iff_perm s.constants_nodup).mp hconstants,
      (hashKey_eq_iff py).mp hattrs⟩
  · rintro ⟨htypes, hconstants, hattrs⟩
    have hsorted := (sortedItems_eq_iff_perm s.constants_nodup).mpr hconstants
    rw [ASTSource.hash, ASTSource.hash, ASTSource.hashKey, ASTSource.hashKey, htypes,
      ASTSource.sorted_constants, ASTSource.sorted_constants, hsorted, AttrsDescriptor.hash,
      AttrsDescriptor.hash, (hashKey_eq_iff py).mpr hattrs]

theorem signature_perm_iff (htypes : s.sorted_sig = t.sorted_sig) :
    s.signature.Perm t.signature ↔ (keys s.signature).Perm (keys t.signature) := by
  rw [← sortedItems_eq_iff_perm s.signature_nodup, sortedItems_eq_iff]
  exact and_iff_left htypes

/-- Equal hashes mean equal sources exactly when what the hash keeps also fixes
the parameter names and the property each index list belongs to. -/
theorem hash_sound_iff (hrepr : ReprInjective py s t) :
    (s.hash py sha cache_key = t.hash py sha cache_key → Agree s t) ↔
      (SameKept s t →
        (keys s.signature).Perm (keys t.signature) ∧ SameProperties s.attrs t.attrs) := by
  rw [hash_eq_iff py sha hrepr]
  refine forall_congr' fun hkept => ?_
  constructor
  · intro h
    exact ⟨(signature_perm_iff hkept.types).mp h.signature, h.attrs⟩
  · rintro ⟨hnames, hproperties⟩
    exact ⟨(signature_perm_iff hkept.types).mpr hnames, hkept.constants, hproperties⟩

/-- One `i32` parameter, with the properties that hints give it. -/
def hintedSource (type : String) (hints : List (ℕ × ℤ)) : ASTSource where
  signature := [("x", type)]
  constants := []
  attrs := AttrsDescriptor.from_hints (fun _ => none) .AttrsDescriptor hints
  signature_nodup := by simp [keys]
  constants_nodup := by simp [keys]

/-- Sources of other types have other hashes, so that nothing is asked of them. -/
theorem hash_sound_otherType : ((hintedSource "i32" [(0, 16)]).hash wholeFloats spelledDigest [] =
      (hintedSource "i64" [(0, 16)]).hash wholeFloats spelledDigest [] →
        Agree (hintedSource "i32" [(0, 16)]) (hintedSource "i64" [(0, 16)])) ↔ True := by
  have hrepr : ReprInjective wholeFloats (hintedSource "i32" [(0, 16)])
      (hintedSource "i64" [(0, 16)]) := fun _ => rfl
  refine iff_true_intro ((hash_sound_iff wholeFloats spelledDigest hrepr).mpr fun hkept => ?_)
  have htypes := hkept.types
  simp [ASTSource.sorted_sig, hintedSource, sortedItems] at htypes

/-- A parameter divisible by 16 and one equal to 1 have the same hash. -/
theorem hash_of_swapped_hints : ¬ ∀ s t : ASTSource, ReprInjective wholeFloats s t →
    s.hash wholeFloats spelledDigest [] = t.hash wholeFloats spelledDigest [] → Agree s t := by
  intro h
  have hkept : SameKept (hintedSource "i32" [(0, 16)]) (hintedSource "i32" [(0, 1)]) :=
    ⟨rfl, List.Perm.refl _, List.Perm.swap _ _ _, List.Perm.refl _, List.Perm.refl _⟩
  have hrepr : ReprInjective wholeFloats (hintedSource "i32" [(0, 16)])
      (hintedSource "i32" [(0, 1)]) := fun _ => rfl
  have hagree := h _ _ hrepr ((hash_eq_iff wholeFloats spelledDigest hrepr).mpr hkept)
  have hdivisible := (hagree.attrs "tt.divisibility" 0).mp (by decide)
  exact absurd hdivisible (by decide)

end Soundness

end TritonCpu.JIT
