import Mathlib.Data.List.Forall2
import TritonCpu.KernelCacheSound
import TritonCpu.KernelFastPath

/-!
# A fast-path hit agrees with the binder

A stored fingerprint belongs to an accepted call whose kernel is in the cache. An
equal fingerprint gives every run-time argument the same type string and
letter. Constexpr values and options must also print the same, which `==` does not
promise.
-/

set_option autoImplicit false

namespace TritonCpu.JIT

open Python PythonRepr
open List hiding keys

section Items

variable {py : Interpreter}

theorem fingerprint_eq_iff {l r : Fingerprint} :
    Fingerprint.eq py l r = true ↔ List.Forall₂ (fun a b => a.eq py b = true) l r := by
  induction l generalizing r with
  | nil =>
    cases r with
    | nil => simp [Fingerprint.eq]
    | cons b r => simp [Fingerprint.eq]
  | cons a l ih =>
    cases r with
    | nil => simp [Fingerprint.eq]
    | cons b r => rw [Fingerprint.eq, Bool.and_eq_true, forall₂_cons, ih]

theorem argumentItem_tensor {t : Tensor} {w : PyValue}
    (h : (argumentItem (.tensor t)).eq py (argumentItem w) = true) :
    ∃ u, w = .tensor u ∧ t.dtype = u.dtype ∧ aligned t = aligned u := by
  cases w with
  | tensor u =>
    simp only [argumentItem, FpItem.eq, Bool.and_eq_true, beq_iff_eq] at h
    exact ⟨u, rfl, h⟩
  | _ => simp [argumentItem, FpItem.eq] at h

theorem argumentItem_value {v w : PyValue} (hv : ∀ t, v ≠ .tensor t)
    (h : (argumentItem v).eq py (argumentItem w) = true) :
    v.type = w.type ∧ v.eq py w = true := by
  have item {v : PyValue} (hv : ∀ t, v ≠ .tensor t) : argumentItem v = .typed v.type v := by
    cases v with
    | tensor t => exact absurd rfl (hv t)
    | _ => rfl
  rw [item hv] at h
  cases w with
  | tensor u => simp [argumentItem, FpItem.eq] at h
  | _ => simpa [argumentItem, FpItem.eq] using h

theorem aligned_iff (t : Tensor) : aligned t = is_divisible_by_16 (.tensor t) := by
  have hmod : t.data_ptr &&& 15 = t.data_ptr % 16 := Nat.and_two_pow_sub_one_eq_mod t.data_ptr 4
  rw [aligned, is_divisible_by_16, hmod]

/-- What the binder looks at of a run-time argument. -/
structure SameView (v w : PyValue) : Prop where
  type : ∀ is_const, mangle_type v is_const = mangle_type w is_const
  divisible : is_divisible_by_16 v = is_divisible_by_16 w
  one : is_equal_to_1 v = is_equal_to_1 w

theorem sameView_of_item {v w : PyValue}
    (h : (argumentItem v).eq py (argumentItem w) = true) : SameView v w := by
  cases v with
  | tensor t =>
    obtain ⟨u, rfl, hdtype, haligned⟩ := argumentItem_tensor h
    rw [aligned_iff, aligned_iff] at haligned
    exact ⟨fun is_const => by simp only [mangle_type, hdtype], haligned, rfl⟩
  | bool a =>
    obtain ⟨htype, heq⟩ := argumentItem_value (by simp) h
    cases w with
    | bool b => rw [PyValue.eq_bool heq]; exact ⟨fun _ => rfl, rfl, rfl⟩
    | _ => simp [PyValue.type] at htype
  | int m =>
    obtain ⟨htype, heq⟩ := argumentItem_value (by simp) h
    cases w with
    | int n => rw [PyValue.eq_int heq]; exact ⟨fun _ => rfl, rfl, rfl⟩
    | _ => simp [PyValue.type] at htype
  | none =>
    obtain ⟨htype, -⟩ := argumentItem_value (by simp) h
    cases w with
    | none => exact ⟨fun _ => rfl, rfl, rfl⟩
    | _ => simp [PyValue.type] at htype
  | float x =>
    obtain ⟨htype, -⟩ := argumentItem_value (by simp) h
    cases w with
    | float y => exact ⟨fun _ => rfl, rfl, rfl⟩
    | _ => simp [PyValue.type] at htype
  | str s =>
    obtain ⟨htype, -⟩ := argumentItem_value (by simp) h
    cases w with
    | str s' => exact ⟨fun _ => rfl, rfl, rfl⟩
    | _ => simp [PyValue.type] at htype
  | tuple l =>
    obtain ⟨htype, -⟩ := argumentItem_value (by simp) h
    cases w with
    | tuple r => exact ⟨fun _ => rfl, rfl, rfl⟩
    | _ => simp [PyValue.type] at htype
  | tmaDesc a =>
    obtain ⟨htype, -⟩ := argumentItem_value (by simp) h
    cases w with
    | tmaDesc b => exact ⟨fun _ => rfl, rfl, rfl⟩
    | _ => simp [PyValue.type] at htype

theorem SameView.signatureType {v w : PyValue} (h : SameView v w) (p : KernelParam) :
    signatureType p v = signatureType p w := by
  rw [JIT.signatureType, JIT.signatureType, h.type]

theorem SameView.letter {v w : PyValue} (h : SameView v w) (p : KernelParam) :
    specialisation (p, v) = specialisation (p, w) := by
  simp only [specialisation, get_property_key, h.divisible, h.one]

theorem repr_of_item {v w : PyValue} (h : (argumentItem v).eq py (argumentItem w) = true)
    (halike : v.alike w = true) : v.repr py = w.repr py := by
  by_cases hv : ∃ t, v = .tensor t
  · obtain ⟨t, rfl⟩ := hv
    obtain ⟨u, rfl, -⟩ := argumentItem_tensor h
    exact congrArg String.toList (eq_of_beq halike)
  · rw [not_exists] at hv
    exact PyValue.repr_eq v w (argumentItem_value hv h).2 halike

theorem option_of_item {a b : String × PyValue} (h : (optionItem a).eq py (optionItem b) = true) :
    a.1 = b.1 ∧ (a.2.alike b.2 = true → a.2.repr py = b.2.repr py) := by
  obtain ⟨m, v⟩ := a
  obtain ⟨n, w⟩ := b
  by_cases hv : ∃ t, v = .tensor t
  · obtain ⟨t, rfl⟩ := hv
    cases w with
    | tensor u =>
      simp only [optionItem, FpItem.eq, Bool.and_eq_true, beq_iff_eq] at h
      exact ⟨h.1, fun halike => congrArg String.toList (eq_of_beq halike)⟩
    | _ => simp [optionItem, FpItem.eq] at h
  · rw [not_exists] at hv
    have item : optionItem (m, v) = .option m v := by
      cases v with
      | tensor t => exact absurd rfl (hv t)
      | _ => rfl
    have hcases : m = n ∧ v.eq py w = true := by
      rw [item] at h
      cases w with
      | tensor u => simp [optionItem, FpItem.eq] at h
      | _ => simpa [optionItem, FpItem.eq] using h
    exact ⟨hcases.1, PyValue.repr_eq v w hcases.2⟩

end Items

section Binding

variable {f : JITFunction} {args : List PyValue} {kwargs : Dict PyValue} {b : Bound}
  {full : List PyValue} {opt_kwargs : Dict PyValue}

theorem bindArgs_positional {ps : List KernelParam} {vals : List PyValue}
    (hlength : args.length = ps.length) (h : bindArgs ps args kwargs = some vals) :
    vals = args ∧ ∀ p ∈ ps, p.name ∉ keys kwargs := by
  induction ps generalizing args vals with
  | nil =>
    obtain rfl := length_eq_zero_iff.mp hlength
    exact ⟨(Option.some.inj h).symm, by simp⟩
  | cons p ps ih =>
    cases args with
    | nil => simp at hlength
    | cons a args =>
      rw [bindArgs] at h
      split at h
      · simp at h
      next hname =>
      obtain ⟨rest, hrest, rfl⟩ := Option.map_eq_some_iff.mp h
      obtain ⟨rfl, hnames⟩ := ih (by simpa using hlength) hrest
      exact ⟨rfl, forall_mem_cons.mpr ⟨hname, hnames⟩⟩

theorem bindArgs_of_positional {ps : List KernelParam} (hlength : args.length = ps.length)
    (h : ∀ p ∈ ps, p.name ∉ keys kwargs) : bindArgs ps args kwargs = some args := by
  induction ps generalizing args with
  | nil =>
    obtain rfl := length_eq_zero_iff.mp hlength
    rfl
  | cons p ps ih =>
    cases args with
    | nil => simp at hlength
    | cons a args =>
      rw [forall_mem_cons] at h
      rw [bindArgs, if_neg h.1, ih (by simpa using hlength) h.2]
      rfl

theorem filter_other (h : ∀ name ∈ f.names, name ∉ keys kwargs) :
    (kwargs.filter fun kw => kw.1 ∉ f.names) = kwargs := by
  rw [filter_eq_self]
  intro kw hkw
  simp only [decide_eq_true_eq]
  exact fun hname => h kw.1 hname (mem_map_of_mem hkw)

theorem full_args_of_bound (hnodup : (keys kwargs).Nodup) (hb : BoundBy f args kwargs b)
    (h : f.full_args args kwargs = some (full, opt_kwargs)) :
    b.bound_vals = full ∧ b.excess_kwargs = opt_kwargs := by
  unfold JITFunction.full_args at h
  split at h
  · next hlength =>
    obtain ⟨hvals, hnames⟩ := bindArgs_positional hlength hb.binds
    obtain ⟨rfl, rfl⟩ := Prod.mk.inj (Option.some.inj h)
    refine ⟨hvals, hb.excess.trans (filter_other ?_)⟩
    intro name hname
    obtain ⟨p, hp, rfl⟩ := mem_map.mp hname
    exact hnames p hp
  · obtain ⟨hbinds, hopts⟩ := normalize_args_binds hnodup h
    rw [hb.binds] at hbinds
    exact ⟨Option.some.inj hbinds, hb.excess.trans hopts.symm⟩

theorem bound_of_full_args (hnodup : (keys kwargs).Nodup)
    (h : f.full_args args kwargs = some (full, opt_kwargs))
    (hnames : ∀ name ∈ f.names, name ∉ keys opt_kwargs) :
    bindArgs f.params args kwargs = some full ∧
      (kwargs.filter fun kw => kw.1 ∉ f.names) = opt_kwargs := by
  unfold JITFunction.full_args at h
  split at h
  · next hlength =>
    obtain ⟨rfl, rfl⟩ := Prod.mk.inj (Option.some.inj h)
    refine ⟨bindArgs_of_positional hlength fun p hp => ?_, filter_other hnames⟩
    exact hnames p.name (mem_map_of_mem hp)
  · obtain ⟨hbinds, hopts⟩ := normalize_args_binds hnodup h
    exact ⟨hbinds, hopts.symm⟩

theorem length_full_args (hnodup : (keys kwargs).Nodup)
    (h : f.full_args args kwargs = some (full, opt_kwargs)) : full.length = f.params.length := by
  unfold JITFunction.full_args at h
  split at h
  · next hlength =>
    obtain ⟨rfl, -⟩ := Prod.mk.inj (Option.some.inj h)
    exact hlength
  · exact bindArgs_length (normalize_args_binds hnodup h).1

theorem names_not_excess (hb : BoundBy f args kwargs b) :
    ∀ name ∈ f.names, name ∉ keys b.excess_kwargs := by
  intro name hname hmem
  obtain ⟨kw, hkw, rfl⟩ := mem_map.mp hmem
  rw [hb.excess, mem_filter] at hkw
  simp [hname] at hkw

end Binding

section Keys

variable (py : Interpreter)

/-- The keys are the same up to the order of the keywords. -/
structure SameKey (b c : Bound) : Prop where
  types : b.signature_types = c.signature_types
  letters : b.specialisations = c.specialisations
  constexpr : b.constexpr_vals.map (PyValue.repr py) = c.constexpr_vals.map (PyValue.repr py)
  options : (b.excess_kwargs.map fun kw => (kw.1, kw.2.repr py)).Perm
    (c.excess_kwargs.map fun kw => (kw.1, kw.2.repr py))

def tupleText : List (List Char) → List Char
  | [] => [')']
  | a :: l => a ++ (if l.isEmpty then [',', ')'] else l.flatMap (',' :: ' ' :: ·) ++ [')'])

theorem restRepr_text (l : List PyValue) : PyValue.restRepr py l =
    (l.map (PyValue.repr py)).flatMap (',' :: ' ' :: ·) ++ [')'] := by
  induction l with
  | nil => rfl
  | cons a l ih => simp [PyValue.restRepr, ih]

theorem tupleRepr_text (l : List PyValue) :
    PyValue.tupleRepr py l = tupleText (l.map (PyValue.repr py)) := by
  cases l with
  | nil => rfl
  | cons a l => simp [PyValue.tupleRepr, tupleText, restRepr_text]

def dictText : List (String × List Char) → List Char
  | [] => ['{', '}']
  | item :: d =>
    '{' :: (strRepr py.isprintable item.1 ++ ':' :: ' ' :: item.2 ++
      d.flatMap (fun i => ',' :: ' ' :: (strRepr py.isprintable i.1 ++ ':' :: ' ' :: i.2)) ++ ['}'])

theorem dictRepr_text (d : Dict PyValue) :
    dictRepr py d = dictText py (d.map fun kw => (kw.1, kw.2.repr py)) := by
  cases d with
  | nil => rfl
  | cons item d => simp [dictRepr, dictText, itemRepr, flatMap_map]

theorem strPair_text (vals : List PyValue) (d : Dict PyValue) : strPair py vals d =
    '(' :: ('(' :: tupleText (vals.map (PyValue.repr py)) ++
      ',' :: ' ' :: (dictText py (d.map fun kw => (kw.1, kw.2.repr py)) ++ [')'])) := by
  rw [← tupleRepr_text, ← dictRepr_text]
  rfl

theorem SameKey.key_eq {py : Interpreter} {b c : Bound} (h : SameKey py b c)
    (horder : (b.excess_kwargs.map fun kw => (kw.1, kw.2.repr py)) =
      c.excess_kwargs.map fun kw => (kw.1, kw.2.repr py)) : b.key py = c.key py := by
  rw [Bound.key, Bound.key, strPair_text, strPair_text, h.types, h.letters, h.constexpr, horder]

end Keys

section Hit

variable {py : Interpreter} {f : JITFunction}

/-- Where the binder looks at more than `==`: constexpr values and options that
compare equal must be alike. -/
structure Alike (f : JITFunction) (present stored : List PyValue × Dict PyValue) : Prop where
  constexpr : ∀ x ∈ f.params.zip (present.1.zip stored.1), x.1.is_constexpr = true →
    x.2.1.alike x.2.2 = true
  options : ∀ name v w, (name, v) ∈ present.2 → (name, w) ∈ stored.2 → v.alike w = true

theorem fingerprint_split {full stored : List PyValue × Dict PyValue}
    (hlength : full.1.length = stored.1.length)
    (h : Fingerprint.eq py (fingerprint full) (fingerprint stored) = true) :
    List.Forall₂ (fun v w => (argumentItem v).eq py (argumentItem w) = true) full.1 stored.1 ∧
      List.Forall₂ (fun a b => (optionItem a).eq py (optionItem b) = true)
        (sortedItems full.2) (sortedItems stored.2) := by
  rw [fingerprint_eq_iff, fingerprint, fingerprint] at h
  have hmap : (stored.1.map argumentItem).length = (full.1.map argumentItem).length := by
    rw [length_map, length_map, hlength]
  have harguments := forall₂_take_append _ _ _ h
  have hoptions := forall₂_drop_append _ _ _ h
  rw [hmap, take_left] at harguments
  rw [hmap, drop_left] at hoptions
  rw [forall₂_map_left_iff, forall₂_map_right_iff] at harguments hoptions
  exact ⟨harguments, hoptions⟩

theorem forall_pairs (ps : List KernelParam) {R : PyValue → PyValue → Prop} {l r : List PyValue}
    (h : List.Forall₂ R l r) : ∀ x ∈ ps.zip (l.zip r), R x.2.1 x.2.2 := by
  intro x hx
  exact (forall₂_iff_zip.mp h).2 (of_mem_zip hx).2

theorem constexprVals_repr {l : List Pair}
    (h : ∀ x ∈ l, x.1.is_constexpr = true → x.2.1.repr py = x.2.2.repr py) :
    (constexprVals (l.map Pair.left)).map (PyValue.repr py) =
      (constexprVals (l.map Pair.right)).map (PyValue.repr py) := by
  induction l with
  | nil => rfl
  | cons x l ih =>
    rw [forall_mem_cons] at h
    rw [map_cons, map_cons, constexprVals_cons, constexprVals_cons]
    by_cases hconstexpr : x.1.is_constexpr = true
    · have hhead := h.1 hconstexpr
      simp only [Pair.left, Pair.right, hconstexpr, if_true, map_cons, hhead]
      exact congrArg _ (ih h.2)
    · simp only [Pair.left, Pair.right, hconstexpr, Bool.false_eq_true, if_false]
      exact ih h.2

theorem options_of_items {d e : Dict PyValue}
    (h : List.Forall₂ (fun a b => (optionItem a).eq py (optionItem b) = true) d e) :
    keys d = keys e ∧
      ((∀ a ∈ d, ∀ b ∈ e, a.1 = b.1 → a.2.alike b.2 = true) →
        (d.map fun kw => (kw.1, kw.2.repr py)) = e.map fun kw => (kw.1, kw.2.repr py)) := by
  induction h with
  | nil => exact ⟨rfl, fun _ => rfl⟩
  | @cons a b d e hab _ ih =>
    obtain ⟨hname, hrepr⟩ := option_of_item hab
    refine ⟨by simp only [keys, map_cons, hname]; exact congrArg _ ih.1, fun halike => ?_⟩
    have hhead := hrepr (halike a (by simp) b (by simp) hname)
    have htail := ih.2 fun a ha b hb => halike a (by simp [ha]) b (by simp [hb])
    rw [map_cons, map_cons, htail, hname, hhead]

variable {args args₀ : List PyValue} {kwargs kwargs₀ : Dict PyValue} {b₀ : Bound}
  {full stored : List PyValue × Dict PyValue}

/-- A call with the fingerprint of an accepted one is accepted, with the same key up to
the order of the keywords. -/
theorem sameKey_of_fingerprint (hnodup : (keys kwargs).Nodup) (hnodup₀ : (keys kwargs₀).Nodup)
    (hfull : f.full_args args kwargs = some full)
    (hstored : f.full_args args₀ kwargs₀ = some stored)
    (hb₀ : f.dynamic_func args₀ kwargs₀ = some b₀)
    (heq : Fingerprint.eq py (fingerprint full) (fingerprint stored) = true)
    (halike : Alike f full stored) :
    ∃ b, f.dynamic_func args kwargs = some b ∧ SameKey py b b₀ := by
  obtain ⟨vals, opts⟩ := full
  obtain ⟨vals₀, opts₀⟩ := stored
  have hbound := dynamic_func_bound hb₀
  obtain ⟨hvals, hexcess⟩ := full_args_of_bound hnodup₀ hbound hstored
  have hlength : vals.length = vals₀.length :=
    (length_full_args hnodup hfull).trans (length_full_args hnodup₀ hstored).symm
  obtain ⟨harguments, hoptions⟩ := fingerprint_split hlength heq
  obtain ⟨hkeys, hprinted⟩ := options_of_items hoptions
  have hnames : ∀ name ∈ f.names, name ∉ keys opts := by
    intro name hname hmem
    refine names_not_excess hbound name hname ?_
    rw [hexcess, ← mem_keys_sortedItems]
    have hsorted := mem_keys_sortedItems.mpr hmem
    exact hkeys ▸ hsorted
  obtain ⟨hbinds, hfilter⟩ := bound_of_full_args hnodup hfull hnames
  have hitems := forall_pairs f.params harguments
  obtain ⟨hleft, hright⟩ := map_zip f.params hlength
  have htypes := signatureTypes_congr fun x hx _ =>
    (sameView_of_item (hitems x hx)).signatureType x.1
  have hletters := letters_eq_iff.mpr fun x hx _ _ => (sameView_of_item (hitems x hx)).letter x.1
  have hconstexpr := constexprVals_repr fun x hx hc =>
    repr_of_item (hitems x hx) (halike.constexpr x hx hc)
  rw [hleft, hright] at htypes hletters hconstexpr
  rw [← hvals, hbound.types] at htypes
  refine ⟨⟨vals, b₀.signature_types, specialisations (f.params.zip vals),
    constexprVals (f.params.zip vals), opts⟩, ?_, ?_⟩
  · rw [JITFunction.dynamic_func, hbinds, Option.bind_some, htypes, hfilter]
    rfl
  · refine ⟨rfl, ?_, ?_, ?_⟩
    · rw [hbound.letters, hvals, hletters]
    · rw [hbound.constexpr, hvals, hconstexpr]
    · have hsame := hprinted fun a ha b hb hname =>
        halike.options a.1 a.2 b.2 ((sortedItems_perm opts).mem_iff.mp ha)
          (hname ▸ (sortedItems_perm opts₀).mem_iff.mp hb)
      rw [hexcess]
      exact ((sortedItems_perm opts).map _).symm.trans
        (hsame ▸ (sortedItems_perm opts₀).map _)

end Hit

section Runs

variable {Kernel : Type} (py : Interpreter) (env : Environment) (cached_debug : Bool)
  (f : JITFunction) (compile : CompileInputs → Option Kernel)

/-- The stored entry comes from an accepted call, and its kernel is in the cache. -/
def Valid (s : State Kernel) : Prop :=
  ∀ fast ∈ s.fast, fast.fp = fingerprint fast.origin ∧ ∃ args kwargs b, (keys kwargs).Nodup ∧
    f.full_args args kwargs = some fast.origin ∧ f.dynamic_func args kwargs = some b ∧
      s.cache.lookup (b.key py) = some fast.kernel

/-- The kernel that the binder path would look up, up to the order of the keywords. -/
def BinderFinds (s : State Kernel) (args : List PyValue) (kwargs : Dict PyValue)
    (kernel : Kernel) : Prop :=
  ∃ b b₀, f.dynamic_func args kwargs = some b ∧ SameKey py b b₀ ∧
    s.cache.lookup (b₀.key py) = some kernel

def StepAlike (s : State Kernel) (call : Call) : Prop :=
  ∀ full fast, f.full_args call.args (setDebug py cached_debug call.kwargs) = some full →
    fastHit py s (some full) = some fast → Alike f full fast.origin

variable {py env cached_debug f compile} {s : State Kernel} {call : Call} {fast : Fast Kernel}

theorem nodup_setItem {α : Type} {d : Dict α} (name : String) (value : α)
    (h : (keys d).Nodup) : (keys (setItem d name value)).Nodup := by
  unfold setItem
  split
  · have hkeys : keys (d.map fun item => if item.1 = name then (name, value) else item) = keys d := by
      rw [keys, keys, map_map]
      refine map_congr_left fun item _ => ?_
      simp only [Function.comp_apply]
      split
      · next hname => exact hname.symm
      · rfl
    rw [hkeys]
    exact h
  · next hname =>
    simp only [keys, map_append, map_cons, map_nil]
    exact nodup_append.mpr ⟨h, nodup_singleton name, by
      intro a ha b hb hab
      rw [mem_singleton.mp hb] at hab
      exact hname (hab ▸ ha)⟩

theorem nodup_setDebug (kwargs : Dict PyValue) (h : (keys kwargs).Nodup) :
    (keys (setDebug py cached_debug kwargs)).Nodup := nodup_setItem _ _ h

theorem fastHit_some {full : Option (List PyValue × Dict PyValue)}
    (h : fastHit py s full = some fast) : s.fast = some fast ∧
      ∃ merged, full = some merged ∧ Fingerprint.eq py (fingerprint merged) fast.fp = true := by
  obtain ⟨hfast, heq⟩ := Option.filter_eq_some_iff.mp h
  cases full with
  | none => simp at heq
  | some merged => exact ⟨hfast, merged, rfl, heq⟩

theorem lookup_insert {key key' : List Char} {kernel kernel' : Kernel}
    {cache : List (List Char × Kernel)} (hnew : cache.lookup key' = none)
    (h : cache.lookup key = some kernel) : ((key', kernel') :: cache).lookup key = some kernel := by
  have hne : key ≠ key' := by
    rintro rfl
    rw [hnew] at h
    simp at h
  rw [lookup_cons, beq_false_of_ne hne]
  exact h

theorem slowPath_valid (hs : Valid py f s) {args : List PyValue} {kwargs : Dict PyValue}
    (hnodup : (keys kwargs).Nodup) :
    Valid py f (slowPath py env f compile s args kwargs (f.full_args args kwargs)).1 := by
  unfold slowPath
  split
  · exact hs
  next b hb =>
  split
  · next kernel hkernel =>
    split
    · next full hfull =>
      intro fast hfast
      obtain rfl := Option.some.inj hfast
      exact ⟨rfl, args, kwargs, b, hnodup, hfull, hb, hkernel⟩
    · exact hs
  · next hnone =>
    split
    · intro fast hfast
      obtain ⟨hfp, args', kwargs', b', hnodup', hfull, hb', hlookup⟩ := hs fast hfast
      exact ⟨hfp, args', kwargs', b', hnodup', hfull, hb', lookup_insert hnone hlookup⟩
    · exact hs

theorem run_valid (hs : Valid py f s) : Valid py f (run py env cached_debug f compile s call).1 := by
  unfold run
  dsimp only
  split
  · exact hs
  · exact slowPath_valid hs (nodup_setDebug _ call.nodup)

theorem reached_valid (calls : List Call) :
    Valid py f (reached py env cached_debug f compile calls) := by
  have step (s : State Kernel) (hs : Valid py f s) : Valid py f
      (calls.foldl (fun s call => (run py env cached_debug f compile s call).1) s) := by
    induction calls generalizing s with
    | nil => exact hs
    | cons call calls ih => exact ih _ (run_valid hs)
  exact step _ fun fast hfast => by simp at hfast

theorem hit_agrees (hs : Valid py f s)
    (hhit : fastHit py s (f.full_args call.args (setDebug py cached_debug call.kwargs)) = some fast)
    (halike : StepAlike py cached_debug f s call) :
    BinderFinds py f s call.args (setDebug py cached_debug call.kwargs) fast.kernel := by
  obtain ⟨hfast, full, hfull, heq⟩ := fastHit_some hhit
  obtain ⟨hfp, args, kwargs, b₀, hnodup, horigin, hb₀, hlookup⟩ := hs fast hfast
  rw [hfp] at heq
  obtain ⟨b, hb, hsame⟩ := sameKey_of_fingerprint (nodup_setDebug _ call.nodup) hnodup hfull horigin
    hb₀ heq (halike full fast hfull (hfull ▸ hhit))
  exact ⟨b, b₀, hb, hsame, hlookup⟩

/-- In every run whose steps compare alike values, a call that takes the fast path gets
the kernel that the binder path would look up. -/
theorem fast_path_agrees (calls : List Call)
    (halike : ∀ before call after, calls = before ++ call :: after →
      StepAlike py cached_debug f (reached py env cached_debug f compile before) call) :
    ∀ before call after, calls = before ++ call :: after → ∀ fast,
      fastHit py (reached py env cached_debug f compile before)
        (f.full_args call.args (setDebug py cached_debug call.kwargs)) = some fast →
      (run py env cached_debug f compile (reached py env cached_debug f compile before) call).2 =
          some fast.kernel ∧
        BinderFinds py f (reached py env cached_debug f compile before) call.args
          (setDebug py cached_debug call.kwargs) fast.kernel := by
  intro before call after hcalls fast hhit
  refine ⟨?_, hit_agrees (reached_valid before) hhit (halike before call after hcalls)⟩
  simp only [run, hhit]

end Runs

section OneParameter

def debugOff : Dict PyValue := [("debug", .bool false)]

/-- The states of a kernel with one parameter, compiled without fail. -/
abbrev oneParameterState ( annotation : String) (calls : List Call) : State Unit :=
  reached wholeFloats plainEnvironment false (oneParameter annotation) (fun _ => some ()) calls

/-- The state after two calls with one value: its kernel, and its fingerprint. -/
def storedState (key : List Char) (v : PyValue) : State Unit where
  cache := [(key, ())]
  fast := some ⟨fingerprint ([v], debugOff), (), ([v], debugOff)⟩

def zero (negative : Bool) : PyValue := .float (.finite negative 0)

theorem fingerprint_one (v : PyValue) : fingerprint ([v], debugOff) =
    [argumentItem v, .option "debug" (.bool false)] := by
  simp [fingerprint, sortedItems, debugOff, optionItem]

theorem fastHit_stored { annotation : String} {key : List Char} {v w : PyValue}
    (h : (argumentItem w).eq wholeFloats (argumentItem v) = true) :
    fastHit wholeFloats (storedState key v) ((oneParameter annotation).full_args [w] debugOff) =
      (storedState key v).fast := by
  have heq : Fingerprint.eq wholeFloats (fingerprint ([w], debugOff)) (fingerprint ([v], debugOff)) =
      true := by
    have hdebug : FpItem.eq wholeFloats (.option "debug" (.bool false))
        (.option "debug" (.bool false)) = true := by
      simp [FpItem.eq, PyValue.eq, PyValue.units]
    rw [fingerprint_one, fingerprint_one, Fingerprint.eq, Fingerprint.eq, h, hdebug]
    rfl
  exact Option.filter_some_pos heq

theorem sixteen_stored : oneParameterState "" [positional (.int 16), positional (.int 16)] =
    storedState "i32D((), \x7b'debug': False\x7d)".toList (.int 16) := rfl

theorem sixteen_alike :
    Alike (oneParameter "") ([.int 16], debugOff) ([.int 16], debugOff) where
  constexpr := by
    intro x hx hconstexpr
    obtain rfl := mem_singleton.mp hx
    rfl
  options := by
    intro name v w hv hw
    rw [(Prod.mk.inj (mem_singleton.mp hv)).2, (Prod.mk.inj (mem_singleton.mp hw)).2]
    rfl

theorem stepAlike_of_fast_none {s : State Unit} {f : JITFunction} {call : Call}
    (h : s.fast = none) : StepAlike wholeFloats false f s call := by
  intro full fast _ hhit
  have hfast := (fastHit_some hhit).1
  rw [h] at hfast
  simp at hfast

theorem sixteen_stepAlike : StepAlike wholeFloats false (oneParameter "")
    (oneParameterState "" [positional (.int 16), positional (.int 16)]) (positional (.int 16)) := by
  intro full fast hfull hhit
  have hfast := (fastHit_some hhit).1
  rw [sixteen_stored] at hfast
  obtain rfl := Option.some.inj hfast
  obtain rfl := Option.some.inj hfull
  exact sixteen_alike

theorem fast_path_agrees_sixteen :
    BinderFinds wholeFloats (oneParameter "")
      (oneParameterState "" [positional (.int 16), positional (.int 16)]) [.int 16] debugOff () := by
  have halike : ∀ before call after,
      [positional (.int 16), positional (.int 16), positional (.int 16)] = before ++ call :: after →
        StepAlike wholeFloats false (oneParameter "") (oneParameterState "" before) call := by
    intro before call after h
    match before, h with
    | [], _ => exact stepAlike_of_fast_none rfl
    | [_], h =>
      simp only [cons_append, nil_append, List.cons.injEq] at h
      obtain ⟨rfl, -⟩ := h
      exact stepAlike_of_fast_none rfl
    | [_, _], h =>
      simp only [cons_append, nil_append, List.cons.injEq] at h
      obtain ⟨rfl, rfl, rfl, -⟩ := h
      exact sixteen_stepAlike
    | _ :: _ :: _ :: before, h => simp at h
  have hhit := @fastHit_stored "" "i32D((), \x7b'debug': False\x7d)".toList (.int 16) (.int 16)
    (by simp [argumentItem, FpItem.eq, PyValue.type, PyValue.eq, PyValue.units])
  rw [← sixteen_stored] at hhit
  exact (fast_path_agrees _ halike [positional (.int 16), positional (.int 16)]
    (positional (.int 16)) [] rfl _ hhit).2

theorem zero_stored : oneParameterState "constexpr" [positional (zero false), positional (zero false)] =
    storedState "((0.0,), \x7b'debug': False\x7d)".toList (zero false) := rfl

def zeroBound (negative : Bool) : Bound where
  bound_vals := [zero negative]
  signature_types := []
  specialisations := []
  constexpr_vals := [zero negative]
  excess_kwargs := debugOff

/-- The two zeros are equal, so one gets the kernel of the other. -/
theorem negative_zero_hits : ¬ ∀ (f : JITFunction) (calls : List Call) (call : Call)
    (fast : Fast Unit),
    fastHit wholeFloats (reached wholeFloats plainEnvironment false f (fun _ => some ()) calls)
      (f.full_args call.args (setDebug wholeFloats false call.kwargs)) = some fast →
    BinderFinds wholeFloats f
      (reached wholeFloats plainEnvironment false f (fun _ => some ()) calls) call.args
      (setDebug wholeFloats false call.kwargs) fast.kernel := by
  intro h
  have hhit := @fastHit_stored "constexpr" "((0.0,), \x7b'debug': False\x7d)".toList (zero false)
    (zero true) (by decide)
  rw [← zero_stored] at hhit
  obtain ⟨b, b₀, hb, hsame, hlookup⟩ := h _ _ (positional (zero true)) _ hhit
  have hbound : b = zeroBound true := (Option.some.inj hb).symm
  subst hbound
  have horder := (perm_singleton.mp hsame.options.symm).symm
  rw [← hsame.key_eq horder] at hlookup
  have hcached : (storedState "((0.0,), \x7b'debug': False\x7d)".toList (zero false)).cache.lookup
      ((zeroBound true).key wholeFloats) = some () := zero_stored ▸ hlookup
  exact absurd hcached (by decide)

end OneParameter

end TritonCpu.JIT
