import TritonCpu.Memo
import TritonCpu.PythonRepr

/-!
# Names of specialised functions

The name of a function that is called with some types and constants is its own name,
the types and the constants, joined by underscores. The types can be read back up to
what no type spells out: the qualifiers of pointers, and whether a pointer points to a
block or a block holds pointers.
-/

set_option autoImplicit false

namespace TritonCpu.Mangle
open PythonRepr List

/-- The types of scalars; no argument is void. -/
inductive DType where
  | int1 | int8 | int16 | int32 | int64
  | uint8 | uint16 | uint32 | uint64
  | fp8e4b15 | fp8e4nv | fp8e4b8 | fp8e5 | fp8e5b16
  | fp16 | bf16 | fp32 | fp64
  deriving DecidableEq, Repr

/-- A block has at least one dimension. -/
inductive Ty where
  | scalar (dtype : DType)
  | pointer (element_ty : Ty) (address_space : ℤ) (const : Bool)
  | block (element_ty : Ty) (size : ℕ) (sizes : List ℕ)
  deriving DecidableEq, Repr

/-- The signedness and the width of an integer type; an `int1` counts as unsigned. -/
def DType.int : DType → Option (Bool × ℕ)
  | .int1 => some (false, 1)
  | .int8 => some (true, 8)
  | .int16 => some (true, 16)
  | .int32 => some (true, 32)
  | .int64 => some (true, 64)
  | .uint8 => some (false, 8)
  | .uint16 => some (false, 16)
  | .uint32 => some (false, 32)
  | .uint64 => some (false, 64)
  | _ => none

def DType.name : DType → String
  | .int1 => "int1"
  | .int8 => "int8"
  | .int16 => "int16"
  | .int32 => "int32"
  | .int64 => "int64"
  | .uint8 => "uint8"
  | .uint16 => "uint16"
  | .uint32 => "uint32"
  | .uint64 => "uint64"
  | .fp8e4b15 => "fp8e4b15"
  | .fp8e4nv => "fp8e4nv"
  | .fp8e4b8 => "fp8e4b8"
  | .fp8e5 => "fp8e5"
  | .fp8e5b16 => "fp8e5b16"
  | .fp16 => "fp16"
  | .bf16 => "bf16"
  | .fp32 => "fp32"
  | .fp64 => "fp64"

def DType.mangle (dtype : DType) : List Char :=
  match dtype.int with
  | some (signed, bitwidth) => (if signed then 'i' else 'u') :: Nat.toDigits 10 bitwidth
  | none => dtype.name.toList

/-- `sep.join(texts)` -/
def join (sep : List Char) (texts : List (List Char)) : List Char := sep.intercalate texts

def mangle_ty : Ty → List Char
  | .scalar dtype => dtype.mangle
  | .pointer element_ty _ _ => 'P' :: mangle_ty element_ty
  | .block element_ty size sizes =>
    mangle_ty element_ty ++ 'S' :: join ['_'] ((size :: sizes).map (Nat.toDigits 10)) ++ ['S']

/-- A constant by the text that `repr` prints, which is taken to tell constants apart. -/
abbrev Constant := List Char

/-- `s.replace(c, text)` -/
def replace (c : Char) (text : List Char) (s : List Char) : List Char :=
  s.flatMap fun x => if x = c then text else [x]

def mangleConstants (constants : List (ℕ × Constant)) : List Char :=
  let mangled := join ['_'] (constants.map fun entry => Nat.toDigits 10 entry.1 ++ 'c' :: entry.2)
  let mangled := replace '.' "_d_".toList mangled
  let mangled := replace singleQuote "_sq_".toList mangled
  replace ']' ['_'] (replace '[' ['_'] mangled)

/-- A function, told from others of its name by `id`. -/
structure JITFunction where
  name : List Char
  id : ℕ
  deriving DecidableEq, Repr

inductive Arg where
  | value (ty : Ty)
  | constexpr (constant : Constant)
  deriving DecidableEq, Repr

structure Call where
  fn : JITFunction
  args : List Arg
  deriving DecidableEq, Repr

namespace Call

variable (call : Call)

def arg_types : List Ty :=
  call.args.filterMap fun
    | .value ty => some ty
    | .constexpr _ => none

def constants : List (ℕ × Constant) :=
  call.args.zipIdx.filterMap fun
    | (.constexpr constant, i) => some (i, constant)
    | (.value _, _) => none

end Call

def mangle_fn (name : List Char) (arg_tys : List Ty) (constants : List (ℕ × Constant)) : List Char :=
  name ++ "__".toList ++ join ['_'] (arg_tys.map mangle_ty) ++ "__".toList ++
    mangleConstants constants

def Call.fn_name (call : Call) : List Char :=
  mangle_fn call.fn.name call.arg_types call.constants

section Types

/-- What the name of a type spells out: how many pointers, the scalar, and the shapes of
the blocks from the inside. -/
structure Spelled where
  pointers : ℕ
  dtype : DType
  shapes : List (ℕ × List ℕ)
  deriving DecidableEq, Repr

def Ty.spelled : Ty → Spelled
  | .scalar dtype => ⟨0, dtype, []⟩
  | .pointer element_ty _ _ =>
    { element_ty.spelled with pointers := element_ty.spelled.pointers + 1 }
  | .block element_ty size sizes =>
    { element_ty.spelled with shapes := element_ty.spelled.shapes ++ [(size, sizes)] }

def sizesText : List ℕ → List Char
  | [] => ['S']
  | size :: sizes => '_' :: (Nat.toDigits 10 size ++ sizesText sizes)

def shapeText (shape : ℕ × List ℕ) : List Char :=
  'S' :: (Nat.toDigits 10 shape.1 ++ sizesText shape.2)

def Spelled.text (s : Spelled) : List Char :=
  List.replicate s.pointers 'P' ++ s.dtype.mangle ++ s.shapes.flatMap shapeText

theorem join_sizes (size : ℕ) (sizes : List ℕ) :
    join ['_'] ((size :: sizes).map (Nat.toDigits 10)) ++ ['S'] =
      Nat.toDigits 10 size ++ sizesText sizes := by
  induction sizes generalizing size with
  | nil => simp [join, sizesText]
  | cons next sizes ih =>
    rw [sizesText, ← ih next]
    simp [join, List.intercalate]

theorem mangle_ty_eq (ty : Ty) : mangle_ty ty = ty.spelled.text := by
  induction ty with
  | scalar dtype => simp [mangle_ty, Ty.spelled, Spelled.text]
  | pointer element_ty address_space const ih =>
    rw [mangle_ty, ih, Ty.spelled, Spelled.text, Spelled.text, replicate_succ]
    rfl
  | block element_ty size sizes ih =>
    rw [mangle_ty, append_assoc, cons_append, join_sizes, ih, Ty.spelled, Spelled.text,
      Spelled.text, flatMap_append, flatMap_singleton]
    simp only [append_assoc, shapeText]

/-- The name of a scalar type is made of digits and small letters. -/
def scalarChar (c : Char) : Bool := c.isDigit || c.isLower

theorem mangle_scalarChar (dtype : DType) : ∀ c ∈ dtype.mangle, scalarChar c = true := by
  have hall : dtype.mangle.all scalarChar = true := by cases dtype <;> rfl
  exact all_eq_true.mp hall

theorem mangle_inj {dtype dtype' : DType} (h : dtype.mangle = dtype'.mangle) : dtype = dtype' := by
  revert h
  cases dtype <;> cases dtype' <;> decide

theorem mangle_head (dtype : DType) : ∃ c l, dtype.mangle = c :: l ∧ c ≠ 'P' ∧ c ≠ '_' := by
  cases dtype <;> exact ⟨_, _, rfl, by decide, by decide⟩

theorem mangle_delimits : Delimits DType.mangle (Stops scalarChar) := by
  intro dtype dtype' s t hs ht h
  obtain ⟨hname, htail⟩ := append_inj_of_stops scalarChar _ _ s t (mangle_scalarChar dtype)
    (mangle_scalarChar dtype') hs ht h
  exact ⟨mangle_inj hname, htail⟩

theorem sizesText_head (sizes : List ℕ) (s : List Char) : Stops Char.isDigit (sizesText sizes ++ s) := by
  cases sizes with
  | nil => exact (stops_cons _ _ _).mpr (by decide)
  | cons size sizes => exact (stops_cons _ _ _).mpr (by decide)

theorem sizesText_delimits : Delimits sizesText fun _ => True := by
  intro sizes
  induction sizes with
  | nil =>
    intro sizes' s t _ _ h
    cases sizes' with
    | nil => exact ⟨rfl, append_cancel_left h⟩
    | cons size' sizes' => exact absurd (List.cons.inj h).1 (by decide)
  | cons size sizes ih =>
    intro sizes' s t _ _ h
    cases sizes' with
    | nil => exact absurd (List.cons.inj h).1 (by decide)
    | cons size' sizes' =>
      simp only [sizesText, cons_append, append_assoc, List.cons.injEq, true_and] at h
      obtain ⟨hsize, hrest⟩ := digits_delimit size size' _ _ (sizesText_head sizes s)
        (sizesText_head sizes' t) h
      obtain ⟨hsizes, htail⟩ := ih sizes' s t trivial trivial hrest
      exact ⟨by rw [hsize, hsizes], htail⟩

theorem shapeText_delimits : Delimits shapeText fun _ => True := by
  rintro ⟨size, sizes⟩ ⟨size', sizes'⟩ s t _ _ h
  simp only [shapeText, cons_append, append_assoc, List.cons.injEq, true_and] at h
  obtain ⟨hsize, hrest⟩ := digits_delimit size size' _ _ (sizesText_head sizes s)
    (sizesText_head sizes' t) h
  obtain ⟨hsizes, htail⟩ := sizesText_delimits sizes sizes' s t trivial trivial hrest
  exact ⟨by rw [hsize, hsizes], htail⟩

def Underscored (s : List Char) : Prop := s.head? = some '_'

theorem shapes_delimit : Delimits (fun shapes : List (ℕ × List ℕ) => shapes.flatMap shapeText)
    Underscored := by
  have hne : ∀ (shape : ℕ × List ℕ) (shapes : List (ℕ × List ℕ)) s t, Underscored s →
      s ≠ (shape :: shapes).flatMap shapeText ++ t := by
    rintro shape shapes s t hs rfl
    exact absurd (Option.some.inj hs) (by decide)
  intro shapes
  induction shapes with
  | nil =>
    intro shapes' s t hs ht h
    cases shapes' with
    | nil => exact ⟨rfl, h⟩
    | cons shape' shapes' => exact absurd h (hne shape' shapes' s t hs)
  | cons shape shapes ih =>
    intro shapes' s t hs ht h
    cases shapes' with
    | nil => exact absurd h.symm (hne shape shapes t s ht)
    | cons shape' shapes' =>
      simp only [flatMap_cons, append_assoc] at h
      obtain ⟨hshape, hrest⟩ := shapeText_delimits shape shape' _ _ trivial trivial h
      obtain ⟨hshapes, htail⟩ := ih shapes' s t hs ht hrest
      exact ⟨by rw [hshape, hshapes], htail⟩

theorem shapes_stop {s : List Char} (hs : Underscored s) (shapes : List (ℕ × List ℕ)) :
    Stops scalarChar (shapes.flatMap shapeText ++ s) := by
  cases shapes with
  | nil =>
    intro c hc
    have hhead : c = '_' := Option.some.inj (hc.symm.trans hs)
    rw [hhead]
    decide
  | cons shape shapes => exact (stops_cons _ _ _).mpr (by decide)

theorem spelled_delimits : Delimits Spelled.text Underscored := by
  rintro ⟨pointers, dtype, shapes⟩ ⟨pointers', dtype', shapes'⟩ s t hs ht h
  simp only [Spelled.text, append_assoc] at h
  have hpointers : ∀ (dtype : DType) u, Stops (fun c => c == 'P') (dtype.mangle ++ u) := by
    intro dtype u
    obtain ⟨c, l, hl, hc, -⟩ := mangle_head dtype
    rw [hl]
    exact (stops_cons _ _ _).mpr (by simpa using hc)
  obtain ⟨hcount, hrest⟩ := append_inj_of_stops (fun c => c == 'P') _ _ _ _
    (fun c hc => by simpa using eq_of_mem_replicate hc)
    (fun c hc => by simpa using eq_of_mem_replicate hc) (hpointers _ _) (hpointers _ _) h
  have hlen : pointers = pointers' := by simpa using congrArg List.length hcount
  obtain ⟨hdtype, hrest⟩ := mangle_delimits dtype dtype' _ _ (shapes_stop hs shapes)
    (shapes_stop ht shapes') hrest
  obtain ⟨hshapes, htail⟩ := shapes_delimit shapes shapes' s t hs ht hrest
  exact ⟨by rw [hlen, hdtype, hshapes], htail⟩

end Types

section Names

/-- What follows a type of the list: the other types, and the rest of the name. -/
def typesTail : List Ty → List Char → List Char
  | [], s => '_' :: '_' :: s
  | ty :: tys, s => '_' :: (mangle_ty ty ++ typesTail tys s)

theorem underscored_typesTail (tys : List Ty) (s : List Char) : Underscored (typesTail tys s) := by
  cases tys <;> rfl

def typesText (tys : List Ty) (s : List Char) : List Char :=
  join ['_'] (tys.map mangle_ty) ++ "__".toList ++ s

theorem typesText_cons (ty : Ty) (tys : List Ty) (s : List Char) :
    typesText (ty :: tys) s = mangle_ty ty ++ typesTail tys s := by
  induction tys generalizing ty with
  | nil => simp [typesText, join, typesTail]
  | cons next tys ih =>
    rw [typesTail, ← ih next]
    simp [typesText, join, List.intercalate]

theorem mangle_ty_head (ty : Ty) : ∃ c l, mangle_ty ty = c :: l ∧ c ≠ '_' := by
  induction ty with
  | scalar dtype =>
    obtain ⟨c, l, hl, -, hc⟩ := mangle_head dtype
    exact ⟨c, l, hl, hc⟩
  | pointer element_ty address_space const ih => exact ⟨'P', _, rfl, by decide⟩
  | block element_ty size sizes ih =>
    obtain ⟨c, l, hl, hc⟩ := ih
    exact ⟨c, _, by rw [mangle_ty, hl]; rfl, hc⟩

theorem mangle_ty_ne_underscore (ty : Ty) (s t : List Char) : mangle_ty ty ++ s ≠ '_' :: t := by
  obtain ⟨c, l, hl, hc⟩ := mangle_ty_head ty
  rw [hl]
  exact fun h => hc (List.cons.inj h).1

theorem typesTail_inj {tys tys' : List Ty} {s t : List Char}
    (h : typesTail tys s = typesTail tys' t) :
    tys.map Ty.spelled = tys'.map Ty.spelled ∧ s = t := by
  induction tys generalizing tys' with
  | nil =>
    cases tys' with
    | nil => exact ⟨rfl, by simpa [typesTail] using h⟩
    | cons ty' tys' =>
      exact absurd (List.cons.inj h).2.symm (mangle_ty_ne_underscore ty' _ s)
  | cons ty tys ih =>
    cases tys' with
    | nil => exact absurd (List.cons.inj h).2 (mangle_ty_ne_underscore ty _ t)
    | cons ty' tys' =>
      have htypes := (List.cons.inj h).2
      rw [mangle_ty_eq, mangle_ty_eq] at htypes
      obtain ⟨hty, htail⟩ := spelled_delimits _ _ _ _ (underscored_typesTail tys s)
        (underscored_typesTail tys' t) htypes
      obtain ⟨htys, hst⟩ := ih htail
      exact ⟨by rw [map_cons, map_cons, hty, htys], hst⟩

theorem typesText_inj {tys tys' : List Ty} {s t : List Char}
    (h : typesText tys s = typesText tys' t) :
    tys.map Ty.spelled = tys'.map Ty.spelled ∧ s = t := by
  cases tys with
  | nil =>
    cases tys' with
    | nil => exact ⟨rfl, append_cancel_left h⟩
    | cons ty' tys' =>
      rw [typesText_cons] at h
      exact absurd h.symm (mangle_ty_ne_underscore ty' _ ('_' :: s))
  | cons ty tys =>
    cases tys' with
    | nil =>
      rw [typesText_cons] at h
      exact absurd h (mangle_ty_ne_underscore ty _ ('_' :: t))
    | cons ty' tys' =>
      rw [typesText_cons, typesText_cons] at h
      exact typesTail_inj (congrArg (List.cons '_') h)

theorem typesText_congr {tys tys' : List Ty} (h : tys.map Ty.spelled = tys'.map Ty.spelled)
    (s : List Char) : typesText tys s = typesText tys' s := by
  have hmangle : ∀ tys : List Ty, tys.map mangle_ty = (tys.map Ty.spelled).map Spelled.text := by
    intro tys
    rw [map_map]
    exact map_congr_left fun ty _ => mangle_ty_eq ty
  rw [typesText, typesText, hmangle, hmangle, h]

theorem replace_cons_of_ne {c x : Char} (h : x ≠ c) (text s : List Char) :
    replace c text (x :: s) = x :: replace c text s := by
  rw [replace, flatMap_cons, if_neg h]
  rfl

theorem mangleConstants_head (constants : List (ℕ × Constant)) (s : List Char) :
    mangleConstants constants ≠ '_' :: s := by
  cases constants with
  | nil => exact (cons_ne_nil _ _).symm
  | cons entry constants =>
    obtain ⟨c, digits, hdigits⟩ := exists_cons_of_ne_nil (Nat.toDigits_ne_nil (n := entry.1) (b := 10))
    have hdigit : c.isDigit = true := isDigit_toDigits entry.1 c (by rw [hdigits]; simp)
    obtain ⟨rest, hrest⟩ : ∃ rest, join ['_'] ((entry :: constants).map fun entry =>
        Nat.toDigits 10 entry.1 ++ 'c' :: entry.2) = c :: rest := by
      cases constants with
      | nil => exact ⟨_, by simp [join, hdigits]; rfl⟩
      | cons next constants => exact ⟨_, by simp [join, List.intercalate, hdigits]; rfl⟩
    have hne : ∀ x : Char, x.isDigit = false → c ≠ x := fun x hx heq => by
      rw [heq, hx] at hdigit
      exact Bool.false_ne_true hdigit
    rw [mangleConstants, hrest]
    rw [replace_cons_of_ne (hne _ (by decide)), replace_cons_of_ne (hne _ (by decide)),
      replace_cons_of_ne (hne _ (by decide)), replace_cons_of_ne (hne _ (by decide))]
    exact fun h => hne '_' (by decide) (List.cons.inj h).1

end Names

section Calls

variable {call call' : Call}

theorem fn_name_eq (call : Call) : call.fn_name =
    call.fn.name ++ ('_' :: '_' :: typesText call.arg_types (mangleConstants call.constants)) := by
  simp [Call.fn_name, mangle_fn, typesText]

/-- The name of the function of `call'` is that of `call` with two underscores and some
text after it, and the text stands where `call` has types and constants. -/
def Continues (call call' : Call) : Prop :=
  ∃ text, call'.fn.name = call.fn.name ++ ('_' :: '_' :: text) ∧
    typesText call.arg_types (mangleConstants call.constants) =
      text ++ ('_' :: '_' :: typesText call'.arg_types (mangleConstants call'.constants))

/-- The names of the functions differ, or what is spelled out of the types, or the
constants after characters of them were replaced; and no name continues the other one. -/
structure ToldApart (call call' : Call) : Prop where
  parts : call.fn.name ≠ call'.fn.name ∨
    call.arg_types.map Ty.spelled ≠ call'.arg_types.map Ty.spelled ∨
    mangleConstants call.constants ≠ mangleConstants call'.constants
  not_continues : ¬ Continues call call' ∧ ¬ Continues call' call

structure SameSpecialisation (call call' : Call) : Prop where
  fn : call.fn = call'.fn
  arg_types : call.arg_types = call'.arg_types
  constants : call.constants = call'.constants

theorem typesText_ne (tys : List Ty) (constants : List (ℕ × Constant)) (tys' : List Ty) (s : List Char) :
    typesText tys (mangleConstants constants) ≠ '_' :: typesText tys' s := by
  intro h
  cases tys with
  | cons ty tys =>
    rw [typesText_cons] at h
    exact mangle_ty_ne_underscore ty _ _ h
  | nil =>
    cases tys' with
    | nil =>
      have htail : mangleConstants constants = '_' :: s := by simpa [typesText, join] using h
      exact mangleConstants_head constants s htail
    | cons ty' tys' =>
      rw [typesText_cons] at h
      exact mangle_ty_ne_underscore ty' _ _ (List.cons.inj h).2.symm

/-- When the names are one text and one function's name goes on after the other's, it
goes on with two underscores. -/
theorem continues_of_append {s : List Char} (hs : s ≠ [])
    (hname : call'.fn.name = call.fn.name ++ s) (h : call.fn_name = call'.fn_name) :
    Continues call call' := by
  rw [fn_name_eq, fn_name_eq, hname, append_assoc] at h
  have hrest := append_cancel_left h
  match s, hs with
  | [c], _ =>
    have hcons := (List.cons.inj hrest).2
    exact absurd (List.cons.inj hcons).2
      (typesText_ne call.arg_types call.constants call'.arg_types _)
  | c :: d :: text, _ =>
    obtain ⟨hc, hrest⟩ := List.cons.inj hrest
    obtain ⟨hd, hrest⟩ := List.cons.inj hrest
    exact ⟨text, by rw [hname, ← hc, ← hd], hrest⟩

theorem fn_name_of_continues (h : Continues call call') : call.fn_name = call'.fn_name := by
  obtain ⟨text, hname, htext⟩ := h
  rw [fn_name_eq, fn_name_eq, hname, htext]
  simp

theorem fn_name_eq_iff : call.fn_name = call'.fn_name ↔ ¬ ToldApart call call' := by
  constructor
  · intro h hapart
    by_cases hname : call.fn.name = call'.fn.name
    · rw [fn_name_eq, fn_name_eq, hname] at h
      have htext := append_cancel_left h
      obtain ⟨htypes, hconstants⟩ := typesText_inj (List.cons.inj (List.cons.inj htext).2).2
      rcases hapart.parts with hne | hne | hne
      · exact hne hname
      · exact hne htypes
      · exact hne hconstants
    · have hfront := h
      rw [fn_name_eq, fn_name_eq, append_eq_append_iff] at hfront
      rcases hfront with ⟨s, hs, -⟩ | ⟨s, hs, -⟩
      · have hne : s ≠ [] := fun hnil => hname (by rw [hs, hnil, append_nil])
        exact hapart.not_continues.1 (continues_of_append hne hs h)
      · have hne : s ≠ [] := fun hnil => hname (by rw [hs, hnil, append_nil])
        exact hapart.not_continues.2 (continues_of_append hne hs h.symm)
  · intro hapart
    by_contra hne
    apply hapart
    constructor
    · by_contra hsame
      rw [not_or, not_or, not_ne_iff, not_ne_iff, not_ne_iff] at hsame
      obtain ⟨hname, htypes, hconstants⟩ := hsame
      apply hne
      rw [fn_name_eq, fn_name_eq, hname, typesText_congr htypes, hconstants]
    · exact ⟨fun h => hne (fn_name_of_continues h), fun h => hne (fn_name_of_continues h).symm⟩

/-- A name identifies the specialisation exactly when the calls are told apart or the
same. -/
theorem fn_name_identifies_iff : (call.fn_name = call'.fn_name → SameSpecialisation call call') ↔
    SameSpecialisation call call' ∨ ToldApart call call' := by
  rw [fn_name_eq_iff]
  by_cases hapart : ToldApart call call'
  · exact iff_of_true (fun h => absurd hapart h) (Or.inr hapart)
  · exact ⟨fun h => Or.inl (h hapart), fun h _ => h.resolve_right hapart⟩

/-- The body that a call gets was generated for a call of the same specialisation when
the calls before it are told apart from it or the same. -/
theorem body_of_calls {Body : Type} (generate : Call → Body) {calls : List Call}
    (h : ∀ c ∈ calls, SameSpecialisation c call ∨ ToldApart c call) :
    ∃ c ∈ calls ++ [call], SameSpecialisation c call ∧
      (Memo.lookup Call.fn_name generate (Memo.runs Call.fn_name generate calls) call).2 =
        generate c :=
  Memo.lookup_runs ⟨rfl, rfl, rfl⟩ fun c hc hname => by
    rcases h c hc with hsame | hapart
    · exact hsame
    · exact absurd hapart (fn_name_eq_iff.mp hname)

theorem body_of_calls_repeated :
    let call : Call := ⟨⟨"f".toList, 0⟩, [.constexpr "4".toList]⟩
    ∃ c ∈ [call] ++ [call], SameSpecialisation c call ∧
      (Memo.lookup Call.fn_name Call.constants (Memo.runs Call.fn_name Call.constants [call])
        call).2 = c.constants :=
  body_of_calls Call.constants (List.forall_mem_singleton.mpr (.inl ⟨rfl, rfl, rfl⟩))

/-- A pointer to a block and a block of pointers; pointers with and without `const`; the
strings `a.b` and `a_d_b`; and two functions of one name. -/
theorem fn_name_collides :
    (let f : JITFunction := ⟨"f".toList, 0⟩
      let float := Ty.scalar .fp32
      let pointers : Call := ⟨f, [.value (.block (.pointer float 1 false) 16 [])]⟩
      let blockPointer : Call := ⟨f, [.value (.pointer (.block float 16 []) 1 false)]⟩
      let constPointer : Call := ⟨f, [.value (.pointer float 1 true)]⟩
      let pointer : Call := ⟨f, [.value (.pointer float 1 false)]⟩
      pointers.fn_name = blockPointer.fn_name ∧ pointers.arg_types ≠ blockPointer.arg_types ∧
        constPointer.fn_name = pointer.fn_name ∧ constPointer.arg_types ≠ pointer.arg_types) ∧
    (let f : JITFunction := ⟨"f".toList, 0⟩
      let dot : Call := ⟨f, [.constexpr "constexpr[a.b]".toList]⟩
      let text : Call := ⟨f, [.constexpr "constexpr[a_d_b]".toList]⟩
      dot.fn_name = text.fn_name ∧ dot.constants ≠ text.constants) ∧
    let f : Call := ⟨⟨"f".toList, 0⟩, []⟩
    let g : Call := ⟨⟨"f".toList, 1⟩, []⟩
    f.fn_name = g.fn_name ∧ f.fn ≠ g.fn := by
  decide +kernel

end Calls

end TritonCpu.Mangle
