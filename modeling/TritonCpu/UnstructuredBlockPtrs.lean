import Mathlib.Tactic.LinearCombination
import TritonCpu.UnstructuredOffsets

/-!
# Block pointers on an offset base

The base of a block pointer may itself be a pointer argument with offsets added.
The pass makes the argument the base and adds what has been accumulated to the
first offset operand. `tts.make_tptr` counts its offsets in elements, as
`tt.addptr` does, but `tt.make_tensor_ptr` counts them in strides.
-/

set_option autoImplicit false

namespace TritonCpu.TritonToUnstructured

open List

/-! ## The addresses of a block pointer -/

def IsOffset (t : Ty) : Prop :=
  t.shape = none ∧ (t.elt = .index ∨ ∃ width, t.elt = .scalar (.int width))

def MixedOffset.eval (ρ : Value → ℤ) : MixedOffset → ℤ
  | attr n => n
  | value v => ρ v

/-- What the pointer analysis keeps of a block pointer: offsets and strides
count elements. -/
structure PtrState where
  source : ℤ
  offsets : List ℤ
  strides : List ℤ

def visitOperandMakeTensorPtr (ρ : Value → ℤ) (base : Value) (offsets strides : List Value) :
    PtrState :=
  ⟨ρ base, List.zipWith (fun offset stride => ρ offset * ρ stride) offsets strides, strides.map ρ⟩

def visitOperandMakeTPtr (ρ : Value → ℤ) (base : Value) (offsets : List MixedOffset)
    (strides : List ℤ) : PtrState :=
  ⟨ρ base, offsets.map (MixedOffset.eval ρ), strides⟩

/-- The operands of `tt.make_tensor_ptr` after its offsets are the shape and the
strides; `mixedStrides` are those of `tts.make_tptr`. -/
def ptrState (ρ : Value → ℤ) (mixedStrides : List ℤ) : Op → Option PtrState
  | .makeTensorPtr _ base offsets rest =>
    some (visitOperandMakeTensorPtr ρ base offsets (rest.drop offsets.length))
  | .ttsMakeTensorPtr _ base offsets _ => some (visitOperandMakeTPtr ρ base offsets mixedStrides)
  | _ => none

def PtrState.address (bytes : ℕ) (p : PtrState) (index : List ℤ) : ℤ :=
  p.source + bytes * (p.offsets.sum + (List.zipWith (· * ·) index p.strides).sum)

def address (ρ : Value → ℤ) (bytes : ℕ) (mixedStrides : List ℤ) (o : Op) (index : List ℤ) :
    Option ℤ :=
  (ptrState ρ mixedStrides o).map fun p => p.address bytes index

def blockPtr : Op → Option (Value × MixedOffset)
  | .makeTensorPtr _ base (front :: _) _ => some (base, .value front)
  | .ttsMakeTensorPtr _ base (front :: _) _ => some (base, front)
  | _ => none

def firstUnit (ρ : Value → ℤ) : Op → ℤ
  | .makeTensorPtr _ _ offsets rest => ((rest.drop offsets.length).map ρ).headD 0
  | _ => 1

def firstWidth (types : Value → Ty) : Op → ℕ
  | .makeTensorPtr _ _ (front :: _) _ => bits (types front).elt
  | _ => 64

/-- The operation that stands for the one at `k` in the end. -/
def Becomes (r : State) (k : ℕ) (o : Op) : Prop := r.op k = some o ∨ (r.op k = none ∧ Helper r o)

section Fold

variable {m : Module} {d k width : ℕ} {s t r : State} {ρ : Value → ℤ} {arg base res : Value}
  {n : ℤ}

theorem castOffset_value {e : PtrOffset} {ty : Ty} (hty : IsOffset ty)
    (he : Entry m s.next s.types ρ arg width n e) (hfits : wrap (bits ty.elt) n = n)
    (h : Models (castOffset s k e.offset ty).2 ρ) : ρ (castOffset s k e.offset ty).1 = n := by
  obtain ⟨hshape, helt⟩ := hty
  unfold castOffset at h ⊢
  split_ifs at h ⊢ with heq
  · exact he.value
  · obtain helt | ⟨width', helt⟩ := helt
    · simp only [helt] at h ⊢
      have hcast := create_value hshape (fun res => .cast .indexCast res e.offset) rfl h
      simp only [Computes, types_create, he.value, hfits] at hcast
      exact hcast
    · simp only [helt] at h ⊢
      split_ifs at h ⊢ with hlt
      · have hcast := create_value hshape (fun res => .cast .extsi res e.offset) rfl h
        exact hcast.trans he.value
      · have hcast := create_value hshape (fun res => .cast .trunci res e.offset) rfl h
        simp only [Computes, types_create, he.value, hfits] at hcast
        exact hcast

theorem addOFRs_value (hr : Recorded m d s) {front : MixedOffset} {rhs : Value} (hrhs : ρ rhs = n)
    (hfits : wrap 64 (n + front.eval ρ) = n + front.eval ρ)
    (h : Models (addOFRs s k front rhs).2 ρ) : ρ (addOFRs s k front rhs).1 = n + front.eval ρ := by
  unfold addOFRs at h ⊢
  split at h
  · simp [MixedOffset.eval, hrhs]
  next value _ =>
    let a := s.create k indexType fun res => .constant res (some value)
    have hext : Extends m s a :=
      (Adds.create (fun res => .constant res (some value)) ⟨rfl, rfl⟩).extends
    have ha := (hr.extends hext rfl).models
      (Adds.create (fun res => .addi res s.next rhs) ⟨rfl, rfl⟩).extends h
    have hconstant := create_value rfl (fun res => .constant res (some value)) rfl ha
    have hsum := create_value rfl (fun res => .addi res s.next rhs) rfl h
    simp only [Computes] at hconstant
    simp only [MixedOffset.eval] at hfits ⊢
    simp only [Computes, types_create, indexType, bits, hconstant, hrhs, Int.add_comm value n,
      hfits] at hsum
    exact hsum
  next v =>
    have hsum := create_value rfl (fun res => .addi res v rhs) rfl h
    simp only [MixedOffset.eval] at hfits ⊢
    simp only [Computes, types_create, indexType, bits, hrhs, Int.add_comm (ρ v) n, hfits] at hsum
    exact hsum

theorem makeTensorPtr_step (hr : Recorded m d s) (hchain : Chain m d ρ arg base width n)
    {front : Value} {offsets rest : List Value}
    (hop : s.op k = some (.makeTensorPtr res base (front :: offsets) rest))
    (hty : IsOffset (s.types front)) (hfits : wrap (bits (s.types front).elt) n = n)
    (hfits' : wrap (bits (s.types front).elt) (n + ρ front) = n + ρ front)
    (h : rewriteUser m s k = .success t) (ht : Models t ρ) :
    ∃ sum, t.op k = some (.makeTensorPtr res arg (sum :: offsets) rest) ∧ ρ sum = n + ρ front ∧
      t.types sum = s.types front ∧ m.next ≤ sum ∧ sum < t.next := by
  have hs := hr.models (rewriteUser_rewrites h).ext ht
  simp only [rewriteUser, hop, rewriteMakeTensorPtr] at h
  obtain ⟨e, he, h⟩ := withOffset_success h
  simp only [Outcome.success.injEq] at h
  have hentry := hr.entries ρ hs arg base width n hchain e he
  generalize hcast : castOffset s k e.offset (s.types front) = cast at h
  have hadds : Adds s cast.2 := hcast ▸ castOffset_adds
  have hr' := hr.extends hadds.extends hadds.offsetMap
  subst h
  have hcreate : Extends m cast.2 (cast.2.create k (s.types front) fun sum =>
      .addi sum cast.1 front) :=
    (Adds.create (fun sum => .addi sum cast.1 front) ⟨rfl, rfl⟩).extends
  have hmodels : Models (cast.2.create k (s.types front) fun sum =>
      .addi sum cast.1 front) ρ := ht
  have hvalue : ρ cast.1 = n := by
    have hcastModels := hr'.models hcreate hmodels
    subst hcast
    exact castOffset_value hty hentry hfits hcastModels
  have hsum := create_value hty.1 (fun sum => .addi sum cast.1 front) rfl hmodels
  simp only [Computes, types_create, hvalue, hfits'] at hsum
  have htype : (cast.2.create k (s.types front) fun sum =>
      .addi sum cast.1 front).types cast.2.next = s.types front := types_create _
  refine ⟨cast.2.next, ?_, hsum, htype, hr'.next, Nat.lt_succ_self _⟩
  rw [State.setOp, hentry.ptr]
  exact Function.update_self ..

theorem ttsMakeTensorPtr_step (hr : Recorded m d s) (hchain : Chain m d ρ arg base width n)
    {front : MixedOffset} {offsets : List MixedOffset} {rest : List Value}
    (hop : s.op k = some (.ttsMakeTensorPtr res base (front :: offsets) rest))
    (hfits : wrap 64 n = n) (hfits' : wrap 64 (n + front.eval ρ) = n + front.eval ρ)
    (h : rewriteUser m s k = .success t) (ht : Models t ρ) :
    ∃ sum, t.op k = none ∧ Helper t (.ttsMakeTensorPtr res arg (.value sum :: offsets) rest) ∧
      ρ sum = n + front.eval ρ := by
  have hs := hr.models (rewriteUser_rewrites h).ext ht
  simp only [rewriteUser, hop, rewriteTtsMakeTensorPtr] at h
  obtain ⟨e, he, h⟩ := withOffset_success h
  simp only [Outcome.success.injEq] at h
  have hentry := hr.entries ρ hs arg base width n hchain e he
  let a := s.create k indexType fun v => .cast .indexCast v e.offset
  have hadds : Adds s a := Adds.create (fun v => .cast .indexCast v e.offset) ⟨rfl, rfl⟩
  have hra := hr.extends hadds.extends hadds.offsetMap
  generalize hadd : addOFRs a k front s.next = sum at h
  have hadds' : Adds a sum.2 := hadd ▸ addOFRs_adds
  have hrsum := hra.extends hadds'.extends hadds'.offsetMap
  subst h
  have hsumModels := hrsum.models (Extends.replace (m := m) rfl) ht
  have hcast := create_value rfl (fun v => .cast .indexCast v e.offset) rfl
    (hra.models hadds'.extends hsumModels)
  simp only [Computes, types_create, indexType, bits, hentry.value, hfits] at hcast
  refine ⟨sum.1, Function.update_self .., .inr ⟨k, ?_⟩, ?_⟩
  · rw [hentry.ptr]
    exact mem_before_self k
  · subst hadd
    exact addOFRs_value hra hcast hfits' hsumModels

/-- The base is the argument, and the first offset has the accumulated one. -/
def Folded (m : Module) (s : State) (ρ : Value → ℤ) (k : ℕ) (o : Value → Op) (ty : Ty) (n : ℤ) :
    Prop :=
  ∃ sum, s.op k = some (o sum) ∧ ρ sum = n ∧ s.types sum = ty ∧ m.next ≤ sum ∧ sum < s.next

theorem Folded.run {ks : List ℕ} {offsets rest : List Value} {ty : Ty} (hr : Recorded m d s)
    (harg : Chain m d ρ arg arg d 0) (hty : IsOffset ty) (hfits : wrap (bits ty.elt) n = n)
    (hfolded : Folded m s ρ k (fun sum => .makeTensorPtr res arg (sum :: offsets) rest) ty n)
    (h : rewriteUsers m ks s = .success r) (hmodels : Models r ρ) :
    Folded m r ρ k (fun sum => .makeTensorPtr res arg (sum :: offsets) rest) ty n := by
  induction ks generalizing s with
  | nil =>
    cases h
    exact hfolded
  | cons l ks ih =>
    obtain ⟨t, hl, h⟩ := rewriteUsers_cons h
    have hstep := rewriteUser_rewrites hl
    have hrt := hr.extends hstep.ext hstep.offsetMap
    obtain ⟨sum, hop, hvalue, htype, hlow, hhigh⟩ := hfolded
    refine ih hrt ?_ h
    by_cases hkl : l = k
    · subst hkl
      obtain ⟨sum', hop', hvalue', htype', hlow', hhigh'⟩ := makeTensorPtr_step hr harg hop
        (htype ▸ hty) (wrap_zero _) (by rw [hvalue, htype, Int.zero_add]; exact hfits) hl
        (hrt.models (rewriteUsers_extends h) hmodels)
      exact ⟨sum', hop', by rw [hvalue', hvalue, Int.zero_add], htype'.trans htype, hlow', hhigh'⟩
    · exact ⟨sum, (hstep.op k (Ne.symm hkl)).trans hop, hvalue,
        (hstep.ext.types sum hhigh (.inl hlow)).trans htype, hlow,
        hhigh.trans_le hstep.ext.next⟩

theorem makeTensorPtr_run {ks : List ℕ} {front : Value} {offsets rest : List Value}
    (hr : Recorded m d s) (hk : k ∈ ks) (hchain : Chain m d ρ arg base width n)
    (harg : Chain m d ρ arg arg d 0) (hfront : front < m.next) (hty : IsOffset (m.types front))
    (hfits : wrap (bits (m.types front).elt) n = n)
    (hfits' : wrap (bits (m.types front).elt) (n + ρ front) = n + ρ front)
    (hop : s.op k = some (.makeTensorPtr res base (front :: offsets) rest))
    (h : rewriteUsers m ks s = .success r) (hmodels : Models r ρ) :
    Folded m r ρ k (fun sum => .makeTensorPtr res arg (sum :: offsets) rest) (m.types front)
      (n + ρ front) := by
  have hptr : isPtrTypeLike (m.types front) = false := by
    obtain ⟨-, helt | ⟨width', helt⟩⟩ := hty
    · simp [isPtrTypeLike, helt]
    · simp [isPtrTypeLike, helt]
  induction ks generalizing s with
  | nil => cases hk
  | cons l ks ih =>
    obtain ⟨t, hl, h⟩ := rewriteUsers_cons h
    have hstep := rewriteUser_rewrites hl
    have hrt := hr.extends hstep.ext hstep.offsetMap
    have htype := hr.typed front hfront hptr
    by_cases hkl : l = k
    · subst hkl
      obtain ⟨sum, hop', hvalue, htype', hlow, hhigh⟩ := makeTensorPtr_step hr hchain hop
        (htype.symm ▸ hty) (htype.symm ▸ hfits) (htype.symm ▸ hfits') hl
        (hrt.models (rewriteUsers_extends h) hmodels)
      exact Folded.run hrt harg hty hfits'
        ⟨sum, hop', hvalue, htype'.trans htype, hlow, hhigh⟩ h hmodels
    · refine ih hrt ?_ ((hstep.op k (Ne.symm hkl)).trans hop) h
      exact (mem_cons.mp hk).resolve_left (Ne.symm hkl)

theorem erased_run {ks : List ℕ} (hop : s.op k = none) (h : rewriteUsers m ks s = .success r) :
    r.op k = none := by
  induction ks generalizing s with
  | nil =>
    cases h
    exact hop
  | cons l ks ih =>
    obtain ⟨t, hl, h⟩ := rewriteUsers_cons h
    refine ih ?_ h
    by_cases hkl : l = k
    · subst hkl
      simp [rewriteUser, hop] at hl
    · exact ((rewriteUser_rewrites hl).op k (Ne.symm hkl)).trans hop

theorem ttsMakeTensorPtr_run {ks : List ℕ} {front : MixedOffset} {offsets : List MixedOffset}
    {rest : List Value} (hr : Recorded m d s) (hk : k ∈ ks)
    (hchain : Chain m d ρ arg base width n) (hfits : wrap 64 n = n)
    (hfits' : wrap 64 (n + front.eval ρ) = n + front.eval ρ)
    (hop : s.op k = some (.ttsMakeTensorPtr res base (front :: offsets) rest))
    (h : rewriteUsers m ks s = .success r) (hmodels : Models r ρ) :
    ∃ sum, r.op k = none ∧ Helper r (.ttsMakeTensorPtr res arg (.value sum :: offsets) rest) ∧
      ρ sum = n + front.eval ρ := by
  induction ks generalizing s with
  | nil => cases hk
  | cons l ks ih =>
    obtain ⟨t, hl, h⟩ := rewriteUsers_cons h
    have hstep := rewriteUser_rewrites hl
    have hrt := hr.extends hstep.ext hstep.offsetMap
    by_cases hkl : l = k
    · subst hkl
      have hext := rewriteUsers_extends h
      obtain ⟨sum, hop', hhelper, hvalue⟩ := ttsMakeTensorPtr_step hr hchain hop hfits hfits' hl
        (hrt.models hext hmodels)
      exact ⟨sum, erased_run hop' h, hext.helpers _ hhelper, hvalue⟩
    · refine ih hrt ?_ ((hstep.op k (Ne.symm hkl)).trans hop) h
      exact (mem_cons.mp hk).resolve_left (Ne.symm hkl)

theorem Chain.start (h : Chain m d ρ arg base width n) : Chain m d ρ arg arg d 0 := by
  induction h with
  | arg harg hshape => exact .arg harg hshape
  | addptr _ _ _ ih => exact ih

end Fold

/-! ## Addresses before and after -/

section Address

variable {m : Module} {d fuel k width bytes : ℕ} {r : State} {ρ : Value → ℤ} {arg base : Value}
  {n : ℤ} {o : Op} {front : MixedOffset}

theorem sum_visitOperandMakeTensorPtr {v sum : Value} {offsets strides : List Value}
    (hsum : ρ sum = n + ρ v) :
    (visitOperandMakeTensorPtr ρ arg (sum :: offsets) strides).offsets.sum =
      (visitOperandMakeTensorPtr ρ base (v :: offsets) strides).offsets.sum +
        n * (strides.map ρ).headD 0 := by
  cases strides with
  | nil => simp [visitOperandMakeTensorPtr]
  | cons stride strides =>
    simp only [visitOperandMakeTensorPtr, zipWith_cons_cons, sum_cons, map_cons,
      headD_cons, hsum]
    ring

theorem address_iff (hbytes : 0 < bytes) {p p' : PtrState} {unit : ℤ}
    (hsource : p.source = p'.source + bytes * n) (hstrides : p'.strides = p.strides)
    (hoffsets : p'.offsets.sum = p.offsets.sum + n * unit) :
    (∀ index, p'.address bytes index = p.address bytes index) ↔ n = 0 ∨ unit = 1 := by
  have hdiff : ∀ index, p'.address bytes index = p.address bytes index ↔
      (bytes : ℤ) * (n * (unit - 1)) = 0 := by
    intro index
    simp only [PtrState.address, hsource, hstrides, hoffsets]
    constructor
    · intro h
      linear_combination h
    · intro h
      linear_combination h
  have hbytes' : (bytes : ℤ) ≠ 0 := by omega
  simp only [hdiff, mul_eq_zero, hbytes', false_or, sub_eq_zero]
  exact ⟨fun h => h [], fun h _ => h⟩

/-- Every element of a block pointer keeps its address exactly when its base had
accumulated nothing or its first offset counts single elements, as those of
`tts.make_tptr` do. -/
theorem blockPtr_address_iff (hm : Verified m)
    (h : processUnstructuredPtrs m d fuel = some (.success r)) (ho : m.ops[k]? = some o)
    (hblock : blockPtr o = some (base, front))
    (hreached : k ∈ accesses m (traverse m fuel (seeds m) []))
    (hfront : ∀ v, front = .value v → IsOffset (m.types v)) (hbytes : 0 < (m.types base).bytes)
    (hops : ∀ o ∈ m.ops, Evaluates m.types ρ o) (hmodels : Models r ρ)
    (hchain : Chain m d ρ arg base width n) (hfits : wrap (firstWidth m.types o) n = n)
    (hfits' : wrap (firstWidth m.types o) (n + front.eval ρ) = n + front.eval ρ) :
    ∃ o' front', Becomes r k o' ∧ o'.results = o.results ∧ blockPtr o' = some (arg, front') ∧
      ∀ mixedStrides, (∀ index, address ρ (m.types base).bytes mixedStrides o' index =
        address ρ (m.types base).bytes mixedStrides o index) ↔ n = 0 ∨ firstUnit ρ o = 1 := by
  obtain ⟨hg, -, hqueue, hpending, husers⟩ := start_spec hm d
  unfold processUnstructuredPtrs at h
  cases hwalk : walk m fuel (start m d) with
  | none => simp [hwalk] at h
  | some outcome =>
    cases outcome with
    | crash => simp [hwalk] at h
    | failure t => simp [hwalk] at h
    | success t =>
      simp only [hwalk, Option.some.injEq] at h
      obtain ⟨-, hwalked⟩ := walk_success hm hg hwalk
      have hrecorded := walk_recorded hm (start_recorded hm d) hg hwalk
      have hk : k ∈ t.ptrUsers := by
        rw [hwalked.ptrUsers, husers, nil_append, hqueue, hpending]
        exact hreached
      have hbase : ρ base = ρ arg + (m.types base).bytes * n := by
        rw [(hchain.shape hm).2]
        exact hchain.address hm hops
      have hsame : ∀ o, m.ops[k]? = some o → isPtrToInt o = false → t.op k = some o := by
        intro o ho hno
        obtain hop | hop := hwalked.grown.ops k
        · exact hop.trans ho
        · rw [ho] at hop
          simp [hno] at hop
      have hlift : ∀ {o o' : Op} {mixedStrides : List ℤ} {p p' : PtrState},
          ptrState ρ mixedStrides o = some p → ptrState ρ mixedStrides o' = some p' →
          ((∀ index, address ρ (m.types base).bytes mixedStrides o' index =
            address ρ (m.types base).bytes mixedStrides o index) ↔
          ∀ index, p'.address (m.types base).bytes index =
            p.address (m.types base).bytes index) := by
        intro o o' mixedStrides p p' hp hp'
        simp only [address, hp, hp', Option.map_some, Option.some.injEq]
      cases o
      case makeTensorPtr res base' offsets rest =>
        cases offsets with
        | nil => cases hblock
        | cons v offsets =>
          simp only [blockPtr, Option.some.injEq, Prod.mk.injEq] at hblock
          obtain ⟨rfl, rfl⟩ := hblock
          have hmem := mem_of_getElem? ho
          obtain ⟨sum, hop, hvalue, -⟩ := makeTensorPtr_run hrecorded hk hchain hchain.start
            (hm.operands_below _ hmem v (by simp [Op.operands])) (hfront v rfl) hfits hfits'
            (hsame _ ho rfl) h hmodels
          refine ⟨.makeTensorPtr res arg (sum :: offsets) rest, .value sum, .inl hop, rfl, rfl,
            fun mixedStrides => (hlift rfl rfl).trans ?_⟩
          exact address_iff hbytes hbase rfl (sum_visitOperandMakeTensorPtr hvalue)
      case ttsMakeTensorPtr res base' offsets rest =>
        cases offsets with
        | nil => cases hblock
        | cons first offsets =>
          simp only [blockPtr, Option.some.injEq, Prod.mk.injEq] at hblock
          obtain ⟨rfl, rfl⟩ := hblock
          obtain ⟨sum, hop, hhelper, hvalue⟩ := ttsMakeTensorPtr_run hrecorded hk hchain hfits
            hfits' (hsame _ ho rfl) h hmodels
          refine ⟨.ttsMakeTensorPtr res arg (.value sum :: offsets) rest, .value sum,
            .inr ⟨hop, hhelper⟩, rfl, rfl, fun mixedStrides => (hlift rfl rfl).trans ?_⟩
          refine address_iff hbytes hbase rfl ?_
          simp only [visitOperandMakeTPtr, map_cons, sum_cons, firstUnit,
            MixedOffset.eval, hvalue]
          ring
      all_goals cases hblock

end Address

/-- One `tt.addptr` on an argument, and a block pointer of one dimension on it. -/
def offsetBase : Module where
  args := [0, 1, 2, 3, 4]
  ops := [.addptr 5 0 1 false, .makeTensorPtr 6 5 [2] [3, 4]]
  types
    | 1 => ⟨none, .scalar (.int 32)⟩
    | 2 => ⟨none, .scalar (.int 32)⟩
    | 3 => ⟨none, .scalar (.int 64)⟩
    | 4 => ⟨none, .scalar (.int 64)⟩
    | _ => ⟨none, .ptr (.float 32)⟩
  uses := usesOf [.addptr 5 0 1 false, .makeTensorPtr 6 5 [2] [3, 4]]
  next := 7

theorem offsetBase_verified : Verified offsetBase where
  args_nodup := by decide
  args_below := by decide
  results_below := by decide
  operands_below := by decide
  results_nodup := by decide
  defined_once _ _ _ _ _ hk hl := defined_once_of_nodup (by decide) hk hl
  args_undefined := by decide
  uses_nodup := usesOf_nodup _
  mem_uses _ _ := mem_usesOf
  loop_bounds loop h := by simp [offsetBase] at h
  loop_types loop h := by simp [offsetBase] at h
  addptr_types res ptr offset inIf h := by
    simp only [offsetBase, mem_cons, Op.addptr.injEq, not_mem_nil, reduceCtorEq, or_false]
      at h
    obtain ⟨rfl, rfl, rfl, rfl⟩ := h
    exact ⟨rfl, rfl, 32, rfl⟩
  int_to_ptr_types res src h := by simp [offsetBase] at h
  bitcast_types res src h := by simp [offsetBase] at h
  shape_types name axis res src h := by simp [offsetBase] at h
  splat_shape axis res src h := by simp [offsetBase] at h
  broadcast_shape axis res src h := by simp [offsetBase] at h
  loop_outside k loop h := by
    obtain _ | _ | k := k <;> simp [offsetBase] at h
  loop_region loop h := by simp [offsetBase] at h

def offsetBaseState : State :=
  match processUnstructuredPtrs offsetBase 32 20 with
  | some (.success s) => s
  | _ => emptyState offsetBase

theorem offsetBaseState_success :
    processUnstructuredPtrs offsetBase 32 20 = some (.success offsetBaseState) := rfl

/-- Four elements are added to the argument, and the first offset is one. -/
def offsetBaseValues (stride : ℤ) : Value → ℤ
  | 0 => 4096
  | 1 => 4
  | 2 => 1
  | 3 => 64
  | 4 => stride
  | 5 => 4112
  | 8 => 4
  | 9 => 5
  | _ => 0

theorem offsetBaseValues_ops (stride : ℤ) :
    ∀ o ∈ offsetBase.ops, Evaluates offsetBase.types (offsetBaseValues stride) o := by
  intro o ho
  simp only [offsetBase, mem_cons, not_mem_nil, or_false] at ho
  obtain rfl | rfl := ho
  · exact fun _ => rfl
  · exact fun _ => trivial

theorem offsetBaseValues_models (stride : ℤ) :
    Models offsetBaseState (offsetBaseValues stride) := by
  rintro o (ho | ⟨k, ho⟩) -
  · obtain rfl := mem_singleton.mp (show o ∈ [.constant 7 (some 0)] from ho)
    rfl
  · obtain _ | _ | k := k
    · obtain rfl := mem_singleton.mp (show o ∈ [.addi 8 7 1] from ho)
      rfl
    · obtain rfl := mem_singleton.mp (show o ∈ [.addi 9 8 2] from ho)
      rfl
    · exact absurd (show o ∈ [] from ho) not_mem_nil

theorem offsetBase_chain (stride : ℤ) :
    Chain offsetBase 32 (offsetBaseValues stride) 0 5 32 4 :=
  .addptr (.arg (show 0 ∈ ptrArgs offsetBase by decide) rfl) (mem_cons_self ..) rfl

theorem offsetBase_block : offsetBase.ops[1]? = some (.makeTensorPtr 6 5 [2] [3, 4]) := rfl

theorem offsetBase_isOffset (v : Value) (h : MixedOffset.value 2 = .value v) :
    IsOffset (offsetBase.types v) := by
  cases h
  exact ⟨rfl, .inr ⟨32, rfl⟩⟩

theorem offsetBase_reached : 1 ∈ accesses offsetBase (traverse offsetBase 20 (seeds offsetBase) []) := by
  decide

theorem blockPtr_address_iff_offsetBase :
    ∃ o' front', Becomes offsetBaseState 1 o' ∧ o'.results = [6] ∧
      blockPtr o' = some (0, front') ∧ ∀ mixedStrides,
        (∀ index, address (offsetBaseValues 1) 4 mixedStrides o' index =
          address (offsetBaseValues 1) 4 mixedStrides (.makeTensorPtr 6 5 [2] [3, 4]) index) ↔
        (4 : ℤ) = 0 ∨ (1 : ℤ) = 1 :=
  blockPtr_address_iff offsetBase_verified offsetBaseState_success offsetBase_block rfl
    offsetBase_reached offsetBase_isOffset (by decide) (offsetBaseValues_ops 1) (offsetBaseValues_models 1)
    (offsetBase_chain 1) rfl rfl

/-- With a stride of two the block begins four elements too late. -/
theorem offsetBase_moved :
    ¬ ∀ (m : Module) (d fuel k width : ℕ) (r : State) (ρ : Value → ℤ) (arg base : Value) (n : ℤ)
      (o : Op) (front : MixedOffset), Verified m →
      processUnstructuredPtrs m d fuel = some (.success r) → m.ops[k]? = some o →
      blockPtr o = some (base, front) → k ∈ accesses m (traverse m fuel (seeds m) []) →
      (∀ v, front = .value v → IsOffset (m.types v)) → 0 < (m.types base).bytes →
      (∀ o ∈ m.ops, Evaluates m.types ρ o) → Models r ρ → Chain m d ρ arg base width n →
      wrap (firstWidth m.types o) n = n →
      wrap (firstWidth m.types o) (n + front.eval ρ) = n + front.eval ρ →
      ∃ o' front', Becomes r k o' ∧ o'.results = o.results ∧ blockPtr o' = some (arg, front') ∧
        ∀ mixedStrides index, address ρ (m.types base).bytes mixedStrides o' index =
          address ρ (m.types base).bytes mixedStrides o index := by
  intro hall
  obtain ⟨o', front', hbecomes, -, -, hsame⟩ := hall offsetBase 32 20 1 32 offsetBaseState
    (offsetBaseValues 2) 0 5 4 (.makeTensorPtr 6 5 [2] [3, 4]) (.value 2) offsetBase_verified
    offsetBaseState_success offsetBase_block rfl offsetBase_reached offsetBase_isOffset (by decide)
    (offsetBaseValues_ops 2) (offsetBaseValues_models 2) (offsetBase_chain 2) rfl rfl
  have hop : offsetBaseState.op 1 = some (.makeTensorPtr 6 0 [9] [3, 4]) := rfl
  obtain hbecomes | ⟨hnone, -⟩ := hbecomes
  · rw [hop, Option.some.injEq] at hbecomes
    subst hbecomes
    exact absurd (hsame [] [0]) (by decide)
  · rw [hop] at hnone
    cases hnone

end TritonCpu.TritonToUnstructured
