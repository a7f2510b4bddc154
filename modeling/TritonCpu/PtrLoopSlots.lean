import TritonCpu.PtrLoops
import TritonCpu.PtrDenotation

/-!
# The slots of loop-carried pointers

A loop carries a pointer or a tensor of indices together with slots for its
offsets and strides, which it takes from `tts.get_structured_state`.
`rewriteForOp` derives the state of an iter-arg from its init-arg, bound to the
slots. When the analysis is over, `rewriteGetStructuredStateOp` puts into the
slots what is recorded for the operand then, or the operand with zeros.
-/

set_option autoImplicit false

namespace TritonCpu.AnalysisStructured
open Builder TritonIR OpFoldResult List

/-- A `tts.get_structured_state` with the identifiers of its results. -/
structure GetStructuredStateOp where
  input : Value
  structured : ℕ
  offsetsAndStrides : List ℕ

namespace GetStructuredStateOp

def results (op : GetStructuredStateOp) : List Value :=
  .structuredState op.structured op.input op.input.ty ::
    op.offsetsAndStrides.map fun id => .structuredState id op.input Ty.index

def getOffsetAndStrideSegmentSizes : Ty → Option (ℕ × ℕ)
  | ⟨some shape, _⟩ => some (shape.length, shape.length)
  | ⟨none, .ptr⟩ => some (1, 0)
  | ⟨none, _⟩ => none

end GetStructuredStateOp

/-- What stands for a pointer in `ptrMap`: a `tts.make_tptr` of a state, or the
value itself. -/
inductive Mapped where
  | value (v : Value)
  | tptr (s : PtrState)

structure Tables where
  knownPtrs : Value → Option PtrState
  ptrMap : Value → Option Mapped

/-- Success, and what replaces the results. -/
structure Replacements where
  succeeded : Bool
  structured : Mapped
  slots : List Value

def putBack (op : GetStructuredStateOp) : Build Replacements := do
  let zeros ← op.offsetsAndStrides.mapM fun _ => createConstant 0
  return ⟨false, .value op.input, zeros⟩

/-- The offset of a scalar pointer; an argument of the kernel has offset zero. -/
def scalarSlot (input : Value) : Option Value → Build Value
  | some scalar => return scalar
  | none => do
    assertThat (hasDefiningOp input = false) "!tritonValue.getDefiningOp()"
    createConstant 0

def stateSlots (input : Value) (state : PtrState) : Build (List Value) := do
  if state.rank = 0 then return [← scalarSlot input state.scalar]
  else
    let offsets ← state.dims.mapM fun d => materialize d.offset
    let strides ← state.dims.mapM fun d => materialize d.stride
    return offsets ++ strides

def rewriteGetStructuredStateOp (tables : Tables) (op : GetStructuredStateOp) :
    Build Replacements :=
  match tables.knownPtrs op.input with
  | none => putBack op
  | some state =>
    if !state.isStructured then putBack op
    else do
      let slots ← stateSlots op.input state
      assertThat (slots.length = op.offsetsAndStrides.length)
        "expected 'values' to correspond 1-1 with the number of results"
      return ⟨true, (tables.ptrMap op.input).getD (.value op.input), slots⟩

def PtrState.noStructuredDimExists (s : PtrState) : Bool :=
  s.rank > 0 && s.dims.all fun d => isNotStructured d.offset

def isStructuredType (ty : Ty) : Bool :=
  (GetStructuredStateOp.getOffsetAndStrideSegmentSizes ty).isSome

def isPointerType (ty : Ty) : Bool := ty.elt = .ptr

/-- `failed(x)`: the analysis goes on. -/
def attempt {α : Type} (x : Build α) : Build (Option α) := fun n =>
  match x n with
  | .ok (a, m) => .ok (some a, m)
  | .error (.failure _) => .ok (none, n)
  | .error (.assertion text) => .error (.assertion text)

/-- One iter-arg in `rewriteForOp`. -/
def rewriteIterArg (maybeStructuredArgs : Value → Bool) (loops : LoopNest) (loop index : ℕ)
    (arg : Value) (tables : Tables) : Build Tables := do
  if !maybeStructuredArgs arg then return tables
  else
    match ← attempt (getLoopIterArgPtrState tables.knownPtrs loops loop index) with
    | none => return tables
    | some state =>
      if state.noStructuredDimExists then return tables
      else
        return {
          knownPtrs := Function.update tables.knownPtrs arg (some state)
          ptrMap := if isPointerType arg.ty && state.rank ≠ 0 then
            Function.update tables.ptrMap arg (some (.tptr state)) else tables.ptrMap }

/-- `rewriteForOp` before it visits the body. -/
def rewriteIterArgs (maybeStructuredArgs : Value → Bool) (loops : LoopNest) (loop : ℕ) :
    ℕ → List Value → Tables → Build Tables
  | _, [], tables => return tables
  | index, init :: inits, tables => do
    let arg := .iterArg loop index init.ty
    let tables ← rewriteIterArg maybeStructuredArgs loops loop index arg tables
    rewriteIterArgs maybeStructuredArgs loops loop (index + 1) inits tables

def rewriteForOp (maybeStructuredArgs : Value → Bool) (loops : LoopNest) (loop : ℕ)
    (tables : Tables) : Build Tables :=
  rewriteIterArgs maybeStructuredArgs loops loop 0 (loops.initArgs loop) tables

/-! What a structured state says: a base, the moduli and the values in the slots. -/

section Denotation

variable {ρ : Env} {s : PtrState} {idx : List ℕ}

def Dim.modulo (ρ : Env) (d : Dim) : Option ℤ :=
  if d.hasModulo then some (d.shape.eval ρ) else none

namespace PtrState

def moduli (ρ : Env) (s : PtrState) : List (Option ℤ) := s.dims.map (Dim.modulo ρ)

def slotCount (s : PtrState) : ℕ := if s.dims = [] then 1 else s.rank + s.rank

def slotValues (ρ : Env) (s : PtrState) : List ℤ :=
  if s.dims = [] then [s.scalarValue ρ]
  else (s.dims.map fun d => d.offset.eval ρ) ++ s.dims.map fun d => d.stride.eval ρ

end PtrState

def wrap : Option ℤ → ℤ → ℤ
  | some modulo, x => x.tmod modulo
  | none, x => x

def boxOffset : List (Option ℤ) → List ℤ → List ℤ → List ℕ → ℤ
  | m :: moduli, o :: offsets, s :: strides, i :: idx =>
    wrap m (o + s * i) + boxOffset moduli offsets strides idx
  | _, _, _, _ => 0

/-- The address of a structured pointer with these values in its slots. -/
def slotAddress (base : ℤ) (moduli : List (Option ℤ)) (slots : List ℤ) (idx : List ℕ) : ℤ :=
  base + if moduli = [] then slots.headD 0
    else boxOffset moduli (slots.take moduli.length) (slots.drop moduli.length) idx

theorem contribution_structured {d : Dim} (h : d.isStructured = true) (ρ : Env) (i : ℕ) :
    d.contribution ρ i = wrap (d.modulo ρ) (d.offset.eval ρ + d.stride.eval ρ * i) := by
  unfold Dim.contribution Dim.term Dim.modulo
  rw [if_pos h]
  split <;> rfl

theorem contributions_structured {dims : List Dim} (h : ∀ d ∈ dims, d.isStructured = true) :
    contributions ρ dims idx = boxOffset (dims.map (Dim.modulo ρ))
      (dims.map fun d => d.offset.eval ρ) (dims.map fun d => d.stride.eval ρ) idx := by
  induction dims generalizing idx with
  | nil => rfl
  | cons d dims ih =>
    cases idx with
    | nil => rfl
    | cons i idx =>
      rw [contributions, contribution_structured (h d mem_cons_self),
        ih fun e he => h e (mem_cons_of_mem d he)]
      rfl

theorem address_eq_slotAddress (h : s.isStructured = true) :
    s.address ρ idx = slotAddress (s.sourceValue ρ) (s.moduli ρ) (s.slotValues ρ) idx := by
  unfold PtrState.address slotAddress PtrState.moduli PtrState.slotValues
  by_cases hnil : s.dims = []
  · simp [hnil]
  · rw [if_neg hnil, if_neg hnil, if_neg (mt map_eq_nil_iff.mp hnil),
      contributions_structured (structured_of_state h), length_map]
    rw [take_left' (length_map _), drop_left' (length_map _)]

theorem boxOffset_zeros (moduli : List (Option ℤ)) (n k : ℕ) :
    boxOffset moduli (List.replicate n 0) (List.replicate k 0) idx = 0 := by
  induction moduli generalizing n k idx with
  | nil => rfl
  | cons m moduli ih =>
    cases n with
    | zero => rfl
    | succ n =>
      cases k with
      | zero => rfl
      | succ k =>
        cases idx with
        | nil => rfl
        | cons i idx =>
          have hwrap : wrap m (0 + 0 * (i : ℤ)) = 0 := by
            cases m <;> simp [wrap]
          rw [replicate_succ, replicate_succ, boxOffset, hwrap, ih, add_zero]

theorem slotAddress_zeros (base : ℤ) (moduli : List (Option ℤ)) (n : ℕ) :
    slotAddress base moduli (List.replicate n 0) idx = base := by
  unfold slotAddress
  have hhead : (List.replicate n (0 : ℤ)).headD 0 = 0 := by cases n <;> rfl
  rw [take_replicate, drop_replicate, boxOffset_zeros, hhead, ite_self, add_zero]

theorem length_slotValues : (s.slotValues ρ).length = s.slotCount := by
  unfold PtrState.slotValues PtrState.slotCount PtrState.rank
  split <;> simp

end Denotation

section Replace

variable {ρ : Env} {tables : Tables} {op : GetStructuredStateOp} {r : Replacements}

def Unanalysed (knownPtrs : Value → Option PtrState) (v : Value) : Prop :=
  ∀ s, knownPtrs v = some s → s.isStructured = false

theorem returns_putBack (h : Returns (putBack op) r) :
    r.succeeded = false ∧ r.slots.map (fun v => v.eval ρ []) =
      List.replicate op.offsetsAndStrides.length 0 := by
  obtain ⟨zeros, hzeros, h⟩ := returns_bind h
  rw [returns_pure] at h
  subst h
  refine ⟨rfl, ?_⟩
  have hall := returns_mapM hzeros
  rw [eq_replicate_iff]
  constructor
  · rw [length_map, hall.length_eq]
  · intro x hx
    obtain ⟨v, hv, rfl⟩ := mem_map.mp hx
    obtain ⟨k, hk, rfl⟩ := getElem_of_mem hv
    have hcreated := hall.get (by rw [hall.length_eq]; exact hk) hk
    obtain ⟨id, hid⟩ := returns_create hcreated
    rw [get_eq_getElem] at hid
    rw [hid]
    rfl

theorem returns_scalarSlot {input v : Value} {scalar : Option Value}
    (h : Returns (scalarSlot input scalar) v) :
    v.eval ρ [] = (scalar.map fun c => c.eval ρ []).getD 0 := by
  cases scalar with
  | some c =>
    rw [scalarSlot, returns_pure] at h
    rw [h]
    rfl
  | none =>
    obtain ⟨-, h⟩ := returns_assert_bind h
    obtain ⟨id, rfl⟩ := returns_create h
    rfl

theorem returns_materialize_all {f : Dim → OFR} {dims : List Dim} {vs : List Value}
    (h : Returns (dims.mapM fun d => materialize (f d)) vs) :
    vs.map (fun v => v.eval ρ []) = dims.map fun d => (f d).eval ρ := by
  have hall := returns_mapM h
  clear h
  induction hall with
  | nil => rfl
  | cons hd _ ih =>
    have hhead := (returns_materialize (P := fun _ => True) trivial hd).2 ρ
    rw [map_cons, map_cons, hhead, ih]

theorem returns_stateSlots {input : Value} {s : PtrState} {slots : List Value}
    (h : Returns (stateSlots input s) slots) :
    slots.map (fun v => v.eval ρ []) = s.slotValues ρ := by
  unfold stateSlots at h
  unfold PtrState.slotValues
  split_ifs at h with hrank
  · obtain ⟨v, hv, h⟩ := returns_bind h
    rw [returns_pure] at h
    subst h
    rw [if_pos (length_eq_zero_iff.mp hrank), map_cons, returns_scalarSlot hv]
    rfl
  · obtain ⟨offsets, hoffsets, h⟩ := returns_bind h
    obtain ⟨strides, hstrides, h⟩ := returns_bind h
    rw [returns_pure] at h
    subst h
    rw [if_neg (mt length_eq_zero_iff.mpr hrank), map_append,
      returns_materialize_all hoffsets, returns_materialize_all hstrides]

theorem rewriteGetStructuredStateOp_analysed {s : PtrState}
    (hknown : tables.knownPtrs op.input = some s) (hstructured : s.isStructured = true)
    (h : Returns (rewriteGetStructuredStateOp tables op) r) :
    r.succeeded = true ∧ op.offsetsAndStrides.length = s.slotCount ∧
      r.slots.map (fun v => v.eval ρ []) = s.slotValues ρ := by
  unfold rewriteGetStructuredStateOp at h
  rw [hknown] at h
  dsimp only at h
  rw [hstructured] at h
  obtain ⟨slots, hslots, h⟩ := returns_bind h
  obtain ⟨hlength, h⟩ := returns_assert_bind h
  rw [returns_pure] at h
  subst h
  have hvalues := returns_stateSlots (ρ := ρ) hslots
  have hcount : s.slotCount = slots.length := by
    rw [← length_slotValues (ρ := ρ), ← hvalues, length_map]
  exact ⟨rfl, (hcount.trans hlength).symm, hvalues⟩

theorem rewriteGetStructuredStateOp_unanalysed (hunknown : Unanalysed tables.knownPtrs op.input)
    (h : Returns (rewriteGetStructuredStateOp tables op) r) :
    r.succeeded = false ∧ r.slots.map (fun v => v.eval ρ []) =
      List.replicate op.offsetsAndStrides.length 0 := by
  unfold rewriteGetStructuredStateOp at h
  split at h
  · exact returns_putBack h
  · next s hs =>
    rw [hunknown s hs] at h
    exact returns_putBack h

end Replace

section Bound

variable {ρ : Env} {bind : ℕ → Build Value} {index : ℕ} {s p : PtrState} {f : ℕ → ℤ}

/-- What is in the slots after position `index`. -/
def slotWindow (f : ℕ → ℤ) (index count : ℕ) : List ℤ :=
  (List.range count).map fun k => f (index + 1 + k)

theorem map_eq_window {g : Dim → OFR} {dims : List Dim} {start : ℕ}
    (hf : ∀ n v, Returns (bind n) v → v.eval ρ [] = f n)
    (h : ∀ (k : ℕ) (d : Dim), dims[k]? = some d →
      ∃ v, g d = .value v ∧ Returns (bind (start + k)) v) :
    (dims.map fun d => (g d).eval ρ) = (List.range dims.length).map fun k => f (start + k) := by
  apply ext_getElem
  · simp
  · intro k hk hk'
    rw [length_map] at hk
    obtain ⟨v, hv, hbind⟩ := h k dims[k] (List.getElem?_eq_getElem hk)
    rw [getElem_map, getElem_map, getElem_range, hv]
    exact hf _ _ hbind

theorem BoundTo.slotValues (h : BoundTo bind index s)
    (hf : ∀ n v, Returns (bind n) v → v.eval ρ [] = f n) :
    s.slotValues ρ = slotWindow f index s.slotCount := by
  unfold PtrState.slotValues PtrState.slotCount slotWindow
  by_cases hnil : s.dims = []
  · obtain ⟨v, hv, hbind⟩ := h.scalar hnil
    rw [if_pos hnil, if_pos hnil, PtrState.scalarValue, hv]
    simpa using hf _ _ hbind
  · rw [if_neg hnil, if_neg hnil, map_eq_window hf h.offsets, map_eq_window hf h.strides,
      range_add, map_append, map_map]
    congr 1
    apply map_congr_left
    intro k _
    exact congrArg f (Nat.add_assoc _ _ _)

theorem BoundTo.structured (h : BoundTo bind index s)
    (htyped : ∀ k < s.slotCount, ∀ v, Returns (bind (index + 1 + k)) v → v.ty = Ty.index) :
    s.isStructured = true := by
  rw [PtrState.isStructured, all_eq_true]
  intro d hd
  obtain ⟨k, hk, rfl⟩ := getElem_of_mem hd
  obtain ⟨v, hv, hbind⟩ := h.offsets k s.dims[k] (List.getElem?_eq_getElem hk)
  have hnil : s.dims ≠ [] := ne_nil_of_mem hd
  have hcount : k < s.slotCount := by
    rw [PtrState.slotCount, if_neg hnil]
    exact Nat.lt_add_right _ hk
  rw [structured_iff, hv]
  show v.ty.shape = none
  rw [htyped k hcount v hbind]
  rfl

theorem SamePointer.rank (h : SamePointer p s) : s.dims.length = p.dims.length := by
  simpa using congrArg List.length h.shape

theorem SamePointer.slotCount (h : SamePointer p s) : s.slotCount = p.slotCount := by
  have hnil : s.dims = [] ↔ p.dims = [] := by
    rw [← length_eq_zero_iff, ← length_eq_zero_iff, h.rank]
  unfold PtrState.slotCount PtrState.rank
  simp only [hnil, h.rank]

theorem SamePointer.sourceValue (h : SamePointer p s) : s.sourceValue ρ = p.sourceValue ρ := by
  rw [PtrState.sourceValue, PtrState.sourceValue, h.source]

theorem SamePointer.moduli (h : SamePointer p s) : s.moduli ρ = p.moduli ρ := by
  have hmap : ∀ dims : List Dim, dims.map (Dim.modulo ρ) = (dims.map Dim.shape).map fun shape =>
      if getIntAttr shape ≠ some 0 then some (shape.eval ρ) else none := by
    intro dims
    rw [map_map]
    apply map_congr_left
    intro d _
    simp [Dim.modulo, Dim.hasModulo]
  rw [PtrState.moduli, PtrState.moduli, hmap, hmap, h.shape]

end Bound

section Record

variable {known known' : Value → Option PtrState} {loops : LoopNest} {loop index : ℕ}
  {maybeStructuredArgs : Value → Bool} {tables tables' : Tables} {s : PtrState}

def Grows (known known' : Value → Option PtrState) : Prop :=
  ∀ v s, known v = some s → known' v = some s

theorem Grows.trans {known'' : Value → Option PtrState} (h : Grows known known')
    (h' : Grows known' known'') : Grows known known'' := fun v s hs => h' v s (h v s hs)

def Extends {α : Type} (x y : Build α) : Prop := ∀ n r, x n = .ok r → y n = .ok r

theorem Extends.refl {α : Type} (x : Build α) : Extends x x := fun _ _ h => h

theorem Extends.returns {α : Type} {x y : Build α} {a : α} (h : Extends x y) (hx : Returns x a) :
    Returns y a := by
  obtain ⟨n, m, hn⟩ := hx
  exact ⟨n, m, h n _ hn⟩

theorem extends_of_not_returns {α : Type} {x y : Build α} (h : ∀ a, ¬ Returns x a) :
    Extends x y := fun n r hr => absurd ⟨n, r.2, hr⟩ (h r.1)

theorem Extends.bind {α β : Type} {x y : Build α} (h : Extends x y) (f : α → Build β) :
    Extends (x >>= f) (y >>= f) := by
  intro n r hr
  change Except.bind (x n) (fun p => f p.1 p.2) = .ok r at hr
  change Except.bind (y n) (fun p => f p.1 p.2) = .ok r
  cases hx : x n with
  | error e =>
    rw [hx] at hr
    cases hr
  | ok p =>
    rw [hx] at hr
    rw [h n p hx]
    exact hr

theorem recorded_grows (hgrows : Grows known known') (ptr : Value) :
    Extends (match known ptr with
      | some state => do
        assertThat (hasDefiningOp ptr = false) "Expect the ptr to be an iterarg"
        return state
      | none => fail "")
      (match known' ptr with
      | some state => do
        assertThat (hasDefiningOp ptr = false) "Expect the ptr to be an iterarg"
        return state
      | none => fail "") := by
  cases hptr : known ptr with
  | some state =>
    rw [hgrows _ _ hptr]
    exact .refl _
  | none => exact extends_of_not_returns fun _ => not_returns_fail

theorem getLoopInitArgPtrState_grows {fuel : ℕ} (hgrows : Grows known known') :
    Extends (getLoopInitArgPtrState known loops fuel loop index)
      (getLoopInitArgPtrState known' loops fuel loop index) := by
  induction fuel generalizing loop index with
  | zero => exact .refl _
  | succ fuel ih =>
    unfold getLoopInitArgPtrState
    cases harg : (loops.initArgs loop)[index]? with
    | none => exact .refl _
    | some ptr =>
      dsimp only
      cases ptr with
      | structuredState id original ty =>
        simp only [structuredOriginal, Option.bind_some]
        cases hknown : known original with
        | some state =>
          rw [hgrows _ _ hknown]
          exact .refl _
        | none =>
          apply extends_of_not_returns
          intro a ha
          dsimp only at ha
          split at ha
          · exact absurd (returns_assert_bind ha).1 (by simp [hasDefiningOp])
          · exact absurd ha not_returns_fail
      | forResult earlier number ty => exact ih.bind _
      | _ => exact recorded_grows hgrows _

theorem getLoopPtrState_grows (hgrows : Grows known known') (bind : ℕ → Build Value) :
    Extends (getLoopPtrState known loops loop index bind)
      (getLoopPtrState known' loops loop index bind) :=
  (getLoopInitArgPtrState_grows hgrows).bind _

theorem returns_attempt {α : Type} {x : Build α} {a : α} (h : Returns (attempt x) (some a)) :
    Returns x a := by
  obtain ⟨n, m, h⟩ := h
  unfold attempt at h
  cases hx : x n with
  | ok r =>
    rw [hx] at h
    cases h
    exact ⟨n, _, hx⟩
  | error e =>
    rw [hx] at h
    cases e <;> cases h

theorem returns_rewriteIterArg {arg : Value}
    (h : Returns (rewriteIterArg maybeStructuredArgs loops loop index arg tables) tables') :
    tables' = tables ∨ ∃ s, maybeStructuredArgs arg = true ∧
      Returns (getLoopIterArgPtrState tables.knownPtrs loops loop index) s ∧
      tables'.knownPtrs = Function.update tables.knownPtrs arg (some s) ∧
      (tables'.ptrMap = tables.ptrMap ∨
        tables'.ptrMap = Function.update tables.ptrMap arg (some (.tptr s))) := by
  unfold rewriteIterArg at h
  split at h
  · rw [returns_pure] at h
    exact .inl h
  · next hmaybe =>
    obtain ⟨found, hfound, h⟩ := returns_bind h
    cases found with
    | none =>
      rw [returns_pure] at h
      exact .inl h
    | some s =>
      dsimp only at h
      split at h
      · rw [returns_pure] at h
        exact .inl h
      · rw [returns_pure] at h
        subst h
        refine .inr ⟨s, by simpa using hmaybe, returns_attempt hfound, rfl, ?_⟩
        dsimp only
        split
        · exact .inr rfl
        · exact .inl rfl

/-- The entries of the second tables that are not in the first: states derived for
iter-args of the loop, and pointers made from these. -/
structure IterArgsRecorded (maybeStructuredArgs : Value → Bool) (loops : LoopNest) (loop : ℕ)
    (tables tables' : Tables) : Prop where
  grows : Grows tables.knownPtrs tables'.knownPtrs
  known : ∀ v s, tables'.knownPtrs v = some s → tables.knownPtrs v = some s ∨
    maybeStructuredArgs v = true ∧ ∃ index init, (loops.initArgs loop)[index]? = some init ∧
      v = .iterArg loop index init.ty ∧
      Returns (getLoopIterArgPtrState tables'.knownPtrs loops loop index) s
  mapped : ∀ v m, tables'.ptrMap v = some m → tables.ptrMap v = some m ∨
    ∃ s, tables'.knownPtrs v = some s ∧ m = .tptr s

theorem IterArgsRecorded.refl (tables : Tables) : IterArgsRecorded maybeStructuredArgs loops loop tables tables :=
  ⟨fun _ _ h => h, fun _ _ h => .inl h, fun _ _ h => .inl h⟩

theorem IterArgsRecorded.trans {tables'' : Tables}
    (h : IterArgsRecorded maybeStructuredArgs loops loop tables tables')
    (h' : IterArgsRecorded maybeStructuredArgs loops loop tables' tables'') :
    IterArgsRecorded maybeStructuredArgs loops loop tables tables'' := by
  refine ⟨h.grows.trans h'.grows, fun v s hs => ?_, fun v m hm => ?_⟩
  · rcases h'.known v s hs with hs' | hnew
    · rcases h.known v s hs' with hs | ⟨hmaybe, index, init, hinit, hv, hreturns⟩
      · exact .inl hs
      · exact .inr ⟨hmaybe, index, init, hinit, hv,
          (getLoopPtrState_grows h'.grows _).returns hreturns⟩
    · exact .inr hnew
  · rcases h'.mapped v m hm with hm' | hnew
    · rcases h.mapped v m hm' with hm | ⟨s, hs, hms⟩
      · exact .inl hm
      · exact .inr ⟨s, h'.grows v s hs, hms⟩
    · exact .inr hnew

theorem recorded_rewriteIterArg {init : Value}
    (hinit : (loops.initArgs loop)[index]? = some init)
    (hfresh : tables.knownPtrs (.iterArg loop index init.ty) = none)
    (h : Returns (rewriteIterArg maybeStructuredArgs loops loop index
      (.iterArg loop index init.ty) tables) tables') :
    IterArgsRecorded maybeStructuredArgs loops loop tables tables' ∧
      ∀ v, v ≠ .iterArg loop index init.ty → tables'.knownPtrs v = tables.knownPtrs v := by
  rcases returns_rewriteIterArg h with rfl | ⟨s, hmaybe, hs, hknown, hmap⟩
  · exact ⟨.refl _, fun _ _ => rfl⟩
  have hgrows : Grows tables.knownPtrs tables'.knownPtrs := by
    rw [hknown]
    exact update_mono hfresh
  refine ⟨⟨hgrows, fun v t ht => ?_, fun v m hm => ?_⟩, fun v hv => ?_⟩
  · by_cases hv : v = .iterArg loop index init.ty
    · have hst : s = t := by
        rw [hknown, hv, Function.update_self] at ht
        exact Option.some.inj ht
      rw [← hst]
      exact .inr ⟨by rw [hv, hmaybe], index, init, hinit, hv,
        (getLoopPtrState_grows hgrows _).returns hs⟩
    · rw [hknown, Function.update_of_ne hv] at ht
      exact .inl ht
  · rcases hmap with hmap | hmap
    · rw [hmap] at hm
      exact .inl hm
    · by_cases hv : v = .iterArg loop index init.ty
      · rw [hmap, hv, Function.update_self] at hm
        exact .inr ⟨s, by rw [hknown, hv, Function.update_self], (Option.some.inj hm).symm⟩
      · rw [hmap, Function.update_of_ne hv] at hm
        exact .inl hm
  · rw [hknown, Function.update_of_ne hv]

theorem recorded_rewriteIterArgs {inits : List Value}
    (hinits : ∀ k init, inits[k]? = some init →
      (loops.initArgs loop)[index + k]? = some init)
    (hfresh : ∀ k ty, index ≤ k → tables.knownPtrs (.iterArg loop k ty) = none)
    (h : Returns (rewriteIterArgs maybeStructuredArgs loops loop index inits tables) tables') :
    IterArgsRecorded maybeStructuredArgs loops loop tables tables' := by
  induction inits generalizing index tables with
  | nil =>
    rw [rewriteIterArgs, returns_pure] at h
    rw [h]
    exact .refl _
  | cons init inits ih =>
    obtain ⟨middle, hmiddle, h⟩ := returns_bind h
    obtain ⟨hfirst, hother⟩ :=
      recorded_rewriteIterArg (hinits 0 init rfl) (hfresh index init.ty le_rfl) hmiddle
    refine hfirst.trans (ih ?_ ?_ h)
    · intro k v hv
      rw [Nat.add_right_comm]
      exact hinits (k + 1) v hv
    · intro k ty hk
      have hne : Value.iterArg loop k ty ≠ .iterArg loop index init.ty := by
        intro heq
        cases heq
        omega
      rw [hother _ hne]
      exact hfresh k ty (by omega)

theorem recorded_rewriteForOp
    (hfresh : ∀ index ty, tables.knownPtrs (.iterArg loop index ty) = none)
    (h : Returns (rewriteForOp maybeStructuredArgs loops loop tables) tables') :
    IterArgsRecorded maybeStructuredArgs loops loop tables tables' := by
  have h : Returns (rewriteIterArgs maybeStructuredArgs loops loop 0 (loops.initArgs loop) tables)
    tables' := h
  refine recorded_rewriteIterArgs (fun k init hk => ?_) (fun k ty _ => hfresh k ty) h
  rwa [Nat.zero_add]

end Record

end TritonCpu.AnalysisStructured
