import Mathlib.Data.Set.Basic
import TritonCpu.PtrExact
import TritonCpu.PtrLoopSlots

/-!
# Loops that keep pointers and slots in step

In a run of a loop the pointer of an iter-arg is what the program yields, and
the slots are what the analysis put there. A state that was derived from the
init-arg is right in every iteration if each yielded value is recorded with a
state of the same base and moduli that describes it, or else is the base in
every element: without a state the slots are set to zero.
-/

set_option autoImplicit false

namespace TritonCpu.AnalysisStructured
open Builder TritonIR OpFoldResult List

section Scope

/-- What is defined before a loop: values by their identifier, the iter-args of
the loops around it, and the results of earlier loops. -/
structure Scope where
  values : Set ℕ
  enclosing : Set ℕ
  earlier : Set ℕ

def InScope (scope : Scope) : Value → Prop
  | .blockArg id _ | .unknown id _ | .pointerOp id _ | .structuredState id _ _ => id ∈ scope.values
  | .iterArg loop _ _ => loop ∈ scope.enclosing
  | .forResult loop _ _ => loop ∈ scope.earlier
  | .constant _ _ _ | .makeRange _ _ _ => True
  | .splat _ src _ | .expandDims _ src _ | .broadcast _ src _ | .reshape _ src _ => InScope scope src
  | .cast _ _ src _ => InScope scope src
  | .binary _ _ lhs rhs | .cmpi _ _ lhs rhs => InScope scope lhs ∧ InScope scope rhs
  | .select _ cond trueValue falseValue =>
    InScope scope cond ∧ InScope scope trueValue ∧ InScope scope falseValue
  | .addptr _ ptr offset => InScope scope ptr ∧ InScope scope offset

/-- What is in scope has not changed. -/
structure Agree (scope : Scope) (ρ ρ' : Env) : Prop where
  values : ∀ id ∈ scope.values, ρ'.value id = ρ.value id
  enclosing : ∀ loop ∈ scope.enclosing, ρ'.iterArg loop = ρ.iterArg loop
  earlier : ∀ loop ∈ scope.earlier, ρ'.forResult loop = ρ.forResult loop

variable {scope : Scope} {ρ ρ' : Env}

theorem Agree.eval (h : Agree scope ρ ρ') {v : Value} (hv : InScope scope v) (idx : List ℕ) :
    v.eval ρ' idx = v.eval ρ idx := by
  induction v generalizing idx with
  | blockArg id ty => exact congrFun (h.values id hv) idx
  | unknown id ty => exact congrFun (h.values id hv) idx
  | pointerOp id ty => exact congrFun (h.values id hv) idx
  | structuredState id original ty ih => exact congrFun (h.values id hv) idx
  | iterArg loop index ty => exact congrFun (congrFun (h.enclosing loop hv) index) idx
  | forResult loop index ty => exact congrFun (congrFun (h.earlier loop hv) index) idx
  | constant id ty value => rfl
  | makeRange id start count => rfl
  | splat id src shape ih => exact ih hv _
  | expandDims id src axis ih => exact ih hv _
  | broadcast id src shape ih => exact ih hv _
  | reshape id src shape ih => exact ih hv _
  | binary id op lhs rhs ihl ihr =>
    rw [Value.eval, Value.eval, ihl hv.1, ihr hv.2]
  | cast id op src elt ih => rw [Value.eval, Value.eval, ih hv]
  | cmpi id pred lhs rhs ihl ihr => rw [Value.eval, Value.eval, ihl hv.1, ihr hv.2]
  | select id cond trueValue falseValue ihc iht ihf =>
    rw [Value.eval, Value.eval, ihc hv.1, iht hv.2.1, ihf hv.2.2]
  | addptr id ptr offset ihp iho => rw [Value.eval, Value.eval, ihp hv.1, iho hv.2]

/-- The base and the moduli of a state are in scope. -/
structure BaseInScope (scope : Scope) (s : PtrState) : Prop where
  source : ∀ v, s.source = some v → InScope scope v
  shapes : ∀ d ∈ s.dims, ∀ v, d.shape = .value v → InScope scope v

theorem Agree.sourceValue (h : Agree scope ρ ρ') {s : PtrState} (hs : BaseInScope scope s) :
    s.sourceValue ρ' = s.sourceValue ρ := by
  unfold PtrState.sourceValue
  cases hsource : s.source with
  | none => rfl
  | some v => exact h.eval (hs.source v hsource) []

theorem Agree.moduli (h : Agree scope ρ ρ') {s : PtrState} (hs : BaseInScope scope s) :
    s.moduli ρ' = s.moduli ρ := by
  apply map_congr_left
  intro d hd
  have hshape : d.shape.eval ρ' = d.shape.eval ρ := by
    cases hvalue : d.shape with
    | attr k => rfl
    | value v => exact h.eval (hs.shapes d hd v hvalue) []
  unfold Dim.modulo
  rw [hshape]

end Scope

/-- A loop of a function: the placeholders of the function, what the loop yields,
and what is defined before it. -/
structure LoopText where
  loops : LoopNest
  placeholders : List GetStructuredStateOp
  loop : ℕ
  yields : List Value
  scope : Scope

namespace LoopText

variable (text : LoopText)

def inits : List Value := text.loops.initArgs text.loop

end LoopText

/-- The analysis of the function: the tables before `rewriteForOp`, after it has
set up the iter-args, and in the end, when the placeholders are replaced. -/
structure Analysis (text : LoopText) where
  maybeStructuredArgs : Value → Bool
  before : Tables
  inside : Tables
  final : Tables
  replacement : GetStructuredStateOp → Replacements
  /-- Only values of these types reach the set, from the results of placeholders. -/
  maybe : ∀ v, maybeStructuredArgs v = true → isStructuredType v.ty = true
  fresh : ∀ index ty, before.knownPtrs (.iterArg text.loop index ty) = none ∧
    before.ptrMap (.iterArg text.loop index ty) = none
  forOp : Returns (rewriteForOp maybeStructuredArgs text.loops text.loop before) inside
  grows : Grows inside.knownPtrs final.knownPtrs
  kept : ∀ index ty, final.knownPtrs (.iterArg text.loop index ty) =
      inside.knownPtrs (.iterArg text.loop index ty) ∧
    final.ptrMap (.iterArg text.loop index ty) = inside.ptrMap (.iterArg text.loop index ty)
  replaced : ∀ op ∈ text.placeholders,
    Returns (rewriteGetStructuredStateOp final op) (replacement op)

/-- The results of a placeholder: the value itself and what is put into the slots. -/
structure Placed (ρ : Env) (op : GetStructuredStateOp) (r : Replacements) : Prop where
  structured : ρ.value op.structured = op.input.eval ρ
  slots : op.offsetsAndStrides.map (fun id => ρ.value id []) = r.slots.map fun v => v.eval ρ []

/-- The results of a placeholder are the operands from a position on. -/
def OperandsAt (operands : List Value) (index : ℕ) (op : GetStructuredStateOp) : Prop :=
  op.results <+: operands.drop index

/-- A run: the environments before the loop, where an iteration starts, and
where it yields. After the last iteration the loop is left with what it yielded. -/
structure Run {text : LoopText} (a : Analysis text) where
  trips : ℕ
  before : Env
  start : ℕ → Env
  finish : ℕ → Env
  enter : ∀ j v, text.inits[j]? = some v → (start 0).iterArg text.loop j = v.eval before
  next : ∀ k < trips, ∀ j v, text.yields[j]? = some v →
    (start (k + 1)).iterArg text.loop j = v.eval (finish k)
  body : ∀ k < trips, (finish k).iterArg text.loop = (start k).iterArg text.loop
  starts : ∀ k ≤ trips, Agree text.scope before (start k)
  finishes : ∀ k < trips, Agree text.scope before (finish k)
  initsPlaced : ∀ op ∈ text.placeholders, ∀ index, OperandsAt text.inits index op →
    Placed before op (a.replacement op)
  yieldsPlaced : ∀ k < trips, ∀ op ∈ text.placeholders, ∀ index,
    OperandsAt text.yields index op → Placed (finish k) op (a.replacement op)

def Describes (ρ : Env) (v : Value) (s : PtrState) : Prop :=
  ∀ idx, InBounds v.shape idx → s.address ρ idx = v.eval ρ idx

namespace Mapped

def address (ρ : Env) : Mapped → List ℕ → ℤ
  | .value v, idx => v.eval ρ idx
  | .tptr s, idx => s.address ρ idx

end Mapped

section Condition

variable {text : LoopText} (a : Analysis text)

/-- The state found for an init-arg that has slots, if it is structured. -/
structure InitState (index : ℕ) (init : Value) (p : PtrState) : Prop where
  arg : text.inits[index]? = some init
  type : isStructuredType init.ty = true
  found : Returns
    (getLoopInitArgPtrState a.final.knownPtrs text.loops (text.loop + 1) text.loop index) p
  structured : p.isStructured = true

/-- The operands from a position on are a value with this state and its slots. -/
inductive Carries (operands : List Value) (index : ℕ) (q : PtrState) : Prop
  | analysed (op : GetStructuredStateOp) (hop : op ∈ text.placeholders)
      (hat : OperandsAt operands index op) (hknown : a.final.knownPtrs op.input = some q)
      (hstructured : q.isStructured = true)
  | forwarded (bind : ℕ → Build Value) (loop number : ℕ)
      (hbind : bind = text.loops.getRegionIterArg loop ∨ bind = text.loops.getResult loop)
      (hbound : BoundTo bind number q)
      (hat : ∀ k < q.slotCount, ∃ v, Returns (bind (number + 1 + k)) v ∧ v.ty = Ty.index ∧
        operands[index + 1 + k]? = some v)

/-- What is recorded for the iter-args of the loop describes them. -/
def ArgsDescribed (ρ : Env) : Prop :=
  ∀ index ty s, a.final.knownPtrs (.iterArg text.loop index ty) = some s →
    Describes ρ (.iterArg text.loop index ty) s

/-- How a value is yielded for an iter-arg whose init-arg has state `p`. -/
inductive KeepsStep (ρ : Env) (index : ℕ) (p : PtrState) : Prop
  | analysed (v : Value) (q : PtrState) (hv : text.yields[index]? = some v)
      (hcarries : Carries a text.yields index q) (hsame : SamePointer p q)
      (hdescribes : ArgsDescribed a ρ → Describes ρ v q)
  | unanalysed (op : GetStructuredStateOp) (hop : op ∈ text.placeholders)
      (hat : OperandsAt text.yields index op)
      (hunknown : Unanalysed a.final.knownPtrs op.input)
      (hcount : op.offsetsAndStrides.length = p.slotCount)
      (hbase : ∀ idx, InBounds op.input.shape idx → op.input.eval ρ idx = p.sourceValue ρ)

/-- The init-args carry their states, and so do the values yielded in each
iteration, or are the base without a state. -/
structure KeepsInStep (run : Run a) : Prop where
  init : ∀ index init p, InitState a index init p →
    Carries a text.inits index p ∧ Describes run.before init p
  yield : ∀ k < run.trips, ∀ index init p, InitState a index init p →
    KeepsStep a (run.finish k) index p

/-- What the verifier checks of the loop: an iter-arg and what is yielded for it
have one type, and the base and the moduli of an init-arg are defined before the
loop. -/
structure WellFormed : Prop where
  yields : text.yields.map Value.ty = text.inits.map Value.ty
  dominates : ∀ index init p, InitState a index init p → BaseInScope text.scope p

end Condition

section Slots

variable {text : LoopText} {a : Analysis text} {operands : List Value} {index : ℕ} {ρ ρ' : Env}
  {op : GetStructuredStateOp} {p q s : PtrState}

theorem returns_getRegionIterArg {loops : LoopNest} {loop n : ℕ} {v : Value}
    (h : Returns (loops.getRegionIterArg loop n) v) :
    ∃ init, (loops.initArgs loop)[n]? = some init ∧ v = .iterArg loop n init.ty := by
  unfold LoopNest.getRegionIterArg at h
  split at h
  · next init hinit =>
    rw [returns_pure] at h
    exact ⟨init, hinit, h⟩
  · exact absurd h (not_returns_stop _ _)

theorem returns_getResult {loops : LoopNest} {loop n : ℕ} {v : Value}
    (h : Returns (loops.getResult loop n) v) :
    ∃ init, (loops.initArgs loop)[n]? = some init ∧ v = .forResult loop n init.ty := by
  unfold LoopNest.getResult at h
  split at h
  · next init hinit =>
    rw [returns_pure] at h
    exact ⟨init, hinit, h⟩
  · exact absurd h (not_returns_stop _ _)

theorem OperandsAt.getElem? (h : OperandsAt operands index op) {k : ℕ} {v : Value}
    (hv : op.results[k]? = some v) : operands[index + k]? = some v := by
  obtain ⟨rest, hrest⟩ := h
  rw [← List.getElem?_drop, ← hrest]
  exact List.getElem?_append_left (List.getElem?_eq_some_iff.mp hv).1 ▸ hv

theorem OperandsAt.slot (h : OperandsAt operands index op) {k : ℕ}
    (hk : k < op.offsetsAndStrides.length) :
    operands[index + 1 + k]? =
      some (.structuredState op.offsetsAndStrides[k] op.input Ty.index) := by
  rw [Nat.add_assoc, Nat.add_comm 1 k]
  apply h.getElem?
  simp [GetStructuredStateOp.results, hk]

theorem window_placeholder {carried : ℕ → List ℕ → ℤ}
    (hnext : ∀ j v, operands[j]? = some v → carried j = v.eval ρ)
    (hat : OperandsAt operands index op) :
    slotWindow (fun n => carried n []) index op.offsetsAndStrides.length =
      op.offsetsAndStrides.map fun id => ρ.value id [] := by
  apply ext_getElem
  · simp [slotWindow]
  · intro k hk hk'
    rw [length_map] at hk'
    simp only [slotWindow, getElem_map, getElem_range]
    rw [hnext _ _ (hat.slot hk')]
    rfl

theorem forwarded_reads {loops : LoopNest} {bind : ℕ → Build Value} {loop : ℕ}
    (hbind : bind = loops.getRegionIterArg loop ∨ bind = loops.getResult loop) (ρ : Env) :
    (∀ n v w, Returns (bind n) v → Returns (bind n) w → v = w) ∧
      ∃ f : ℕ → ℤ, ∀ n v, Returns (bind n) v → v.eval ρ [] = f n := by
  rcases hbind with rfl | rfl
  · refine ⟨fun n v w hv hw => ?_, fun n => ρ.iterArg loop n [], fun n v hv => ?_⟩
    · obtain ⟨init, hinit, rfl⟩ := returns_getRegionIterArg hv
      obtain ⟨init', hinit', rfl⟩ := returns_getRegionIterArg hw
      rw [Option.some.inj (hinit.symm.trans hinit')]
    · obtain ⟨init, -, rfl⟩ := returns_getRegionIterArg hv
      rfl
  · refine ⟨fun n v w hv hw => ?_, fun n => ρ.forResult loop n [], fun n v hv => ?_⟩
    · obtain ⟨init, hinit, rfl⟩ := returns_getResult hv
      obtain ⟨init', hinit', rfl⟩ := returns_getResult hw
      rw [Option.some.inj (hinit.symm.trans hinit')]
    · obtain ⟨init, -, rfl⟩ := returns_getResult hv
      rfl

theorem Carries.window {carried : ℕ → List ℕ → ℤ} (h : Carries a operands index q)
    (hnext : ∀ j v, operands[j]? = some v → carried j = v.eval ρ)
    (hplaced : ∀ op ∈ text.placeholders, ∀ index, OperandsAt operands index op →
      Placed ρ op (a.replacement op)) :
    slotWindow (fun n => carried n []) index q.slotCount = q.slotValues ρ := by
  cases h with
  | analysed op hop hat hknown hstructured =>
    obtain ⟨-, hcount, hslots⟩ :=
      rewriteGetStructuredStateOp_analysed (ρ := ρ) hknown hstructured (a.replaced op hop)
    rw [← hcount, window_placeholder hnext hat, (hplaced op hop index hat).slots, hslots]
  | forwarded bind loop number hbind hbound hat =>
    obtain ⟨-, f, hf⟩ := forwarded_reads hbind ρ
    rw [hbound.slotValues hf]
    apply map_congr_left
    intro k hk
    obtain ⟨v, hv, -, hoperand⟩ := hat k (mem_range.mp hk)
    have hread := hnext _ _ hoperand
    rw [← hf _ v hv, ← hread]

theorem Carries.typed (h : Carries a operands index q) {k : ℕ} (hk : k < q.slotCount) :
    ∃ v, operands[index + 1 + k]? = some v ∧ v.ty = Ty.index := by
  cases h with
  | analysed op hop hat hknown hstructured =>
    obtain ⟨-, hcount, -⟩ := rewriteGetStructuredStateOp_analysed (ρ := emptyEnv) hknown hstructured
      (a.replaced op hop)
    exact ⟨_, hat.slot (hcount ▸ hk), rfl⟩
  | forwarded bind loop number hbind hbound hat =>
    obtain ⟨v, -, hty, hoperand⟩ := hat k hk
    exact ⟨v, hoperand, hty⟩

theorem Carries.structured (h : Carries a operands index q) : q.isStructured = true := by
  cases h with
  | analysed op hop hat hknown hstructured => exact hstructured
  | forwarded bind loop number hbind hbound hat =>
    apply hbound.structured
    intro k hk v hv
    obtain ⟨w, hw, hty, -⟩ := hat k hk
    rw [(forwarded_reads hbind emptyEnv).1 _ v w hv hw, hty]

def InStep (ρ : Env) (carried : ℕ → List ℕ → ℤ) (index : ℕ) (p : PtrState) (shape : List ℕ) :
    Prop :=
  ∀ idx, InBounds shape idx → slotAddress (p.sourceValue ρ) (p.moduli ρ)
    (slotWindow (fun n => carried n []) index p.slotCount) idx = carried index idx

variable {carried : ℕ → List ℕ → ℤ} {v : Value}

theorem Carries.inStep (h : Carries a operands index q)
    (hnext : ∀ j v, operands[j]? = some v → carried j = v.eval ρ)
    (hplaced : ∀ op ∈ text.placeholders, ∀ index, OperandsAt operands index op →
      Placed ρ op (a.replacement op))
    (hsame : SamePointer p q) (hv : operands[index]? = some v) (hdescribes : Describes ρ v q)
    (hsource : p.sourceValue ρ' = p.sourceValue ρ) (hmoduli : p.moduli ρ' = p.moduli ρ) :
    InStep ρ' carried index p v.shape := by
  intro idx hidx
  calc slotAddress (p.sourceValue ρ') (p.moduli ρ')
        (slotWindow (fun n => carried n []) index p.slotCount) idx
      = slotAddress (q.sourceValue ρ) (q.moduli ρ) (q.slotValues ρ) idx := by
        rw [hsource, hmoduli, ← hsame.slotCount, h.window hnext hplaced, hsame.sourceValue,
          hsame.moduli]
    _ = q.address ρ idx := (address_eq_slotAddress h.structured).symm
    _ = v.eval ρ idx := hdescribes idx hidx
    _ = carried index idx := by rw [hnext index v hv]

theorem inStep_unanalysed_iff (hop : op ∈ text.placeholders) (hat : OperandsAt operands index op)
    (hnext : ∀ j v, operands[j]? = some v → carried j = v.eval ρ)
    (hplaced : Placed ρ op (a.replacement op))
    (hunknown : Unanalysed a.final.knownPtrs op.input)
    (hcount : op.offsetsAndStrides.length = p.slotCount)
    (hsource : p.sourceValue ρ' = p.sourceValue ρ) :
    InStep ρ' carried index p op.input.shape ↔
      ∀ idx, InBounds op.input.shape idx → op.input.eval ρ idx = p.sourceValue ρ := by
  have hzeros : slotWindow (fun n => carried n []) index p.slotCount =
      List.replicate p.slotCount 0 := by
    rw [← hcount, window_placeholder hnext hat, hplaced.slots]
    exact (rewriteGetStructuredStateOp_unanalysed hunknown (a.replaced op hop)).2
  have hpointer : ∀ idx, carried index idx = op.input.eval ρ idx := by
    intro idx
    have hfirst : operands[index]? =
        some (.structuredState op.structured op.input op.input.ty) := hat.getElem? (k := 0) rfl
    rw [hnext _ _ hfirst]
    exact congrFun hplaced.structured idx
  apply forall₂_congr
  intro idx _
  rw [hzeros, slotAddress_zeros, hsource, hpointer]
  exact eq_comm

end Slots

section Runs

variable {text : LoopText} {a : Analysis text} {run : Run a} {index : ℕ} {p s : PtrState} {ρ : Env}

/-- A moment in iteration `k`: the iter-args are those of the iteration. -/
structure Run.During (run : Run a) (k : ℕ) (ρ : Env) : Prop where
  outside : Agree text.scope run.before ρ
  iterArgs : ρ.iterArg text.loop = (run.start k).iterArg text.loop

/-- A moment after the loop: the results are what the loop was left with. -/
structure Run.Afterwards (run : Run a) (ρ : Env) : Prop where
  outside : Agree text.scope run.before ρ
  results : ρ.forResult text.loop = (run.start run.trips).iterArg text.loop

theorem Run.during_start (run : Run a) {k : ℕ} (hk : k ≤ run.trips) : run.During k (run.start k) :=
  ⟨run.starts k hk, rfl⟩

theorem recorded_iterArg {ty : Ty} (h : a.final.knownPtrs (.iterArg text.loop index ty) = some s) :
    ∃ p init, InitState a index init p ∧ ty = init.ty ∧ SamePointer p s ∧
      BoundTo (text.loops.getRegionIterArg text.loop) index s := by
  have hrecorded := recorded_rewriteForOp (fun index ty => (a.fresh index ty).1) a.forOp
  rw [(a.kept index ty).1] at h
  rcases hrecorded.known _ s h with
    hbefore | ⟨hmaybe, number, init, hinit, heq, hs⟩
  · rw [(a.fresh index ty).1] at hbefore
    cases hbefore
  · cases heq
    obtain ⟨p, hp, hs⟩ := returns_bind ((getLoopPtrState_grows a.grows _).returns hs)
    split at hs
    · exact absurd hs not_returns_fail
    · next hstructured =>
      obtain ⟨hsame, hbound⟩ := returns_reconcileLoopPtrState hs
      exact ⟨p, init, ⟨hinit, a.maybe (.iterArg text.loop index init.ty) hmaybe, hp,
        by simpa using hstructured⟩, rfl, hsame, hbound⟩

theorem mapped_iterArg {ty : Ty} {m : Mapped}
    (h : a.final.ptrMap (.iterArg text.loop index ty) = some m) :
    ∃ s, a.final.knownPtrs (.iterArg text.loop index ty) = some s ∧ m = .tptr s := by
  have hrecorded := recorded_rewriteForOp (fun index ty => (a.fresh index ty).1) a.forOp
  rw [(a.kept index ty).2] at h
  rcases hrecorded.mapped _ m h with hbefore | ⟨s, hs, hm⟩
  · rw [(a.fresh index ty).2] at hbefore
    cases hbefore
  · exact ⟨s, (a.kept index ty).1.trans hs, hm⟩

theorem InStep.describes {carried : ℕ → List ℕ → ℤ} {bind : ℕ → Build Value} {v : Value}
    (h : InStep ρ carried index p v.shape) (hsame : SamePointer p s) (hbound : BoundTo bind index s)
    (hread : ∀ n w, Returns (bind n) w → w.eval ρ [] = carried n [])
    (htyped : ∀ k < p.slotCount, ∀ w, Returns (bind (index + 1 + k)) w → w.ty = Ty.index)
    (hv : v.eval ρ = carried index) : Describes ρ v s := by
  intro idx hidx
  have hstructured : s.isStructured = true :=
    hbound.structured fun k hk w hw => htyped k (hsame.slotCount ▸ hk) w hw
  calc s.address ρ idx
      = slotAddress (s.sourceValue ρ) (s.moduli ρ) (s.slotValues ρ) idx :=
        address_eq_slotAddress hstructured
    _ = slotAddress (p.sourceValue ρ) (p.moduli ρ)
          (slotWindow (fun n => carried n []) index p.slotCount) idx := by
        rw [hsame.sourceValue, hsame.moduli, hbound.slotValues hread, hsame.slotCount]
    _ = carried index idx := h idx hidx
    _ = v.eval ρ idx := by rw [hv]

theorem InStep.frame {carried : ℕ → List ℕ → ℤ} {shape : List ℕ} {ρ₀ ρ₁ ρ₂ : Env}
    (h : InStep ρ₁ carried index p shape) (hbase : BaseInScope text.scope p)
    (h₁ : Agree text.scope ρ₀ ρ₁) (h₂ : Agree text.scope ρ₀ ρ₂) :
    InStep ρ₂ carried index p shape := by
  unfold InStep
  rw [h₂.sourceValue hbase, h₂.moduli hbase, ← h₁.sourceValue hbase, ← h₁.moduli hbase]
  exact h

def AllInStep (a : Analysis text) (ρ : Env) : Prop :=
  ∀ index init p, InitState a index init p → InStep ρ (ρ.iterArg text.loop) index p init.shape

theorem typed_iterArg (hkeeps : KeepsInStep a run) {init : Value} (hp : InitState a index init p)
    {k : ℕ} (hk : k < p.slotCount) :
    ∃ w, (text.loops.initArgs text.loop)[index + 1 + k]? = some w ∧ w.ty = Ty.index :=
  (hkeeps.init index init p hp).1.typed hk

theorem AllInStep.argsDescribed (h : AllInStep a ρ) (hkeeps : KeepsInStep a run) :
    ArgsDescribed a ρ := by
  intro index ty s hs
  obtain ⟨p, init, hp, rfl, hsame, hbound⟩ := recorded_iterArg hs
  refine InStep.describes (v := .iterArg text.loop index init.ty) (h index init p hp) hsame hbound
    (fun n w hw => ?_) (fun k hk w hw => ?_) rfl
  · obtain ⟨init', -, rfl⟩ := returns_getRegionIterArg hw
    rfl
  · obtain ⟨init', hinit', rfl⟩ := returns_getRegionIterArg hw
    obtain ⟨w, hw, hty⟩ := typed_iterArg hkeeps hp hk
    cases hinit'.symm.trans hw
    exact hty

theorem AllInStep.frame {ρ₁ ρ₂ : Env} (h : AllInStep a ρ₁) (hwf : WellFormed a)
    (h₁ : Agree text.scope run.before ρ₁) (h₂ : Agree text.scope run.before ρ₂)
    (hargs : ρ₂.iterArg text.loop = ρ₁.iterArg text.loop) : AllInStep a ρ₂ := by
  intro index init p hp
  rw [hargs]
  exact (h index init p hp).frame (hwf.dominates index init p hp) h₁ h₂

theorem enter_inStep (hwf : WellFormed a) (hkeeps : KeepsInStep a run) :
    AllInStep a (run.start 0) := by
  intro index init p hp
  obtain ⟨hcarries, hdescribes⟩ := hkeeps.init index init p hp
  have hagree := run.starts 0 (Nat.zero_le _)
  exact hcarries.inStep run.enter run.initsPlaced ⟨rfl, rfl, rfl⟩ hp.arg hdescribes
    (hagree.sourceValue (hwf.dominates index init p hp)) (hagree.moduli (hwf.dominates index init p hp))

theorem next_inStep (hwf : WellFormed a) (hkeeps : KeepsInStep a run) {k : ℕ} (hk : k < run.trips)
    (h : AllInStep a (run.start k)) : AllInStep a (run.start (k + 1)) := by
  have hfinish : AllInStep a (run.finish k) :=
    h.frame hwf (run.starts k hk.le) (run.finishes k hk) (run.body k hk)
  have hagree := run.starts (k + 1) hk
  have hagree' := run.finishes k hk
  intro index init p hp
  have hbase := hwf.dominates index init p hp
  have hsource : p.sourceValue (run.start (k + 1)) = p.sourceValue (run.finish k) :=
    (hagree.sourceValue hbase).trans (hagree'.sourceValue hbase).symm
  have hmoduli : p.moduli (run.start (k + 1)) = p.moduli (run.finish k) :=
    (hagree.moduli hbase).trans (hagree'.moduli hbase).symm
  have htype : ∀ v, text.yields[index]? = some v → v.shape = init.shape := by
    intro v hv
    have htypes := congrArg (fun types => types[index]?) hwf.yields
    simp only [List.getElem?_map, hv, hp.arg, Option.map_some, Option.some.injEq] at htypes
    rw [Value.shape, Value.shape, htypes]
  cases hkeeps.yield k hk index init p hp with
  | analysed v q hv hcarries hsame hdescribes =>
    rw [← htype v hv]
    exact hcarries.inStep (run.next k hk) (run.yieldsPlaced k hk) hsame hv
      (hdescribes (hfinish.argsDescribed hkeeps)) hsource hmoduli
  | unanalysed op hop hat hunknown hcount hbase =>
    have hfirst : text.yields[index]? =
        some (.structuredState op.structured op.input op.input.ty) := hat.getElem? (k := 0) rfl
    rw [← htype _ hfirst]
    exact (inStep_unanalysed_iff hop hat (run.next k hk) (run.yieldsPlaced k hk op hop index hat)
      hunknown hcount hsource).mpr hbase

theorem run_inStep (hwf : WellFormed a) (hkeeps : KeepsInStep a run) {k : ℕ} (hk : k ≤ run.trips) :
    AllInStep a (run.start k) := by
  induction k with
  | zero => exact enter_inStep hwf hkeeps
  | succ k ih => exact next_inStep hwf hkeeps hk (ih (Nat.le_of_succ_le hk))

/-- In a loop that keeps pointers and slots in step, what is recorded for an
iter-arg describes it at every moment of every iteration, a pointer made from it
has its addresses, and what is found for a result describes the result after the loop. -/
theorem loop_describes (hwf : WellFormed a) (hkeeps : KeepsInStep a run) :
    (∀ k ≤ run.trips, ∀ ρ, run.During k ρ → ∀ index ty,
      (∀ s, a.final.knownPtrs (.iterArg text.loop index ty) = some s →
        Describes ρ (.iterArg text.loop index ty) s) ∧
      ∀ m, a.final.ptrMap (.iterArg text.loop index ty) = some m →
        ∀ idx, InBounds (Value.iterArg text.loop index ty).shape idx →
          m.address ρ idx = (Value.iterArg text.loop index ty).eval ρ idx) ∧
    ∀ ρ, run.Afterwards ρ → ∀ index init s, text.inits[index]? = some init →
      isStructuredType init.ty = true →
        Returns (getLoopResultPtrState a.final.knownPtrs text.loops text.loop index) s →
          Describes ρ (.forResult text.loop index init.ty) s := by
  constructor
  · intro k hk ρ hduring index ty
    have hinStep : AllInStep a ρ :=
      (run_inStep hwf hkeeps hk).frame hwf (run.starts k hk) hduring.outside hduring.iterArgs
    have hdescribed := hinStep.argsDescribed hkeeps
    refine ⟨fun s hs => hdescribed index ty s hs, fun m hm => ?_⟩
    obtain ⟨s, hs, rfl⟩ := mapped_iterArg hm
    exact hdescribed index ty s hs
  · intro ρ hafter index init s hinit htype hs
    obtain ⟨p, hp, hs⟩ := returns_bind hs
    split at hs
    · exact absurd hs not_returns_fail
    next hstructured =>
    have hp : InitState a index init p := ⟨hinit, htype, hp, by simpa using hstructured⟩
    obtain ⟨hsame, hbound⟩ := returns_reconcileLoopPtrState hs
    have hlast := run_inStep hwf hkeeps le_rfl index init p hp
    rw [← hafter.results] at hlast
    have hinStep := hlast.frame (hwf.dominates index init p hp) (run.starts run.trips le_rfl) hafter.outside
    refine InStep.describes (v := .forResult text.loop index init.ty) hinStep hsame hbound
      (fun n w hw => ?_) (fun k hk w hw => ?_) rfl
    · obtain ⟨init', -, rfl⟩ := returns_getResult hw
      rfl
    · obtain ⟨init', hinit', rfl⟩ := returns_getResult hw
      obtain ⟨w, hw, hty⟩ := typed_iterArg hkeeps hp hk
      cases hinit'.symm.trans hw
      exact hty

end Runs

section Advance

variable {ctx : Context} {ρ : Env} {id : ℕ} {ptr offset : Value} {L s : PtrState}

def ownReading (s : PtrState) (ρ : Env) : Affine :=
  ⟨s.base ρ, s.strides ρ, [], 0, s.scalar.map fun c => c.eval ρ []⟩

/-- A state without modulo, with indices for offsets, strides and scalar. -/
structure PlainState (s : PtrState) : Prop where
  dims : ∀ d ∈ s.dims, Plain d
  block : s.order = []
  scalar : ∀ c, s.scalar = some c → c.ty = Ty.index

theorem PlainState.follows (h : PlainState s) : Follows (ownReading s) s :=
  ⟨h.dims, h.block, h.scalar, fun _ => rfl, fun _ => rfl, fun ρ => (sub_zero (s.base ρ)).symm⟩

/-- A pointer that is advanced by an offset with an exact state is described by
the state of the sum. -/
theorem advanced_describes (hmode : ctx.isAnalysisingUnstructured = false)
    (hptr : ctx.knownPtrs ptr = some L) (hnew : ctx.knownPtrs (.addptr id ptr offset) = none)
    (hplain : PlainState L) (hrank : L.dims.length = ptr.shape.length)
    (hdescribes : Describes ρ ptr L)
    (hexpr : Expr offset) (hver : offset.Verified) (hshape : ptr.shape = offset.shape)
    (hknown : Recorded ctx ctx.knownPtrs) (hexact : (affine ρ offset).Exact offset.shape)
    (hty : ptr.ty.elt = .ptr) (h : Returns (visitOperand ctx (.addptr id ptr offset)) s) :
    Describes ρ (.addptr id ptr offset) s := by
  have hvisit : Returns (visitOperandAddptr ctx (visitOperand ctx ptr) (visitOperand ctx offset)) s := by
    rcases returns_dispatch h with hk | ⟨-, helt, -⟩ | ⟨-, hp⟩ | ⟨-, ht⟩
    · rw [hnew] at hk
      cases hk
    · exact absurd hty helt
    · exact hp
    · exact ht
  obtain ⟨L', R, hL, hR, hsum⟩ := returns_visitOperandAddptr hvisit
  have hL' : L' = L := by
    obtain ⟨pointer, tensor, heq⟩ := visitOperand_dispatch ctx ptr
    rw [heq, dispatch, hmode, if_neg Bool.false_ne_true, hptr, returns_pure] at hL
    exact hL
  subst hL'
  have htracks := visitOperand_tracks hexpr hver (recorded_tracks hknown) hR
  obtain ⟨hfollows, -⟩ := addState_follows hplain.follows htracks.follows hsum
  obtain ⟨hsizes, hoffset⟩ := (htracks.denotes_iff ρ).mpr hexact
  have hrankR : R.dims.length = offset.shape.length := by simpa using congrArg List.length hsizes
  intro idx hidx
  have hidx : InBounds ptr.shape idx := hidx
  have hlength := inBounds_length hidx
  have hshapes : ptr.shape.length = offset.shape.length := by rw [hshape]
  have hstrides : s.strides ρ = List.zipWith (· + ·) (L'.strides ρ) (R.strides ρ) := by
    rw [hfollows.strides, Affine.add, ← htracks.follows.strides]
    rfl
  have hdims : s.dims.length = idx.length := by
    have := congrArg List.length hstrides
    simp only [PtrState.strides, length_map, length_zipWith] at this
    omega
  have hbase : s.base ρ = L'.base ρ + R.base ρ := by
    rw [hfollows.base, htracks.follows.base]
    simp only [Affine.add, ownReading]
    ring
  calc s.address ρ idx
      = L'.base ρ + R.base ρ + dot (List.zipWith (· + ·) (L'.strides ρ) (R.strides ρ)) idx := by
        rw [address_plain ρ s idx hfollows.plain hdims, hbase, hstrides]
    _ = L'.address ρ idx + R.address ρ idx := by
        rw [dot_zipWith _ _ _ (by simp [PtrState.strides, hrank, hrankR, hshape]),
          address_plain ρ L' idx hplain.dims (hrank.trans hlength),
          address_plain ρ R idx htracks.follows.plain
            (hrankR.trans (hshape ▸ hlength))]
        ring
    _ = ptr.eval ρ idx + offset.eval ρ idx := by
        rw [hdescribes idx hidx, hoffset idx (hshape ▸ hidx)]
    _ = (Value.addptr id ptr offset).eval ρ idx := rfl

end Advance

/-! A loop over the pointers `base + arange(0, 4)`. -/

section Example

def firstPointers : Value := .addptr 5 (basePointers 4) (.makeRange 6 0 4)

def firstState : PtrState :=
  ⟨[⟨.attr 0, .attr 4, .attr 1, .attr 0⟩], [], some (.blockArg 0 ⟨none, .ptr⟩), none⟩

def placeholderOf (input : Value) (id : ℕ) : GetStructuredStateOp := ⟨input, id, [id + 1, id + 2]⟩

def oneLoop : LoopNest where
  initArgs
    | 0 => (placeholderOf firstPointers 100).results
    | _ => []
  earlier := by
    intro loop from' index ty h
    match loop with
    | 0 => simp [placeholderOf, GetStructuredStateOp.results] at h
    | n + 1 => simp at h

/-- The loop that yields `next`. -/
def pointerLoop (next : Value) : LoopText where
  loops := oneLoop
  placeholders := [placeholderOf firstPointers 100, placeholderOf next 200]
  loop := 0
  yields := (placeholderOf next 200).results
  scope := ⟨{0}, ∅, ∅⟩

def carriedState : PtrState :=
  ⟨[⟨.value (.iterArg 0 1 Ty.index), .attr 4, .value (.iterArg 0 2 Ty.index), .attr 0⟩], [],
    some (.blockArg 0 ⟨none, .ptr⟩), none⟩

def carriedArgs (v : Value) : Bool := v = .iterArg 0 0 pointers4

def beforeLoop : Tables where
  knownPtrs := Function.update (fun _ => none) firstPointers (some firstState)
  ptrMap := Function.update (fun _ => none) firstPointers (some (.tptr firstState))

def insideLoop : Tables where
  knownPtrs := Function.update beforeLoop.knownPtrs (.iterArg 0 0 pointers4) (some carriedState)
  ptrMap := Function.update beforeLoop.ptrMap (.iterArg 0 0 pointers4) (some (.tptr carriedState))

theorem rewriteForOp_pointerLoop :
    Returns (rewriteForOp carriedArgs oneLoop 0 beforeLoop) insideLoop := ⟨0, 0, rfl⟩

theorem carriedArgs_type (v : Value) (h : carriedArgs v = true) : isStructuredType v.ty = true := by
  rw [carriedArgs, decide_eq_true_eq] at h
  rw [h]
  rfl

theorem fresh_beforeLoop (index : ℕ) (ty : Ty) :
    beforeLoop.knownPtrs (.iterArg 0 index ty) = none ∧
      beforeLoop.ptrMap (.iterArg 0 index ty) = none := by
  have hne : Value.iterArg 0 index ty ≠ firstPointers := by simp [firstPointers]
  constructor
  · exact Function.update_of_ne hne (some firstState) fun _ => none
  · exact Function.update_of_ne hne (some (.tptr firstState)) fun _ => none

def firstReplacements : Replacements :=
  ⟨true, .tptr firstState, [.constant 300 Ty.index 0, .constant 301 Ty.index 1]⟩

theorem initState_pointerLoop {next : Value} {a : Analysis (pointerLoop next)} {index : ℕ}
    {init : Value} {p : PtrState} (hknown : a.final.knownPtrs firstPointers = some firstState)
    (h : InitState a index init p) :
    index = 0 ∧ init = .structuredState 100 firstPointers pointers4 ∧ p = firstState := by
  have harg := h.arg
  have htype := h.type
  rcases index with _ | _ | _ | n
  · have hinit : Value.structuredState 100 firstPointers pointers4 = init := Option.some.inj harg
    have hfound := h.found
    unfold getLoopInitArgPtrState at hfound
    have hloop : ((pointerLoop next).loops.initArgs (pointerLoop next).loop)[0]? = some init := harg
    rw [hloop, ← hinit] at hfound
    simp only [structuredOriginal, Option.bind_some, hknown] at hfound
    exact ⟨rfl, hinit.symm, (returns_pure _ _).mp hfound⟩
  · cases Option.some.inj harg
    cases htype
  · cases Option.some.inj harg
    cases htype
  · cases harg

theorem base_firstState : BaseInScope ⟨{0}, ∅, ∅⟩ firstState := by
  constructor
  · intro v hv
    cases hv
    exact rfl
  · intro d hd v hv
    obtain rfl := mem_singleton.mp hd
    cases hv

theorem firstState_describes (ρ : Env) (hbase : ρ.value 0 [] = 1000)
    (hpointers : ∀ idx, ρ.value 100 idx = 1000 + (idx.headD 0 : ℕ)) :
    Describes ρ (.structuredState 100 firstPointers pointers4) firstState := by
  intro idx hidx
  cases hidx with
  | cons hi hrest =>
    cases hrest
    rw [address_eq_slotAddress rfl]
    simp [slotAddress, boxOffset, wrap, PtrState.moduli, PtrState.slotValues, PtrState.sourceValue,
      firstState, Dim.modulo, Dim.hasModulo, getIntAttr, OFR.eval, Value.eval, hbase, hpointers]

theorem carries_firstState {next : Value} (a : Analysis (pointerLoop next))
    (hknown : a.final.knownPtrs firstPointers = some firstState) :
    Carries a (pointerLoop next).inits 0 firstState :=
  .analysed (placeholderOf firstPointers 100) mem_cons_self ⟨[], append_nil _⟩ hknown rfl

def advancedPointers : Value :=
  .addptr 9 (.iterArg 0 0 pointers4) (.splat 8 (.constant 7 ⟨none, .int 32⟩ 4) [4])

def advancedOffset : Value :=
  .binary 303 .addi (.iterArg 0 1 Ty.index)
    (.cast 302 .indexCast (.constant 7 ⟨none, .int 32⟩ 4) .index)

def advancedState : PtrState :=
  ⟨[⟨.value advancedOffset, .attr 4, .value (.iterArg 0 2 Ty.index), .attr 0⟩], [],
    some (.blockArg 0 ⟨none, .ptr⟩), none⟩

def afterAdvance : Tables where
  knownPtrs := Function.update insideLoop.knownPtrs advancedPointers (some advancedState)
  ptrMap := Function.update insideLoop.ptrMap advancedPointers (some (.tptr advancedState))

def advancedAnalysis : Analysis (pointerLoop advancedPointers) where
  maybeStructuredArgs := carriedArgs
  before := beforeLoop
  inside := insideLoop
  final := afterAdvance
  replacement op :=
    if op.structured = 100 then firstReplacements
    else ⟨true, .tptr advancedState, [advancedOffset, .iterArg 0 2 Ty.index]⟩
  maybe := carriedArgs_type
  fresh := fresh_beforeLoop
  forOp := rewriteForOp_pointerLoop
  grows := update_mono rfl
  kept := by
    intro index ty
    have hne : Value.iterArg 0 index ty ≠ advancedPointers := by simp [advancedPointers]
    constructor
    · exact Function.update_of_ne hne (some advancedState) insideLoop.knownPtrs
    · exact Function.update_of_ne hne (some (.tptr advancedState)) insideLoop.ptrMap
  replaced := by
    intro op hop
    rcases mem_pair.mp hop with rfl | rfl
    · exact ⟨300, 302, rfl⟩
    · exact ⟨304, 304, rfl⟩

/-- In iteration `k` the pointers begin at the base `1000` and `4 k` elements. -/
def advancedEnv (k : ℕ) : Env where
  value
    | 0, _ => 1000
    | 100, idx => 1000 + idx.headD 0
    | 102, _ => 1
    | 200, idx => 1000 + 4 * k + idx.headD 0 + 4
    | 201, _ => 4 * k + 4
    | 202, _ => 1
    | _, _ => 0
  iterArg
    | _, 0, idx => 1000 + 4 * k + idx.headD 0
    | _, 1, _ => 4 * k
    | _, 2, _ => 1
    | _, _, _ => 0
  forResult := fun _ _ _ => 0

theorem placed_first (ρ : Env) (hbase : ρ.value 0 [] = 1000)
    (hpointers : ∀ idx, ρ.value 100 idx = 1000 + (idx.headD 0 : ℕ)) (hoffset : ρ.value 101 [] = 0)
    (hstride : ρ.value 102 [] = 1) : Placed ρ (placeholderOf firstPointers 100) firstReplacements := by
  constructor
  · funext idx
    simp [placeholderOf, firstPointers, basePointers, Value.eval, hpointers, hbase]
  · simp [placeholderOf, firstReplacements, Value.eval, hoffset, hstride]

theorem placed_advanced (k : ℕ) : ∀ op ∈ (pointerLoop advancedPointers).placeholders,
    Placed (advancedEnv k) op (advancedAnalysis.replacement op) := by
  intro op hop
  rcases mem_pair.mp hop with rfl | rfl
  · exact placed_first _ rfl (fun _ => rfl) rfl rfl
  · refine ⟨?_, rfl⟩
    funext idx
    rfl

def advancedRun : Run advancedAnalysis where
  trips := 3
  before := advancedEnv 0
  start := advancedEnv
  finish := advancedEnv
  enter := by
    intro j v hv
    match j with
    | 0 =>
      cases Option.some.inj hv
      funext idx
      show (1000 + 4 * ((0 : ℕ) : ℤ) + (idx.headD 0 : ℕ) : ℤ) = 1000 + (idx.headD 0 : ℕ)
      simp
    | 1 =>
      cases Option.some.inj hv
      rfl
    | 2 =>
      cases Option.some.inj hv
      rfl
    | n + 3 => cases hv
  next := by
    intro k _ j v hv
    match j with
    | 0 =>
      cases Option.some.inj hv
      funext idx
      show (1000 + 4 * ((k + 1 : ℕ) : ℤ) + (idx.headD 0 : ℕ) : ℤ) =
        1000 + 4 * (k : ℤ) + (idx.headD 0 : ℕ) + 4
      push_cast
      ring
    | 1 =>
      cases Option.some.inj hv
      funext idx
      show (4 * ((k + 1 : ℕ) : ℤ)) = 4 * (k : ℤ) + 4
      push_cast
      ring
    | 2 =>
      cases Option.some.inj hv
      rfl
    | n + 3 => cases hv
  body := fun _ _ => rfl
  starts := fun k _ => ⟨by rintro id rfl; rfl, by simp [pointerLoop], by simp [pointerLoop]⟩
  finishes := fun k _ => ⟨by rintro id rfl; rfl, by simp [pointerLoop], by simp [pointerLoop]⟩
  initsPlaced := fun op hop _ _ => placed_advanced 0 op hop
  yieldsPlaced := fun k _ op hop _ _ => placed_advanced k op hop

theorem wellFormed_advanced : WellFormed advancedAnalysis := by
  constructor
  · rfl
  · intro index init p hp
    obtain ⟨-, -, rfl⟩ := initState_pointerLoop rfl hp
    exact base_firstState

theorem not_expr_iterArg : ¬ Expr (.iterArg 0 0 pointers4) := by
  intro h
  cases h with
  | scalar _ hshape => cases hshape

def loopContext : Context := { plainContext with loops := oneLoop, knownPtrs := insideLoop.knownPtrs }

theorem recorded_loopContext : Recorded loopContext loopContext.knownPtrs := by
  apply Recorded.other
  · apply Recorded.addptr _ .nil
    exact ⟨100, 100, rfl⟩
  · exact not_expr_iterArg

theorem advancedState_describes {ρ : Env} (h : ArgsDescribed advancedAnalysis ρ) :
    Describes ρ advancedPointers advancedState := by
  have hdescribes := h 0 pointers4 carriedState rfl
  have hvisit : Returns (visitOperand loopContext advancedPointers) advancedState :=
    ⟨302, 304, rfl⟩
  refine advanced_describes (h := hvisit) rfl rfl rfl ?_ rfl hdescribes
    (.splat _ _ _ (.scalar _ rfl (by decide))) ⟨trivial, rfl⟩ rfl recorded_loopContext
    (.inr ⟨rfl, fun p hp _ => ?_⟩) rfl
  · constructor
    · intro d hd
      obtain rfl := mem_singleton.mp hd
      exact ⟨rfl, rfl, rfl⟩
    · rfl
    · intro c hc
      cases hc
  · have hp : p ∈ [(4, (0 : ℤ))] := hp
    rw [mem_singleton.mp hp]

theorem keepsInStep_advanced : KeepsInStep advancedAnalysis advancedRun := by
  constructor
  · intro index init p hp
    obtain ⟨rfl, rfl, rfl⟩ := initState_pointerLoop rfl hp
    exact ⟨carries_firstState _ rfl, firstState_describes _ rfl fun _ => rfl⟩
  · intro k _ index init p hp
    obtain ⟨rfl, rfl, rfl⟩ := initState_pointerLoop rfl hp
    refine .analysed _ advancedState rfl (.analysed (placeholderOf advancedPointers 200)
      (mem_cons_of_mem _ mem_cons_self) ⟨[], append_nil _⟩ rfl rfl) ⟨rfl, rfl, rfl⟩
      fun hargs idx hidx => ?_
    rw [advancedState_describes hargs idx hidx]
    rfl

/-- After three iterations the state of the iter-arg describes the pointers. -/
theorem loop_describes_advanced :
    Describes (advancedEnv 3) (.iterArg 0 0 pointers4) carriedState :=
  ((loop_describes wellFormed_advanced keepsInStep_advanced).1 3 le_rfl (advancedEnv 3)
    (advancedRun.during_start le_rfl) 0 pointers4).1 carriedState rfl

def undecodedPointers : Value := .unknown 9 pointers4

def undecodedAnalysis : Analysis (pointerLoop undecodedPointers) where
  maybeStructuredArgs := carriedArgs
  before := beforeLoop
  inside := insideLoop
  final := insideLoop
  replacement op :=
    if op.structured = 100 then firstReplacements
    else ⟨false, .value undecodedPointers, [.constant 302 Ty.index 0, .constant 303 Ty.index 0]⟩
  maybe := carriedArgs_type
  fresh := fresh_beforeLoop
  forOp := rewriteForOp_pointerLoop
  grows := fun _ _ h => h
  kept := fun _ _ => ⟨rfl, rfl⟩
  replaced := by
    intro op hop
    rcases mem_pair.mp hop with rfl | rfl
    · exact ⟨300, 302, rfl⟩
    · exact ⟨302, 304, rfl⟩

/-- The loop yields the pointers at `2000`. -/
def undecodedEnv (k : ℕ) : Env where
  value
    | 0, _ => 1000
    | 9, idx => 2000 + idx.headD 0
    | 100, idx => 1000 + idx.headD 0
    | 102, _ => 1
    | 200, idx => 2000 + idx.headD 0
    | _, _ => 0
  iterArg
    | _, 0, idx => (if k = 0 then 1000 else 2000) + idx.headD 0
    | _, 2, _ => if k = 0 then 1 else 0
    | _, _, _ => 0
  forResult := fun _ _ _ => 0

theorem placed_undecoded (k : ℕ) : ∀ op ∈ (pointerLoop undecodedPointers).placeholders,
    Placed (undecodedEnv k) op (undecodedAnalysis.replacement op) := by
  intro op hop
  rcases mem_pair.mp hop with rfl | rfl
  · exact placed_first _ rfl (fun _ => rfl) rfl rfl
  · exact ⟨rfl, rfl⟩

def undecodedRun : Run undecodedAnalysis where
  trips := 1
  before := undecodedEnv 0
  start := undecodedEnv
  finish := undecodedEnv
  enter := by
    intro j v hv
    match j with
    | 0 | 1 | 2 =>
      cases Option.some.inj hv
      rfl
    | n + 3 => cases hv
  next := by
    intro k _ j v hv
    match j with
    | 0 | 1 | 2 =>
      cases Option.some.inj hv
      rfl
    | n + 3 => cases hv
  body := fun _ _ => rfl
  starts := fun k _ => ⟨by rintro id rfl; rfl, by simp [pointerLoop], by simp [pointerLoop]⟩
  finishes := fun k _ => ⟨by rintro id rfl; rfl, by simp [pointerLoop], by simp [pointerLoop]⟩
  initsPlaced := fun op hop _ _ => placed_undecoded 0 op hop
  yieldsPlaced := fun k _ op hop _ _ => placed_undecoded k op hop

/-- A loop is entered in step and yields what the analysis does not decode: from
the next iteration on the state of the iter-arg gives the base for every element. -/
theorem undecoded_yield_not_described :
    ¬ ∀ (text : LoopText) (a : Analysis text) (run : Run a), WellFormed a →
      (∀ index init p, InitState a index init p →
        Carries a text.inits index p ∧ Describes run.before init p) →
      ∀ k ≤ run.trips, ∀ index ty s, a.final.knownPtrs (.iterArg text.loop index ty) = some s →
        Describes (run.start k) (.iterArg text.loop index ty) s := by
  intro hall
  have hwf : WellFormed undecodedAnalysis := by
    constructor
    · rfl
    · intro index init p hp
      obtain ⟨-, -, rfl⟩ := initState_pointerLoop rfl hp
      exact base_firstState
  have hdescribes := hall (pointerLoop undecodedPointers) undecodedAnalysis undecodedRun hwf
    (fun index init p hp => by
      obtain ⟨rfl, rfl, rfl⟩ := initState_pointerLoop rfl hp
      exact ⟨carries_firstState _ rfl, firstState_describes _ rfl fun _ => rfl⟩)
    1 le_rfl 0 pointers4 carriedState rfl
  have helement := hdescribes [0] (.cons (by decide) .nil)
  exact absurd helement (by decide)

end Example

end TritonCpu.AnalysisStructured
