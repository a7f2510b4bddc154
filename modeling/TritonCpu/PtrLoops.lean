import Mathlib.Logic.Function.Basic
import TritonCpu.PtrStateSpec
import TritonCpu.PtrAnalysis

/-!
# Loop-carried pointers

A pointer reaches an iter-arg from `tts.get_structured_state`, from a result of
an earlier loop or from an iter-arg of an outer loop. Result number `r` of a
loop is the pointer of its iter-arg `r`, but the lookup goes on at the position
of the init-arg. The state that is found is the one of the carried pointer
exactly when both chains end in the same pointer.
-/

set_option autoImplicit false

namespace TritonCpu.AnalysisStructured
open Builder TritonIR OpFoldResult

variable {known : Value → Option PtrState} {loops : LoopNest} {loop index : ℕ}
  {next : ℕ → ℕ → ℕ} {p q s t : PtrState} {bind : ℕ → Build Value}

/-- The pointer at the start of the chain of init-args. At a loop result the
chain goes on at `next result position` of the earlier loop. -/
inductive Flows (known : Value → Option PtrState) (loops : LoopNest) (next : ℕ → ℕ → ℕ) :
    ℕ → ℕ → PtrState → Prop
  | original (loop index id : ℕ) (pointer : Value) (ty : Ty) (p : PtrState)
      (harg : (loops.initArgs loop)[index]? = some (.structuredState id pointer ty))
      (hp : known pointer = some p) : Flows known loops next loop index p
  | result (loop index earlier number : ℕ) (ty : Ty) (p : PtrState)
      (harg : (loops.initArgs loop)[index]? = some (.forResult earlier number ty))
      (hp : Flows known loops next earlier (next number index) p) :
      Flows known loops next loop index p
  | outer (loop index outerLoop outerIndex : ℕ) (ty : Ty) (p : PtrState)
      (harg : (loops.initArgs loop)[index]? = some (.iterArg outerLoop outerIndex ty))
      (hp : Flows known loops next outerLoop outerIndex p) : Flows known loops next loop index p
  | argument (loop index id : ℕ) (ty : Ty) (p : PtrState)
      (harg : (loops.initArgs loop)[index]? = some (.blockArg id ty))
      (hp : known (.blockArg id ty) = some p) : Flows known loops next loop index p

/-- The pointer that is carried: result number `r` comes from iter-arg `r`. -/
abbrev Carried (known : Value → Option PtrState) (loops : LoopNest) :
    ℕ → ℕ → PtrState → Prop := Flows known loops fun number _ => number

/-- The pointer at the end of the lookup, which keeps the position. -/
abbrev LookedUp (known : Value → Option PtrState) (loops : LoopNest) :
    ℕ → ℕ → PtrState → Prop := Flows known loops fun _ position => position

/-- Source, sizes and shape agree. -/
structure SamePointer (p s : PtrState) : Prop where
  source : s.source = p.source
  sizes : s.dims.map Dim.size = p.dims.map Dim.size
  shape : s.dims.map Dim.shape = p.dims.map Dim.shape

/-- Offsets and strides are the values in the slots after the pointer; a scalar
pointer has its offset there. -/
structure BoundTo (bind : ℕ → Build Value) (index : ℕ) (s : PtrState) : Prop where
  scalar : s.dims = [] → ∃ v, s.scalar = some v ∧ Returns (bind (index + 1)) v
  offsets : ∀ (k : ℕ) (d : Dim), s.dims[k]? = some d →
    ∃ v, d.offset = .value v ∧ Returns (bind (index + 1 + k)) v
  strides : ∀ (k : ℕ) (d : Dim), s.dims[k]? = some d →
    ∃ v, d.stride = .value v ∧ Returns (bind (index + 1 + s.rank + k)) v

theorem SamePointer.trans (h : SamePointer p s) (h' : SamePointer s t) : SamePointer p t :=
  ⟨h'.source.trans h.source, h'.sizes.trans h.sizes, h'.shape.trans h.shape⟩

theorem SamePointer.symm (h : SamePointer p s) : SamePointer s p :=
  ⟨h.source.symm, h.sizes.symm, h.shape.symm⟩

theorem Flows.step (h : Flows known loops next loop index p) :
    match (loops.initArgs loop)[index]? with
    | some (.structuredState _ pointer _) => known pointer = some p
    | some (.forResult earlier number _) => Flows known loops next earlier (next number index) p
    | some (.iterArg outerLoop outerIndex _) => Flows known loops next outerLoop outerIndex p
    | some (.blockArg id ty) => known (.blockArg id ty) = some p
    | _ => False := by
  cases h with
  | original _ _ _ _ _ _ harg hp => rwa [harg]
  | result _ _ _ _ _ _ harg hp => rwa [harg]
  | outer _ _ _ _ _ _ harg hp => rwa [harg]
  | argument _ _ _ _ _ harg hp => rwa [harg]

theorem Flows.unique (h : Flows known loops next loop index p)
    (h' : Flows known loops next loop index q) : p = q := by
  induction h with
  | original loop index id pointer ty p harg hp =>
    have hq := h'.step
    rw [harg] at hq
    exact Option.some.inj (hp.symm.trans hq)
  | result loop index earlier number ty p harg _ ih =>
    have hq := h'.step
    rw [harg] at hq
    exact ih hq
  | outer loop index outerLoop outerIndex ty p harg _ ih =>
    have hq := h'.step
    rw [harg] at hq
    exact ih hq
  | argument loop index id ty p harg hp =>
    have hq := h'.step
    rw [harg] at hq
    exact Option.some.inj (hp.symm.trans hq)

theorem Flows.mono {known' : Value → Option PtrState}
    (hmono : ∀ v p, known v = some p → known' v = some p)
    (h : Flows known loops next loop index p) : Flows known' loops next loop index p := by
  induction h with
  | original loop index id pointer ty p harg hp => exact .original _ _ _ _ _ _ harg (hmono _ _ hp)
  | result loop index earlier number ty p harg _ ih => exact .result _ _ _ _ _ _ harg ih
  | outer loop index outerLoop outerIndex ty p harg _ ih => exact .outer _ _ _ _ _ _ harg ih
  | argument loop index id ty p harg hp => exact .argument _ _ _ _ _ harg (hmono _ _ hp)

section Reconcile

theorem returns_replaceFrom {set : Dim → OFR → Dim} {cnt : ℕ} {dims dims' : List Dim}
    (h : Returns (replaceFrom bind set cnt dims) dims') :
    dims'.length = dims.length ∧ ∀ (k : ℕ) (e : Dim), dims'[k]? = some e →
      ∃ d v, dims[k]? = some d ∧ Returns (bind (cnt + k)) v ∧ e = set d (.value v) := by
  induction dims generalizing cnt dims' with
  | nil =>
    rw [replaceFrom, returns_pure] at h
    subst h
    exact ⟨rfl, fun k e he => by simp at he⟩
  | cons d dims ih =>
    obtain ⟨v, hv, h⟩ := returns_bind h
    obtain ⟨rest, hrest, h⟩ := returns_bind h
    rw [returns_pure] at h
    subst h
    obtain ⟨hlen, hall⟩ := ih hrest
    constructor
    · rw [List.length_cons, List.length_cons, hlen]
    · intro k e he
      cases k with
      | zero =>
        cases he
        exact ⟨d, v, rfl, hv, rfl⟩
      | succ k =>
        obtain ⟨d', v', hd', hv', he'⟩ := hall k e he
        refine ⟨d', v', hd', ?_, he'⟩
        rwa [show cnt + (k + 1) = cnt + 1 + k by omega]

theorem map_of_pointwise {β : Type} {dims dims' : List Dim} (f : Dim → β)
    (hlen : dims'.length = dims.length)
    (h : ∀ (k : ℕ) (e : Dim), dims'[k]? = some e → ∃ d, dims[k]? = some d ∧ f e = f d) :
    dims'.map f = dims.map f := by
  apply List.ext_getElem?
  intro k
  rw [List.getElem?_map, List.getElem?_map]
  cases he : dims'[k]? with
  | none =>
    rw [List.getElem?_eq_none_iff, hlen] at he
    rw [List.getElem?_eq_none_iff.mpr he]
  | some e =>
    obtain ⟨d, hd, heq⟩ := h k e he
    rw [hd, Option.map_some, Option.map_some, heq]

theorem returns_reconcileLoopPtrState (h : Returns (reconcileLoopPtrState index p bind) s) :
    SamePointer p s ∧ BoundTo bind index s := by
  unfold reconcileLoopPtrState at h
  dsimp only at h
  split_ifs at h with hrank
  · have hnil : p.dims = [] := List.length_eq_zero_iff.mp hrank
    obtain ⟨-, h⟩ := returns_assert_bind h
    obtain ⟨v, hv, h⟩ := returns_bind h
    rw [returns_pure] at h
    subst h
    refine ⟨⟨rfl, rfl, rfl⟩, fun _ => ⟨v, rfl, hv⟩, fun k d hd => ?_, fun k d hd => ?_⟩
    · simp [hnil] at hd
    · simp [hnil] at hd
  · obtain ⟨dims, hdims, h⟩ := returns_bind h
    obtain ⟨dims', hdims', h⟩ := returns_bind h
    rw [returns_pure] at h
    subst h
    obtain ⟨hlen, hoffsets⟩ := returns_replaceFrom hdims
    obtain ⟨hlen', hstrides⟩ := returns_replaceFrom hdims'
    constructor
    · constructor
      · rfl
      · apply map_of_pointwise Dim.size (hlen'.trans hlen)
        intro k e he
        obtain ⟨d', v', hd', -, rfl⟩ := hstrides k e he
        obtain ⟨d, v, hd, -, rfl⟩ := hoffsets k d' hd'
        exact ⟨d, hd, rfl⟩
      · apply map_of_pointwise Dim.shape (hlen'.trans hlen)
        intro k e he
        obtain ⟨d', v', hd', -, rfl⟩ := hstrides k e he
        obtain ⟨d, v, hd, -, rfl⟩ := hoffsets k d' hd'
        exact ⟨d, hd, rfl⟩
    · constructor
      · intro hnil
        have hnil : dims' = [] := hnil
        rw [hnil] at hlen'
        exact absurd (hlen.symm.trans hlen'.symm) hrank
      · intro k e he
        obtain ⟨d', v', hd', -, rfl⟩ := hstrides k e he
        obtain ⟨d, v, hd, hv, rfl⟩ := hoffsets k d' hd'
        exact ⟨v, rfl, hv⟩
      · intro k e he
        obtain ⟨d', v', hd', hv', rfl⟩ := hstrides k e he
        refine ⟨v', rfl, ?_⟩
        show Returns (bind (index + 1 + dims'.length + k)) v'
        rw [hlen'.trans hlen]
        exact hv'

end Reconcile

section Lookup

/-- The state of an outer iter-arg is the pointer at the end of its lookup. -/
def IterArgsLookedUp (known : Value → Option PtrState) (loops : LoopNest) : Prop :=
  ∀ loop index ty s, known (.iterArg loop index ty) = some s →
    ∃ p, LookedUp known loops loop index p ∧ SamePointer p s

theorem returns_getLoopInitArgPtrState {fuel : ℕ} (hknown : IterArgsLookedUp known loops)
    (h : Returns (getLoopInitArgPtrState known loops fuel loop index) s) :
    ∃ p, LookedUp known loops loop index p ∧ SamePointer p s := by
  induction fuel generalizing loop index s with
  | zero => exact absurd h not_returns_fail
  | succ fuel ih =>
    unfold getLoopInitArgPtrState at h
    split at h
    · exact absurd h (not_returns_stop _ _)
    next ptr harg =>
    split at h
    · next state hstate =>
      rw [returns_pure] at h
      subst h
      obtain ⟨pointer, hpointer, hp⟩ := Option.bind_eq_some_iff.mp hstate
      cases ptr with
      | structuredState id original ty =>
        cases hpointer
        exact ⟨s, .original _ _ _ _ _ _ harg hp, rfl, rfl, rfl⟩
      | _ => cases hpointer
    · split at h
      · next earlier number ty =>
        obtain ⟨state, hstate, h⟩ := returns_bind h
        split_ifs at h
        · exact absurd h not_returns_fail
        obtain ⟨p, hp, hsame⟩ := ih hstate
        exact ⟨p, .result _ _ _ _ _ _ harg hp, hsame.trans (returns_reconcileLoopPtrState h).1⟩
      · split at h
        · next state hstate =>
          obtain ⟨hop, h⟩ := returns_assert_bind h
          rw [returns_pure] at h
          subst h
          cases ptr with
          | blockArg id ty => exact ⟨s, .argument _ _ _ _ _ harg hstate, rfl, rfl, rfl⟩
          | iterArg outerLoop outerIndex ty =>
            obtain ⟨p, hp, hsame⟩ := hknown _ _ _ _ hstate
            exact ⟨p, .outer _ _ _ _ _ _ harg hp, hsame⟩
          | _ => cases hop
        · exact absurd h not_returns_fail

theorem returns_getLoopPtrState (hknown : IterArgsLookedUp known loops)
    (h : Returns (getLoopPtrState known loops loop index bind) s) :
    (∃ p, LookedUp known loops loop index p ∧ SamePointer p s) ∧ BoundTo bind index s := by
  obtain ⟨state, hstate, h⟩ := returns_bind h
  split_ifs at h
  · exact absurd h not_returns_fail
  obtain ⟨p, hp, hsame⟩ := returns_getLoopInitArgPtrState hknown hstate
  obtain ⟨hsame', hbound⟩ := returns_reconcileLoopPtrState h
  exact ⟨⟨p, hp, hsame.trans hsame'⟩, hbound⟩

end Lookup

/-- The table of known pointers while the loops are rewritten: `rewriteForOp`
records the iter-args of a loop, and other values are recorded once. -/
inductive Rewritten (loops : LoopNest) : (Value → Option PtrState) → Prop
  | nil : Rewritten loops fun _ => none
  | iterArg (known : Value → Option PtrState) (h : Rewritten loops known) (loop index : ℕ)
      (ty : Ty) (s : PtrState) (hnew : known (.iterArg loop index ty) = none)
      (hs : Returns (getLoopIterArgPtrState known loops loop index) s) :
      Rewritten loops (Function.update known (.iterArg loop index ty) (some s))
  | other (known : Value → Option PtrState) (h : Rewritten loops known) (v : Value) (s : PtrState)
      (hv : ∀ loop index ty, v ≠ .iterArg loop index ty) (hnew : known v = none) :
      Rewritten loops (Function.update known v (some s))

theorem update_mono {v : Value} (hnew : known v = none) :
    ∀ w p, known w = some p → Function.update known v (some s) w = some p := by
  intro w p hp
  have hw : w ≠ v := fun e => by
    rw [e, hnew] at hp
    cases hp
  rw [Function.update_of_ne hw]
  exact hp

theorem Rewritten.lookedUp (h : Rewritten loops known) : IterArgsLookedUp known loops := by
  induction h with
  | nil =>
    intro loop index ty s hs
    cases hs
  | iterArg known _ loop index ty s hnew hs ih =>
    intro loop' index' ty' t ht
    by_cases heq : Value.iterArg loop' index' ty' = .iterArg loop index ty
    · cases heq
      rw [Function.update_self] at ht
      cases ht
      obtain ⟨⟨p, hp, hsame⟩, -⟩ := returns_getLoopPtrState ih hs
      exact ⟨p, hp.mono (update_mono hnew), hsame⟩
    · rw [Function.update_of_ne heq] at ht
      obtain ⟨p, hp, hsame⟩ := ih loop' index' ty' t ht
      exact ⟨p, hp.mono (update_mono hnew), hsame⟩
  | other known _ v s hv hnew ih =>
    intro loop' index' ty' t ht
    rw [Function.update_of_ne (Ne.symm (hv loop' index' ty'))] at ht
    obtain ⟨p, hp, hsame⟩ := ih loop' index' ty' t ht
    exact ⟨p, hp.mono (update_mono hnew), hsame⟩

/-- The state is the one of the carried pointer, with the offsets and strides
bound to the values that carry them. -/
def StateOf (known : Value → Option PtrState) (loops : LoopNest) (bind : ℕ → Build Value)
    (loop index : ℕ) (s : PtrState) : Prop :=
  ∃ p, Carried known loops loop index p ∧ SamePointer p s ∧ BoundTo bind index s

/-- The chain that keeps the position and the chain of the result numbers end
in pointers with one source, size and shape. -/
def PositionsAgree (known : Value → Option PtrState) (loops : LoopNest) (loop index : ℕ) : Prop :=
  ∃ p q, Carried known loops loop index p ∧ LookedUp known loops loop index q ∧ SamePointer p q

theorem getLoopPtrState_stateOf (hknown : IterArgsLookedUp known loops)
    (h : Returns (getLoopPtrState known loops loop index bind) s) :
    StateOf known loops bind loop index s ↔ PositionsAgree known loops loop index := by
  obtain ⟨⟨q, hq, hsame⟩, hbound⟩ := returns_getLoopPtrState hknown h
  constructor
  · rintro ⟨p, hp, hps, -⟩
    exact ⟨p, q, hp, hq, hps.trans hsame.symm⟩
  · rintro ⟨p, q', hp, hq', hpq⟩
    cases hq'.unique hq
    exact ⟨p, hp, hpq.trans hsame, hbound⟩

/-- In every program of sequential and nested loops, what is returned for an
iter-arg or a result is the carried pointer exactly when the positions agree. -/
theorem getLoop_stateOf (loops : LoopNest) (known : Value → Option PtrState)
    (hknown : Rewritten loops known) (loop index : ℕ) :
    (∀ s, Returns (getLoopIterArgPtrState known loops loop index) s →
      (StateOf known loops (loops.getRegionIterArg loop) loop index s ↔
        PositionsAgree known loops loop index)) ∧
    (∀ s, Returns (getLoopResultPtrState known loops loop index) s →
      (StateOf known loops (loops.getResult loop) loop index s ↔
        PositionsAgree known loops loop index)) :=
  ⟨fun _ h => getLoopPtrState_stateOf hknown.lookedUp h,
    fun _ h => getLoopPtrState_stateOf hknown.lookedUp h⟩

def pointers4 : Ty := ⟨some [4], .ptr⟩

/-- A pointer from `tts.get_structured_state` with its offset and stride. -/
def carriedPointer (id : ℕ) : List Value :=
  [.structuredState id (.blockArg id pointers4) pointers4, .blockArg (10 + id) Ty.index,
    .blockArg (20 + id) Ty.index]

/-- A loop over pointers zero and one, and a loop that takes results of it. -/
def twoLoops (results : List (ℕ × Ty)) : LoopNest where
  initArgs
    | 0 => carriedPointer 0 ++ carriedPointer 1
    | 1 => results.map fun r => .forResult 0 r.1 r.2
    | _ => []
  earlier := by
    intro loop from' index ty h
    match loop with
    | 0 => simp [carriedPointer] at h
    | 1 =>
      simp only [List.mem_map, Value.forResult.injEq] at h
      obtain ⟨r, -, rfl, -⟩ := h
      exact Nat.zero_lt_one
    | n + 2 => simp at h

def pointerState (id : ℕ) : PtrState :=
  ⟨[⟨.attr 0, .attr 4, .attr 1, .attr 0⟩], [], some (.blockArg (30 + id) ⟨none, .ptr⟩), none⟩

def twoKnown : Value → Option PtrState :=
  Function.update (Function.update (fun _ => none) (.blockArg 0 pointers4) (some (pointerState 0)))
    (.blockArg 1 pointers4) (some (pointerState 1))

theorem rewritten_twoKnown (loops : LoopNest) : Rewritten loops twoKnown := by
  apply Rewritten.other
  · apply Rewritten.other _ .nil
    · intro loop index ty h
      cases h
    · rfl
  · intro loop index ty h
    cases h
  · rfl

/-- The second loop binds offset and stride to its own iter-args. -/
def secondLoopState (id : ℕ) : PtrState :=
  ⟨[⟨.value (.iterArg 1 1 Ty.index), .attr 4, .value (.iterArg 1 2 Ty.index), .attr 0⟩], [],
    some (.blockArg (30 + id) ⟨none, .ptr⟩), none⟩

theorem getLoop_stateOf_samePositions :
    StateOf twoKnown (twoLoops [(0, pointers4), (1, Ty.index), (2, Ty.index)])
      ((twoLoops [(0, pointers4), (1, Ty.index), (2, Ty.index)]).getRegionIterArg 1) 1 0
      (secondLoopState 0) := by
  apply ((getLoop_stateOf _ _ (rewritten_twoKnown _) 1 0).1 _ ⟨0, 0, rfl⟩).mpr
  have hchain : ∀ next : ℕ → ℕ → ℕ, next 0 0 = 0 →
      Flows twoKnown (twoLoops [(0, pointers4), (1, Ty.index), (2, Ty.index)]) next 1 0
        (pointerState 0) := by
    intro next hnext
    apply Flows.result 1 0 0 0 pointers4 _ rfl
    rw [hnext]
    exact .original 0 0 0 (.blockArg 0 pointers4) pointers4 _ rfl rfl
  exact ⟨_, _, hchain _ rfl, hchain _ rfl, rfl, rfl, rfl⟩

/-- The second loop takes only pointer one, result three of the first loop, and
is given the base of pointer zero. -/
theorem getLoop_otherPointer :
    Rewritten (twoLoops [(3, pointers4), (4, Ty.index), (5, Ty.index)]) twoKnown ∧
      Returns (getLoopIterArgPtrState twoKnown
        (twoLoops [(3, pointers4), (4, Ty.index), (5, Ty.index)]) 1 0) (secondLoopState 0) ∧
      ¬ StateOf twoKnown (twoLoops [(3, pointers4), (4, Ty.index), (5, Ty.index)])
        ((twoLoops [(3, pointers4), (4, Ty.index), (5, Ty.index)]).getRegionIterArg 1) 1 0
        (secondLoopState 0) := by
  refine ⟨rewritten_twoKnown _, ⟨0, 0, rfl⟩, ?_⟩
  rintro ⟨p, hp, hsame, -⟩
  have hone : twoKnown (.blockArg 1 pointers4) = some p := hp.step.step
  cases hone
  exact absurd hsame.source (by decide)

end TritonCpu.AnalysisStructured
