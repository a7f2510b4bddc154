import Mathlib.Data.List.TakeWhile
import TritonCpu.UnstructuredUses

/-!
# What a failure leaves behind

The pass reports a failure at the first use it cannot follow, and only warns.
Nothing puts back what the uses before it changed in place.
-/

set_option autoImplicit false

namespace TritonCpu.TritonToUnstructured

open List

def accessFails (m : Module) (k : ℕ) : Bool :=
  match m.ops[k]? with
  | some (.load res _ _ (some other)) =>
    (m.types res).shape.isSome && (scalarSource m (m.ops.length + 1) other []).isNone
  | some (.ttsMakeTensorPtr _ _ offsets _) => offsets.isEmpty
  | _ => false

/-- Nothing is changed in place before the first use that fails or, where none
does, the first access fails. -/
def FailsFirst (m : Module) (fuel : ℕ) : Prop :=
  let us := traverse m fuel (seeds m) []
  (∀ u ∈ us.takeWhile fun u => !fails m u, inPlace m u = false) ∧
    (us.any (fails m) ∨ ((accesses m us).head?.any (accessFails m)))

/-! ## An unchanged module -/

/-- Every operation and every type is as it was; the operations added have no
effect, and nothing that was there takes their results. -/
structure Atomic (m : Module) (s : State) : Prop where
  ops : ∀ k, s.op k = m.ops[k]?
  types : ∀ v < m.next, s.types v = m.types v
  pure : ∀ o, (o ∈ s.entry ∨ ∃ k, o ∈ s.before k) → o.isPure
  dead : ∀ o, (o ∈ s.entry ∨ ∃ k, o ∈ s.before k) →
    ∀ k o', s.op k = some o' → ∀ v ∈ o'.operands, v ∉ o.results

theorem Touched.not_atomic {m : Module} {s : State} (h : Touched m s) : ¬ Atomic m s := by
  intro ha
  obtain ⟨k, hk⟩ | ⟨v, hv, hptr, hno⟩ := h
  · exact hk (ha.ops k)
  · rw [ha.types v hv, hptr] at hno
    cases hno

theorem Grown.atomic {m : Module} {s : State} (hm : Verified m) (hg : Grown m s) (h : Same m s) :
    Atomic m s where
  ops := h.1
  types := h.2
  pure o ho := (hg.pure o ho).1
  dead o ho k o' hk v hv hres := by
    rw [h.1 k] at hk
    have hbelow := hm.operands_below o' (mem_of_getElem? hk) v hv
    exact absurd hbelow (Nat.not_lt.mpr ((hg.pure o ho).2 v hres))

/-! ## The accesses -/

section Accesses

variable {m : Module}

/-- What holds of every state while the accesses are rewritten. -/
structure Live (m : Module) (s : State) : Prop where
  next : m.next ≤ s.next
  ops : ∀ k, s.op k ≠ none → m.ops[k]? ≠ none

theorem Grown.live {s : State} (hg : Grown m s) : Live m s where
  next := hg.next
  ops k hk := by
    obtain h | h := hg.ops k
    · exact h ▸ hk
    · intro hnone
      simp [hnone] at h

theorem Adds.live {s t : State} (h : Adds s t) (hl : Live m s) : Live m t :=
  ⟨hl.next.trans h.next, h.op ▸ hl.ops⟩

theorem touched_setOp (hm : Verified m) {s : State} {k : ℕ} {o : Op} {v : Value} (hl : Live m s)
    (hk : m.ops[k]? ≠ none) (hv : v ∈ o.operands) (hnew : m.next ≤ v) :
    Live m (s.setOp k (some o)) ∧ Touched m (s.setOp k (some o)) := by
  refine ⟨⟨hl.next, fun l hlk => ?_⟩, .inl ⟨k, fun heq => ?_⟩⟩
  · by_cases h : l = k
    · exact h ▸ hk
    · exact hl.ops l (by simpa [State.setOp, Function.update_of_ne h] using hlk)
  · simp only [State.setOp, Function.update_self] at heq
    have hbelow := hm.operands_below o (mem_of_getElem? heq.symm) v hv
    exact absurd hbelow (Nat.not_lt.mpr hnew)

theorem touched_replace {s : State} {k : ℕ} {o : Op} (hl : Live m s) (hk : m.ops[k]? ≠ none) :
    Live m (s.replace k o) ∧ Touched m (s.replace k o) := by
  refine ⟨⟨hl.next, fun l hlk => ?_⟩, .inl ⟨k, fun heq => hk ?_⟩⟩
  · by_cases h : l = k
    · exact h ▸ hk
    · exact hl.ops l (by simpa [State.replace, Function.update_of_ne h] using hlk)
  · rw [← heq]
    simp [State.replace]

theorem materialize_spec (s : State) (k : ℕ) (e : PtrOffset) (splatBase : Bool) :
    Adds s (materialize s k e splatBase).2 ∧ s.next ≤ (materialize s k e splatBase).1 := by
  unfold materialize
  split_ifs
  · have h : Adds s (s.create k e.ptrType fun base => .shape .splat none base e.ptr) :=
      Adds.create _ ⟨rfl, rfl⟩
    exact ⟨h.trans (Adds.create (fun ptr => .addptr ptr s.next e.offset false) ⟨rfl, rfl⟩),
      h.next⟩
  · exact ⟨Adds.create (fun ptr => .addptr ptr e.ptr e.offset false) ⟨rfl, rfl⟩, le_refl _⟩

theorem reconstruct_adds {k : ℕ} {t : Ty} (casts : List CastKind) (s : State) (v : Value) :
    Adds s (reconstructScalarValue s k t v casts).2 := by
  induction casts generalizing s v with
  | nil => exact Adds.refl s
  | cons kind casts ih =>
    have h : Adds s (s.create k t fun res => .cast kind res v) := Adds.create _ ⟨rfl, rfl⟩
    exact h.trans (ih _ _)

theorem getScalarValue_adds {s : State} {k : ℕ} {operand : Value} {r : Value × State}
    (h : getScalarValue m s k operand = some r) : Adds s r.2 := by
  unfold getScalarValue at h
  obtain ⟨⟨source, casts⟩, -, rfl⟩ := Option.map_eq_some_iff.mp h
  cases source with
  | inl v => exact reconstruct_adds casts s v
  | inr value =>
    have h : Adds s (s.create k ⟨none, (m.types operand).elt⟩ fun res =>
        .constant res (some value)) := Adds.create _ ⟨rfl, rfl⟩
    exact h.trans (reconstruct_adds casts _ _)

theorem castOffset_adds {s : State} {k : ℕ} {v : Value} {t : Ty} :
    Adds s (castOffset s k v t).2 := by
  unfold castOffset
  split
  · exact Adds.refl s
  · split
    · exact Adds.create (fun res => .cast .indexCast res v) ⟨rfl, rfl⟩
    · split
      · exact Adds.create (fun res => .cast .extsi res v) ⟨rfl, rfl⟩
      · exact Adds.create (fun res => .cast .trunci res v) ⟨rfl, rfl⟩
    · exact Adds.refl s

theorem addOFRs_adds {s : State} {k : ℕ} {lhs : MixedOffset} {rhs : Value} :
    Adds s (addOFRs s k lhs rhs).2 := by
  unfold addOFRs
  split
  · exact Adds.refl s
  next n _ =>
    have h : Adds s (s.create k indexType fun res => .constant res (some n)) :=
      Adds.create _ ⟨rfl, rfl⟩
    exact h.trans (Adds.create (fun res => .addi res s.next rhs) ⟨rfl, rfl⟩)
  next v => exact Adds.create (fun res => .addi res v rhs) ⟨rfl, rfl⟩

theorem withOffset_failure {s t : State} {v : Value} {f : PtrOffset → Outcome}
    (h : s.withOffset v f = .failure t) : ∃ e, f e = .failure t := by
  unfold State.withOffset at h
  cases he : s.offsetMap v with
  | none => simp [he] at h
  | some e => exact ⟨e, by simpa [he] using h⟩

/-- A use that is rewritten adds operations and puts another access in its place. -/
theorem rewriteUser_cases {s t : State} {k : ℕ} (h : rewriteUser m s k = .success t) :
    ∃ o, s.op k = some o ∧ ∃ a, Adds s a ∧
      ((∃ o' v, v ∈ o'.operands ∧ s.next ≤ v ∧ t = a.setOp k (some o')) ∨
        ∃ o', o'.isPure = false ∧ t = a.replace k o') := by
  cases ho : s.op k with
  | none => simp [rewriteUser, ho] at h
  | some o =>
    refine ⟨o, rfl, ?_⟩
    cases o
    case load res ptr mask other =>
      simp only [rewriteUser, rewriteLoad, ho] at h
      obtain ⟨e, -, h⟩ := withOffset_success h
      split_ifs at h with hshape
      · cases h
        obtain ⟨ha, hnew⟩ := materialize_spec s k e false
        exact ⟨_, ha, .inl ⟨_, _, by simp [Op.operands], hnew, rfl⟩⟩
      · cases other with
        | none =>
          cases h
          exact ⟨s, Adds.refl s, .inr ⟨_, rfl, rfl⟩⟩
        | some other =>
          cases hscalar : getScalarValue m s k other with
          | none => simp [hscalar] at h
          | some scalar =>
            simp only [hscalar, Outcome.success.injEq] at h
            exact ⟨_, getScalarValue_adds hscalar, .inr ⟨_, rfl, h.symm⟩⟩
    case store ptr value mask =>
      simp only [rewriteUser, rewriteStore, ho] at h
      obtain ⟨e, -, h⟩ := withOffset_success h
      split_ifs at h with hshape
      · cases h
        obtain ⟨ha, hnew⟩ := materialize_spec s k e false
        exact ⟨_, ha, .inl ⟨_, _, by simp [Op.operands], hnew, rfl⟩⟩
      · cases h
        exact ⟨s, Adds.refl s, .inr ⟨_, rfl, rfl⟩⟩
    case atomic kind res ptr args =>
      simp only [rewriteUser, rewriteAtomic, ho] at h
      obtain ⟨e, -, h⟩ := withOffset_success h
      cases h
      obtain ⟨ha, hnew⟩ := materialize_spec s k e true
      exact ⟨_, ha, .inl ⟨_, _, by simp [Op.operands], hnew, rfl⟩⟩
    case makeTensorPtr res base offsets rest =>
      simp only [rewriteUser, rewriteMakeTensorPtr, ho] at h
      obtain ⟨e, -, h⟩ := withOffset_success h
      cases offsets with
      | nil => cases h
      | cons currOffset others =>
        cases h
        have ha := castOffset_adds (s := s) (k := k) (v := e.offset) (t := s.types currOffset)
        refine ⟨_, ha.trans (Adds.create _ ⟨rfl, rfl⟩), .inl ⟨_, _, ?_, ha.next, rfl⟩⟩
        simp [Op.operands]
    case ttsMakeTensorPtr res base offsets rest =>
      simp only [rewriteUser, rewriteTtsMakeTensorPtr, ho] at h
      obtain ⟨e, -, h⟩ := withOffset_success h
      cases offsets with
      | nil => cases h
      | cons front others =>
        cases h
        have ha : Adds s (s.create k indexType fun v => .cast .indexCast v e.offset) :=
          Adds.create _ ⟨rfl, rfl⟩
        exact ⟨_, ha.trans addOFRs_adds, .inr ⟨_, rfl, rfl⟩⟩
    case ptrToInt | addptr | bitcast | shape | forOp | yield | makeGatherScatterTensorPtr |
        constant | cast | addi | intToPtr | gather | scatter | cat | compute =>
      simp [rewriteUser, ho] at h

theorem rewriteUser_success (hm : Verified m) {s t : State} {k : ℕ} (hl : Live m s)
    (h : rewriteUser m s k = .success t) : Live m t ∧ Touched m t := by
  obtain ⟨o, ho, a, ha, ⟨o', v, hv, hnew, rfl⟩ | ⟨o', -, rfl⟩⟩ := rewriteUser_cases h
  · exact touched_setOp hm (ha.live hl) (hl.ops k (by simp [ho])) hv (hl.next.trans hnew)
  · exact touched_replace (ha.live hl) (hl.ops k (by simp [ho]))

theorem rewriteUser_failure {s t : State} {k : ℕ} (h : rewriteUser m s k = .failure t) :
    t = s ∧ (s.op k = m.ops[k]? → m.ops[k]?.any (isAccess m) → accessFails m k) := by
  cases hs : s.op k with
  | none => simp [rewriteUser, hs] at h
  | some o =>
    cases o
    case load res ptr mask other =>
      simp only [rewriteUser, rewriteLoad, hs] at h
      obtain ⟨e, h⟩ := withOffset_failure h
      split_ifs at h with hshape
      cases other with
      | none => cases h
      | some other =>
        cases hsource : scalarSource m (m.ops.length + 1) other [] with
        | none =>
          simp only [getScalarValue, hsource, Option.map_none, Outcome.failure.injEq] at h
          refine ⟨h.symm, fun ho _ => ?_⟩
          simpa [accessFails, ← ho, hsource, Option.isSome_iff_ne_none] using hshape
        | some source => simp [getScalarValue, hsource] at h
    case store ptr value mask =>
      simp only [rewriteUser, rewriteStore, hs] at h
      obtain ⟨e, h⟩ := withOffset_failure h
      split_ifs at h
    case atomic kind res ptr args =>
      simp only [rewriteUser, rewriteAtomic, hs] at h
      obtain ⟨e, h⟩ := withOffset_failure h
      cases h
    case makeTensorPtr res base offsets rest =>
      simp only [rewriteUser, rewriteMakeTensorPtr, hs] at h
      obtain ⟨e, h⟩ := withOffset_failure h
      cases offsets <;> cases h
    case ttsMakeTensorPtr res base offsets rest =>
      simp only [rewriteUser, rewriteTtsMakeTensorPtr, hs] at h
      obtain ⟨e, h⟩ := withOffset_failure h
      cases offsets with
      | nil =>
        cases h
        exact ⟨rfl, fun ho _ => by simp [accessFails, ← ho]⟩
      | cons front others => cases h
    case ptrToInt | addptr | bitcast | shape | forOp | yield | makeGatherScatterTensorPtr |
        constant | cast | addi | intToPtr | gather | scatter | cat | compute =>
      simp only [rewriteUser, hs, Outcome.failure.injEq] at h
      exact ⟨h.symm, fun ho haccess => by simp [← ho, isAccess] at haccess⟩

theorem accessFails_of_success {s t : State} {k : ℕ} (hs : s.op k = m.ops[k]?)
    (h : rewriteUser m s k = .success t) : accessFails m k = false := by
  unfold accessFails
  rw [← hs]
  split
  next res ptr mask other ho =>
    simp only [rewriteUser, rewriteLoad, ho] at h
    obtain ⟨e, -, h⟩ := withOffset_success h
    cases hshape : (m.types res).shape with
    | none => simp
    | some shape =>
      cases hsource : scalarSource m (m.ops.length + 1) other [] with
      | none => simp [hshape, getScalarValue, hsource] at h
      | some source => simp
  next res base offsets rest ho =>
    simp only [rewriteUser, rewriteTtsMakeTensorPtr, ho] at h
    obtain ⟨e, -, h⟩ := withOffset_success h
    cases offsets with
    | nil => cases h
    | cons front others => rfl
  next => rfl

theorem rewriteUsers_touched (hm : Verified m) {ks : List ℕ} {s t : State} (hl : Live m s)
    (hs : Touched m s) (h : rewriteUsers m ks s = .failure t) : Touched m t := by
  induction ks generalizing s with
  | nil => cases h
  | cons k ks ih =>
    cases hk : rewriteUser m s k with
    | crash => simp [rewriteUsers, hk] at h
    | failure r =>
      simp only [rewriteUsers, hk, Outcome.failure.injEq] at h
      obtain ⟨rfl, -⟩ := rewriteUser_failure hk
      exact h ▸ hs
    | success r =>
      simp only [rewriteUsers, hk] at h
      obtain ⟨hl, hr⟩ := rewriteUser_success hm hl hk
      exact ih hl hr h

end Accesses

/-! ## When a failure leaves the module as it was -/

section Failure

variable {m : Module}

theorem takeWhile_append_cons {us rest : List Use} {u : Use}
    (hus : ∀ v ∈ us, fails m v = false) (hu : fails m u) :
    ((us ++ u :: rest).takeWhile fun v => !fails m v) = us := by
  rw [takeWhile_append_of_pos (by simpa using hus)]
  simp [hu]

theorem Reached.atomic_iff (hm : Verified m) {s t : State} {us : List Use} (hs : Same m s)
    (h : Reached m s us t) : Atomic m t ↔ ∀ u ∈ us, inPlace m u = false := by
  constructor
  · intro ha u hu
    cases hplace : inPlace m u with
    | false => rfl
    | true => exact absurd ha (h.touched (.inr ⟨u, hu, hplace⟩)).not_atomic
  · intro hno
    exact h.grown.atomic hm (h.same hno hs)

end Failure

def catLoop : Loop where
  bounds := [1, 1, 1]
  inits := [2]
  iterArgs := [3]
  results := [4]
  body := [2]
  terminator := 2

/-- Pointers that go through a loop before they meet a `tt.cat`. -/
def catModule : Module where
  args := [0, 1]
  ops := [.shape .splat none 2 0, .forOp catLoop, .yield [3], .cat 5 4 4]
  types
    | 0 => ⟨none, .ptr (.float 32)⟩
    | 1 => ⟨none, .scalar (.int 32)⟩
    | 5 => ⟨some [8], .ptr (.float 32)⟩
    | _ => ⟨some [4], .ptr (.float 32)⟩
  uses := usesOf [.shape .splat none 2 0, .forOp catLoop, .yield [3], .cat 5 4 4]
  next := 6

theorem catModule_loop {loop : Loop} (h : .forOp loop ∈ catModule.ops) : catLoop = loop := by
  simp only [catModule, mem_cons, Op.forOp.injEq, not_mem_nil, reduceCtorEq, false_or,
    or_false] at h
  exact h.symm

theorem catModule_verified : Verified catModule where
  args_nodup := by decide
  args_below := by decide
  results_below := by decide
  operands_below := by decide
  results_nodup := by decide
  defined_once _ _ _ _ _ hk hl := defined_once_of_nodup (by decide) hk hl
  args_undefined := by decide
  uses_nodup := usesOf_nodup _
  mem_uses _ _ := mem_usesOf
  loop_bounds loop h := by
    obtain rfl := catModule_loop h
    decide
  loop_types loop h := by
    obtain rfl := catModule_loop h
    exact ⟨rfl, rfl, [3], rfl, rfl⟩
  addptr_types res ptr offset inIf h := by simp [catModule] at h
  int_to_ptr_types res src h := by simp [catModule] at h
  bitcast_types res src h := by simp [catModule] at h
  shape_types name axis res src h := by
    simp only [catModule, mem_cons, Op.shape.injEq, not_mem_nil, reduceCtorEq, or_false]
      at h
    obtain ⟨rfl, rfl, rfl, rfl⟩ := h
    rfl
  splat_shape axis res src h := by
    simp only [catModule, mem_cons, Op.shape.injEq, not_mem_nil, reduceCtorEq, or_false]
      at h
    obtain ⟨-, -, rfl, rfl⟩ := h
    rfl
  broadcast_shape axis res src h := by simp [catModule] at h
  loop_outside k loop h := by
    obtain _ | _ | _ | _ | k := k <;> simp [catModule] at h
    subst h
    decide
  loop_region loop h k o ho hk v hv := by
    obtain rfl := catModule_loop h
    obtain _ | _ | _ | _ | k := k <;> simp [catModule] at ho <;> subst ho <;>
      simp_all [catLoop, catModule, Op.operands, Op.results]
    obtain rfl | rfl := hv <;> decide

/-- The state the failure at the `tt.cat` leaves. -/
def catState : State :=
  match processUnstructuredPtrs catModule 32 20 with
  | some (.failure s) => s
  | _ => emptyState catModule

theorem catState_failure : processUnstructuredPtrs catModule 32 20 = some (.failure catState) := rfl

end TritonCpu.TritonToUnstructured
