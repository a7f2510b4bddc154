import Mathlib.Order.Nat
import TritonCpu.UnstructuredPtrs

/-!
# The uses the worklist takes

The worklist goes through the uses breadth first, in an order that depends on
the module alone. Most uses only add operations; a loop and a `tt.ptr_to_int`
change what was there.
-/

set_option autoImplicit false

namespace TritonCpu.TritonToUnstructured

open List

/-! ## The order of the uses -/

def pushes (m : Module) (u : Use) : List Value :=
  match m.ops[u.user]? with
  | some (.addptr res _ _ _) => [res]
  | some (.bitcast res _) => if isPtrTypeLike (m.types res) then [res] else []
  | some (.shape _ _ res _) => if isPtrTypeLike (m.types res) then [res] else []
  | some (.forOp loop) =>
    loop.iterArgs[u.operand - 3]?.toList ++ loop.results[u.operand - 3]?.toList
  | _ => []

def isPtrToInt : Op → Bool
  | .ptrToInt _ _ => true
  | _ => false

def isFor : Op → Bool
  | .forOp _ => true
  | _ => false

/-- The uses whose rewriting changes an operation or a type that was there. -/
def inPlace (m : Module) (u : Use) : Bool :=
  m.ops[u.user]?.any fun o => isPtrToInt o || isFor o

def fails (m : Module) (u : Use) : Bool :=
  match m.ops[u.user]? with
  | some (.ptrToInt res _) => (m.types res).shape.isSome
  | some (.addptr _ _ _ inIf) => inIf
  | some (.bitcast _ _) => false
  | some (.shape _ _ _ _) => false
  | some (.makeGatherScatterTensorPtr _ _ _) => false
  | some (.load _ _ _ _) => false
  | some (.store _ _ _) => false
  | some (.makeTensorPtr _ _ _ _) => false
  | some (.ttsMakeTensorPtr _ _ _ _) => false
  | some (.atomic _ _ _ _) => false
  | some (.forOp _) => false
  | some (.yield _) => false
  | some _ => true
  | none => false

/-- The uses in the order of the worklist, breadth first. The uses after a
`tt.ptr_to_int` are never reached. -/
def traverse (m : Module) : ℕ → List Value → List Use → List Use
  | 0, _, _ => []
  | fuel + 1, queue, u :: rest =>
    u :: traverse m fuel (queue ++ pushes m u)
      (if m.ops[u.user]?.any isPtrToInt then [] else rest)
  | fuel + 1, v :: queue, [] => traverse m fuel queue (m.uses v)
  | _ + 1, [], [] => []

def intToPtrSeed (m : Module) (k : ℕ) : List Value :=
  match m.ops[k]? with
  | some (.intToPtr res _) => if (m.types res).shape.isSome then [] else [res]
  | _ => []

/-- The arguments and the scalar `tt.int_to_ptr` results. -/
def seeds (m : Module) : List Value :=
  ptrArgs m ++ (List.range m.ops.length).flatMap (intToPtrSeed m)

def isAccess (m : Module) : Op → Bool
  | .load _ _ _ _ => true
  | .store _ _ _ => true
  | .makeTensorPtr _ _ _ _ => true
  | .ttsMakeTensorPtr _ base _ _ => base ∉ ptrArgs m
  | .atomic _ _ _ _ => true
  | _ => false

def accesses (m : Module) (us : List Use) : List ℕ :=
  (us.filter fun u => m.ops[u.user]?.any (isAccess m)).map Use.user

/-! ## What the uses change -/

/-- What holds of every state the worklist reaches. -/
structure Grown (m : Module) (s : State) : Prop where
  next : m.next ≤ s.next
  entries : ∀ v e, s.offsetMap v = some e → v < m.next ∧ isPtrTypeLike (m.types v)
  ops : ∀ k, s.op k = m.ops[k]? ∨ m.ops[k]?.any isPtrToInt
  pure : ∀ o, (o ∈ s.entry ∨ ∃ k, o ∈ s.before k) → o.isPure ∧ ∀ v ∈ o.results, m.next ≤ v

/-- A pointer that has lost its type, or an operation that has another operand. -/
def Touched (m : Module) (s : State) : Prop :=
  (∃ k, s.op k ≠ m.ops[k]?) ∨
    ∃ v < m.next, isPtrTypeLike (m.types v) ∧ isPtrTypeLike (s.types v) = false

def Same (m : Module) (s : State) : Prop :=
  (∀ k, s.op k = m.ops[k]?) ∧ ∀ v < m.next, s.types v = m.types v

/-! ## Operations that are only added -/

def Helper (s : State) (o : Op) : Prop := o ∈ s.entry ∨ ∃ k, o ∈ s.before k

/-- `t` is `s` with operations without an effect added. -/
structure Adds (s t : State) : Prop where
  op : t.op = s.op
  offsetMap : t.offsetMap = s.offsetMap
  workList : t.workList = s.workList
  pending : t.pending = s.pending
  ptrUsers : t.ptrUsers = s.ptrUsers
  next : s.next ≤ t.next
  types : ∀ v < s.next, t.types v = s.types v
  helpers : ∀ o, Helper s o → Helper t o
  pure : ∀ o, Helper t o → Helper s o ∨ o.isPure ∧ ∀ v ∈ o.results, s.next ≤ v ∧ v < t.next

theorem Adds.refl (s : State) : Adds s s :=
  ⟨rfl, rfl, rfl, rfl, rfl, le_refl _, fun _ _ => rfl, fun _ ho => ho, fun _ ho => .inl ho⟩

theorem Adds.trans {s t u : State} (h : Adds s t) (h' : Adds t u) : Adds s u where
  op := h'.op.trans h.op
  offsetMap := h'.offsetMap.trans h.offsetMap
  workList := h'.workList.trans h.workList
  pending := h'.pending.trans h.pending
  ptrUsers := h'.ptrUsers.trans h.ptrUsers
  next := h.next.trans h'.next
  types v hv := (h'.types v (hv.trans_le h.next)).trans (h.types v hv)
  helpers o ho := h'.helpers o (h.helpers o ho)
  pure o ho := by
    obtain ho | ⟨hpure, hres⟩ := h'.pure o ho
    · obtain ho | ⟨hpure, hres⟩ := h.pure o ho
      · exact .inl ho
      · exact .inr ⟨hpure, fun v hv => ⟨(hres v hv).1, (hres v hv).2.trans_le h'.next⟩⟩
    · exact .inr ⟨hpure, fun v hv => ⟨h.next.trans (hres v hv).1, (hres v hv).2⟩⟩

theorem mem_before_self {s : State} {o' : Op} (k : ℕ) :
    o' ∈ Function.update s.before k (s.before k ++ [o']) k := by simp

theorem mem_before_of_mem {s : State} {o o' : Op} {k l : ℕ} (h : o ∈ s.before l) :
    o ∈ Function.update s.before k (s.before k ++ [o']) l := by
  by_cases hl : l = k
  · subst hl
    simp [h]
  · rwa [Function.update_of_ne hl]

theorem mem_before_update {s : State} {k l : ℕ} {o o' : Op}
    (h : o ∈ Function.update s.before k (s.before k ++ [o']) l) : o ∈ s.before l ∨ o = o' := by
  by_cases hl : l = k
  · subst hl
    simpa using h
  · rw [Function.update_of_ne hl] at h
    exact .inl h

theorem Adds.create {s : State} {k : ℕ} {t : Ty} (mk : Value → Op)
    (hmk : (mk s.next).isPure ∧ (mk s.next).results = [s.next]) : Adds s (s.create k t mk) where
  op := rfl
  offsetMap := rfl
  workList := rfl
  pending := rfl
  ptrUsers := rfl
  next := Nat.le_succ _
  types v hv := Function.update_of_ne (Nat.ne_of_lt hv) _ _
  helpers o ho := ho.imp id fun ⟨l, hl⟩ => ⟨l, mem_before_of_mem hl⟩
  pure o ho := by
    obtain ho | ⟨l, hl⟩ := ho
    · exact .inl (.inl ho)
    · obtain hl | rfl := mem_before_update hl
      · exact .inl (.inr ⟨l, hl⟩)
      · exact .inr ⟨hmk.1, by simp [hmk.2, State.create]⟩

theorem Adds.extend {s : State} {k : ℕ} {t : Ty} {v : Value} {width resWidth : ℕ} :
    Adds s (s.extend k t v width resWidth).2 := by
  unfold State.extend
  split
  · exact Adds.create (fun res => .cast .extsi res v) ⟨rfl, rfl⟩
  · exact Adds.refl s

theorem Adds.grown {m : Module} {s t : State} (h : Adds s t) (hg : Grown m s) : Grown m t where
  next := hg.next.trans h.next
  entries v e he := hg.entries v e (h.offsetMap ▸ he)
  ops k := h.op ▸ hg.ops k
  pure o ho := by
    obtain ho | ⟨hpure, hres⟩ := h.pure o ho
    · exact hg.pure o ho
    · exact ⟨hpure, fun v hv => hg.next.trans (hres v hv).1⟩

theorem Adds.same {m : Module} {s t : State} (h : Adds s t) (hg : Grown m s) (hs : Same m s) :
    Same m t :=
  ⟨fun k => h.op ▸ hs.1 k, fun v hv => (h.types v (hv.trans_le hg.next)).trans (hs.2 v hv)⟩

theorem Adds.touched {m : Module} {s t : State} (h : Adds s t) (hg : Grown m s)
    (hs : Touched m s) : Touched m t := by
  obtain ⟨k, hk⟩ | ⟨v, hv, hptr, hno⟩ := hs
  · exact .inl ⟨k, h.op ▸ hk⟩
  · exact .inr ⟨v, hv, hptr, (h.types v (hv.trans_le hg.next)) ▸ hno⟩

/-! ## One use -/

/-- What a use that is followed does to the worklist, and to the module. -/
structure Stepped (m : Module) (s : State) (u : Use) (t : State) : Prop where
  grown : Grown m t
  fails : fails m u = false
  workList : t.workList = s.workList ++ pushes m u
  pending : t.pending = if m.ops[u.user]?.any isPtrToInt then [] else s.pending
  ptrUsers : t.ptrUsers = s.ptrUsers ++ accesses m [u]
  same : inPlace m u = false → Same m s → Same m t
  touched : Touched m s ∨ inPlace m u → Touched m t

theorem Grown.insert {m : Module} {s : State} {v : Value} {e : PtrOffset} (hg : Grown m s)
    (hv : v < m.next ∧ isPtrTypeLike (m.types v)) : Grown m (s.insert v e) where
  next := hg.next
  entries w e' he := by
    by_cases hw : w = v
    · exact hw ▸ hv
    · simp only [State.insert, Function.update_of_ne hw] at he
      exact hg.entries w e' he
  ops := hg.ops
  pure := hg.pure

section Handlers

variable {m : Module} {s t : State} {u : Use}

theorem stepped_finishPtr {a : State} {o : Op} {res : Value} {e : PtrOffset} (hg : Grown m s)
    (ho : m.ops[u.user]? = some o) (ha : Adds s a)
    (hv : res < m.next ∧ isPtrTypeLike (m.types res)) (hpush : pushes m u = [res])
    (hkind : isPtrToInt o = false ∧ isFor o = false ∧ isAccess m o = false)
    (hfails : fails m u = false) : Stepped m s u (a.finishPtr u.user res e) where
  grown := by
    have h := (ha.grown hg).insert (e := e) hv
    exact ⟨h.next, h.entries, h.ops, h.pure⟩
  fails := hfails
  workList := by simp [State.finishPtr, State.push, State.insert, ha.workList, hpush]
  pending := by simp [State.finishPtr, State.push, State.insert, ha.pending, ho, hkind.1]
  ptrUsers := by
    simp [State.finishPtr, State.push, State.insert, ha.ptrUsers, accesses, ho, hkind.2.2]
  same _ hs := by
    have h := ha.same hg hs
    exact ⟨h.1, h.2⟩
  touched h := by
    have hplace : inPlace m u = false := by simp [inPlace, ho, hkind.1, hkind.2.1]
    obtain h | h := h
    · have h := ha.touched hg h
      exact h
    · rw [hplace] at h
      cases h

theorem stepped_pass {o : Op} {users : List ℕ} (hg : Grown m s) (ho : m.ops[u.user]? = some o)
    (hpush : pushes m u = []) (hkind : isPtrToInt o = false ∧ isFor o = false)
    (husers : users = s.ptrUsers ++ accesses m [u]) (hfails : fails m u = false) :
    Stepped m s u { s with ptrUsers := users } where
  grown := ⟨hg.next, hg.entries, hg.ops, hg.pure⟩
  fails := hfails
  workList := by simp [hpush]
  pending := by simp [ho, hkind.1]
  ptrUsers := husers
  same _ hs := hs
  touched h := by
    have hplace : inPlace m u = false := by simp [inPlace, ho, hkind.1, hkind.2]
    obtain h | h := h
    · exact h
    · rw [hplace] at h
      cases h

theorem withOffset_success {v : Value} {f : PtrOffset → Outcome}
    (h : s.withOffset v f = .success t) : ∃ e, s.offsetMap v = some e ∧ f e = .success t := by
  unfold State.withOffset at h
  split at h
  next => cases h
  next e he => exact ⟨e, he, h⟩

theorem process_addptr {res ptr offset : Value} {inIf : Bool} (hm : Verified m) (hg : Grown m s)
    (ho : m.ops[u.user]? = some (.addptr res ptr offset inIf))
    (h : processAddPtr m s u.user res ptr offset inIf = .success t) : Stepped m s u t := by
  have hmem := mem_of_getElem? ho
  obtain ⟨htype, hptr, -⟩ := hm.addptr_types _ _ _ _ hmem
  have hres : res < m.next := hm.results_below _ hmem res (by simp [Op.results])
  unfold processAddPtr at h
  split_ifs at h with hif
  obtain ⟨e, he, h⟩ := withOffset_success h
  cases h
  refine stepped_finishPtr hg ho ?_ ⟨hres, htype ▸ hptr⟩ ?_ ⟨rfl, rfl, rfl⟩ ?_
  · exact Adds.extend.trans (Adds.extend.trans (Adds.create _ ⟨rfl, rfl⟩))
  · simp [pushes, ho]
  · simpa [fails, ho] using hif

theorem process_shape {name : ShapeName} {axis : Option ℕ} {res src : Value} (hm : Verified m)
    (hg : Grown m s) (ho : m.ops[u.user]? = some (.shape name axis res src))
    (h : processShape m s u.user name res src = .success t) : Stepped m s u t := by
  have hres : res < m.next :=
    hm.results_below _ (mem_of_getElem? ho) res (by simp [Op.results])
  unfold processShape at h
  split_ifs at h with hptr
  · obtain ⟨e, he, h⟩ := withOffset_success h
    cases h
    refine stepped_finishPtr hg ho ?_ ⟨hres, hptr⟩ ?_ ⟨rfl, rfl, rfl⟩ ?_
    · exact Adds.create _ ⟨rfl, rfl⟩
    · simp [pushes, ho, hptr]
    · simp [fails, ho]
  · simp only [Outcome.success.injEq] at h
    subst h
    refine stepped_pass hg ho ?_ ⟨rfl, rfl⟩ ?_ ?_
    · simp [pushes, ho, hptr]
    · simp [accesses, ho, isAccess]
    · simp [fails, ho]

theorem process_bitcast {res src : Value} (hm : Verified m)
    (hg : Grown m s) (ho : m.ops[u.user]? = some (.bitcast res src))
    (h : processBitcast m s u.user res src = .success t) : Stepped m s u t := by
  have hres : res < m.next :=
    hm.results_below _ (mem_of_getElem? ho) res (by simp [Op.results])
  unfold processBitcast at h
  split_ifs at h with hptr
  · obtain ⟨e, he, h⟩ := withOffset_success h
    dsimp only at h
    split_ifs at h with hbase
    · simp only [Outcome.success.injEq] at h
      subst h
      refine stepped_finishPtr hg ho ?_ ⟨hres, hptr⟩ ?_ ⟨rfl, rfl, rfl⟩ ?_
      · exact Adds.create _ ⟨rfl, rfl⟩
      · simp [pushes, ho, hptr]
      · simp [fails, ho]
    · simp only [Outcome.success.injEq] at h
      subst h
      refine stepped_finishPtr hg ho (Adds.refl s) ⟨hres, hptr⟩ ?_ ⟨rfl, rfl, rfl⟩ ?_
      · simp [pushes, ho, hptr]
      · simp [fails, ho]
  · simp only [Outcome.success.injEq] at h
    subst h
    refine stepped_pass hg ho ?_ ⟨rfl, rfl⟩ ?_ ?_
    · simp [pushes, ho, hptr]
    · simp [accesses, ho, isAccess]
    · simp [fails, ho]

theorem process_ptrToInt {res src : Value} (hm : Verified m) (hg : Grown m s)
    (ho : m.ops[u.user]? = some (.ptrToInt res src))
    (h : processPtrToInt m s u.user res src = .success t) : Stepped m s u t := by
  have hsrc : src < m.next :=
    hm.operands_below _ (mem_of_getElem? ho) src (by simp [Op.operands])
  unfold processPtrToInt at h
  split_ifs at h with hshape
  obtain ⟨e, he, h⟩ := withOffset_success h
  cases h
  have ha : Adds s (s.create u.user e.ptrType fun ptr => .addptr ptr e.ptr e.offset false) :=
    Adds.create _ ⟨rfl, rfl⟩
  have hgrown := ha.grown hg
  have hplace : inPlace m u := by simp [inPlace, ho, isPtrToInt]
  refine ⟨⟨hgrown.next, hgrown.entries, fun k => ?_, hgrown.pure⟩, ?_, ?_, ?_, ?_, ?_, fun _ => ?_⟩
  · by_cases hk : k = u.user
    · exact .inr (by simp [hk, ho, isPtrToInt])
    · simpa [State.setOp, Function.update_of_ne hk] using hgrown.ops k
  · simpa [fails, ho] using hshape
  · simp [State.setOp, ha.workList, pushes, ho]
  · simp [ho, isPtrToInt]
  · simp [State.setOp, ha.ptrUsers, accesses, ho, isAccess]
  · simp [hplace]
  · refine .inl ⟨u.user, ?_⟩
    have hnext := hg.next
    simp only [State.setOp, Function.update_self, ho]
    intro heq
    injection heq with heq
    injection heq with _ heq
    exact absurd (heq ▸ hnext) (Nat.not_le.mpr hsrc)

theorem process_for {loop : Loop} (hm : Verified m) (hg : Grown m s)
    (ho : m.ops[u.user]? = some (.forOp loop))
    (h : processFor s loop (u.operand - 3) = .success t) : Stepped m s u t := by
  have hmem := mem_of_getElem? ho
  unfold processFor at h
  split at h
  next init iterArg res hinit hiter hres =>
    obtain ⟨e, he, h⟩ := withOffset_success h
    cases h
    obtain ⟨-, hptr⟩ := hg.entries init e he
    obtain ⟨⟨hiterMem, hiterType⟩, hresMem, hresType⟩ := hm.loop_values hmem hinit hiter hres
    have hiterNext := hm.results_below _ hmem iterArg hiterMem
    have hresNext := hm.results_below _ hmem res hresMem
    have hgrown := (hg.insert (e := { e with offset := iterArg })
      ⟨hiterNext, hiterType ▸ hptr⟩).insert (e := { e with offset := res })
      ⟨hresNext, hresType ▸ hptr⟩
    have hplace : inPlace m u := by simp [inPlace, ho, isFor]
    refine ⟨⟨hg.next, hgrown.entries, hg.ops, hg.pure⟩, ?_, ?_, ?_, ?_, ?_, fun _ => ?_⟩
    · simp [fails, ho]
    · simp [State.push, State.insert, State.setType, pushes, ho, hiter, hres]
    · simp [State.push, State.insert, State.setType, ho, isPtrToInt]
    · simp [State.push, State.insert, State.setType, accesses, ho, isAccess]
    · simp [hplace]
    · refine .inr ⟨res, hresNext, hresType ▸ hptr, ?_⟩
      simp [State.push, State.insert, State.setType, isPtrTypeLike, getPtrOffsetType]
  next => cases h

theorem process_success (hm : Verified m) (hg : Grown m s) (h : process m s u = .success t) :
    Stepped m s u t := by
  cases ho : m.ops[u.user]? with
  | none => simp [process, ho] at h
  | some o =>
    cases o
    case ptrToInt res src =>
      simp only [process, ho] at h
      exact process_ptrToInt hm hg ho h
    case addptr res ptr offset inIf =>
      simp only [process, ho] at h
      exact process_addptr hm hg ho h
    case bitcast res src =>
      simp only [process, ho] at h
      exact process_bitcast hm hg ho h
    case shape name axis res src =>
      simp only [process, ho] at h
      exact process_shape hm hg ho h
    case forOp loop =>
      simp only [process, ho] at h
      exact process_for hm hg ho h
    case ttsMakeTensorPtr res base offsets rest =>
      simp only [process, ho, pushUser] at h
      split_ifs at h with hbase
      · cases h
        exact stepped_pass hg ho (by simp [pushes, ho]) ⟨rfl, rfl⟩
          (by simp [accesses, ho, isAccess, hbase]) (by simp [fails, ho])
      · cases h
        exact stepped_pass hg ho (by simp [pushes, ho]) ⟨rfl, rfl⟩
          (by simp [accesses, ho, isAccess, hbase]) (by simp [fails, ho])
    case load | store | makeTensorPtr | atomic | yield | makeGatherScatterTensorPtr =>
      simp only [process, ho, pushUser, Outcome.success.injEq] at h
      subst h
      exact stepped_pass hg ho (by simp [pushes, ho]) ⟨rfl, rfl⟩
        (by simp [accesses, ho, isAccess]) (by simp [fails, ho])
    case constant | cast | addi | intToPtr | gather | scatter | cat | compute =>
      simp [process, ho] at h

theorem withOffset_ne_failure {v : Value} {f : PtrOffset → Outcome}
    (hf : ∀ e t, f e ≠ .failure t) : s.withOffset v f ≠ .failure t := by
  unfold State.withOffset
  cases s.offsetMap v with
  | none => simp
  | some e => exact hf e t

theorem process_failure (h : process m s u = .failure t) : fails m u ∧ t = s := by
  cases ho : m.ops[u.user]? with
  | none => simp [process, ho] at h
  | some o =>
    cases o
    case ptrToInt res src =>
      simp only [process, processPtrToInt, ho] at h
      split_ifs at h with hshape
      · cases h
        simpa [fails, ho] using hshape
      · exact absurd h (withOffset_ne_failure fun e t => by simp)
    case addptr res ptr offset inIf =>
      simp only [process, processAddPtr, ho] at h
      split_ifs at h with hif
      · cases h
        simpa [fails, ho] using hif
      · exact absurd h (withOffset_ne_failure fun e t => by simp)
    case bitcast res src =>
      simp only [process, processBitcast, ho] at h
      split_ifs at h
      exact absurd h (withOffset_ne_failure fun e t => by split_ifs <;> simp)
    case shape name axis res src =>
      simp only [process, processShape, ho] at h
      split_ifs at h
      exact absurd h (withOffset_ne_failure fun e t => by simp)
    case forOp loop =>
      simp only [process, processFor, ho] at h
      split at h
      · exact absurd h (withOffset_ne_failure fun e t => by simp)
      · cases h
    case ttsMakeTensorPtr res base offsets rest =>
      simp only [process, pushUser, ho] at h
      split_ifs at h
    case load | store | makeTensorPtr | atomic | yield | makeGatherScatterTensorPtr =>
      simp [process, ho, pushUser] at h
    case constant | cast | addi | intToPtr | gather | scatter | cat | compute =>
      simp only [process, ho, Outcome.failure.injEq] at h
      exact ⟨by simp [fails, ho], h.symm⟩

end Handlers

/-! ## The walk -/

section Walk

variable {m : Module}

/-- What holds after the uses `us`, in terms of the state before them. -/
structure Reached (m : Module) (s : State) (us : List Use) (t : State) : Prop where
  grown : Grown m t
  ptrUsers : t.ptrUsers = s.ptrUsers ++ accesses m us
  same : (∀ u ∈ us, inPlace m u = false) → Same m s → Same m t
  touched : (Touched m s ∨ ∃ u ∈ us, inPlace m u) → Touched m t

theorem accesses_cons (u : Use) (us : List Use) :
    accesses m (u :: us) = accesses m [u] ++ accesses m us := by
  simp only [accesses, ← map_append, ← filter_append, singleton_append]

theorem Reached.cons {s t r : State} {u : Use} {us : List Use} (h : Stepped m s u t)
    (hr : Reached m t us r) : Reached m s (u :: us) r where
  grown := hr.grown
  ptrUsers := by rw [hr.ptrUsers, h.ptrUsers, accesses_cons u us, append_assoc]
  same hno hs := by
    have hu := hno u mem_cons_self
    exact hr.same (fun v hv => hno v (mem_cons_of_mem _ hv)) (h.same hu hs)
  touched hor := by
    refine hr.touched ?_
    obtain hs | ⟨v, hv, hplace⟩ := hor
    · exact .inl (h.touched (.inl hs))
    · obtain rfl | hv := mem_cons.mp hv
      · exact .inl (h.touched (.inr hplace))
      · exact .inr ⟨v, hv, hplace⟩

theorem Reached.nil {s : State} (hg : Grown m s) : Reached m s [] s where
  grown := hg
  ptrUsers := by simp [accesses]
  same _ hs := hs
  touched h := by simpa using h

theorem Grown.move {s : State} (hg : Grown m s) (queue : List Value) (uses : List Use) :
    Grown m { s with workList := queue, pending := uses } :=
  ⟨hg.next, hg.entries, hg.ops, hg.pure⟩

theorem Reached.move {s t : State} {us : List Use} {queue : List Value} {uses : List Use}
    (h : Reached m { s with workList := queue, pending := uses } us t) : Reached m s us t :=
  ⟨h.grown, h.ptrUsers, h.same, h.touched⟩

theorem walk_success (hm : Verified m) {fuel : ℕ} {s t : State} (hg : Grown m s)
    (h : walk m fuel s = some (.success t)) :
    (∀ u ∈ traverse m fuel s.workList s.pending, fails m u = false) ∧
      Reached m s (traverse m fuel s.workList s.pending) t := by
  induction fuel generalizing s with
  | zero => cases h
  | succ fuel ih =>
    cases hp : s.pending with
    | cons u rest =>
      simp only [walk, hp] at h
      have hg' := hg.move s.workList rest
      cases hproc : process m { s with pending := rest } u with
      | crash => simp [hproc] at h
      | failure r => simp [hproc] at h
      | success r =>
        simp only [hproc] at h
        have hstep := process_success hm hg' hproc
        obtain ⟨hfails, hreached⟩ := ih hstep.grown h
        rw [hstep.workList, hstep.pending] at hfails hreached
        rw [traverse]
        exact ⟨forall_mem_cons.mpr ⟨hstep.fails, hfails⟩, (Reached.cons hstep hreached).move⟩
    | nil =>
      cases hw : s.workList with
      | cons v queue =>
        simp only [walk, hp, hw] at h
        rw [traverse]
        obtain ⟨hfails, hreached⟩ := ih (hg.move queue (m.uses v)) h
        exact ⟨hfails, hreached.move⟩
      | nil =>
        simp only [walk, hp, hw, Option.some.injEq, Outcome.success.injEq] at h
        subst h
        rw [traverse]
        exact ⟨by simp, Reached.nil hg⟩

theorem walk_failure (hm : Verified m) {fuel : ℕ} {s t : State} (hg : Grown m s)
    (h : walk m fuel s = some (.failure t)) :
    ∃ done u rest, traverse m fuel s.workList s.pending = done ++ u :: rest ∧
      (∀ v ∈ done, fails m v = false) ∧ fails m u ∧ Reached m s done t := by
  induction fuel generalizing s with
  | zero => cases h
  | succ fuel ih =>
    cases hp : s.pending with
    | cons u rest =>
      simp only [walk, hp] at h
      have hg' := hg.move s.workList rest
      cases hproc : process m { s with pending := rest } u with
      | crash => simp [hproc] at h
      | failure r =>
        simp only [hproc, Option.some.injEq, Outcome.failure.injEq] at h
        subst h
        obtain ⟨hfails, rfl⟩ := process_failure hproc
        rw [traverse]
        exact ⟨[], u, _, rfl, by simp, hfails, (Reached.nil hg').move⟩
      | success r =>
        simp only [hproc] at h
        have hstep := process_success hm hg' hproc
        obtain ⟨done, v, post, heq, hdone, hv, hreached⟩ := ih hstep.grown h
        rw [hstep.workList, hstep.pending] at heq
        rw [traverse]
        refine ⟨u :: done, v, post, ?_, ?_, hv, (Reached.cons hstep hreached).move⟩
        · exact congrArg (u :: ·) heq
        · exact forall_mem_cons.mpr ⟨hstep.fails, hdone⟩
    | nil =>
      cases hw : s.workList with
      | cons v queue =>
        simp only [walk, hp, hw] at h
        rw [traverse]
        obtain ⟨done, u, post, heq, hdone, hu, hreached⟩ := ih (hg.move queue (m.uses v)) h
        exact ⟨done, u, post, heq, hdone, hu, hreached.move⟩
      | nil => simp [walk, hp, hw] at h

end Walk

/-! ## The start -/

section Start

variable {m : Module}

theorem startArg_spec {d : ℕ} {s : State} {arg : Value} (hg : Grown m s) (hs : Same m s)
    (hv : arg < m.next ∧ isPtrTypeLike (m.types arg)) :
    Grown m (startArg d s arg) ∧ Same m (startArg d s arg) ∧
      (startArg d s arg).workList = s.workList ++ [arg] ∧
      (startArg d s arg).pending = s.pending ∧ (startArg d s arg).ptrUsers = s.ptrUsers := by
  refine ⟨⟨hg.next.trans (Nat.le_succ _), (hg.insert hv).entries, hg.ops, fun o ho => ?_⟩,
    ⟨hs.1, fun v hlt => ?_⟩, rfl, rfl, rfl⟩
  · obtain ho | ho := ho
    · obtain ho | ho := mem_append.mp ho
      · exact hg.pure o (.inl ho)
      · obtain rfl := mem_singleton.mp ho
        exact ⟨rfl, by simp [Op.results, hg.next]⟩
    · exact hg.pure o (.inr ho)
  · have hne : v ≠ s.next := Nat.ne_of_lt (hlt.trans_le hg.next)
    simpa [startArg, State.push, State.insert, State.setType, Function.update_of_ne hne]
      using hs.2 v hlt

theorem startIntToPtr_spec (hm : Verified m) {d : ℕ} {s : State} {k : ℕ} (hg : Grown m s)
    (hs : Same m s) :
    Grown m (startIntToPtr m d s k) ∧ Same m (startIntToPtr m d s k) ∧
      (startIntToPtr m d s k).workList = s.workList ++ intToPtrSeed m k ∧
      (startIntToPtr m d s k).pending = s.pending ∧
      (startIntToPtr m d s k).ptrUsers = s.ptrUsers := by
  unfold startIntToPtr
  split
  next res src ho =>
    split_ifs with hshape
    · exact ⟨hg, hs, by simp [intToPtrSeed, ho, hshape], rfl, rfl⟩
    · have hmem := mem_of_getElem? ho
      have hres : res < m.next := hm.results_below _ hmem res (by simp [Op.results])
      have ha : Adds s (s.create k ⟨none, .scalar (.int d)⟩ fun v => .constant v (some 0)) :=
        Adds.create _ ⟨rfl, rfl⟩
      have hgrown := (ha.grown hg).insert (e := ⟨res, m.types res, d, s.next⟩)
        ⟨hres, hm.int_to_ptr_types _ _ hmem⟩
      refine ⟨⟨hgrown.next, hgrown.entries, hgrown.ops, hgrown.pure⟩, ha.same hg hs, ?_, rfl, rfl⟩
      simp [intToPtrSeed, ho, hshape, State.push, State.insert, ha.workList]
  next hne =>
    refine ⟨hg, hs, ?_, rfl, rfl⟩
    unfold intToPtrSeed
    split
    next res src ho => exact absurd ho (hne res src)
    next => simp

theorem foldl_start {β : Type} (f : State → β → State) (seed : β → List Value) (l : List β)
    {s : State} (hg : Grown m s) (hs : Same m s)
    (hf : ∀ b ∈ l, ∀ s, Grown m s → Same m s →
      Grown m (f s b) ∧ Same m (f s b) ∧ (f s b).workList = s.workList ++ seed b ∧
        (f s b).pending = s.pending ∧ (f s b).ptrUsers = s.ptrUsers) :
    Grown m (l.foldl f s) ∧ Same m (l.foldl f s) ∧
      (l.foldl f s).workList = s.workList ++ l.flatMap seed ∧
      (l.foldl f s).pending = s.pending ∧ (l.foldl f s).ptrUsers = s.ptrUsers := by
  induction l generalizing s with
  | nil => exact ⟨hg, hs, by simp, rfl, rfl⟩
  | cons b l ih =>
    obtain ⟨hg', hs', hw, hp, hu⟩ := hf b mem_cons_self s hg hs
    obtain ⟨hg'', hs'', hw', hp', hu'⟩ :=
      ih hg' hs' fun c hc => hf c (mem_cons_of_mem _ hc)
    exact ⟨hg'', hs'', by simp [hw', hw], hp'.trans hp, hu'.trans hu⟩

theorem start_spec (hm : Verified m) (d : ℕ) :
    Grown m (start m d) ∧ Same m (start m d) ∧ (start m d).workList = seeds m ∧
      (start m d).pending = [] ∧ (start m d).ptrUsers = [] := by
  have hg : Grown m (emptyState m) :=
    ⟨le_refl _, fun v e he => (by cases he), fun k => .inl rfl,
      fun o ho => (by obtain ho | ⟨k, ho⟩ := ho <;> cases ho)⟩
  have hs : Same m (emptyState m) := ⟨fun k => rfl, fun v _ => rfl⟩
  obtain ⟨hg, hs, hw, hp, hu⟩ := foldl_start (startArg d) (fun v => [v]) (ptrArgs m) hg hs
    fun v hv s hg hs => by
      obtain ⟨hv, hptr⟩ := mem_filter.mp hv
      exact startArg_spec hg hs ⟨hm.args_below v hv, hptr⟩
  obtain ⟨hg, hs, hw', hp', hu'⟩ := foldl_start (startIntToPtr m d) (intToPtrSeed m)
    (List.range m.ops.length) hg hs fun k _ s hg hs => startIntToPtr_spec hm hg hs
  refine ⟨hg, hs, ?_, hp'.trans hp, hu'.trans hu⟩
  rw [start, hw', hw]
  simp [emptyState, seeds]

end Start

end TritonCpu.TritonToUnstructured
