import Mathlib.Algebra.Order.Ring.Int
import Mathlib.Tactic.Ring
import TritonCpu.UnstructuredAtomic

/-!
# The offsets the pass accumulates

The scalar operations have their values in an environment. For a pointer that a
chain of `tt.addptr` leads to, the entry of the worklist has the argument and a
value that is the sum of the offsets, as long as no sum overflows.
-/

set_option autoImplicit false

namespace TritonCpu.TritonToUnstructured

/-! ## Scalars -/

/-- The signed number that is left of `x` in `width` bits. -/
def wrap (width : ℕ) (x : ℤ) : ℤ := Int.bmod x (2 ^ width)

def bits : Elt → ℕ
  | .index => 64
  | .scalar (.int width) => width
  | _ => 0

/-- `ρ` gives integers their signed value and pointers their address. -/
def Computes (types : Value → Ty) (ρ : Value → ℤ) : Op → Prop
  | .constant res (some value) => ρ res = value
  | .cast .extsi res src => ρ res = ρ src
  | .cast .trunci res src => ρ res = wrap (bits (types res).elt) (ρ src)
  | .cast .indexCast res src => ρ res = wrap (bits (types res).elt) (ρ src)
  | .addi res lhs rhs => ρ res = wrap (bits (types res).elt) (ρ lhs + ρ rhs)
  | .addptr res ptr offset _ => ρ res = ρ ptr + (types res).bytes * ρ offset
  | _ => True

def Evaluates (types : Value → Ty) (ρ : Value → ℤ) (o : Op) : Prop :=
  (∀ v ∈ o.results, (types v).shape = none) → Computes types ρ o

def Models (s : State) (ρ : Value → ℤ) : Prop := ∀ o, Helper s o → Evaluates s.types ρ o

theorem wrap_zero (width : ℕ) : wrap width 0 = 0 := Int.zero_bmod

theorem evaluates_congr {types types' : Value → Ty} {ρ : Value → ℤ} {o : Op}
    (h : ∀ v ∈ o.results, types v = types' v) (ho : Evaluates types ρ o) :
    Evaluates types' ρ o := by
  intro hshape
  have hcomputes := ho fun v hv => by rw [h v hv]; exact hshape v hv
  cases o
  case constant res value =>
    cases value with
    | none => trivial
    | some value => exact hcomputes
  case cast kind res src =>
    have hres := h res (by simp [Op.results])
    cases kind
    case extsi => exact hcomputes
    case trunci | indexCast => simpa only [Computes, hres] using hcomputes
    case sitofp | truncf => trivial
  case addi res lhs rhs =>
    have hres := h res (by simp [Op.results])
    simpa only [Computes, hres] using hcomputes
  case addptr res ptr offset inIf =>
    have hres := h res (by simp [Op.results])
    simpa only [Computes, hres] using hcomputes
  all_goals trivial

theorem evaluates_of_not_pure {types : Value → Ty} {ρ : Value → ℤ} {o : Op}
    (h : o.isPure = false) : Evaluates types ρ o := by
  intro _
  cases o
  case constant | cast | addi | addptr => simp [Op.isPure] at h
  all_goals trivial

/-! ## States that grow -/

/-- `t` has the operations of `s` and others with new results; only pointers of
the module have another type. -/
structure Extends (m : Module) (s t : State) : Prop where
  next : s.next ≤ t.next
  helpers : ∀ o, Helper s o → Helper t o
  fresh : ∀ o, Helper t o → o.isPure → Helper s o ∨ ∀ v ∈ o.results, s.next ≤ v ∧ v < t.next
  types : ∀ v < s.next, m.next ≤ v ∨ isPtrTypeLike (m.types v) = false → t.types v = s.types v

section Extends

variable {m : Module} {s t u : State}

theorem Extends.refl (s : State) : Extends m s s :=
  ⟨le_refl _, fun _ ho => ho, fun _ ho _ => .inl ho, fun _ _ _ => rfl⟩

theorem Extends.trans (h : Extends m s t) (h' : Extends m t u) : Extends m s u where
  next := h.next.trans h'.next
  helpers o ho := h'.helpers o (h.helpers o ho)
  fresh o ho hpure := by
    obtain ho | hnew := h'.fresh o ho hpure
    · obtain ho | hnew := h.fresh o ho hpure
      · exact .inl ho
      · exact .inr fun v hv => ⟨(hnew v hv).1, (hnew v hv).2.trans_le h'.next⟩
    · exact .inr fun v hv => ⟨h.next.trans (hnew v hv).1, (hnew v hv).2⟩
  types v hv hkept := (h'.types v (hv.trans_le h.next) hkept).trans (h.types v hv hkept)

theorem Adds.extends (h : Adds s t) : Extends m s t where
  next := h.next
  helpers := h.helpers
  fresh o ho _ := (h.pure o ho).imp_right And.right
  types v hv _ := h.types v hv

theorem helper_create {k : ℕ} {t : Ty} (mk : Value → Op) :
    Helper (s.create k t mk) (mk s.next) := .inr ⟨k, mem_before_self k⟩

theorem types_create {k : ℕ} {t : Ty} (mk : Value → Op) :
    (s.create k t mk).types s.next = t := Function.update_self ..

theorem Extends.replace {k : ℕ} {o : Op} (hpure : o.isPure = false) :
    Extends m s (s.replace k o) where
  next := le_refl _
  helpers o' ho := by
    obtain ho | ⟨l, hl⟩ := ho
    · exact .inl ho
    · exact .inr ⟨l, mem_before_of_mem hl⟩
  fresh o' ho hpure' := by
    obtain ho | ⟨l, hl⟩ := ho
    · exact .inl (.inl ho)
    · obtain hl | rfl := mem_before_update hl
      · exact .inl (.inr ⟨l, hl⟩)
      · rw [hpure] at hpure'
        cases hpure'
  types _ _ _ := rfl

end Extends

/-! ## Chains of `tt.addptr` -/

/-- `v` is the argument with `n` elements added by a chain of `tt.addptr`; no
sum on the way overflows the widest offset so far, which has `width` bits. -/
inductive Chain (m : Module) (defaultBitWidth : ℕ) (ρ : Value → ℤ) (arg : Value) :
    Value → ℕ → ℤ → Prop
  | arg : arg ∈ ptrArgs m → (m.types arg).shape = none → Chain m defaultBitWidth ρ arg arg
      defaultBitWidth 0
  | addptr {ptr res offset : Value} {inIf : Bool} {width : ℕ} {n : ℤ} :
      Chain m defaultBitWidth ρ arg ptr width n → .addptr res ptr offset inIf ∈ m.ops →
      wrap (max width (getBitWidth (m.types offset))) (n + ρ offset) = n + ρ offset →
      Chain m defaultBitWidth ρ arg res (max width (getBitWidth (m.types offset))) (n + ρ offset)

section Chain

variable {m : Module} {d width : ℕ} {ρ : Value → ℤ} {arg v : Value} {n : ℤ} (hm : Verified m)

include hm

theorem Chain.shape (h : Chain m d ρ arg v width n) :
    (m.types v).shape = none ∧ m.types v = m.types arg := by
  induction h with
  | arg _ hshape => exact ⟨hshape, rfl⟩
  | addptr _ hop _ ih =>
    obtain ⟨htype, -, -⟩ := hm.addptr_types _ _ _ _ hop
    rw [htype]
    exact ih

theorem Chain.address (h : Chain m d ρ arg v width n) (hops : ∀ o ∈ m.ops, Evaluates m.types ρ o) :
    ρ v = ρ arg + (m.types arg).bytes * n := by
  induction h with
  | arg => simp
  | @addptr ptr res offset inIf width n hptr hop hfits ih =>
    obtain ⟨hshape, htype⟩ := (hptr.addptr hop hfits).shape hm
    have hcomputes := hops _ hop (by simpa [Op.results] using hshape)
    simp only [Computes, htype] at hcomputes
    rw [hcomputes, ih]
    ring

theorem Chain.cases_of_result {k : ℕ} {o : Op} (h : Chain m d ρ arg v width n)
    (ho : m.ops[k]? = some o) (hv : v ∈ o.results) : ∃ ptr offset inIf width' n',
      o = .addptr v ptr offset inIf ∧ Chain m d ρ arg ptr width' n' ∧
      width = max width' (getBitWidth (m.types offset)) ∧ n = n' + ρ offset ∧ wrap width n = n := by
  cases h with
  | arg harg =>
    have hundefined := hm.args_undefined o (List.mem_of_getElem? ho) arg hv
    exact absurd (List.mem_filter.mp harg).1 hundefined
  | @addptr ptr res offset inIf width' n' hptr hop hfits =>
    obtain ⟨l, hl⟩ := List.getElem?_of_mem hop
    have hkl := hm.defined_once k l o _ v ho hl hv (by simp [Op.results])
    subst hkl
    rw [ho, Option.some.injEq] at hl
    exact ⟨ptr, offset, inIf, width', n', hl, hptr, rfl, rfl, hfits⟩

theorem not_chain_of_result {k : ℕ} {o : Op} (ho : m.ops[k]? = some o) (hv : v ∈ o.results)
    (hne : ∀ ptr offset inIf, o ≠ .addptr v ptr offset inIf) : ¬ Chain m d ρ arg v width n := by
  intro h
  obtain ⟨ptr, offset, inIf, -, -, heq, -⟩ := h.cases_of_result hm ho hv
  exact hne ptr offset inIf heq

end Chain

/-! ## What the worklist records -/

/-- The entry of a pointer that is `n` elements after the argument. -/
structure Entry (m : Module) (next : Value) (types : Value → Ty) (ρ : Value → ℤ) (arg : Value)
    (width : ℕ) (n : ℤ) (e : PtrOffset) : Prop where
  ptr : e.ptr = arg
  bitWidth : e.bitWidth = width
  scalar : e.ptrType.shape = none
  made : m.next ≤ e.offset ∧ e.offset < next
  type : types e.offset = ⟨none, .scalar (.int width)⟩
  value : ρ e.offset = n

structure Recorded (m : Module) (defaultBitWidth : ℕ) (s : State) : Prop where
  next : m.next ≤ s.next
  made : ∀ o, Helper s o → o.isPure → ∀ v ∈ o.results, m.next ≤ v ∧ v < s.next
  typed : ∀ v < m.next, isPtrTypeLike (m.types v) = false → s.types v = m.types v
  entries : ∀ ρ, Models s ρ → ∀ arg v width n, Chain m defaultBitWidth ρ arg v width n →
    ∀ e, s.offsetMap v = some e → Entry m s.next s.types ρ arg width n e

section Recorded

variable {m : Module} {d : ℕ} {s t : State} {ρ : Value → ℤ}

theorem Recorded.models (hr : Recorded m d s) (h : Extends m s t) (ht : Models t ρ) :
    Models s ρ := by
  intro o ho
  cases hpure : o.isPure with
  | false => exact evaluates_of_not_pure hpure
  | true =>
    refine evaluates_congr (fun v hv => ?_) (ht o (h.helpers o ho))
    obtain ⟨hlow, hhigh⟩ := hr.made o ho hpure v hv
    exact h.types v hhigh (.inl hlow)

theorem Entry.extends {arg : Value} {width : ℕ} {n : ℤ} {e : PtrOffset}
    (he : Entry m s.next s.types ρ arg width n e) (h : Extends m s t) :
    Entry m t.next t.types ρ arg width n e where
  ptr := he.ptr
  bitWidth := he.bitWidth
  scalar := he.scalar
  made := ⟨he.made.1, he.made.2.trans_le h.next⟩
  type := (h.types _ he.made.2 (.inl he.made.1)).trans he.type
  value := he.value

theorem Recorded.extends (hr : Recorded m d s) (h : Extends m s t)
    (hmap : t.offsetMap = s.offsetMap) : Recorded m d t where
  next := hr.next.trans h.next
  made o ho hpure v hv := by
    obtain ho | hnew := h.fresh o ho hpure
    · obtain ⟨hlow, hhigh⟩ := hr.made o ho hpure v hv
      exact ⟨hlow, hhigh.trans_le h.next⟩
    · exact ⟨hr.next.trans (hnew v hv).1, (hnew v hv).2⟩
  typed v hv hptr := (h.types v (hv.trans_le hr.next) (.inr hptr)).trans (hr.typed v hv hptr)
  entries ρ ht arg v width n hchain e he :=
    (hr.entries ρ (hr.models h ht) arg v width n hchain e (hmap ▸ he)).extends h

theorem Recorded.insert (hr : Recorded m d s) {v : Value} {e : PtrOffset}
    (he : ∀ ρ, Models s ρ → ∀ arg width n, Chain m d ρ arg v width n →
      Entry m s.next s.types ρ arg width n e) :
    Recorded m d (s.insert v e) where
  next := hr.next
  made := hr.made
  typed := hr.typed
  entries ρ hs arg w width n hchain e' he' := by
    by_cases hw : w = v
    · subst hw
      cases hold : s.offsetMap w with
      | none =>
        simp only [State.insert, hold, Function.update_self, Option.getD_none,
          Option.some.injEq] at he'
        subst he'
        exact he ρ hs arg width n hchain
      | some old =>
        simp only [State.insert, hold, Function.update_self, Option.getD_some,
          Option.some.injEq] at he'
        subst he'
        exact hr.entries ρ hs arg w width n hchain old hold
    · simp only [State.insert, Function.update_of_ne hw] at he'
      exact hr.entries ρ hs arg w width n hchain e' he'

theorem Recorded.finishPtr (hr : Recorded m d s) {k : ℕ} {res : Value} {e : PtrOffset}
    (he : ∀ ρ, Models s ρ → ∀ arg width n, Chain m d ρ arg res width n →
      Entry m s.next s.types ρ arg width n e) : Recorded m d (s.finishPtr k res e) := by
  have h := hr.insert he
  exact ⟨h.next, h.made, h.typed, h.entries⟩

theorem create_value {k : ℕ} {ρ : Value → ℤ} {ty : Ty} (hshape : ty.shape = none) (mk : Value → Op)
    (hmk : (mk s.next).results = [s.next]) (h : Models (s.create k ty mk) ρ) :
    Computes (s.create k ty mk).types ρ (mk s.next) := by
  refine h _ (helper_create mk) fun v hv => ?_
  rw [hmk, List.mem_singleton] at hv
  subst hv
  rw [types_create]
  exact hshape

theorem extend_value {k : ℕ} {ty : Ty} {v : Value} {width resWidth : ℕ} (hty : ty.shape = none)
    (h : Models (s.extend k ty v width resWidth).2 ρ) :
    ρ (s.extend k ty v width resWidth).1 = ρ v := by
  unfold State.extend at h ⊢
  split_ifs with hlt
  · rw [if_pos hlt] at h
    have hcast := h (.cast .extsi s.next v) (helper_create fun res => .cast .extsi res v)
    refine hcast fun w hw => ?_
    simp only [Op.results, List.mem_singleton] at hw
    subst hw
    rw [types_create]
    exact hty
  · rfl

end Recorded

/-! ## The steps of the worklist -/

section Steps

variable {m : Module} {d : ℕ} {s t : State} {u : Use} (hm : Verified m) (hr : Recorded m d s)

include hm hr

theorem addptr_recorded {res ptr offset : Value} {inIf : Bool}
    (ho : m.ops[u.user]? = some (.addptr res ptr offset inIf))
    (h : processAddPtr m s u.user res ptr offset inIf = .success t) : Recorded m d t := by
  unfold processAddPtr at h
  split_ifs at h with hif
  obtain ⟨e, he, h⟩ := withOffset_success h
  cases h
  generalize hprev : s.extend u.user e.ptrType e.offset e.bitWidth
    (max e.bitWidth (getBitWidth (m.types offset))) = prevOff
  generalize hoff : prevOff.2.extend u.user e.ptrType offset (getBitWidth (m.types offset))
    (max e.bitWidth (getBitWidth (m.types offset))) = off
  have hext : Extends m s prevOff.2 := hprev ▸ Adds.extend.extends
  have hext' : Extends m prevOff.2 off.2 := hoff ▸ Adds.extend.extends
  have hcreate : Extends m off.2 (off.2.create u.user (getPtrOffsetType (m.types res)
      (max e.bitWidth (getBitWidth (m.types offset)))) fun accumulatedOff =>
        .addi accumulatedOff prevOff.1 off.1) :=
    (Adds.create (fun accumulatedOff => .addi accumulatedOff prevOff.1 off.1) ⟨rfl, rfl⟩).extends
  have hprevR := hr.extends hext (by rw [← hprev]; exact Adds.extend.offsetMap)
  have hoffR := hprevR.extends hext' (by rw [← hoff]; exact Adds.extend.offsetMap)
  refine (hoffR.extends hcreate rfl).finishPtr fun ρ hmodels arg width n hchain => ?_
  have hmodels' := hoffR.models hcreate hmodels
  have hmodelsPrev := hprevR.models hext' hmodels'
  obtain ⟨hshape, -⟩ := hchain.shape hm
  obtain ⟨ptr', offset', inIf', width', n', heq, hptr, rfl, rfl, hfits⟩ :=
    hchain.cases_of_result hm ho (by simp [Op.results])
  injection heq with _ hp hof hi
  subst hp
  subst hof
  have hentry := hr.entries ρ (hr.models hext hmodelsPrev) arg ptr width' n' hptr e he
  have hprevValue : ρ prevOff.1 = n' := by
    rw [← hentry.value]
    subst hprev
    exact extend_value hentry.scalar hmodelsPrev
  have hoffValue : ρ off.1 = ρ offset := by
    subst hoff
    exact extend_value hentry.scalar hmodels'
  have hscalar : (getPtrOffsetType (m.types res) (max e.bitWidth
      (getBitWidth (m.types offset)))).shape = none := hshape
  have hsum := create_value hscalar (fun accumulatedOff => .addi accumulatedOff prevOff.1 off.1)
    rfl hmodels
  simp only [Computes, types_create, getPtrOffsetType, bits, hprevValue, hoffValue,
    hentry.bitWidth] at hsum
  refine ⟨hentry.ptr, by rw [hentry.bitWidth], hshape, ⟨hoffR.next, Nat.lt_succ_self _⟩, ?_,
    hsum.trans hfits⟩
  simp only [types_create, getPtrOffsetType, hshape, hentry.bitWidth]

theorem finishPtr_recorded {a : State} {o : Op} {res : Value} {e : PtrOffset} (ha : Extends m s a)
    (hmap : a.offsetMap = s.offsetMap) (ho : m.ops[u.user]? = some o) (hres : res ∈ o.results)
    (hne : ∀ ptr offset inIf, o ≠ .addptr res ptr offset inIf) :
    Recorded m d (a.finishPtr u.user res e) :=
  (hr.extends ha hmap).finishPtr fun _ _ _ _ _ hchain =>
    absurd hchain (not_chain_of_result hm ho hres hne)

theorem shape_recorded {name : ShapeName} {axis : Option ℕ} {res src : Value}
    (ho : m.ops[u.user]? = some (.shape name axis res src))
    (h : processShape m s u.user name res src = .success t) : Recorded m d t := by
  unfold processShape at h
  split_ifs at h
  · obtain ⟨e, -, h⟩ := withOffset_success h
    simp only [Outcome.success.injEq] at h
    subst h
    exact finishPtr_recorded hm hr
      (Adds.create (fun clone => .shape name none clone e.offset) ⟨rfl, rfl⟩).extends rfl ho
      (by simp [Op.results]) (by simp)
  · cases h
    exact hr

theorem bitcast_recorded {res src : Value} (ho : m.ops[u.user]? = some (.bitcast res src))
    (h : processBitcast m s u.user res src = .success t) : Recorded m d t := by
  unfold processBitcast at h
  split_ifs at h
  · obtain ⟨e, -, h⟩ := withOffset_success h
    dsimp only at h
    split_ifs at h
    · cases h
      exact finishPtr_recorded hm hr
        (Adds.create (fun newBase => .bitcast newBase e.ptr) ⟨rfl, rfl⟩).extends rfl ho
        (by simp [Op.results]) (by simp)
    · cases h
      exact finishPtr_recorded hm hr (Extends.refl s) rfl ho (by simp [Op.results]) (by simp)
  · cases h
    exact hr

omit hm in
theorem ptrToInt_recorded {res src : Value}
    (h : processPtrToInt m s u.user res src = .success t) : Recorded m d t := by
  unfold processPtrToInt at h
  split_ifs at h
  obtain ⟨e, -, h⟩ := withOffset_success h
  cases h
  have hcreate : Extends m s (s.create u.user e.ptrType fun ptr =>
      .addptr ptr e.ptr e.offset false) :=
    (Adds.create (fun ptr => .addptr ptr e.ptr e.offset false) ⟨rfl, rfl⟩).extends
  have hr' := hr.extends hcreate rfl
  exact ⟨hr'.next, hr'.made, hr'.typed, hr'.entries⟩

theorem for_recorded {loop : Loop} (hg : Grown m s) (ho : m.ops[u.user]? = some (.forOp loop))
    (h : processFor s loop (u.operand - 3) = .success t) : Recorded m d t := by
  have hmem := List.mem_of_getElem? ho
  unfold processFor at h
  split at h
  next init iterArg res hinit hiter hres =>
    obtain ⟨e, he, h⟩ := withOffset_success h
    cases h
    obtain ⟨-, hptr⟩ := hg.entries init e he
    obtain ⟨⟨hiterMem, hiterType⟩, hresMem, hresType⟩ := hm.loop_values hmem hinit hiter hres
    have hext : Extends m s ((s.setType iterArg (getPtrOffsetType e.ptrType e.bitWidth)).setType
        res (getPtrOffsetType e.ptrType e.bitWidth)) := by
      refine ⟨le_refl _, fun _ ho => ho, fun _ ho _ => .inl ho, fun v _ hkept => ?_⟩
      have hne : ∀ w ∈ (Op.forOp loop).results, isPtrTypeLike (m.types w) → v ≠ w := by
        rintro w hw hwptr rfl
        have hbelow := hm.results_below _ hmem v hw
        obtain hv | hv := hkept
        · exact absurd hbelow (Nat.not_lt.mpr hv)
        · rw [hwptr] at hv
          cases hv
      simp only [State.setType]
      rw [Function.update_of_ne (hne res hresMem (hresType ▸ hptr)),
        Function.update_of_ne (hne iterArg hiterMem (hiterType ▸ hptr))]
    have hr' := ((hr.extends hext rfl).insert (e := { e with offset := iterArg })
      fun _ _ _ _ _ hchain => absurd hchain
        (not_chain_of_result hm ho hiterMem (by simp))).insert (e := { e with offset := res })
      fun _ _ _ _ _ hchain => absurd hchain (not_chain_of_result hm ho hresMem (by simp))
    exact ⟨hr'.next, hr'.made, hr'.typed, hr'.entries⟩
  next => cases h

theorem process_recorded (hg : Grown m s) (h : process m s u = .success t) : Recorded m d t := by
  cases ho : m.ops[u.user]? with
  | none => simp [process, ho] at h
  | some o =>
    cases o
    case ptrToInt res src =>
      simp only [process, ho] at h
      exact ptrToInt_recorded hr h
    case addptr res ptr offset inIf =>
      simp only [process, ho] at h
      exact addptr_recorded hm hr ho h
    case bitcast res src =>
      simp only [process, ho] at h
      exact bitcast_recorded hm hr ho h
    case shape name axis res src =>
      simp only [process, ho] at h
      exact shape_recorded hm hr ho h
    case forOp loop =>
      simp only [process, ho] at h
      exact for_recorded hm hr hg ho h
    case ttsMakeTensorPtr res base offsets rest =>
      simp only [process, ho, pushUser] at h
      split_ifs at h
      all_goals
        cases h
        exact ⟨hr.next, hr.made, hr.typed, hr.entries⟩
    case load | store | makeTensorPtr | atomic | yield | makeGatherScatterTensorPtr =>
      simp only [process, ho, pushUser, Outcome.success.injEq] at h
      subst h
      exact ⟨hr.next, hr.made, hr.typed, hr.entries⟩
    case constant | cast | addi | intToPtr | gather | scatter | cat | compute =>
      simp [process, ho] at h

theorem walk_recorded {fuel : ℕ} (hg : Grown m s) (h : walk m fuel s = some (.success t)) :
    Recorded m d t := by
  induction fuel generalizing s with
  | zero => cases h
  | succ fuel ih =>
    cases hp : s.pending with
    | cons u rest =>
      simp only [walk, hp] at h
      have hg' := hg.move s.workList rest
      have hr' : Recorded m d { s with pending := rest } :=
        ⟨hr.next, hr.made, hr.typed, hr.entries⟩
      cases hproc : process m { s with pending := rest } u with
      | crash => simp [hproc] at h
      | failure q => simp [hproc] at h
      | success q =>
        simp only [hproc] at h
        exact ih (process_recorded hm hr' hg' hproc) (process_success hm hg' hproc).grown h
    | nil =>
      cases hw : s.workList with
      | cons v queue =>
        simp only [walk, hp, hw] at h
        have hr' : Recorded m d { s with pending := m.uses v, workList := queue } :=
          ⟨hr.next, hr.made, hr.typed, hr.entries⟩
        exact ih hr' (hg.move queue (m.uses v)) h
      | nil =>
        simp only [walk, hp, hw, Option.some.injEq, Outcome.success.injEq] at h
        subst h
        exact hr

end Steps

/-! ## The start -/

section Start

variable {m : Module} {d : ℕ} {s : State} (hm : Verified m) (hr : Recorded m d s)

include hm hr

theorem startArg_recorded {arg : Value} (harg : arg ∈ ptrArgs m)
    (htype : s.types arg = m.types arg) : Recorded m d (startArg d s arg) := by
  let a : State := { s.setType s.next ⟨none, .scalar (.int d)⟩ with
    entry := s.entry ++ [.constant s.next (some 0)]
    next := s.next + 1 }
  have hext : Extends m s a := by
    refine ⟨Nat.le_succ _, fun o ho => ?_, fun o ho _ => ?_, fun v hv _ => ?_⟩
    · obtain ho | ho := ho
      · exact .inl (List.mem_append_left _ ho)
      · exact .inr ho
    · obtain ho | ho := ho
      · obtain ho | ho := List.mem_append.mp ho
        · exact .inl (.inl ho)
        · obtain rfl := List.mem_singleton.mp ho
          exact .inr (by simp [Op.results, a])
      · exact .inl (.inr ho)
    · exact Function.update_of_ne (Nat.ne_of_lt hv) _ _
  have hnew : a.types s.next = ⟨none, .scalar (.int d)⟩ := Function.update_self ..
  have hr' := (hr.extends hext rfl).insert (v := arg) (e := ⟨arg, s.types arg, d, s.next⟩)
    fun ρ hmodels arg' width n hchain => by
      obtain ⟨hshape, -⟩ := hchain.shape hm
      cases hchain with
      | arg =>
        have hzero := hmodels (.constant s.next (some 0))
          (.inl (List.mem_append_right _ (List.mem_singleton_self _)))
          (by simp [Op.results, hnew])
        exact ⟨rfl, rfl, by rw [htype]; exact hshape, ⟨hr.next, Nat.lt_succ_self _⟩, hnew, hzero⟩
      | @addptr ptr res offset inIf width n hptr hop hfits =>
        have hundefined := hm.args_undefined _ hop arg (by simp [Op.results])
        exact absurd (List.mem_filter.mp harg).1 hundefined
  exact ⟨hr'.next, hr'.made, hr'.typed, hr'.entries⟩

theorem startIntToPtr_recorded (k : ℕ) : Recorded m d (startIntToPtr m d s k) := by
  unfold startIntToPtr
  split
  next res src ho =>
    split_ifs
    · exact hr
    · have hext : Extends m s (s.create k ⟨none, .scalar (.int d)⟩ fun v =>
          .constant v (some 0)) := (Adds.create (fun v => .constant v (some 0)) ⟨rfl, rfl⟩).extends
      have hr' := (hr.extends hext rfl).insert (v := res) (e := ⟨res, m.types res, d, s.next⟩)
        fun _ _ _ _ _ hchain =>
          absurd hchain (not_chain_of_result hm ho (by simp [Op.results]) (by simp))
      exact ⟨hr'.next, hr'.made, hr'.typed, hr'.entries⟩
  next => exact hr

end Start

theorem start_recorded {m : Module} (hm : Verified m) (d : ℕ) : Recorded m d (start m d) := by
  have hempty : Recorded m d (emptyState m) :=
    ⟨le_refl _, fun o ho => (by obtain ho | ⟨k, ho⟩ := ho <;> cases ho), fun v _ _ => rfl,
      fun _ _ _ _ _ _ _ e he => (by cases he)⟩
  have hg : Grown m (emptyState m) :=
    ⟨le_refl _, fun v e he => (by cases he), fun k => .inl rfl,
      fun o ho => (by obtain ho | ⟨k, ho⟩ := ho <;> cases ho)⟩
  have hargs : ∀ (args : List Value) (s : State), (∀ v ∈ args, v ∈ ptrArgs m) → Grown m s →
      Same m s → Recorded m d s → Recorded m d (args.foldl (startArg d) s) := by
    intro args
    induction args with
    | nil => exact fun s _ _ _ hr => hr
    | cons arg args ih =>
      intro s hmem hg hs hr
      have harg := hmem arg List.mem_cons_self
      obtain ⟨hv, hptr⟩ := List.mem_filter.mp harg
      have hbelow := hm.args_below arg hv
      obtain ⟨hg', hs', -⟩ := startArg_spec (d := d) hg hs ⟨hbelow, hptr⟩
      exact ih _ (fun v hv => hmem v (List.mem_cons_of_mem _ hv)) hg' hs'
        (startArg_recorded hm hr harg (hs.2 arg hbelow))
  have hptrs : ∀ (ks : List ℕ) (s : State), Recorded m d s →
      Recorded m d (ks.foldl (startIntToPtr m d) s) := by
    intro ks
    induction ks with
    | nil => exact fun s hr => hr
    | cons k ks ih => exact fun s hr => ih _ (startIntToPtr_recorded hm hr k)
  exact hptrs _ _ (hargs _ _ (fun v hv => hv) hg ⟨fun k => rfl, fun v _ => rfl⟩ hempty)

/-! ## Rewriting the accesses -/

section Rewriting

variable {m : Module} {s t : State} {k : ℕ}

/-- What an access leaves: only the operation at its own place is another. -/
structure Rewrites (m : Module) (s : State) (k : ℕ) (t : State) : Prop where
  ext : Extends m s t
  offsetMap : t.offsetMap = s.offsetMap
  op : ∀ l, l ≠ k → t.op l = s.op l

theorem rewriteUser_rewrites (h : rewriteUser m s k = .success t) : Rewrites m s k t := by
  obtain ⟨-, -, a, ha, ⟨o, v, -, -, rfl⟩ | ⟨o, hpure, rfl⟩⟩ := rewriteUser_cases h
  · exact ⟨⟨ha.next, ha.helpers, (ha.extends (m := m)).fresh, ha.extends.types⟩, ha.offsetMap,
      fun l hl => (Function.update_of_ne hl _ _).trans (congrFun ha.op l)⟩
  · exact ⟨ha.extends.trans (Extends.replace hpure), ha.offsetMap,
      fun l hl => (Function.update_of_ne hl _ _).trans (congrFun ha.op l)⟩

theorem rewriteUsers_cons {ks : List ℕ} {r : State}
    (h : rewriteUsers m (k :: ks) s = .success r) :
    ∃ t, rewriteUser m s k = .success t ∧ rewriteUsers m ks t = .success r := by
  cases hk : rewriteUser m s k with
  | success t => exact ⟨t, rfl, by simpa [rewriteUsers, hk] using h⟩
  | failure t => simp [rewriteUsers, hk] at h
  | crash => simp [rewriteUsers, hk] at h

theorem rewriteUsers_extends {ks : List ℕ} {s t : State} (h : rewriteUsers m ks s = .success t) :
    Extends m s t := by
  induction ks generalizing s with
  | nil =>
    cases h
    exact Extends.refl _
  | cons k ks ih =>
    obtain ⟨r, hk, h⟩ := rewriteUsers_cons h
    exact (rewriteUser_rewrites hk).ext.trans (ih h)

end Rewriting

end TritonCpu.TritonToUnstructured
