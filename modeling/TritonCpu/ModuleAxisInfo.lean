import TritonCpu.CallGraph
import TritonCpu.AlignedGroups
import Mathlib.Data.BitVec

/-!
# Axis info across calls

The infos of a function are computed from the attributes of its arguments, and
then weaken the attributes of the arguments of its callees. In the order of the
analysis a function comes after all its callers, so no attribute it was analysed
with changes afterwards, and every attribute divides the entries of each value
that is passed.
-/

set_option autoImplicit false

namespace TritonCpu.ModuleAxisInfo
open CallWalk AlignedGroups List

variable {F V : Type}

/-- The entries are `int64_t`: an attribute can hold any. -/
def gcdImpl (a b : ℤ) : ℤ := if a = 0 then b else gcdImpl (b.tmod a) a
termination_by a.natAbs
decreasing_by
  rw [Int.natAbs_tmod]
  exact Nat.mod_lt _ (Int.natAbs_pos.mpr ‹_›)

def gcd (a b : ℤ) : ℤ := if a = 0 then b else if b = 0 then a else gcdImpl a b

theorem gcdImpl_dvd (a b : ℤ) : gcdImpl a b ∣ a ∧ gcdImpl a b ∣ b := by
  induction a, b using gcdImpl.induct with
  | case1 b =>
    rw [gcdImpl, if_pos rfl]
    exact ⟨dvd_zero b, dvd_rfl⟩
  | case2 a b h ih =>
    rw [gcdImpl, if_neg h]
    refine ⟨ih.2, ?_⟩
    have hsum := Int.dvd_add ih.1 (ih.2.mul_right (b.tdiv a))
    rwa [Int.tmod_add_mul_tdiv] at hsum

theorem gcd_dvd (a b : ℤ) : gcd a b ∣ a ∧ gcd a b ∣ b := by
  unfold gcd
  split
  · exact ⟨‹a = 0› ▸ dvd_zero b, dvd_rfl⟩
  split
  · exact ⟨dvd_rfl, ‹b = 0› ▸ dvd_zero a⟩
  · exact gcdImpl_dvd a b

/-- `highestPowOf2Divisor<int64_t>(0)`. -/
def maxDivisor : ℤ := 2 ^ 62

/-- The info of a scalar, which has one dimension. -/
structure ScalarInfo where
  contiguity : ℤ
  divisibility : ℤ
  constancy : ℤ

def ScalarInfo.join (lhs rhs : ScalarInfo) : ScalarInfo where
  contiguity := gcd lhs.contiguity rhs.contiguity
  divisibility := gcd lhs.divisibility rhs.divisibility
  constancy := gcd lhs.constancy rhs.constancy

/-- `tt.contiguity`, `tt.divisibility` and `tt.constancy` of an argument. -/
structure ArgAttrs where
  contiguity : Option ℤ
  divisibility : Option ℤ
  constancy : Option ℤ

structure CallOp (F V : Type) where
  callee : F
  operands : List V

/-- A module whose calls resolve. -/
structure ModuleOp (F V : Type) where
  funcs : List F
  calls : F → List (CallOp F V)
  nodup : funcs.Nodup
  resolved : ∀ f ∈ funcs, ∀ callOp ∈ calls f, callOp.callee ∈ funcs

def ModuleOp.callGraph (m : ModuleOp F V) : CallGraph F where
  funcs := m.funcs
  graph f := (m.calls f).map CallOp.callee
  nodup := m.nodup
  resolved f hf g hg := by
    obtain ⟨callOp, hcall, rfl⟩ := mem_map.mp hg
    exact m.resolved f hf callOp hcall

structure State (F V : Type) where
  funcMap : F → V → Option ScalarInfo
  argAttrs : F → ℕ → ArgAttrs

section Analysis

variable [DecidableEq F] (dataflow : F → (ℕ → ArgAttrs) → V → ScalarInfo)

def initializeFunc (f : F) (s : State F V) : State F V :=
  let updateAxisInfoMap (value : V) : ScalarInfo :=
    let axisInfo := dataflow f (s.argAttrs f) value
    match s.funcMap f value with
    | some previous => axisInfo.join previous
    | none => axisInfo
  { s with funcMap := Function.update s.funcMap f fun value => some (updateAxisInfoMap value) }

def setAttrFn (attr : Option ℤ) (prevValue : ℤ) : Option ℤ :=
  some (gcd prevValue (attr.getD maxDivisor))

def ArgAttrs.update (attrs : ArgAttrs) (axisInfo : ScalarInfo) : ArgAttrs where
  contiguity := setAttrFn attrs.contiguity axisInfo.contiguity
  divisibility := setAttrFn attrs.divisibility axisInfo.divisibility
  constancy := setAttrFn attrs.constancy axisInfo.constancy

def State.setArgAttrs (s : State F V) (callee : F) (index : ℕ) (attrs : ArgAttrs) : State F V where
  funcMap := s.funcMap
  argAttrs := Function.update s.argAttrs callee (Function.update (s.argAttrs callee) index attrs)

/-- The operands from a position on. An operand without an info fails the assertion
that it is a scalar. -/
def updateFrom (caller callee : F) : ℕ → List V → State F V → Option (State F V)
  | _, [], s => some s
  | index, value :: operands, s =>
    match s.funcMap caller value with
    | none => none
    | some axisInfo =>
      updateFrom caller callee (index + 1) operands
        (s.setArgAttrs callee index ((s.argAttrs callee index).update axisInfo))

def update (caller : F) (callOp : CallOp F V) (s : State F V) : Option (State F V) :=
  updateFrom caller callOp.callee 0 callOp.operands s

def updateAll (caller : F) : List (CallOp F V) → State F V → Option (State F V)
  | [], s => some s
  | callOp :: calls, s => do
    let s ← update caller callOp s
    updateAll caller calls s

/-- The functions in the order of their analysis. Each of the roots starts the walk
from all roots. -/
def sortedFuncs (m : ModuleOp F V) (fuel : ℕ) : Option (List F) := do
  let funcs ← CallGraph.visitEach (fun _ => m.callGraph.walk fuel) m.callGraph.roots
  some (setVector funcs).reverse

def analyse (m : ModuleOp F V) : List F → State F V → Option (State F V)
  | [], s => some s
  | f :: funcs, s => do
    let s ← updateAll f (m.calls f) (initializeFunc dataflow f s)
    analyse m funcs s

def moduleAxisInfoAnalysis (m : ModuleOp F V) (argAttrs : F → ℕ → ArgAttrs) (fuel : ℕ) :
    Option (State F V) := do
  let funcs ← sortedFuncs m fuel
  analyse dataflow m funcs { funcMap := fun _ _ => none, argAttrs }

end Analysis

/-- The attributes are there and divide the entries. -/
structure Below (attrs : ArgAttrs) (info : ScalarInfo) : Prop where
  contiguity : ∃ c, attrs.contiguity = some c ∧ c ∣ info.contiguity
  divisibility : ∃ d, attrs.divisibility = some d ∧ d ∣ info.divisibility
  constancy : ∃ k, attrs.constancy = some k ∧ k ∣ info.constancy

/-- What changes between two states while a function other than the callees is
analysed: attributes get weaker, and only those of the callees. -/
structure Weakened (callees : List F) (s t : State F V) : Prop where
  funcMap : t.funcMap = s.funcMap
  frame : ∀ g, g ∉ callees → t.argAttrs g = s.argAttrs g
  below : ∀ g k info, Below (s.argAttrs g k) info → Below (t.argAttrs g k) info

theorem Weakened.refl (callees : List F) (s : State F V) : Weakened callees s s where
  funcMap := rfl
  frame _ _ := rfl
  below _ _ _ h := h

theorem Weakened.trans {callees callees' : List F} {s t u : State F V} (h : Weakened callees s t)
    (h' : Weakened callees' t u) : Weakened (callees ++ callees') s u where
  funcMap := h'.funcMap.trans h.funcMap
  frame g hg := by
    rw [mem_append, not_or] at hg
    exact (h'.frame g hg.2).trans (h.frame g hg.1)
  below g k info hbelow := h'.below g k info (h.below g k info hbelow)

section Update

variable [DecidableEq F] {s t : State F V} {caller callee g : F} {index : ℕ}

theorem setAttrFn_dvd (attr : Option ℤ) (prevValue : ℤ) :
    ∃ a, setAttrFn attr prevValue = some a ∧ a ∣ prevValue :=
  ⟨_, rfl, (gcd_dvd _ _).1⟩

theorem setAttrFn_keeps {attr : Option ℤ} {x : ℤ} (h : ∃ a, attr = some a ∧ a ∣ x) (prevValue : ℤ) :
    ∃ a, setAttrFn attr prevValue = some a ∧ a ∣ x := by
  obtain ⟨a, rfl, ha⟩ := h
  exact ⟨_, rfl, (gcd_dvd _ _).2.trans ha⟩

theorem below_update (attrs : ArgAttrs) (info : ScalarInfo) : Below (attrs.update info) info where
  contiguity := setAttrFn_dvd _ _
  divisibility := setAttrFn_dvd _ _
  constancy := setAttrFn_dvd _ _

theorem Below.update {attrs : ArgAttrs} {info : ScalarInfo} (h : Below attrs info)
    (other : ScalarInfo) : Below (attrs.update other) info where
  contiguity := setAttrFn_keeps h.contiguity _
  divisibility := setAttrFn_keeps h.divisibility _
  constancy := setAttrFn_keeps h.constancy _

@[simp] theorem setArgAttrs_self (attrs : ArgAttrs) :
    (s.setArgAttrs callee index attrs).argAttrs callee index = attrs := by
  simp [State.setArgAttrs]

theorem setArgAttrs_of_ne (attrs : ArgAttrs) {k : ℕ} (h : g ≠ callee ∨ k ≠ index) :
    (s.setArgAttrs callee index attrs).argAttrs g k = s.argAttrs g k := by
  by_cases hg : g = callee
  · subst hg
    have hk : k ≠ index := h.resolve_left fun hne => hne rfl
    simp [State.setArgAttrs, hk]
  · simp [State.setArgAttrs, hg]

theorem weakened_setArgAttrs (s : State F V) (callee : F) (index : ℕ) (info : ScalarInfo) :
    Weakened [callee] s (s.setArgAttrs callee index ((s.argAttrs callee index).update info)) where
  funcMap := rfl
  frame g hg := by
    funext k
    exact setArgAttrs_of_ne _ (Or.inl fun h => hg (mem_singleton.mpr h))
  below g k other hbelow := by
    by_cases hsame : g = callee ∧ k = index
    · obtain ⟨rfl, rfl⟩ := hsame
      rw [setArgAttrs_self]
      exact hbelow.update info
    · rw [setArgAttrs_of_ne]
      · exact hbelow
      · exact not_and_or.mp hsame

theorem updateFrom_spec {operands : List V} (index : ℕ)
    (h : ∀ value ∈ operands, ∃ info, s.funcMap caller value = some info) :
    ∃ t, updateFrom caller callee index operands s = some t ∧ Weakened [callee] s t ∧
      ∀ j value info, operands[j]? = some value → s.funcMap caller value = some info →
        Below (t.argAttrs callee (index + j)) info := by
  induction operands generalizing index s with
  | nil =>
    refine ⟨s, rfl, Weakened.refl _ s, ?_⟩
    intro j value info hj
    simp at hj
  | cons first operands ih =>
    obtain ⟨axisInfo, hinfo⟩ := h first mem_cons_self
    have hset := weakened_setArgAttrs s callee index axisInfo
    obtain ⟨t, hrun, hweak, hbelow⟩ := ih (index + 1)
      (s := s.setArgAttrs callee index ((s.argAttrs callee index).update axisInfo))
      (fun value hvalue => h value (mem_cons_of_mem _ hvalue))
    refine ⟨t, ?_, ?_, ?_⟩
    · rw [updateFrom, hinfo]
      exact hrun
    · constructor
      · exact hweak.funcMap.trans hset.funcMap
      · exact fun g hg => (hweak.frame g hg).trans (hset.frame g hg)
      · exact fun g k info hb => hweak.below g k info (hset.below g k info hb)
    · intro j value info hj hvalue
      cases j with
      | zero =>
        obtain rfl : first = value := by simpa using hj
        obtain rfl : axisInfo = info := Option.some.inj (hinfo.symm.trans hvalue)
        apply hweak.below
        rw [Nat.add_zero, setArgAttrs_self]
        exact below_update _ _
      | succ j =>
        have hstep := hbelow j value info (by simpa using hj) hvalue
        rwa [Nat.add_right_comm, Nat.add_assoc] at hstep

theorem updateAll_spec (calls : List (CallOp F V))
    (h : ∀ value, ∃ info, s.funcMap caller value = some info) :
    ∃ t, updateAll caller calls s = some t ∧ Weakened (calls.map CallOp.callee) s t ∧
      ∀ callOp ∈ calls, ∀ (j : ℕ) (value : V) (info : ScalarInfo),
        callOp.operands[j]? = some value → s.funcMap caller value = some info →
          Below (t.argAttrs callOp.callee j) info := by
  induction calls generalizing s with
  | nil => exact ⟨s, rfl, Weakened.refl _ s, fun callOp hcall => absurd hcall not_mem_nil⟩
  | cons first calls ih =>
    obtain ⟨s', hfirst, hweak, hbelow⟩ := updateFrom_spec 0
      fun value (_ : value ∈ first.operands) => h value
    obtain ⟨t, hrest, hweak', hbelow'⟩ := ih (s := s') fun value => by
      rw [hweak.funcMap]
      exact h value
    refine ⟨t, ?_, ?_, ?_⟩
    · rw [updateAll, update, hfirst]
      exact hrest
    · exact hweak.trans hweak'
    · intro callOp hcall j value info hj hvalue
      rcases mem_cons.mp hcall with rfl | hcall
      · apply hweak'.below
        have hfrom := hbelow j value info hj hvalue
        rwa [Nat.zero_add] at hfrom
      · exact hbelow' callOp hcall j value info hj (by rwa [hweak.funcMap])

end Update

section Order

variable [DecidableEq F] {m : ModuleOp F V} {fuel : ℕ} {funcs : List F}

theorem mem_sortedFuncs (h : m.callGraph.Acyclic) (hsorted : sortedFuncs m fuel = some funcs)
    (f : F) : f ∈ funcs ↔ f ∈ m.funcs := by
  obtain ⟨visits, hvisits, hfuncs⟩ := Option.bind_eq_some_iff.mp hsorted
  obtain rfl := Option.some.inj hfuncs
  rw [mem_reverse, mem_setVector, CallGraph.mem_visitEach hvisits]
  constructor
  · rintro ⟨root, _, l, hwalk, hf⟩
    exact CallGraph.walk_subset hwalk f hf
  · intro hf
    -- there is a function, so there is a root
    have hroot : ∃ root, root ∈ m.callGraph.roots := by
      refine h.callers_induction (P := fun _ => ∃ root, root ∈ m.callGraph.roots) ?_ ?_ f hf
      · exact fun root hroot => ⟨root, hroot⟩
      · exact fun _ _ _ hcaller => hcaller
    obtain ⟨root, hroot⟩ := hroot
    obtain ⟨l, hwalk⟩ := CallGraph.visitEach_some hvisits hroot
    exact ⟨root, hroot, l, hwalk, h.mem_walk hwalk f hf⟩

theorem nodup_sortedFuncs (hsorted : sortedFuncs m fuel = some funcs) : funcs.Nodup := by
  obtain ⟨visits, -, hfuncs⟩ := Option.bind_eq_some_iff.mp hsorted
  obtain rfl := Option.some.inj hfuncs
  exact nodup_reverse.mpr (nodup_setVector visits)

theorem sortedFuncs_callers (h : m.callGraph.Acyclic) (hsorted : sortedFuncs m fuel = some funcs)
    {l₁ l₂ : List F} {g : F} (heq : funcs = l₁ ++ g :: l₂) :
    ∀ f ∈ m.funcs, ∀ callOp ∈ m.calls f, callOp.callee = g → f ∈ l₁ := by
  rintro f hf callOp hcall rfl
  have hmem := (mem_sortedFuncs h hsorted f).mpr hf
  obtain ⟨visits, hvisits, hfuncs⟩ := Option.bind_eq_some_iff.mp hsorted
  obtain rfl := Option.some.inj hfuncs
  have hfirst : CalleesFirst m.callGraph.graph (setVector visits) := by
    apply CalleesFirst.setVector
    apply CallGraph.visitEach_calleesFirst hvisits
    exact fun _ _ l hwalk => CallGraph.walk_calleesFirst hwalk
  exact hfirst.reverse (nodup_setVector visits) heq f (mem_reverse.mp hmem)
    (mem_map.mpr ⟨callOp, hcall, rfl⟩)

theorem sortedFuncs_isSome (h : m.callGraph.Acyclic) :
    ∃ n, ∀ fuel ≥ n, ∃ funcs, sortedFuncs m fuel = some funcs := by
  obtain ⟨n, hn⟩ := h.walk_isSome
  refine ⟨n, fun fuel hfuel => ?_⟩
  obtain ⟨l, hwalk⟩ := hn fuel hfuel
  have hall : ∃ visits, CallGraph.visitEach (fun _ => m.callGraph.walk fuel) m.callGraph.roots =
      some visits := CallGraph.visitEach_isSome fun _ _ => ⟨l, hwalk⟩
  obtain ⟨visits, hvisits⟩ := hall
  exact ⟨(setVector visits).reverse, by rw [sortedFuncs, hvisits]; rfl⟩

end Order

section Analysis

variable [DecidableEq F] {dataflow : F → (ℕ → ArgAttrs) → V → ScalarInfo} {m : ModuleOp F V}
  {argAttrs : F → ℕ → ArgAttrs} {s t : State F V} {f : F} {done : List F}

/-- The state after the analysis of some functions: each was analysed with the
attributes it still has, and all its calls have contributed. -/
structure Analysed (dataflow : F → (ℕ → ArgAttrs) → V → ScalarInfo) (m : ModuleOp F V)
    (argAttrs : F → ℕ → ArgAttrs) (done : List F) (s : State F V) : Prop where
  infos : ∀ f ∈ done, ∀ value, s.funcMap f value = some (dataflow f (s.argAttrs f) value)
  fresh : ∀ f, f ∉ done → ∀ value, s.funcMap f value = none
  contributed : ∀ f ∈ done, ∀ callOp ∈ m.calls f, ∀ (j : ℕ) (value : V),
    callOp.operands[j]? = some value →
      Below (s.argAttrs callOp.callee j) (dataflow f (s.argAttrs f) value)
  untouched : ∀ g, (∀ f ∈ done, ∀ callOp ∈ m.calls f, callOp.callee ≠ g) →
    s.argAttrs g = argAttrs g

theorem Analysed.step (h : Analysed dataflow m argAttrs done s) (hf : f ∉ done)
    (hcallees : ∀ callOp ∈ m.calls f, callOp.callee ≠ f ∧ callOp.callee ∉ done) :
    ∃ t, updateAll f (m.calls f) (initializeFunc dataflow f s) = some t ∧
      Analysed dataflow m argAttrs (done ++ [f]) t := by
  have hself : ∀ value, (initializeFunc dataflow f s).funcMap f value =
      some (dataflow f (s.argAttrs f) value) := by
    intro value
    simp [initializeFunc, h.fresh f hf value]
  have hother : ∀ g, g ≠ f → (initializeFunc dataflow f s).funcMap g = s.funcMap g := by
    intro g hg
    simp [initializeFunc, hg]
  obtain ⟨t, hrun, hweak, hbelow⟩ := updateAll_spec (m.calls f) fun value => ⟨_, hself value⟩
  -- no function that is analysed by now is called here
  have hframe : ∀ g ∈ done ++ [f], t.argAttrs g = s.argAttrs g := by
    intro g hg
    apply hweak.frame
    rintro hcallee
    obtain ⟨callOp, hcall, rfl⟩ := mem_map.mp hcallee
    rcases mem_append.mp hg with hg | hg
    · exact (hcallees callOp hcall).2 hg
    · exact (hcallees callOp hcall).1 (mem_singleton.mp hg)
  refine ⟨t, hrun, ?_, ?_, ?_, ?_⟩
  · intro g hg value
    rw [hframe g hg, hweak.funcMap]
    by_cases heq : g = f
    · subst heq
      exact hself value
    · rw [hother g heq]
      refine h.infos g ?_ value
      rcases mem_append.mp hg with hg | hg
      · exact hg
      · exact absurd (mem_singleton.mp hg) heq
  · intro g hg value
    rw [mem_append, not_or, mem_singleton] at hg
    rw [hweak.funcMap, hother g hg.2]
    exact h.fresh g hg.1 value
  · intro g hg callOp hcall j value hj
    rw [hframe g hg]
    rcases mem_append.mp hg with hg | hg
    · exact hweak.below _ _ _ (h.contributed g hg callOp hcall j value hj)
    · obtain rfl := mem_singleton.mp hg
      exact hbelow callOp hcall j value _ hj (hself value)
  · intro g hg
    have hdone : ∀ e ∈ done, ∀ callOp ∈ m.calls e, callOp.callee ≠ g :=
      fun e he => hg e (mem_append_left _ he)
    rw [← h.untouched g hdone]
    apply hweak.frame
    rintro hcallee
    obtain ⟨callOp, hcall, rfl⟩ := mem_map.mp hcallee
    exact hg f (by simp) callOp hcall rfl

theorem Analysed.run (funcs : List F) (h : Analysed dataflow m argAttrs done s)
    (hnodup : (done ++ funcs).Nodup)
    (hcallers : ∀ l₁ g l₂, done ++ funcs = l₁ ++ g :: l₂ → ∀ f ∈ done ++ funcs,
      ∀ callOp ∈ m.calls f, callOp.callee = g → f ∈ l₁) :
    ∃ t, analyse dataflow m funcs s = some t ∧ Analysed dataflow m argAttrs (done ++ funcs) t := by
  induction funcs generalizing done s with
  | nil =>
    rw [append_nil]
    exact ⟨s, rfl, h⟩
  | cons f funcs ih =>
    have happend : done ++ f :: funcs = (done ++ [f]) ++ funcs := by simp
    have hnotin : f ∉ done := by
      intro hf
      exact (disjoint_of_nodup_append hnodup) hf mem_cons_self
    have hstep : ∀ callOp ∈ m.calls f, callOp.callee ≠ f ∧ callOp.callee ∉ done := by
      intro callOp hcall
      have hf : f ∈ done ++ f :: funcs := by simp
      constructor
      · intro heq
        exact hnotin (hcallers done f funcs rfl f hf callOp hcall heq)
      · intro hcallee
        obtain ⟨l₁, l₂, hsplit⟩ := append_of_mem hcallee
        have hbefore := hcallers l₁ callOp.callee (l₂ ++ f :: funcs) (by simp [hsplit]) f hf
          callOp hcall rfl
        exact hnotin (hsplit ▸ mem_append_left _ hbefore)
    obtain ⟨s', hvisit, hs'⟩ := h.step hnotin hstep
    rw [happend] at hnodup hcallers ⊢
    obtain ⟨t, hrun, ht⟩ := ih hs' hnodup hcallers
    exact ⟨t, by rw [analyse, hvisit]; exact hrun, ht⟩

end Analysis

/-- The value of a scalar argument. -/
structure Scalar where
  width : ℕ
  bits : BitVec width

/-- What an info says of a scalar, a line of one element. -/
structure ScalarInfo.Holds (info : ScalarInfo) (x : Scalar) : Prop where
  contiguity : Contiguous info.contiguity.natAbs 1 (fun _ => x.bits) 1
  divisibility : info.divisibility ∣ x.bits.toInt
  constancy : Constant info.constancy.natAbs (fun _ => x.bits) 1

def ScalarInfo.attrs (info : ScalarInfo) : ArgAttrs where
  contiguity := some info.contiguity
  divisibility := some info.divisibility
  constancy := some info.constancy

/-- An attribute that is not there says nothing. -/
structure ArgAttrs.Hold (attrs : ArgAttrs) (x : Scalar) : Prop where
  contiguity : ∀ c, attrs.contiguity = some c → Contiguous c.natAbs 1 (fun _ => x.bits) 1
  divisibility : ∀ d, attrs.divisibility = some d → d ∣ x.bits.toInt
  constancy : ∀ k, attrs.constancy = some k → Constant k.natAbs (fun _ => x.bits) 1

def ArgsHold (attrs : ℕ → ArgAttrs) (args : List Scalar) : Prop :=
  ∀ i x, args[i]? = some x → (attrs i).Hold x

theorem Below.recorded {attrs : ArgAttrs} {info : ScalarInfo} {x : Scalar} (h : Below attrs info)
    (hx : info.Holds x) : ∃ recorded : ScalarInfo, attrs = recorded.attrs ∧ recorded.Holds x := by
  obtain ⟨c, hc, hcdvd⟩ := h.contiguity
  obtain ⟨d, hd, hddvd⟩ := h.divisibility
  obtain ⟨k, hk, hkdvd⟩ := h.constancy
  refine ⟨⟨c, d, k⟩, ?_, ?_, ?_, ?_⟩
  · cases attrs
    cases hc
    cases hd
    cases hk
    rfl
  · exact hx.contiguity.mono (Int.natAbs_dvd_natAbs.mpr hcdvd)
  · exact hddvd.trans hx.divisibility
  · exact hx.constancy.mono (Int.natAbs_dvd_natAbs.mpr hkdvd)

theorem ScalarInfo.Holds.attrs {info : ScalarInfo} {x : Scalar} (h : info.Holds x) :
    info.attrs.Hold x where
  contiguity _ hc := Option.some.inj hc ▸ h.contiguity
  divisibility _ hd := Option.some.inj hd ▸ h.divisibility
  constancy _ hk := Option.some.inj hk ▸ h.constancy

section Runs

variable (m : ModuleOp F V) (runs : F → List Scalar → CallOp F V → (V → Scalar) → Prop)

/-- The data-flow result of each function is right for arguments of which its
attributes hold. `runs f args callOp env`: a run of `f` on `args` comes to the
call with the values `env`. -/
def DataflowSound (dataflow : F → (ℕ → ArgAttrs) → V → ScalarInfo) : Prop :=
  ∀ f ∈ m.funcs, ∀ attrs args, ArgsHold attrs args → ∀ callOp ∈ m.calls f, ∀ env,
    runs f args callOp env → ∀ value ∈ callOp.operands, (dataflow f attrs value).Holds (env value)

/-- What runs of the roots call, with which arguments. -/
inductive Reached [DecidableEq F] (argAttrs : F → ℕ → ArgAttrs) : F → List Scalar → Prop
  | root {f : F} {args : List Scalar} (hroot : f ∈ m.callGraph.roots)
      (hargs : ArgsHold (argAttrs f) args) : Reached argAttrs f args
  | call {f : F} {args : List Scalar} {callOp : CallOp F V} {env : V → Scalar}
      (hcaller : Reached argAttrs f args) (hcall : callOp ∈ m.calls f)
      (hruns : runs f args callOp env) : Reached argAttrs callOp.callee (callOp.operands.map env)

variable {m runs} {dataflow : F → (ℕ → ArgAttrs) → V → ScalarInfo}
  {argAttrs : F → ℕ → ArgAttrs} {s : State F V} {done : List F}

theorem Analysed.call (h : Analysed dataflow m argAttrs done s) (hdone : ∀ f, f ∈ done ↔ f ∈ m.funcs)
    (hsound : DataflowSound m runs dataflow) {f : F} {args : List Scalar} (hf : f ∈ m.funcs)
    (hargs : ArgsHold (s.argAttrs f) args) {callOp : CallOp F V} (hcall : callOp ∈ m.calls f)
    {env : V → Scalar} (hruns : runs f args callOp env) (j : ℕ) (value : V)
    (hj : callOp.operands[j]? = some value) :
    ∃ recorded : ScalarInfo, s.argAttrs callOp.callee j = recorded.attrs ∧
      recorded.Holds (env value) :=
  (h.contributed f ((hdone f).mpr hf) callOp hcall j value hj).recorded
    (hsound f hf _ args hargs callOp hcall env hruns value (mem_of_getElem? hj))

variable [DecidableEq F]

theorem Analysed.reached (h : Analysed dataflow m argAttrs done s)
    (hdone : ∀ f, f ∈ done ↔ f ∈ m.funcs) (hsound : DataflowSound m runs dataflow) {f : F}
    {args : List Scalar} (hreached : Reached m runs argAttrs f args) :
    f ∈ m.funcs ∧ ArgsHold (s.argAttrs f) args := by
  induction hreached with
  | @root f args hroot hargs =>
    refine ⟨CallGraph.mem_funcs_of_mem_roots hroot, ?_⟩
    -- the attributes of a root are those of the module
    rw [h.untouched f]
    · exact hargs
    · rintro e he callOp hcall rfl
      have hnone := of_decide_eq_true (mem_filter.mp hroot).2 e ((hdone e).mp he)
      exact hnone (mem_map.mpr ⟨callOp, hcall, rfl⟩)
  | @call f args callOp env hcaller hcall hruns ih =>
    refine ⟨m.resolved f ih.1 callOp hcall, ?_⟩
    intro i x hx
    rw [List.getElem?_map] at hx
    obtain ⟨value, hvalue, rfl⟩ := Option.map_eq_some_iff.mp hx
    obtain ⟨recorded, hattrs, hholds⟩ := h.call hdone hsound ih.1 ih.2 hcall hruns i value hvalue
    rw [hattrs]
    exact hholds.attrs

/-- The analysis of a module without recursion ends, analyses every function once and
after all its callers, with the attributes that are recorded in the end; at every
call that a run of a root comes to, the recorded attributes of each argument
hold for the value passed. -/
theorem moduleAxisInfoAnalysis_sound (argAttrs : F → ℕ → ArgAttrs)
    (hacyclic : m.callGraph.Acyclic) (hsound : DataflowSound m runs dataflow) :
    ∃ n, ∀ fuel ≥ n, ∃ funcs s, sortedFuncs m fuel = some funcs ∧
      moduleAxisInfoAnalysis dataflow m argAttrs fuel = some s ∧
      funcs.Nodup ∧ (∀ f, f ∈ funcs ↔ f ∈ m.funcs) ∧
      (∀ l₁ g l₂, funcs = l₁ ++ g :: l₂ → ∀ f ∈ m.funcs, ∀ callOp ∈ m.calls f,
        callOp.callee = g → f ∈ l₁) ∧
      (∀ f ∈ m.funcs, ∀ value, s.funcMap f value = some (dataflow f (s.argAttrs f) value)) ∧
      ∀ f args, Reached m runs argAttrs f args → ∀ callOp ∈ m.calls f, ∀ env,
        runs f args callOp env → ∀ (j : ℕ) (value : V), callOp.operands[j]? = some value →
          ∃ recorded : ScalarInfo, s.argAttrs callOp.callee j = recorded.attrs ∧
            recorded.Holds (env value) := by
  obtain ⟨n, hn⟩ := sortedFuncs_isSome hacyclic
  refine ⟨n, fun fuel hfuel => ?_⟩
  obtain ⟨funcs, hfuncs⟩ := hn fuel hfuel
  have hmem := mem_sortedFuncs hacyclic hfuncs
  have hnodup := nodup_sortedFuncs hfuncs
  have hcallers : ∀ l₁ g l₂, funcs = l₁ ++ g :: l₂ → ∀ f ∈ m.funcs, ∀ callOp ∈ m.calls f,
      callOp.callee = g → f ∈ l₁ := fun l₁ g l₂ heq => sortedFuncs_callers hacyclic hfuncs heq
  have hstart : Analysed dataflow m argAttrs [] { funcMap := fun _ _ => none, argAttrs } := by
    constructor
    · exact fun f hf => absurd hf not_mem_nil
    · exact fun _ _ _ => rfl
    · exact fun f hf => absurd hf not_mem_nil
    · exact fun _ _ => rfl
  obtain ⟨s, hrun, hs⟩ := hstart.run funcs hnodup fun l₁ g l₂ heq f hf =>
    hcallers l₁ g l₂ heq f ((hmem f).mp hf)
  refine ⟨funcs, s, hfuncs, ?_, hnodup, hmem, hcallers, ?_, ?_⟩
  · rw [moduleAxisInfoAnalysis, hfuncs]
    exact hrun
  · exact fun f hf => hs.infos f ((hmem f).mpr hf)
  · intro f args hreached callOp hcall env hruns j value hj
    obtain ⟨hf, hargs⟩ := hs.reached hmem hsound hreached
    exact hs.call hmem hsound hf hargs hcall hruns j value hj

end Runs

section Example

def kernelAndHelper : ModuleOp Bool ℕ where
  funcs := [true, false]
  calls f := if f then [] else [⟨true, [0]⟩, ⟨true, [1]⟩]
  nodup := by decide
  resolved := by simp

/-- The helper's argument still has the attributes of an earlier analysis. -/
def staleAttrs (f : Bool) (_ : ℕ) : ArgAttrs :=
  if f then ⟨some 1, some 32, some 1⟩ else ⟨none, some 16, none⟩

def exampleDataflow (f : Bool) (attrs : ℕ → ArgAttrs) (value : ℕ) : ScalarInfo :=
  if f then ⟨1, 1, 1⟩
  else if value = 0 then ⟨1, (attrs 0).divisibility.getD 1, 1⟩ else ⟨1, 8, 1⟩

def exampleRuns (f : Bool) (args : List Scalar) (_ : CallOp Bool ℕ) (env : ℕ → Scalar) : Prop :=
  f = false ∧ args = [env 0] ∧ env 1 = ⟨64, 8⟩

theorem exampleDataflow_sound : DataflowSound kernelAndHelper exampleRuns exampleDataflow := by
  rintro f _ attrs args hargs callOp hcall env ⟨rfl, rfl, henv⟩ value hvalue
  have hconstant : ∀ info : ScalarInfo, info.contiguity = 1 → info.constancy = 1 →
      info.divisibility ∣ (env value).bits.toInt → info.Holds (env value) := by
    intro info hc hk hd
    exact ⟨by simp [hc], hd, by simp [hk]⟩
  obtain rfl | rfl : value = 0 ∨ value = 1 := by
    have hcalls : callOp ∈ [(⟨true, [0]⟩ : CallOp Bool ℕ), ⟨true, [1]⟩] := hcall
    rcases mem_pair.mp hcalls with rfl | rfl
    · exact Or.inl (mem_singleton.mp hvalue)
    · exact Or.inr (mem_singleton.mp hvalue)
  · apply hconstant _ rfl rfl
    show (attrs 0).divisibility.getD 1 ∣ _
    cases hattr : (attrs 0).divisibility with
    | none => exact one_dvd _
    | some d => exact (hargs 0 (env 0) rfl).divisibility d hattr
  · apply hconstant _ rfl rfl
    rw [henv]
    show (8 : ℤ) ∣ (8#64).toInt
    decide

theorem kernelAndHelper_sound : ∃ n, ∀ fuel ≥ n, ∃ s,
    moduleAxisInfoAnalysis exampleDataflow kernelAndHelper staleAttrs fuel = some s ∧
      ∀ x : BitVec 64, 16 ∣ x.toInt → ∃ recorded : ScalarInfo,
        s.argAttrs true 0 = recorded.attrs ∧ recorded.Holds ⟨64, x⟩ := by
  have hacyclic : kernelAndHelper.callGraph.Acyclic := by
    have hcalls : ∀ f g, kernelAndHelper.callGraph.Calls f g → f = false ∧ g = true := by
      rintro f g ⟨_, hg⟩
      cases f with
      | true => exact absurd hg not_mem_nil
      | false => simpa [ModuleOp.callGraph, kernelAndHelper] using hg
    intro f hcycle
    obtain ⟨g, hfirst, -⟩ := Relation.TransGen.head'_iff.mp hcycle
    obtain ⟨e, -, hlast⟩ := Relation.TransGen.tail'_iff.mp hcycle
    have hfalse := (hcalls f g hfirst).1
    rw [(hcalls e f hlast).2] at hfalse
    cases hfalse
  obtain ⟨n, hn⟩ := moduleAxisInfoAnalysis_sound staleAttrs hacyclic exampleDataflow_sound
  refine ⟨n, fun fuel hfuel => ?_⟩
  obtain ⟨_, s, -, hrun, -, -, -, -, hcall⟩ := hn fuel hfuel
  refine ⟨s, hrun, fun x hx => ?_⟩
  have hargs : ArgsHold (staleAttrs false) [⟨64, x⟩] := by
    intro i y hy
    obtain ⟨rfl, rfl⟩ : i = 0 ∧ y = ⟨64, x⟩ := by
      cases i with
      | zero => exact ⟨rfl, (Option.some.inj hy).symm⟩
      | succ i => cases hy
    constructor
    · exact fun c hc => nomatch hc
    · intro d hd
      obtain rfl := Option.some.inj hd
      exact hx
    · exact fun k hk => nomatch hk
  exact hcall false [⟨64, x⟩] (.root (by decide) hargs) ⟨true, [0]⟩ mem_cons_self
    (fun value => if value = 0 then ⟨64, x⟩ else ⟨64, 8⟩) ⟨rfl, rfl, rfl⟩ 0 0 rfl

end Example

end TritonCpu.ModuleAxisInfo
