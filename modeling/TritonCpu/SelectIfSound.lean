import TritonCpu.SelectIf

/-!
# When merging selects is sound

The merged program is run beside the original one. A select that is on its way
to its branch is bound in the original program only; nothing reads it there, and
the branch binds it to the value that it had.
-/

set_option autoImplicit false

namespace TritonCpu.SelectIf

open Structured List

section Ready

variable {V L : Type} [DecidableEq V] {cond result : V} {order : UserOrder V}

def Pending.reads (p : Pending V) : List V := [p.cond, p.trueValue, p.falseValue]

/-- A pending select has its branch before it, and no use before that. -/
structure Ready (code : Program V L) (p : Pending V) : Prop where
  place : p.distance ∈ ifsOn p.cond code
  unused : p.result ∉ usedBefore code p.distance

theorem ready_of_mergedAt {trueValue falseValue : V} {next : Program V L} {place : ℕ}
    (h : mergedAt order result cond next = some place) :
    Ready next ⟨result, cond, trueValue, falseValue, place⟩ where
  place := ((order.perm _ _).mem_iff).mp (mem_of_find?_eq_some h)
  unused := by
    have hmerge := List.find?_some h
    exact of_decide_eq_true hmerge

theorem not_ready_yield {vs : List V} {p : Pending V} : ¬ Ready (.yield vs : Program V L) p :=
  fun h => not_mem_nil h.place

variable {next : Program V L} {p : Pending V}

/-- An operation that uses the values `used` does not use the result. -/
theorem Ready.past {program : Program V L} {used : List V} (h : Ready program p)
    (hplace : p.distance ∈ (ifsOn p.cond next).map (· + 1))
    (hused : ∀ n, usedBefore program (n + 1) = used ++ usedBefore next n) :
    p.result ∉ used ∧ Ready next p.step := by
  obtain ⟨n, hn, hdistance⟩ := mem_map.mp hplace
  have hunused := h.unused
  rw [← hdistance, hused, mem_append, not_or] at hunused
  refine ⟨hunused.1, ?_, ?_⟩
  · rwa [Pending.step, ← hdistance]
  · rw [Pending.step, ← hdistance]
    exact hunused.2

theorem Ready.prim {op : Prim V L} (h : Ready (.prim op next) p) :
    p.result ∉ op.operands ∧ Ready next p.step := h.past h.place fun _ => rfl

theorem Ready.forOp {iv lb ub stride : V} {inits args rs : List V} {body : Program V L}
    (h : Ready (.forOp iv lb ub stride inits args body rs next) p) :
    p.result ∉ lb :: ub :: stride :: inits ++ body.used Prim.operands ∧ Ready next p.step :=
  h.past h.place fun _ => rfl

theorem Ready.whileOp {inits args afterArgs rs : List V} {before after : Program V L}
    (h : Ready (.whileOp inits args before afterArgs after rs next) p) :
    p.result ∉ inits ++ before.used Prim.operands ++ after.used Prim.operands ∧
      Ready next p.step := h.past h.place fun _ => rfl

theorem Ready.ifOp {rs : List V} {thenBlock elseBlock : Program V L}
    (h : Ready (.ifOp cond thenBlock elseBlock rs next) p) (hne : p.distance ≠ 0) :
    p.result ∉ cond :: thenBlock.used Prim.operands ++ elseBlock.used Prim.operands ∧
      Ready next p.step := by
  have hplace := h.place
  rw [ifsOn, mem_append] at hplace
  refine h.past (hplace.resolve_left fun hzero => ?_) fun _ => rfl
  split_ifs at hzero with hcond
  · exact hne (mem_singleton.mp hzero)
  · exact not_mem_nil hzero

theorem Ready.ifOp_cond {rs : List V} {thenBlock elseBlock : Program V L}
    (h : Ready (.ifOp cond thenBlock elseBlock rs next) p) (hzero : p.distance = 0) :
    p.cond = cond := by
  have hplace := h.place
  rw [ifsOn, hzero, mem_append] at hplace
  rcases hplace with hplace | hplace
  · split_ifs at hplace with hcond
    · exact hcond.symm
    · cases hplace
  · obtain ⟨n, -, hn⟩ := mem_map.mp hplace
    cases hn

end Ready

section Carries

variable {V L : Type} [DecidableEq V]

def waiting (pending : List (Pending V)) : List V := pending.map Pending.result

omit [DecidableEq V] in
@[simp] theorem waiting_step (pending : List (Pending V)) :
    waiting (pending.map Pending.step) = waiting pending := by
  rw [waiting, waiting, map_map]
  rfl

/-- The selects that a program carries to their branches. What they read is known in both
programs; the values of `stale` are known in neither and are not read. -/
structure Carries (stale : V → Prop) (scope : List V) (code : Program V L)
    (pending : List (Pending V)) : Prop where
  nodup : (waiting pending).Nodup
  ready : ∀ p ∈ pending, Ready code p
  inScope : ∀ v ∈ waiting pending, v ∈ scope
  reads : ∀ p ∈ pending, ∀ v ∈ p.reads, v ∈ scope ∧ ¬ stale v ∧ v ∉ waiting pending
  used : ∀ v ∈ code.used Prim.operands, ¬ stale v

def Unknown (stale : V → Prop) (pending : List (Pending V)) (v : V) : Prop :=
  stale v ∨ v ∈ waiting pending

variable {stale : V → Prop} {scope : List V} {pending : List (Pending V)} {next : Program V L}

theorem carries_nil {body : Program V L} {scope : List V}
    (h : ∀ v ∈ body.used Prim.operands, ¬ stale v) : Carries stale scope body [] where
  nodup := nodup_nil
  ready := fun _ hp => absurd hp not_mem_nil
  inScope := fun _ hv => absurd hv not_mem_nil
  reads := fun _ hp => absurd hp not_mem_nil
  used := h

theorem Carries.past {code : Program V L} (h : Carries stale scope code pending)
    {pending' : List (Pending V)} (hsub : pending'.Sublist pending) (rs : List V)
    (hready : ∀ p ∈ pending', Ready next p.step)
    (hused : ∀ v ∈ next.used Prim.operands, v ∈ code.used Prim.operands) :
    Carries stale (rs ++ scope) next (pending'.map Pending.step) where
  nodup := by
    rw [waiting_step]
    exact h.nodup.sublist (hsub.map _)
  ready p hp := by
    obtain ⟨q, hq, rfl⟩ := mem_map.mp hp
    exact hready q hq
  inScope v hv := by
    rw [waiting_step] at hv
    exact mem_append_right _ (h.inScope v ((hsub.map _).subset hv))
  reads p hp v hv := by
    obtain ⟨q, hq, rfl⟩ := mem_map.mp hp
    obtain ⟨hscope, hstale, hwaiting⟩ := h.reads q (hsub.subset hq) v hv
    rw [waiting_step]
    exact ⟨mem_append_right _ hscope, hstale,
      fun hmem => hwaiting ((hsub.map _).subset hmem)⟩
  used v hv := h.used v (hused v hv)

end Carries

section Exec

variable {V L D W : Type} [DecidableEq V] [Inhabited D] {order : UserOrder V}

/-- A pending select has the value that it would have at its branch. -/
def HasValue (isTrue : D → Bool) (s : State V D W) (p : Pending V) : Prop :=
  s.env p.result = if isTrue (s.env p.cond) then s.env p.trueValue else s.env p.falseValue

omit [DecidableEq V] [Inhabited D] in
theorem HasValue.congr {isTrue : D → Bool} {s s' : State V D W} {p : Pending V}
    (h : HasValue isTrue s p) (hresult : s'.env p.result = s.env p.result)
    (hreads : ∀ v ∈ p.reads, s'.env v = s.env v) : HasValue isTrue s' p := by
  unfold HasValue
  rw [hresult, hreads p.cond (by simp [Pending.reads]),
    hreads p.trueValue (by simp [Pending.reads]), hreads p.falseValue (by simp [Pending.reads])]
  exact h

theorem local_step (isTrue : D → Bool) (sem : L → List D → W → List D × W) :
    Local (Prim.step (V := V) isTrue sem) Prim.results Prim.operands where
  frame op s v hv := by
    cases op with
    | select result cond trueValue falseValue => exact bind_env_of_notMem _ _ hv
    | other label results operands => exact bind_env_of_notMem _ _ hv
  reads op s s' hoperands hworld := by
    cases op with
    | select result cond trueValue falseValue =>
      simp only [Prim.operands, map_cons, map_nil, List.cons.injEq, and_true]
        at hoperands
      obtain ⟨hcond, htrue, hfalse⟩ := hoperands
      refine ⟨?_, fun v hv => ?_⟩
      · rw [Prim.step, Prim.step, bind_world, bind_world, hworld]
      · rw [Prim.step, Prim.step, hcond, htrue, hfalse]
        exact bind_env_of_mem hv _ s s'
    | other label results operands =>
      have hvalues : operands.map s.env = operands.map s'.env := hoperands
      refine ⟨?_, fun v hv => ?_⟩
      · simp only [Prim.step, hvalues, hworld]
      · simp only [Prim.step, hvalues, hworld]
        exact bind_env_of_mem hv _ s s'

variable {control : Control D} {sem : L → List D → W → List D × W} {limit : ℕ}

/-- The run of a program in which selects are other operations. -/
abbrev execProgram (control : Control D) (sem : L → List D → W → List D × W) (limit : ℕ) :
    Program V L → State V D W → State V D W × List D :=
  exec control (Prim.step control.isTrue sem) limit

theorem hasValue_frame {code : Program V L} {scope : List V}
    (hssa : code.Ssa Prim.results Prim.operands scope) {s : State V D W} {p : Pending V}
    (hresult : p.result ∈ scope) (hreads : ∀ v ∈ p.reads, v ∈ scope)
    (h : HasValue control.isTrue s p) :
    HasValue control.isTrue (execProgram control sem limit code s).1 p :=
  h.congr
    (exec_env_of_notMem (local_step control.isTrue sem).frame code
      (hssa.notMem_bound _ hresult) s)
    fun v hv => exec_env_of_notMem (local_step control.isTrue sem).frame code
      (hssa.notMem_bound _ (hreads v hv)) s

def SameOutcome (stale : V → Prop) (x y : State V D W × List D) : Prop :=
  x.2 = y.2 ∧ Agrees stale x.1 y.1

/-- What the merged program `code'` has to do beside `code`. -/
def Simulates (control : Control D) (sem : L → List D → W → List D × W) (limit : ℕ)
    (stale : V → Prop) (pending : List (Pending V)) (code code' : Program V L) : Prop :=
  ∀ s s' : State V D W, Agrees (Unknown stale pending) s s' →
    (∀ p ∈ pending, HasValue control.isTrue s p) →
    SameOutcome stale (execProgram control sem limit code s) (execProgram control sem limit code' s')

theorem Simulates.block {stale : V → Prop} {body body' : Program V L}
    (h : Simulates control sem limit stale [] body body') {s s' : State V D W}
    (hagrees : Agrees stale s s') : SameOutcome stale (execProgram control sem limit body s)
      (execProgram control sem limit body' s') :=
  h s s' (hagrees.mono fun _ hv => .inl hv) fun _ hp => absurd hp not_mem_nil

section Cases

variable {stale : V → Prop} {scope : List V} {pending : List (Pending V)}
  {next next' : Program V L}

omit [DecidableEq V] [Inhabited D] in
theorem unknown_step (v : V) :
    Unknown stale (pending.map Pending.step) v ↔ Unknown stale pending v := by
  rw [Unknown, Unknown, waiting_step]

omit [DecidableEq V] [Inhabited D] in
theorem hasValue_map_step {isTrue : D → Bool} {s : State V D W}
    (h : ∀ p ∈ pending, HasValue isTrue s p) :
    ∀ p ∈ pending.map Pending.step, HasValue isTrue s p := by
  intro p hp
  obtain ⟨q, hq, rfl⟩ := mem_map.mp hp
  exact h q hq

theorem Carries.reads_scope {code : Program V L} (h : Carries stale scope code pending)
    {p : Pending V} (hp : p ∈ pending) : p.result ∈ scope ∧ ∀ v ∈ p.reads, v ∈ scope :=
  ⟨h.inScope _ (mem_map_of_mem hp), fun v hv => (h.reads p hp v hv).1⟩

/-- The values of the pending selects after the first operation of a program; `first` is that
operation alone. -/
theorem Carries.hasValue {code first : Program V L} (h : Carries stale scope code pending)
    (hfirst : first.Ssa Prim.results Prim.operands scope) {s : State V D W}
    (hvalue : ∀ p ∈ pending, HasValue control.isTrue s p) :
    ∀ p ∈ pending, HasValue control.isTrue (execProgram control sem limit first s).1 p := by
  intro p hp
  obtain ⟨hresult, hreads⟩ := h.reads_scope hp
  exact hasValue_frame hfirst hresult hreads (hvalue p hp)

theorem Carries.known_prim {op : Prim V L} (h : Carries stale scope (.prim op next) pending) :
    ∀ v ∈ op.operands, ¬ Unknown stale pending v := by
  rintro v hv (hstale | hwaiting)
  · exact h.used v (mem_append_left _ hv) hstale
  · obtain ⟨p, hp, rfl⟩ := mem_map.mp hwaiting
    exact (h.ready p hp).prim.1 hv

theorem Carries.known_forOp {iv lb ub stride : V} {inits args rs : List V} {body : Program V L}
    (h : Carries stale scope (.forOp iv lb ub stride inits args body rs next) pending) :
    ∀ v ∈ lb :: ub :: stride :: inits, ¬ Unknown stale pending v := by
  rintro v hv (hstale | hwaiting)
  · exact h.used v (mem_append_left _ (mem_append_left _ hv)) hstale
  · obtain ⟨p, hp, rfl⟩ := mem_map.mp hwaiting
    exact (h.ready p hp).forOp.1 (mem_append_left _ hv)

theorem Carries.known_whileOp {inits args afterArgs rs : List V} {before after : Program V L}
    (h : Carries stale scope (.whileOp inits args before afterArgs after rs next) pending) :
    ∀ v ∈ inits, ¬ Unknown stale pending v := by
  rintro v hv (hstale | hwaiting)
  · exact h.used v (by simp [Code.used, hv]) hstale
  · obtain ⟨p, hp, rfl⟩ := mem_map.mp hwaiting
    exact (h.ready p hp).whileOp.1 (by simp [hv])

theorem Carries.known_ifOp {cond : V} {rs : List V} {thenBlock elseBlock : Program V L}
    (h : Carries stale scope (.ifOp cond thenBlock elseBlock rs next) pending) :
    ¬ Unknown stale pending cond := by
  rintro (hstale | hwaiting)
  · exact h.used cond (by simp [Code.used]) hstale
  · obtain ⟨p, hp, heq⟩ := mem_map.mp hwaiting
    by_cases hzero : p.distance = 0
    · refine (h.reads p hp cond ?_).2.2 hwaiting
      rw [← (h.ready p hp).ifOp_cond hzero]
      exact mem_cons_self
    · exact ((h.ready p hp).ifOp hzero).1 (by simp [heq])

theorem simulates_prim {op : Prim V L}
    (hssa : (Code.prim op next).Ssa Prim.results Prim.operands scope)
    (h : Carries stale scope (.prim op next) pending)
    (hnext : Simulates control sem limit stale (pending.map Pending.step) next next') :
    Simulates control sem limit stale pending (.prim op next) (.prim op next') := by
  intro s s' hagrees hvalue
  have hfirst : (Code.prim op (.yield []) : Program V L).Ssa Prim.results Prim.operands scope :=
    ⟨hssa.1, hssa.2.1, nil_subset _⟩
  have hstep := (local_step control.isTrue sem).agrees hagrees h.known_prim
  have hall : ∀ p ∈ pending, HasValue control.isTrue
      (execProgram control sem limit (.prim op (.yield [])) s).1 p := h.hasValue hfirst hvalue
  exact hnext _ _ (hstep.mono fun v hv => (unknown_step v).mpr hv) (hasValue_map_step hall)

theorem simulates_select {result cond trueValue falseValue : V} {place : ℕ}
    (hssa : (Code.prim (.select result cond trueValue falseValue) next : Program V L).Ssa
      Prim.results Prim.operands scope)
    (h : Carries stale scope (.prim (.select result cond trueValue falseValue) next) pending)
    (hnext : Simulates control sem limit stale
      (pending.map Pending.step ++ [⟨result, cond, trueValue, falseValue, place⟩]) next next') :
    Simulates control sem limit stale pending
      (.prim (.select result cond trueValue falseValue) next) next' := by
  intro s s' hagrees hvalue
  obtain ⟨hop, hfresh, -⟩ := hssa
  have hfirst : (Code.prim (.select result cond trueValue falseValue) (.yield []) :
      Program V L).Ssa Prim.results Prim.operands scope := ⟨hop, hfresh, nil_subset _⟩
  have hnew : ∀ v ∈ [cond, trueValue, falseValue], v ≠ result := by
    intro v hv heq
    exact hfresh.notMem result (mem_singleton.mpr rfl) (heq ▸ hop hv)
  refine hnext _ s' ⟨?_, fun v hv => ?_⟩ ?_
  · exact (bind_world _ _ _).trans hagrees.world
  · have hne : v ∉ [result] := by
      intro hmem
      refine hv (.inr ?_)
      rw [waiting, map_append, mem_append]
      exact .inr hmem
    refine (bind_env_of_notMem _ _ hne).trans (hagrees.env v fun hunknown => hv ?_)
    refine hunknown.imp_right fun hwaiting => ?_
    rw [waiting, map_append, mem_append]
    refine .inl ?_
    rwa [← waiting, waiting_step]
  · intro p hp
    rcases mem_append.mp hp with hp | hp
    · have hall : ∀ p ∈ pending, HasValue control.isTrue (execProgram control sem limit
          (.prim (.select result cond trueValue falseValue) (.yield [])) s).1 p :=
        h.hasValue hfirst hvalue
      exact hasValue_map_step hall p hp
    · rw [mem_singleton.mp hp]
      have hframe (v : V) (hv : v ∈ [cond, trueValue, falseValue]) :
          ((Prim.select result cond trueValue falseValue : Prim V L).step control.isTrue sem
            s).env v = s.env v :=
        bind_env_of_notMem _ _ (fun hmem => hnew v hv (mem_singleton.mp hmem))
      change Function.update s.env result _ result = _
      rw [Function.update_self, hframe cond (by simp), hframe trueValue (by simp),
        hframe falseValue (by simp)]
      rfl

theorem simulates_forOp {iv lb ub stride : V} {inits args rs : List V} {body body' : Program V L}
    (hssa : (Code.forOp iv lb ub stride inits args body rs next).Ssa Prim.results Prim.operands
      scope)
    (h : Carries stale scope (.forOp iv lb ub stride inits args body rs next) pending)
    (hbody : Simulates control sem limit (Unknown stale pending) [] body body')
    (hnext : Simulates control sem limit stale (pending.map Pending.step) next next') :
    Simulates control sem limit stale pending
      (.forOp iv lb ub stride inits args body rs next)
      (.forOp iv lb ub stride inits args body' rs next') := by
  intro s s' hagrees hvalue
  have hop := h.known_forOp
  have hlb := hagrees.env lb (hop lb (by simp))
  have hub := hagrees.env ub (hop ub (by simp))
  have hstride := hagrees.env stride (hop stride (by simp))
  have hinits : inits.map s.env = inits.map s'.env :=
    hagrees.map fun v hv => hop v (by simp [hv])
  obtain ⟨hop', hargs, hrs, hbodySsa, -⟩ := hssa
  have hfirst : (Code.forOp iv lb ub stride inits args body rs (.yield []) : Program V L).Ssa
      Prim.results Prim.operands scope := ⟨hop', hargs, hrs, hbodySsa, nil_subset _⟩
  have hall : ∀ p ∈ pending, HasValue control.isTrue (execProgram control sem limit
      (.forOp iv lb ub stride inits args body rs (.yield [])) s).1 p := h.hasValue hfirst hvalue
  -- The iterations yield the same and leave the same values unknown.
  have hloop : SameOutcome (Unknown stale pending)
      (repeatFor (fun k x => execProgram control sem limit body
        (enterBody control iv args (s.env lb) (s.env stride) k x))
        (control.tripCount (s.env lb) (s.env ub) (s.env stride)) (s, inits.map s.env))
      (repeatFor (fun k x => execProgram control sem limit body'
        (enterBody control iv args (s.env lb) (s.env stride) k x))
        (control.tripCount (s.env lb) (s.env ub) (s.env stride)) (s', inits.map s.env)) := by
    refine repeatFor_rel ⟨rfl, hagrees⟩ ?_
    rintro k - y ⟨hyields, hstates⟩
    refine hbody.block ?_
    rw [enterBody, enterBody, hyields]
    exact hstates.bind _ _
  refine hnext _ _ ?_ (hasValue_map_step hall)
  rw [← hinits, ← hlb, ← hub, ← hstride, ← hloop.1]
  exact (hloop.2.bind rs _).mono fun v hv => (unknown_step v).mpr hv

theorem simulates_whileOp {inits args afterArgs rs : List V}
    {before before' after after' : Program V L}
    (hssa : (Code.whileOp inits args before afterArgs after rs next).Ssa Prim.results
      Prim.operands scope)
    (h : Carries stale scope (.whileOp inits args before afterArgs after rs next) pending)
    (hbefore : Simulates control sem limit (Unknown stale pending) [] before before')
    (hafter : Simulates control sem limit (Unknown stale pending) [] after after')
    (hnext : Simulates control sem limit stale (pending.map Pending.step) next next') :
    Simulates control sem limit stale pending
      (.whileOp inits args before afterArgs after rs next)
      (.whileOp inits args before' afterArgs after' rs next') := by
  intro s s' hagrees hvalue
  have hinits := hagrees.map h.known_whileOp
  obtain ⟨hop', hargs, hafterArgs, hrs, hbeforeSsa, hafterSsa, -⟩ := hssa
  have hfirst : (Code.whileOp inits args before afterArgs after rs (.yield []) :
      Program V L).Ssa Prim.results Prim.operands scope :=
    ⟨hop', hargs, hafterArgs, hrs, hbeforeSsa, hafterSsa, nil_subset _⟩
  have hall : ∀ p ∈ pending, HasValue control.isTrue (execProgram control sem limit
      (.whileOp inits args before afterArgs after rs (.yield [])) s).1 p :=
    h.hasValue hfirst hvalue
  have hloop := @repeatWhile_rel (State V D W) D (State V D W) _
    (SameOutcome (Unknown stale pending)) (SameOutcome (Unknown stale pending)) control.isTrue
    (fun x => execProgram control sem limit before (x.1.bind args x.2))
    (fun x => execProgram control sem limit after (x.1.bind afterArgs x.2))
    (fun x => execProgram control sem limit before' (x.1.bind args x.2))
    (fun x => execProgram control sem limit after' (x.1.bind afterArgs x.2))
    (fun _ => True) (fun _ => True)
    (fun x y _ hxy => hbefore.block (by rw [hxy.1]; exact hxy.2.bind args y.2))
    (fun x y hxy => by rw [hxy.1])
    (fun x y hxy => ⟨by rw [hxy.1], hxy.2⟩)
    (fun x y _ hxy => hafter.block (by rw [hxy.1]; exact hxy.2.bind afterArgs y.2))
    limit (s, inits.map s.env) (s', inits.map s.env) (holdsWhile_true _ _ _ limit _)
    ⟨rfl, hagrees⟩
  refine hnext _ _ ?_ (hasValue_map_step hall)
  rw [← hinits, ← hloop.1]
  exact (hloop.2.bind rs _).mono fun v hv => (unknown_step v).mpr hv

def arrived (pending : List (Pending V)) : List (Pending V) := pending.filter (·.distance = 0)

def onTheWay (pending : List (Pending V)) : List (Pending V) := pending.filter (·.distance ≠ 0)

omit [DecidableEq V] in
theorem mem_waiting_iff {v : V} :
    v ∈ waiting pending ↔ v ∈ waiting (arrived pending) ∨ v ∈ waiting (onTheWay pending) := by
  unfold waiting arrived onTheWay
  simp only [mem_map, mem_filter, decide_eq_true_eq]
  constructor
  · rintro ⟨p, hp, rfl⟩
    by_cases h : p.distance = 0
    · exact .inl ⟨p, ⟨hp, h⟩, rfl⟩
    · exact .inr ⟨p, ⟨hp, h⟩, rfl⟩
  · rintro (⟨p, hp, rfl⟩ | ⟨p, hp, rfl⟩)
    · exact ⟨p, hp.1, rfl⟩
    · exact ⟨p, hp.1, rfl⟩

theorem branch_agrees {code block block' : Program V L} {rs : List V} {value : Pending V → V}
    (hssa : block.Ssa Prim.results Prim.operands scope) (harity : block.Arity rs.length)
    (h : Carries stale scope code pending)
    (hblock : Simulates control sem limit (Unknown stale pending) [] block block')
    (hreads : ∀ p, value p ∈ p.reads) {s s' : State V D W}
    (hagrees : Agrees (Unknown stale pending) s s')
    (hvalue : ∀ p ∈ arrived pending, s.env p.result = s.env (value p)) :
    Agrees (Unknown stale (onTheWay pending))
      ((execProgram control sem limit block s).1.bind rs (execProgram control sem limit block s).2)
      ((execProgram control sem limit (block'.yieldAlso ((arrived pending).map value)) s').1.bind
        (rs ++ waiting (arrived pending))
        (execProgram control sem limit (block'.yieldAlso ((arrived pending).map value)) s').2) := by
  obtain ⟨hyields, hstates⟩ := hblock.block hagrees
  have hlength := harity.length_exec control (Prim.step control.isTrue sem) limit s
  have hframe (v : V) (hv : v ∈ scope) : (execProgram control sem limit block s).1.env v = s.env v :=
    exec_env_of_notMem (local_step control.isTrue sem).frame block (hssa.notMem_bound v hv) s
  have harrived (p : Pending V) (hp : p ∈ arrived pending) : p ∈ pending := mem_of_mem_filter hp
  rw [execProgram, exec_yieldAlso, bind_append (by rw [← hyields]; exact hlength.symm), ← hyields]
  refine Agrees.bind ⟨?_, fun v hv => ?_⟩ rs _
  · rw [bind_world]
    exact hstates.world
  · by_cases hmem : v ∈ waiting (arrived pending)
    · have hnodup : (waiting (arrived pending)).Nodup :=
        h.nodup.sublist (List.filter_sublist.map _)
      obtain ⟨p, hp, rfl⟩ := mem_map.mp hmem
      have heq := bind_env_map hnodup
        (fun q => (execProgram control sem limit block' s').1.env (value q))
        (execProgram control sem limit block' s').1 hp
      rw [map_map]
      refine Eq.trans ?_ heq.symm
      obtain ⟨hscope, hstale, hwaiting⟩ := h.reads p (harrived p hp) (value p) (hreads p)
      rw [← hstates.env (value p) (not_or.mpr ⟨hstale, hwaiting⟩), hframe _ hscope,
        hframe _ (h.inScope _ (mem_map_of_mem (harrived p hp))), hvalue p hp]
    · rw [bind_env_of_notMem _ _ hmem]
      refine hstates.env v ?_
      rintro (hstale | hwaiting)
      · exact hv (.inl hstale)
      · exact hv (.inr ((mem_waiting_iff.mp hwaiting).resolve_left hmem))

theorem simulates_ifOp {cond : V} {rs : List V} {thenBlock thenBlock' elseBlock elseBlock' :
      Program V L}
    (hssa : (Code.ifOp cond thenBlock elseBlock rs next).Ssa Prim.results Prim.operands scope)
    (hthenArity : thenBlock.Arity rs.length) (helseArity : elseBlock.Arity rs.length)
    (h : Carries stale scope (.ifOp cond thenBlock elseBlock rs next) pending)
    (hthen : Simulates control sem limit (Unknown stale pending) [] thenBlock thenBlock')
    (helse : Simulates control sem limit (Unknown stale pending) [] elseBlock elseBlock')
    (hnext : Simulates control sem limit stale ((onTheWay pending).map Pending.step) next next') :
    Simulates control sem limit stale pending (.ifOp cond thenBlock elseBlock rs next)
      (.ifOp cond (thenBlock'.yieldAlso ((arrived pending).map Pending.trueValue))
        (elseBlock'.yieldAlso ((arrived pending).map Pending.falseValue))
        (rs ++ waiting (arrived pending)) next') := by
  intro s s' hagrees hvalue
  obtain ⟨hcondScope, hrs, hthenSsa, helseSsa, -⟩ := hssa
  have hcond := h.known_ifOp
  have hfirst : (Code.ifOp cond thenBlock elseBlock rs (.yield []) : Program V L).Ssa
      Prim.results Prim.operands scope := ⟨hcondScope, hrs, hthenSsa, helseSsa, nil_subset _⟩
  have hall : ∀ p ∈ pending, HasValue control.isTrue (execProgram control sem limit
      (.ifOp cond thenBlock elseBlock rs (.yield [])) s).1 p := h.hasValue hfirst hvalue
  have harrived (p : Pending V) (hp : p ∈ arrived pending) :
      s.env p.result = if control.isTrue (s.env cond) then s.env p.trueValue
        else s.env p.falseValue := by
    have hmem := mem_filter.mp hp
    rw [← (h.ready p hmem.1).ifOp_cond (of_decide_eq_true hmem.2)]
    exact hvalue p hmem.1
  have hrest : ∀ p ∈ (onTheWay pending).map Pending.step, HasValue control.isTrue
      (execProgram control sem limit (.ifOp cond thenBlock elseBlock rs (.yield [])) s).1 p :=
    hasValue_map_step fun p hp => hall p (mem_of_mem_filter hp)
  have hstep (v : V) (hv : Unknown stale (onTheWay pending) v) :
      Unknown stale ((onTheWay pending).map Pending.step) v := (unknown_step v).mpr hv
  simp only [exec] at hrest
  unfold SameOutcome
  simp only [exec, ← hagrees.env cond hcond]
  cases htaken : control.isTrue (s.env cond) with
  | true =>
    simp only [htaken, if_true] at harrived hrest ⊢
    exact hnext _ _ ((branch_agrees hthenSsa hthenArity h hthen
      (fun p => by simp [Pending.reads]) hagrees harrived).mono hstep) hrest
  | false =>
    simp only [htaken, Bool.false_eq_true, if_false] at harrived hrest ⊢
    exact hnext _ _ ((branch_agrees helseSsa helseArity h helse
      (fun p => by simp [Pending.reads]) hagrees harrived).mono hstep) hrest

theorem Carries.prim {op : Prim V L} (h : Carries stale scope (.prim op next) pending) :
    Carries stale (op.results ++ scope) next (pending.map Pending.step) :=
  h.past (List.Sublist.refl _) _ (fun p hp => (h.ready p hp).prim.2)
    fun _ hv => mem_append_right _ hv

theorem Carries.select {result cond trueValue falseValue : V} {place : ℕ}
    (hssa : (Code.prim (.select result cond trueValue falseValue) next : Program V L).Ssa
      Prim.results Prim.operands scope)
    (h : Carries stale scope (.prim (.select result cond trueValue falseValue) next) pending)
    (hplace : mergedAt order result cond next = some place) :
    Carries stale (result :: scope) next
      (pending.map Pending.step ++ [⟨result, cond, trueValue, falseValue, place⟩]) := by
  obtain ⟨hop, hfresh, -⟩ := hssa
  have hresult : result ∉ scope := hfresh.notMem result mem_cons_self
  have hwaiting : waiting (pending.map Pending.step ++
      [⟨result, cond, trueValue, falseValue, place⟩]) = waiting pending ++ [result] := by
    rw [waiting, map_append, ← waiting, waiting_step]
    rfl
  have hpast := h.prim
  have hnotMem {v : V} (hscope : v ∈ scope) (hpending : v ∉ waiting pending) :
      v ∉ waiting pending ++ [result] := by
    rw [mem_append, mem_singleton, not_or]
    exact ⟨hpending, fun heq => hresult (heq ▸ hscope)⟩
  refine ⟨?_, fun p hp => ?_, fun v hv => ?_, fun p hp v hv => ?_, hpast.used⟩
  · rw [hwaiting]
    refine nodup_append.mpr ⟨h.nodup, nodup_cons.mpr ⟨not_mem_nil, nodup_nil⟩, fun u hu v hv heq => ?_⟩
    rw [heq, mem_singleton.mp hv] at hu
    exact hresult (h.inScope _ hu)
  · rcases mem_append.mp hp with hp | hp
    · exact hpast.ready p hp
    · rw [mem_singleton.mp hp]
      exact ready_of_mergedAt hplace
  · rw [hwaiting, mem_append, mem_singleton] at hv
    rcases hv with hv | rfl
    · exact mem_cons_of_mem _ (h.inScope v hv)
    · exact mem_cons_self
  · rw [hwaiting]
    rcases mem_append.mp hp with hp | hp
    · obtain ⟨q, hq, rfl⟩ := mem_map.mp hp
      obtain ⟨hscope, hstale, hpending⟩ := h.reads q hq v hv
      exact ⟨mem_cons_of_mem _ hscope, hstale, hnotMem hscope hpending⟩
    · rw [mem_singleton.mp hp] at hv
      exact ⟨mem_cons_of_mem _ (hop hv), h.used v (mem_append_left _ hv),
        hnotMem (hop hv) fun hw => h.known_prim v hv (.inr hw)⟩

theorem Carries.forOp {iv lb ub stride : V} {inits args rs : List V} {body : Program V L}
    (h : Carries stale scope (.forOp iv lb ub stride inits args body rs next) pending) :
    Carries stale (rs ++ scope) next (pending.map Pending.step) :=
  h.past (List.Sublist.refl _) _ (fun p hp => (h.ready p hp).forOp.2)
    fun _ hv => mem_append_right _ hv

theorem Carries.whileOp {inits args afterArgs rs : List V} {before after : Program V L}
    (h : Carries stale scope (.whileOp inits args before afterArgs after rs next) pending) :
    Carries stale (rs ++ scope) next (pending.map Pending.step) :=
  h.past (List.Sublist.refl _) _ (fun p hp => (h.ready p hp).whileOp.2)
    fun _ hv => mem_append_right _ hv

omit [DecidableEq V] in
theorem mem_onTheWay {p : Pending V} (hp : p ∈ onTheWay pending) :
    p ∈ pending ∧ p.distance ≠ 0 :=
  ⟨mem_of_mem_filter hp, of_decide_eq_true (mem_filter.mp hp).2⟩

theorem Carries.ifOp {cond : V} {rs : List V} {thenBlock elseBlock : Program V L}
    (h : Carries stale scope (.ifOp cond thenBlock elseBlock rs next) pending) :
    Carries stale (rs ++ scope) next ((onTheWay pending).map Pending.step) :=
  h.past filter_sublist _
    (fun p hp => ((h.ready p (mem_onTheWay hp).1).ifOp (mem_onTheWay hp).2).2)
    fun v hv => by simp [Code.used, hv]

theorem Carries.forOp_body {iv lb ub stride : V} {inits args rs : List V} {body : Program V L}
    (h : Carries stale scope (.forOp iv lb ub stride inits args body rs next) pending) :
    Carries (Unknown stale pending) (iv :: args ++ scope) body [] := by
  refine carries_nil ?_
  rintro v hv (hstale | hwaiting)
  · exact h.used v (by simp [Code.used, hv]) hstale
  · obtain ⟨p, hp, rfl⟩ := mem_map.mp hwaiting
    exact (h.ready p hp).forOp.1 (mem_append_right _ hv)

theorem Carries.whileOp_blocks {inits args afterArgs rs : List V} {before after : Program V L}
    (h : Carries stale scope (.whileOp inits args before afterArgs after rs next) pending) :
    Carries (Unknown stale pending) (args ++ scope) before [] ∧
      Carries (Unknown stale pending) (afterArgs ++ scope) after [] := by
  have hblock (v : V) (hv : v ∈ before.used Prim.operands ++ after.used Prim.operands) :
      ¬ Unknown stale pending v := by
    rintro (hstale | hwaiting)
    · refine h.used v ?_ hstale
      rcases mem_append.mp hv with hv | hv <;> simp [Code.used, hv]
    · obtain ⟨p, hp, rfl⟩ := mem_map.mp hwaiting
      refine (h.ready p hp).whileOp.1 ?_
      rw [append_assoc]
      exact mem_append_right _ hv
  exact ⟨carries_nil fun v hv => hblock v (mem_append_left _ hv),
    carries_nil fun v hv => hblock v (mem_append_right _ hv)⟩

def Outside (code : Program V L) (pending : List (Pending V)) : Prop :=
  ∀ p ∈ pending, p.result ∉ usedInside code p.distance

omit [DecidableEq V] in
theorem outside_append {code : Program V L} {p : Pending V} :
    Outside code (pending ++ [p]) ↔
      Outside code pending ∧ p.result ∉ usedInside code p.distance := by
  simp only [Outside, forall_mem_append, forall_mem_singleton]

omit [DecidableEq V] in
theorem outside_map_step : Outside next (pending.map Pending.step) ↔
    ∀ p ∈ pending, p.result ∉ usedInside next (p.distance - 1) :=
  forall_mem_map

omit [DecidableEq V] in
theorem outside_ifOp {cond : V} {rs : List V} {thenBlock elseBlock : Program V L} :
    Outside (.ifOp cond thenBlock elseBlock rs next) pending ↔
      (∀ v ∈ waiting (arrived pending),
        v ∉ thenBlock.used Prim.operands ++ elseBlock.used Prim.operands) ∧
      Outside next ((onTheWay pending).map Pending.step) := by
  rw [outside_map_step]
  constructor
  · refine fun h => ⟨fun v hv => ?_, fun p hp => ?_⟩
    · obtain ⟨p, hp, rfl⟩ := mem_map.mp hv
      obtain ⟨hmem, hzero⟩ := mem_filter.mp hp
      have hinside := h p hmem
      rwa [usedInside, if_pos (of_decide_eq_true hzero)] at hinside
    · have hinside := h p (mem_onTheWay hp).1
      rwa [usedInside, if_neg (mem_onTheWay hp).2] at hinside
  · rintro ⟨harrived, hrest⟩ p hp
    rw [usedInside]
    split_ifs with hzero
    · exact harrived _ (mem_map_of_mem (mem_filter.mpr ⟨hp, decide_eq_true hzero⟩))
    · exact hrest p (mem_filter.mpr ⟨hp, decide_eq_true hzero⟩)

theorem Carries.ifOp_blocks {cond : V} {rs : List V} {thenBlock elseBlock : Program V L}
    (h : Carries stale scope (.ifOp cond thenBlock elseBlock rs next) pending)
    (harrived : ∀ v ∈ waiting (arrived pending),
      v ∉ thenBlock.used Prim.operands ++ elseBlock.used Prim.operands) :
    Carries (Unknown stale pending) scope thenBlock [] ∧
      Carries (Unknown stale pending) scope elseBlock [] := by
  have hblock (v : V) (hv : v ∈ thenBlock.used Prim.operands ++ elseBlock.used Prim.operands) :
      ¬ Unknown stale pending v := by
    rintro (hstale | hwaiting)
    · exact h.used v (mem_append_left _ (mem_cons_of_mem _ hv)) hstale
    · rcases mem_waiting_iff.mp hwaiting with hzero | hrest
      · exact harrived v hzero hv
      · obtain ⟨p, hp, rfl⟩ := mem_map.mp hrest
        obtain ⟨hmem, hne⟩ := mem_onTheWay hp
        exact ((h.ready p hmem).ifOp hne).1 (mem_cons_of_mem _ hv)
  exact ⟨carries_nil fun v hv => hblock v (mem_append_left _ hv),
    carries_nil fun v hv => hblock v (mem_append_right _ hv)⟩

end Cases

theorem simulates_combine (code : Program V L) : ∀ {stale : V → Prop} {scope : List V}
    {pending : List (Pending V)} {n : ℕ}, code.Ssa Prim.results Prim.operands scope →
    code.Arity n → UsedOutside order code → Carries stale scope code pending →
    Outside code pending → Simulates control sem limit stale pending code
      (combineTensorSelectAndIf order code pending) := by
  induction code with
  | yield vs =>
    intro stale scope pending n _ _ _ h _ s s' hagrees _
    have hpending : pending = [] :=
      eq_nil_iff_forall_not_mem.mpr fun p hp => not_ready_yield (h.ready p hp)
    have hstale : Agrees stale s s' := by
      refine hagrees.mono fun v hv => hv.resolve_right ?_
      rw [hpending]
      exact not_mem_nil
    exact ⟨hstale.map h.used, hstale⟩
  | prim op next ih =>
    intro stale scope pending n hssa harity houtside h hpending
    have hrest := outside_map_step.mpr hpending
    cases op with
    | select result cond trueValue falseValue =>
      rw [combineTensorSelectAndIf]
      cases hplace : mergedAt order result cond next with
      | some place =>
        exact simulates_select hssa h (ih hssa.2.2 harity houtside.2 (h.select hssa hplace)
          (outside_append.mpr ⟨hrest, houtside.1 place hplace⟩))
      | none => exact simulates_prim hssa h (ih hssa.2.2 harity houtside.2 h.prim hrest)
    | other label results operands =>
      exact simulates_prim hssa h (ih hssa.2.2 harity houtside h.prim hrest)
  | forOp iv lb ub stride inits args body rs next ihBody ih =>
    intro stale scope pending n hssa harity houtside h hpending
    exact simulates_forOp hssa h
      (ihBody hssa.2.2.2.1 harity.1 houtside.1 h.forOp_body fun _ hp => absurd hp not_mem_nil)
      (ih hssa.2.2.2.2 harity.2 houtside.2 h.forOp (outside_map_step.mpr hpending))
  | ifOp cond thenBlock elseBlock rs next ihThen ihElse ih =>
    intro stale scope pending n hssa harity houtside h hpending
    obtain ⟨harrived, hrest⟩ := outside_ifOp.mp hpending
    obtain ⟨hthen, helse⟩ := h.ifOp_blocks harrived
    exact simulates_ifOp hssa harity.1 harity.2.1 h
      (ihThen hssa.2.2.1 harity.1 houtside.1 hthen fun _ hp => absurd hp not_mem_nil)
      (ihElse hssa.2.2.2.1 harity.2.1 houtside.2.1 helse fun _ hp => absurd hp not_mem_nil)
      (ih hssa.2.2.2.2 harity.2.2 houtside.2.2 h.ifOp hrest)
  | whileOp inits args before afterArgs after rs next ihBefore ihAfter ih =>
    intro stale scope pending n hssa harity houtside h hpending
    obtain ⟨hbefore, hafter⟩ := h.whileOp_blocks
    exact simulates_whileOp hssa h
      (ihBefore hssa.2.2.2.2.1 harity.1 houtside.1 hbefore fun _ hp => absurd hp not_mem_nil)
      (ihAfter hssa.2.2.2.2.2.1 harity.2.1 houtside.2.1 hafter
        fun _ hp => absurd hp not_mem_nil)
      (ih hssa.2.2.2.2.2.2 harity.2.2 houtside.2.2 h.whileOp (outside_map_step.mpr hpending))

end Exec

end TritonCpu.SelectIf
