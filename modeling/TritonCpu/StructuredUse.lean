import TritonCpu.StructuredCode

/-!
# What structured programs read

A block reads the operands of its operations, also of those in its loops and
branches. Operations are local: what they bind and do follows from what they
read, and they change nothing else.
-/

set_option autoImplicit false

namespace TritonCpu.Structured

open List

variable {V P D W : Type}

/-- What the operations of a block read, also inside its loops and branches. -/
def Code.used (operands : P → List V) : Code V P → List V
  | .yield vs => vs
  | .prim op next => operands op ++ next.used operands
  | .forOp _ lb ub stride inits _ body _ next =>
    lb :: ub :: stride :: inits ++ body.used operands ++ next.used operands
  | .ifOp cond thenBlock elseBlock _ next =>
    cond :: thenBlock.used operands ++ elseBlock.used operands ++ next.used operands
  | .whileOp inits _ before _ after _ next =>
    inits ++ before.used operands ++ after.used operands ++ next.used operands

theorem Code.Ssa.used_subset {results operands : P → List V} {code : Code V P} {scope : List V}
    (h : code.Ssa results operands scope) {v : V} (hv : v ∈ code.used operands) :
    v ∈ scope ∨ v ∈ code.bound results := by
  induction code generalizing scope with
  | yield vs => exact .inl (h hv)
  | prim op next ih =>
    obtain ⟨hop, -, hnext⟩ := h
    rw [Code.bound, mem_append]
    rcases mem_append.mp hv with hv | hv
    · exact .inl (hop hv)
    · have hrest := ih hnext hv
      rw [mem_append] at hrest
      tauto
  | forOp iv lb ub stride inits args body rs next ihBody ih =>
    obtain ⟨hop, -, -, hbody, hnext⟩ := h
    simp only [Code.bound, mem_append]
    simp only [Code.used, mem_append] at hv
    rcases hv with (hv | hv) | hv
    · exact .inl (hop hv)
    · have hrest := ihBody hbody hv
      rw [mem_append] at hrest
      tauto
    · have hrest := ih hnext hv
      rw [mem_append] at hrest
      tauto
  | ifOp cond thenBlock elseBlock rs next ihThen ihElse ih =>
    obtain ⟨hcond, -, hthen, helse, hnext⟩ := h
    simp only [Code.bound, mem_append]
    simp only [Code.used, cons_append, mem_cons, mem_append] at hv
    rcases hv with rfl | (hv | hv) | hv
    · exact .inl hcond
    · have hrest := ihThen hthen hv
      tauto
    · have hrest := ihElse helse hv
      tauto
    · have hrest := ih hnext hv
      rw [mem_append] at hrest
      tauto
  | whileOp inits args before afterArgs after rs next ihBefore ihAfter ih =>
    obtain ⟨hop, -, -, -, hbefore, hafter, hnext⟩ := h
    simp only [Code.bound, mem_append]
    simp only [Code.used, mem_append] at hv
    rcases hv with ((hv | hv) | hv) | hv
    · exact .inl (hop hv)
    · have hrest := ihBefore hbefore hv
      rw [mem_append] at hrest
      tauto
    · have hrest := ihAfter hafter hv
      rw [mem_append] at hrest
      tauto
    · have hrest := ih hnext hv
      rw [mem_append] at hrest
      tauto

def Code.Arity : Code V P → ℕ → Prop
  | .yield vs, n => vs.length = n
  | .prim _ next, n => next.Arity n
  | .forOp _ _ _ _ _ args body _ next, n => body.Arity args.length ∧ next.Arity n
  | .ifOp _ thenBlock elseBlock rs next, n =>
    thenBlock.Arity rs.length ∧ elseBlock.Arity rs.length ∧ next.Arity n
  | .whileOp _ args before afterArgs after _ next, n =>
    before.Arity (afterArgs.length + 1) ∧ after.Arity args.length ∧ next.Arity n

def Code.yieldAlso (also : List V) : Code V P → Code V P
  | .yield vs => .yield (vs ++ also)
  | .prim op next => .prim op (next.yieldAlso also)
  | .forOp iv lb ub stride inits args body rs next =>
    .forOp iv lb ub stride inits args body rs (next.yieldAlso also)
  | .ifOp cond thenBlock elseBlock rs next =>
    .ifOp cond thenBlock elseBlock rs (next.yieldAlso also)
  | .whileOp inits args before afterArgs after rs next =>
    .whileOp inits args before afterArgs after rs (next.yieldAlso also)

theorem bound_yieldAlso (results : P → List V) (also : List V) (code : Code V P) :
    (code.yieldAlso also).bound results = code.bound results := by
  induction code with
  | yield vs => rfl
  | prim op next ih => rw [Code.yieldAlso, Code.bound, Code.bound, ih]
  | forOp iv lb ub stride inits args body rs next _ ih =>
    rw [Code.yieldAlso, Code.bound, Code.bound, ih]
  | ifOp cond thenBlock elseBlock rs next _ _ ih =>
    rw [Code.yieldAlso, Code.bound, Code.bound, ih]
  | whileOp inits args before afterArgs after rs next _ _ ih =>
    rw [Code.yieldAlso, Code.bound, Code.bound, ih]

theorem mem_used_yieldAlso (operands : P → List V) (also : List V) (code : Code V P) {v : V} :
    v ∈ (code.yieldAlso also).used operands ↔ v ∈ code.used operands ∨ v ∈ also := by
  induction code with
  | yield vs => exact mem_append
  | prim op next ih => simp only [Code.yieldAlso, Code.used, mem_append, ih, or_assoc]
  | forOp iv lb ub stride inits args body rs next _ ih =>
    simp only [Code.yieldAlso, Code.used, mem_append, ih, or_assoc]
  | ifOp cond thenBlock elseBlock rs next _ _ ih =>
    simp only [Code.yieldAlso, Code.used, mem_append, ih, or_assoc]
  | whileOp inits args before afterArgs after rs next _ _ ih =>
    simp only [Code.yieldAlso, Code.used, mem_append, ih, or_assoc]

theorem Code.Ssa.yieldAlso {results operands : P → List V} {code : Code V P} {scope also : List V}
    (h : code.Ssa results operands scope) (halso : also ⊆ scope) :
    (code.yieldAlso also).Ssa results operands scope := by
  induction code generalizing scope with
  | yield vs => exact append_subset.mpr ⟨h, halso⟩
  | prim op next ih =>
    obtain ⟨hop, hfresh, hnext⟩ := h
    exact ⟨hop, hfresh, ih hnext (subset_append_of_subset_right _ halso)⟩
  | forOp iv lb ub stride inits args body rs next _ ih =>
    obtain ⟨hop, hargs, hrs, hbody, hnext⟩ := h
    exact ⟨hop, hargs, hrs, hbody, ih hnext (subset_append_of_subset_right _ halso)⟩
  | ifOp cond thenBlock elseBlock rs next _ _ ih =>
    obtain ⟨hcond, hrs, hthen, helse, hnext⟩ := h
    exact ⟨hcond, hrs, hthen, helse, ih hnext (subset_append_of_subset_right _ halso)⟩
  | whileOp inits args before afterArgs after rs next _ _ ih =>
    obtain ⟨hop, hargs, hafterArgs, hrs, hbefore, hafter, hnext⟩ := h
    exact ⟨hop, hargs, hafterArgs, hrs, hbefore, hafter,
      ih hnext (subset_append_of_subset_right _ halso)⟩

theorem Code.Ssa.of_yieldAlso {results operands : P → List V} {code : Code V P}
    {scope also : List V} (h : (code.yieldAlso also).Ssa results operands scope) :
    code.Ssa results operands scope := by
  induction code generalizing scope with
  | yield vs => exact (append_subset.mp h).1
  | prim op next ih => exact ⟨h.1, h.2.1, ih h.2.2⟩
  | forOp iv lb ub stride inits args body rs next _ ih =>
    exact ⟨h.1, h.2.1, h.2.2.1, h.2.2.2.1, ih h.2.2.2.2⟩
  | ifOp cond thenBlock elseBlock rs next _ _ ih =>
    exact ⟨h.1, h.2.1, h.2.2.1, h.2.2.2.1, ih h.2.2.2.2⟩
  | whileOp inits args before afterArgs after rs next _ _ ih =>
    exact ⟨h.1, h.2.1, h.2.2.1, h.2.2.2.1, h.2.2.2.2.1, h.2.2.2.2.2.1, ih h.2.2.2.2.2.2⟩

section Local

/-- Two states that agree on all values but some. -/
structure Agrees (stale : V → Prop) (s s' : State V D W) : Prop where
  world : s.world = s'.world
  env : ∀ v, ¬ stale v → s.env v = s'.env v

theorem Agrees.mono {stale stale' : V → Prop} {s s' : State V D W} (h : Agrees stale s s')
    (hle : ∀ v, stale v → stale' v) : Agrees stale' s s' :=
  ⟨h.world, fun v hv => h.env v fun hs => hv (hle v hs)⟩

theorem Agrees.eq {s s' : State V D W} (h : Agrees (fun _ => False) s s') : s = s' := by
  obtain ⟨env, world⟩ := s
  obtain ⟨env', world'⟩ := s'
  obtain rfl : env = env' := funext fun v => h.env v not_false
  obtain rfl : world = world' := h.world
  rfl

theorem Agrees.map {stale : V → Prop} {s s' : State V D W} (h : Agrees stale s s') {vs : List V}
    (hvs : ∀ v ∈ vs, ¬ stale v) : vs.map s.env = vs.map s'.env :=
  map_congr_left fun v hv => h.env v (hvs v hv)

variable [DecidableEq V] [Inhabited D]

theorem bind_env_map {α : Type} {l : List α} {f : α → V} (hnodup : (l.map f).Nodup) (g : α → D)
    (s : State V D W) {a : α} (ha : a ∈ l) : (s.bind (l.map f) (l.map g)).env (f a) = g a := by
  have hbound := bind_map_env (s := s) hnodup
    (show (l.map f).length = (l.map g).length by rw [length_map, length_map])
  rw [map_map] at hbound
  exact map_inj_left.mp hbound a ha

theorem bind_env_of_mem {vs : List V} {v : V} (hv : v ∈ vs) (ds : List D) (s s' : State V D W) :
    (s.bind vs ds).env v = (s'.bind vs ds).env v := by
  induction vs generalizing ds with
  | nil => cases hv
  | cons u vs ih =>
    change Function.update (s.bind vs ds.tail).env u ds.headI v =
      Function.update (s'.bind vs ds.tail).env u ds.headI v
    by_cases h : v = u
    · rw [h, Function.update_self, Function.update_self]
    · rw [Function.update_of_ne h, Function.update_of_ne h,
        ih ((mem_cons.mp hv).resolve_left h)]

theorem Agrees.bind {stale : V → Prop} {s s' : State V D W} (h : Agrees stale s s')
    (vs : List V) (ds : List D) : Agrees stale (s.bind vs ds) (s'.bind vs ds) where
  world := by rw [bind_world, bind_world, h.world]
  env v hv := by
    by_cases hmem : v ∈ vs
    · exact bind_env_of_mem hmem ds s s'
    · rw [bind_env_of_notMem vs ds hmem, bind_env_of_notMem vs ds hmem, h.env v hv]

/-- What the operations bind and do follows from what they read; they change nothing else. -/
structure Local (step : P → State V D W → State V D W) (results operands : P → List V) :
    Prop where
  frame : ∀ op s, ∀ v ∉ results op, (step op s).env v = s.env v
  reads : ∀ op s s', (operands op).map s.env = (operands op).map s'.env → s.world = s'.world →
    (step op s).world = (step op s').world ∧
      ∀ v ∈ results op, (step op s).env v = (step op s').env v

omit [Inhabited D] in
theorem Local.agrees {step : P → State V D W → State V D W} {results operands : P → List V}
    (h : Local step results operands) {stale : V → Prop} {s s' : State V D W}
    (hagrees : Agrees stale s s') {op : P} (hop : ∀ v ∈ operands op, ¬ stale v) :
    Agrees stale (step op s) (step op s') := by
  obtain ⟨hworld, henv⟩ := h.reads op s s' (hagrees.map hop) hagrees.world
  refine ⟨hworld, fun v hv => ?_⟩
  by_cases hmem : v ∈ results op
  · exact henv v hmem
  · rw [h.frame op s v hmem, h.frame op s' v hmem, hagrees.env v hv]

theorem exec_yieldAlso (control : Control D) (step : P → State V D W → State V D W) (limit : ℕ)
    (also : List V) (code : Code V P) (s : State V D W) :
    exec control step limit (code.yieldAlso also) s =
      ((exec control step limit code s).1,
        (exec control step limit code s).2 ++
          also.map (exec control step limit code s).1.env) := by
  induction code generalizing s with
  | yield vs => rw [Code.yieldAlso, exec, exec, map_append]
  | prim op next ih => exact ih _
  | forOp iv lb ub stride inits args body rs next _ ih => exact ih _
  | ifOp cond thenBlock elseBlock rs next _ _ ih => exact ih _
  | whileOp inits args before afterArgs after rs next _ _ ih => exact ih _

theorem Code.Arity.length_exec {code : Code V P} {n : ℕ} (h : code.Arity n) (control : Control D)
    (step : P → State V D W → State V D W) (limit : ℕ) (s : State V D W) :
    (exec control step limit code s).2.length = n := by
  induction code generalizing s with
  | yield vs => exact (length_map _).trans h
  | prim op next ih => exact ih h _
  | forOp iv lb ub stride inits args body rs next _ ih => exact ih h.2 _
  | ifOp cond thenBlock elseBlock rs next _ _ ih => exact ih h.2.2 _
  | whileOp inits args before afterArgs after rs next _ _ ih => exact ih h.2.2 _

end Local

theorem holdsWhile_true {S : Type} [Inhabited D] (isTrue : D → Bool)
    (before after : S × List D → S × List D) (limit : ℕ) (x : S × List D) :
    holdsWhile isTrue before after (fun _ => True) (fun _ => True) limit x := by
  induction limit generalizing x with
  | zero => exact trivial
  | succ limit ih => exact ⟨trivial, fun _ => ⟨trivial, ih _⟩⟩

end TritonCpu.Structured
