import Mathlib.Data.List.Basic
import Mathlib.Logic.Function.Basic

/-!
# Structured programs

A block is a sequence of operations that ends by yielding values. Loops and
branches have blocks of their own, and bind what these yield. Values are bound
once; a block is run in a state that says what the values are, and what there is
besides them.
-/

set_option autoImplicit false

namespace TritonCpu.Structured

open List

inductive Code (V P : Type) where
  | yield (operands : List V)
  | prim (op : P) (next : Code V P)
  | forOp (iv lb ub step : V) (inits args : List V) (body : Code V P) (results : List V)
      (next : Code V P)
  | ifOp (cond : V) (thenBlock elseBlock : Code V P) (results : List V) (next : Code V P)
  /-- The first block yields a condition and what is passed on. -/
  | whileOp (inits args : List V) (before : Code V P) (afterArgs : List V) (after : Code V P)
      (results : List V) (next : Code V P)

structure State (V D W : Type) where
  env : V → D
  world : W

/-- What loops and branches read off the data. -/
structure Control (D : Type) where
  tripCount : D → D → D → ℕ
  ivAt : D → D → ℕ → D
  isTrue : D → Bool

section Bind

variable {V D W : Type} [DecidableEq V] [Inhabited D] {s : State V D W} {v : V}

def State.bind (s : State V D W) : List V → List D → State V D W
  | [], _ => s
  | v :: vs, ds => { s.bind vs ds.tail with
      env := Function.update (s.bind vs ds.tail).env v ds.headI }

@[simp] theorem bind_world (s : State V D W) (vs : List V) (ds : List D) :
    (s.bind vs ds).world = s.world := by
  induction vs generalizing ds with
  | nil => rfl
  | cons v vs ih => exact ih ds.tail

theorem bind_env_of_notMem (vs : List V) (ds : List D) (h : v ∉ vs) :
    (s.bind vs ds).env v = s.env v := by
  induction vs generalizing ds with
  | nil => rfl
  | cons u vs ih =>
    obtain ⟨hne, hmem⟩ := not_or.mp (mt mem_cons.mpr h)
    exact (Function.update_of_ne hne _ _).trans (ih ds.tail hmem)

theorem bind_append {us vs : List V} {cs ds : List D} (h : us.length = cs.length) :
    s.bind (us ++ vs) (cs ++ ds) = (s.bind vs ds).bind us cs := by
  induction us generalizing cs with
  | nil =>
    obtain rfl := length_eq_zero_iff.mp h.symm
    rfl
  | cons u us ih =>
    cases cs with
    | nil => cases h
    | cons c cs =>
      have htail := ih (Nat.succ.inj h)
      simp only [cons_append, State.bind, tail_cons, headI_cons, htail]

theorem bind_map_env {vs : List V} (hnodup : vs.Nodup) {ds : List D} (h : vs.length = ds.length) :
    vs.map (s.bind vs ds).env = ds := by
  induction vs generalizing ds with
  | nil => exact (length_eq_zero_iff.mp h.symm).symm
  | cons v vs ih =>
    cases ds with
    | nil => cases h
    | cons d ds =>
      obtain ⟨hv, hvs⟩ := nodup_cons.mp hnodup
      rw [map_cons]
      congr 1
      · exact Function.update_self _ _ _
      · refine Eq.trans ?_ (ih hvs (Nat.succ.inj h))
        apply map_congr_left
        intro u hu
        exact Function.update_of_ne (ne_of_mem_of_not_mem hu hv) _ _

end Bind

section Loops

variable {α β : Type}

/-- The iterations 0 to `n - 1`. -/
def repeatFor (f : ℕ → α → α) : ℕ → α → α
  | 0, x => x
  | n + 1, x => f n (repeatFor f n x)

theorem repeatFor_induction {p : α → Prop} {f : ℕ → α → α} {n : ℕ} {a : α} (h : p a)
    (hstep : ∀ k < n, ∀ x, p x → p (f k x)) : p (repeatFor f n a) := by
  induction n with
  | zero => exact h
  | succ n ih => exact hstep n n.lt_succ_self _ (ih fun k hk => hstep k (Nat.lt_succ_of_lt hk))

theorem repeatFor_rel {r : α → β → Prop} {f : ℕ → α → α} {g : ℕ → β → β} {n : ℕ} {a : α} {b : β}
    (h : r a b)
    (hstep : ∀ k < n, ∀ y, r (repeatFor f k a) y → r (f k (repeatFor f k a)) (g k y)) :
    r (repeatFor f n a) (repeatFor g n b) := by
  induction n with
  | zero => exact h
  | succ n ih =>
    exact hstep n n.lt_succ_self _ (ih fun k hk => hstep k (Nat.lt_succ_of_lt hk))

variable {S D : Type}

/-- A loop that is left after `limit` iterations at the latest, so that a run is one with
a large limit, and what a run without end does is what those with a limit do. -/
def repeatWhile [Inhabited D] (isTrue : D → Bool) (before after : S × List D → S × List D) :
    ℕ → S × List D → S × List D
  | 0, x => ((before x).1, (before x).2.tail)
  | limit + 1, x =>
    if isTrue (before x).2.headI then
      repeatWhile isTrue before after limit (after ((before x).1, (before x).2.tail))
    else ((before x).1, (before x).2.tail)

def holdsWhile [Inhabited D] (isTrue : D → Bool) (before after : S × List D → S × List D)
    (p q : S × List D → Prop) : ℕ → S × List D → Prop
  | 0, x => p x
  | limit + 1, x => p x ∧ (isTrue (before x).2.headI = true →
      q ((before x).1, (before x).2.tail) ∧
        holdsWhile isTrue before after p q limit (after ((before x).1, (before x).2.tail)))

theorem repeatWhile_induction [Inhabited D] {p q : S × List D → Prop} {isTrue : D → Bool}
    {before after : S × List D → S × List D} (hbefore : ∀ x, p x → q (before x))
    (hafter : ∀ y, q y → p (after (y.1, y.2.tail))) (hexit : ∀ y, q y → q (y.1, y.2.tail))
    (limit : ℕ) {x : S × List D} (h : p x) :
    q (repeatWhile isTrue before after limit x) := by
  induction limit generalizing x with
  | zero => exact hexit _ (hbefore x h)
  | succ limit ih =>
    unfold repeatWhile
    split
    · exact ih (hafter _ (hbefore x h))
    · exact hexit _ (hbefore x h)

theorem repeatWhile_rel {T : Type} [Inhabited D] {r : S × List D → T × List D → Prop}
    {r' : S × List D → T × List D → Prop} {isTrue : D → Bool}
    {before after : S × List D → S × List D} {before' after' : T × List D → T × List D}
    {p q : S × List D → Prop}
    (hbefore : ∀ x y, p x → r x y → r' (before x) (before' y))
    (hcond : ∀ x y, r' x y → x.2.headI = y.2.headI)
    (hexit : ∀ x y, r' x y → r' (x.1, x.2.tail) (y.1, y.2.tail))
    (hafter : ∀ x y, q x → r' x y → r (after x) (after' y)) (limit : ℕ) {x : S × List D}
    {y : T × List D} (hmeets : holdsWhile isTrue before after p q limit x) (h : r x y) :
    r' (repeatWhile isTrue before after limit x) (repeatWhile isTrue before' after' limit y) := by
  induction limit generalizing x y with
  | zero => exact hexit _ _ (hbefore x y hmeets h)
  | succ limit ih =>
    obtain ⟨hp, hrest⟩ := hmeets
    have hr := hbefore x y hp h
    unfold repeatWhile
    rw [← hcond _ _ hr]
    split
    · rename_i htrue
      obtain ⟨hq, hmeets⟩ := hrest htrue
      exact ih hmeets (hafter _ _ hq (hexit _ _ hr))
    · exact hexit _ _ hr

end Loops

section Exec

variable {V P D W : Type} [DecidableEq V] [Inhabited D] (control : Control D)
  (step : P → State V D W → State V D W) (limit : ℕ)

def enterBody (iv : V) (args : List V) (lb stride : D) (k : ℕ) (x : State V D W × List D) :
    State V D W :=
  x.1.bind (iv :: args) (control.ivAt lb stride k :: x.2)

def exec : Code V P → State V D W → State V D W × List D
  | .yield operands, s => (s, operands.map s.env)
  | .prim op next, s => exec next (step op s)
  | .forOp iv lb ub stride inits args body results next, s =>
    let r := repeatFor (fun k x => exec body (enterBody control iv args (s.env lb) (s.env stride) k x))
      (control.tripCount (s.env lb) (s.env ub) (s.env stride)) (s, inits.map s.env)
    exec next (r.1.bind results r.2)
  | .ifOp cond thenBlock elseBlock results next, s =>
    let r := if control.isTrue (s.env cond) then exec thenBlock s else exec elseBlock s
    exec next (r.1.bind results r.2)
  | .whileOp inits args before afterArgs after results next, s =>
    let r := repeatWhile control.isTrue (fun x => exec before (x.1.bind args x.2))
      (fun x => exec after (x.1.bind afterArgs x.2)) limit (s, inits.map s.env)
    exec next (r.1.bind results r.2)

end Exec

section Scope

variable {V P : Type}

/-- What the operations of a block bind, also inside its loops and branches. -/
def Code.bound (results : P → List V) : Code V P → List V
  | .yield _ => []
  | .prim op next => results op ++ next.bound results
  | .forOp iv _ _ _ _ args body rs next =>
    (iv :: args) ++ body.bound results ++ rs ++ next.bound results
  | .ifOp _ thenBlock elseBlock rs next =>
    thenBlock.bound results ++ elseBlock.bound results ++ rs ++ next.bound results
  | .whileOp _ args before afterArgs after rs next =>
    args ++ before.bound results ++ afterArgs ++ after.bound results ++ rs ++ next.bound results

/-- Values that can be bound. -/
structure Fresh (scope vs : List V) : Prop where
  nodup : vs.Nodup
  notMem : ∀ v ∈ vs, v ∉ scope

theorem Fresh.tail {scope vs : List V} {v : V} (h : Fresh scope (v :: vs)) :
    Fresh scope vs ∧ v ∉ vs ++ scope := by
  obtain ⟨hv, hnodup⟩ := nodup_cons.mp h.nodup
  refine ⟨⟨hnodup, fun u hu => h.notMem u (mem_cons_of_mem _ hu)⟩, ?_⟩
  rw [mem_append, not_or]
  exact ⟨hv, h.notMem v mem_cons_self⟩

def Code.Ssa (results operands : P → List V) : Code V P → List V → Prop
  | .yield vs, scope => vs ⊆ scope
  | .prim op next, scope => operands op ⊆ scope ∧ Fresh scope (results op) ∧
      next.Ssa results operands (results op ++ scope)
  | .forOp iv lb ub stride inits args body rs next, scope =>
    lb :: ub :: stride :: inits ⊆ scope ∧ Fresh scope (iv :: args) ∧ Fresh scope rs ∧
      body.Ssa results operands (iv :: args ++ scope) ∧ next.Ssa results operands (rs ++ scope)
  | .ifOp cond thenBlock elseBlock rs next, scope =>
    cond ∈ scope ∧ Fresh scope rs ∧ thenBlock.Ssa results operands scope ∧
      elseBlock.Ssa results operands scope ∧ next.Ssa results operands (rs ++ scope)
  | .whileOp inits args before afterArgs after rs next, scope =>
    inits ⊆ scope ∧ Fresh scope args ∧ Fresh scope afterArgs ∧ Fresh scope rs ∧
      before.Ssa results operands (args ++ scope) ∧ after.Ssa results operands (afterArgs ++ scope) ∧
      next.Ssa results operands (rs ++ scope)

theorem Code.Ssa.notMem_bound {results operands : P → List V} {code : Code V P} {scope : List V}
    (h : code.Ssa results operands scope) : ∀ v ∈ scope, v ∉ code.bound results := by
  intro v hv
  induction code generalizing scope with
  | yield vs => exact not_mem_nil
  | prim op next ih =>
    obtain ⟨-, hfresh, hnext⟩ := h
    rw [Code.bound, mem_append, not_or]
    exact ⟨fun hmem => hfresh.notMem v hmem hv, ih hnext (mem_append_right _ hv)⟩
  | forOp iv lb ub stride inits args body rs next ihBody ih =>
    obtain ⟨-, hargs, hrs, hbody, hnext⟩ := h
    simp only [Code.bound, mem_append, not_or]
    exact ⟨⟨⟨fun hmem => hargs.notMem v hmem hv, ihBody hbody (mem_append_right _ hv)⟩,
      fun hmem => hrs.notMem v hmem hv⟩, ih hnext (mem_append_right _ hv)⟩
  | ifOp cond thenBlock elseBlock rs next ihThen ihElse ih =>
    obtain ⟨-, hrs, hthen, helse, hnext⟩ := h
    simp only [Code.bound, mem_append, not_or]
    exact ⟨⟨⟨ihThen hthen hv, ihElse helse hv⟩, fun hmem => hrs.notMem v hmem hv⟩,
      ih hnext (mem_append_right _ hv)⟩
  | whileOp inits args before afterArgs after rs next ihBefore ihAfter ih =>
    obtain ⟨-, hargs, hafterArgs, hrs, hbefore, hafter, hnext⟩ := h
    simp only [Code.bound, mem_append, not_or]
    exact ⟨⟨⟨⟨⟨fun hmem => hargs.notMem v hmem hv, ihBefore hbefore (mem_append_right _ hv)⟩,
      fun hmem => hafterArgs.notMem v hmem hv⟩, ihAfter hafter (mem_append_right _ hv)⟩,
      fun hmem => hrs.notMem v hmem hv⟩, ih hnext (mem_append_right _ hv)⟩

/-- The types of the conditions and of the counters of loops. -/
structure Types (T : Type) where
  bool : T
  index : T → Prop

/-- The operations have the types they need, and what a block yields has the types of what
it is bound to. -/
def Code.WellTyped {T : Type} (types : Types T) (type : V → T) (typed : P → Prop) :
    Code V P → List T → Prop
  | .yield vs, yielded => vs.map type = yielded
  | .prim op next, yielded => typed op ∧ next.WellTyped types type typed yielded
  | .forOp iv lb ub stride inits args body rs next, yielded =>
    types.index (type iv) ∧ (∀ v ∈ [lb, ub, stride], type v = type iv) ∧
      inits.map type = args.map type ∧ rs.map type = args.map type ∧
      body.WellTyped types type typed (args.map type) ∧ next.WellTyped types type typed yielded
  | .ifOp cond thenBlock elseBlock rs next, yielded =>
    type cond = types.bool ∧ thenBlock.WellTyped types type typed (rs.map type) ∧
      elseBlock.WellTyped types type typed (rs.map type) ∧ next.WellTyped types type typed yielded
  | .whileOp inits args before afterArgs after rs next, yielded =>
    inits.map type = args.map type ∧ rs.map type = afterArgs.map type ∧
      before.WellTyped types type typed (types.bool :: afterArgs.map type) ∧
      after.WellTyped types type typed (args.map type) ∧ next.WellTyped types type typed yielded

end Scope

section Frame

variable {V P D W : Type} [DecidableEq V] [Inhabited D] {control : Control D}
  {step : P → State V D W → State V D W} {limit : ℕ} {results operands : P → List V}

theorem exec_env_of_notMem (hstep : ∀ op s, ∀ v ∉ results op, (step op s).env v = s.env v)
    (code : Code V P) {v : V} (hv : v ∉ code.bound results) (s : State V D W) :
    (exec control step limit code s).1.env v = s.env v := by
  induction code generalizing s with
  | yield vs => rfl
  | prim op next ih =>
    obtain ⟨hop, hnext⟩ := not_or.mp (mt mem_append.mpr hv)
    exact (ih hnext _).trans (hstep op s v hop)
  | forOp iv lb ub stride inits args body rs next ihBody ih =>
    simp only [Code.bound, mem_append, not_or] at hv
    obtain ⟨⟨⟨hargs, hbody⟩, hrs⟩, hnext⟩ := hv
    rw [exec, ih hnext, bind_env_of_notMem _ _ hrs]
    refine repeatFor_induction (p := fun x : State V D W × List D => x.1.env v = s.env v) rfl ?_
    intro k _ x hx
    rw [ihBody hbody, enterBody, bind_env_of_notMem _ _ hargs, hx]
  | ifOp cond thenBlock elseBlock rs next ihThen ihElse ih =>
    simp only [Code.bound, mem_append, not_or] at hv
    obtain ⟨⟨⟨hthen, helse⟩, hrs⟩, hnext⟩ := hv
    rw [exec, ih hnext, bind_env_of_notMem _ _ hrs]
    split
    · exact ihThen hthen s
    · exact ihElse helse s
  | whileOp inits args before afterArgs after rs next ihBefore ihAfter ih =>
    simp only [Code.bound, mem_append, not_or] at hv
    obtain ⟨⟨⟨⟨⟨hargs, hbefore⟩, hafterArgs⟩, hafter⟩, hrs⟩, hnext⟩ := hv
    rw [exec, ih hnext, bind_env_of_notMem _ _ hrs]
    refine repeatWhile_induction (p := fun x : State V D W × List D => x.1.env v = s.env v)
      (q := fun y => y.1.env v = s.env v) ?_ ?_ ?_ limit rfl
    · intro x hx
      rw [ihBefore hbefore, bind_env_of_notMem _ _ hargs, hx]
    · intro y hy
      rw [ihAfter hafter, bind_env_of_notMem _ _ hafterArgs, hy]
    · exact fun y hy => hy

end Frame

end TritonCpu.Structured
