import Mathlib

/-!
# A language of buffers, loops and branches

Structured statements inside basic blocks, in single assignment form. Every execution
of an allocation creates a buffer of its own, named by the allocation and the number of
times it ran before, so that two iterations of a loop have two buffers. The memory is its
history: a run records the accesses it makes, and a cell holds what was written to it last.
-/

set_option autoImplicit false

namespace TritonCpu.BufferLanguage

abbrev Var := ℕ

/-- The buffer made by the execution number `inst` of the allocation of `op`. -/
structure Ref where
  op : Var
  inst : ℕ
  deriving DecidableEq, Repr

/-- `undef` is what an unwritten cell holds; a pointer is a buffer and an offset into it. -/
inductive Val where
  | undef
  | int (n : ℤ)
  | ptr (r : Ref) (offset : ℤ)
  deriving DecidableEq, Repr

/-- `w` is `v` after the buffers were renamed by `f`; an undefined value may become
anything. -/
inductive Val.Refines (f : Ref → Ref) : Val → Val → Prop where
  | undef (w : Val) : Val.Refines f .undef w
  | int (n : ℤ) : Val.Refines f (.int n) (.int n)
  | ptr (r : Ref) (offset : ℤ) : Val.Refines f (.ptr r offset) (.ptr (f r) offset)

/-- An operation without effects. It cannot tell one buffer from another, and more
defined operands do not change a defined result. -/
structure PureOp where
  eval : List Val → Val
  natural : ∀ (f : Ref → Ref) (vs ws : List Val), List.Forall₂ (Val.Refines f) vs ws →
    Val.Refines f (eval vs) (eval ws)

inductive Access where
  | read (r : Ref) (cell : ℤ) (v : Val)
  | write (r : Ref) (cell : ℤ) (v : Val)
  | free (r : Ref)
  deriving DecidableEq, Repr

inductive Access.Refines (f : Ref → Ref) : Access → Access → Prop where
  | read (r : Ref) (cell : ℤ) {v w : Val} (h : v.Refines f w) :
      Access.Refines f (.read r cell v) (.read (f r) cell w)
  | write (r : Ref) (cell : ℤ) {v w : Val} (h : v.Refines f w) :
      Access.Refines f (.write r cell v) (.write (f r) cell w)
  | free (r : Ref) : Access.Refines f (.free r) (.free (f r))

abbrev Memory := Ref → ℤ → Val

/-- What a cell holds after the accesses of `log`, the newest first. -/
def contents (init : Memory) (r : Ref) (cell : ℤ) : List Access → Val
  | [] => init r cell
  | .write r' cell' v :: log =>
      if r' = r ∧ cell' = cell then v else contents init r cell log
  | _ :: log => contents init r cell log

structure State where
  env : Var → Val
  count : Var → ℕ
  log : List Access

/-- An operation `alloc` carries the data `α` of its type. `scfWhile` runs `before`, tests
`cond` and runs `after` if it holds; `move` passes values to block arguments. -/
inductive Stmt (α : Type) where
  | skip
  | seq (first second : Stmt α)
  | pure (dst : Var) (op : PureOp) (args : List Var)
  | move (dsts srcs : List Var)
  | alloc (dst : Var) (type : α)
  | load (dst buffer index : Var)
  | store (src buffer index : Var)
  | dealloc (buffer : Var)
  | scfIf (cond : Var) (thenRegion elseRegion : Stmt α)
  | scfWhile (before : Stmt α) (cond : Var) (after : Stmt α)

structure Target where
  dest : ℕ
  args : List Var

inductive Terminator where
  | ret (values : List Var)
  | br (target : Target)
  | condBr (cond : Var) (thenTarget elseTarget : Target)

structure Block (α : Type) where
  args : List Var
  body : Stmt α
  term : Terminator

/-- A branch goes to one of `blocks`: nothing jumps to the entry block. -/
structure Body (α : Type) where
  entry : Block α
  blocks : List (Block α)

/-- A run ends, is cut short when its fuel is spent, or does something undefined. -/
inductive Outcome where
  | done (s : State)
  | outOfFuel (s : State)
  | undefined

namespace Outcome

def bind (o : Outcome) (f : State → Outcome) : Outcome :=
  match o with
  | .done s => f s
  | .outOfFuel s => .outOfFuel s
  | .undefined => .undefined

end Outcome

def Val.toBool? : Val → Option Bool
  | .int n => some (n != 0)
  | _ => none

def address? : Val → Val → Option (Ref × ℤ)
  | .ptr r offset, .int n => some (r, offset + n)
  | _, _ => none

namespace State

def assign (s : State) : List Var → List Val → State
  | x :: xs, v :: vs => assign { s with env := Function.update s.env x v } xs vs
  | _, _ => s

def alloc (s : State) (x : Var) : State :=
  { s with
    env := Function.update s.env x (.ptr ⟨x, s.count x⟩ 0)
    count := Function.update s.count x (s.count x + 1) }

def record (s : State) (a : Access) : State := { s with log := a :: s.log }

def access (s : State) (buffer : Ref) (next : Outcome) : Outcome :=
  if .free buffer ∈ s.log then .undefined else next

end State

def loop (before : State → Outcome) (cond : Var) (after : State → Outcome) :
    ℕ → State → Outcome
  | 0, s => .outOfFuel s
  | n + 1, s => (before s).bind fun s =>
      match (s.env cond).toBool? with
      | none => .undefined
      | some false => .done s
      | some true => (after s).bind (loop before cond after n)

section Eval

variable {α : Type} (init : Memory) (fuel : ℕ)

def eval : Stmt α → State → Outcome
  | .skip, s => .done s
  | .seq a b, s => (eval a s).bind (eval b)
  | .pure dst op args, s => .done (s.assign [dst] [op.eval (args.map s.env)])
  | .move dsts srcs, s => .done (s.assign dsts (srcs.map s.env))
  | .alloc dst _, s => .done (s.alloc dst)
  | .load dst buffer index, s =>
      match address? (s.env buffer) (s.env index) with
      | none => .undefined
      | some (r, cell) =>
          let v := contents init r cell s.log
          s.access r (.done ((s.record (.read r cell v)).assign [dst] [v]))
  | .store src buffer index, s =>
      match address? (s.env buffer) (s.env index) with
      | none => .undefined
      | some (r, cell) => s.access r (.done (s.record (.write r cell (s.env src))))
  | .dealloc buffer, s =>
      match s.env buffer with
      | .ptr r _ => s.access r (.done (s.record (.free r)))
      | _ => .undefined
  | .scfIf cond a b, s =>
      match (s.env cond).toBool? with
      | none => .undefined
      | some true => eval a s
      | some false => eval b s
  | .scfWhile before cond after, s => loop (eval before) cond (eval after) fuel s

/-- Where a block goes next: nothing after a return, no answer when the condition is
not a number. -/
def Terminator.next (t : Terminator) (s : State) : Option (Option Target) :=
  match t with
  | .ret _ => some none
  | .br target => some (some target)
  | .condBr cond a b => (s.env cond).toBool?.map fun c => some (if c then a else b)

/-- What a terminator does after the body of its block; `run` enters the next block. -/
def leave (blocks : List (Block α)) (run : Block α → State → Outcome) (t : Terminator)
    (s : State) : Outcome :=
  match t.next s with
  | none => .undefined
  | some none => .done s
  | some (some target) =>
      match blocks[target.dest]? with
      | none => .undefined
      | some block => run block (s.assign block.args (target.args.map s.env))

/-- The run from the start of a block, over at most `n` blocks. -/
def exec (blocks : List (Block α)) : ℕ → Block α → State → Outcome
  | 0, _, s => .outOfFuel s
  | n + 1, block, s => (eval init fuel block.body s).bind fun s =>
      leave blocks (exec blocks n) block.term s

def Body.start (b : Body α) (args : List Val) : State :=
  State.assign ⟨fun _ => .undef, fun _ => 0, []⟩ b.entry.args args

def Body.run (b : Body α) (args : List Val) : Outcome :=
  exec init fuel b.blocks fuel b.entry (b.start args)

end Eval

/-! ### Operations on numbers, and the counted loop -/

def Val.toInt? : Val → Option ℤ
  | .int n => some n
  | _ => none

theorem Val.Refines.toInt?_eq {f : Ref → Ref} {v w : Val} {n : ℤ} (h : v.Refines f w)
    (hn : v.toInt? = some n) : w.toInt? = some n := by
  cases h with
  | undef => simp [Val.toInt?] at hn
  | int => exact hn
  | ptr => simp [Val.toInt?] at hn

theorem mapM_toInt?_eq {f : Ref → Ref} {vs ws : List Val}
    (h : List.Forall₂ (Val.Refines f) vs ws) {ns : List ℤ}
    (hns : vs.mapM Val.toInt? = some ns) : ws.mapM Val.toInt? = some ns := by
  induction h generalizing ns with
  | nil => exact hns
  | cons hv _ ih =>
    rw [List.mapM_cons, Option.bind_eq_bind, Option.bind_eq_some_iff] at hns
    obtain ⟨n, hn, hns⟩ := hns
    rw [Option.bind_eq_bind, Option.bind_eq_some_iff] at hns
    obtain ⟨ns', hns', hpure⟩ := hns
    rw [List.mapM_cons, hv.toInt?_eq hn, ih hns', ← hpure]
    rfl

def PureOp.ofInts (g : List ℤ → ℤ) : PureOp where
  eval vs := match vs.mapM Val.toInt? with
    | some ns => .int (g ns)
    | none => .undef
  natural f vs ws h := by
    cases hns : vs.mapM Val.toInt? with
    | none => exact .undef _
    | some ns =>
      rw [mapM_toInt?_eq h hns]
      exact .int _

/-- `scf.for iv = lower to upper step step iter_args(args = inits)`, whose body ends with
`scf.yield yields`; `inRange` holds the test of the loop. -/
def Stmt.scfFor {α : Type} (iv lower upper step inRange : Var) (args inits : List Var)
    (body : Stmt α) (yields : List Var) : Stmt α :=
  .seq (.move (iv :: args) (lower :: inits))
    (.scfWhile
      (.pure inRange (.ofInts fun ns => if ns.getD 0 0 < ns.getD 1 0 then 1 else 0) [iv, upper])
      inRange
      (.seq body
        (.seq (.move args yields) (.pure iv (.ofInts List.sum) [iv, step]))))

/-! ### What a run adds to the history -/

@[simp] theorem State.assign_log (s : State) (xs : List Var) (vs : List Val) :
    (s.assign xs vs).log = s.log := by
  induction xs generalizing s vs with
  | nil => rfl
  | cons x xs ih =>
    cases vs with
    | nil => rfl
    | cons v vs => exact ih _ _

@[simp] theorem State.assign_count (s : State) (xs : List Var) (vs : List Val) :
    (s.assign xs vs).count = s.count := by
  induction xs generalizing s vs with
  | nil => rfl
  | cons x xs ih =>
    cases vs with
    | nil => rfl
    | cons v vs => exact ih _ _

namespace Outcome

/-- The history of the outcome goes on from `log`. -/
def Extends (log : List Access) : Outcome → Prop
  | .done s => log <:+ s.log
  | .outOfFuel s => log <:+ s.log
  | .undefined => True

theorem Extends.mono {log log' : List Access} {o : Outcome} (h : log <:+ log')
    (ho : o.Extends log') : o.Extends log := by
  cases o with
  | done s => exact h.trans ho
  | outOfFuel s => exact h.trans ho
  | undefined => trivial

theorem Extends.bind {log : List Access} {o : Outcome} {f : State → Outcome}
    (ho : o.Extends log) (hf : ∀ s, (f s).Extends s.log) : (o.bind f).Extends log := by
  cases o with
  | done s => exact (hf s).mono ho
  | outOfFuel s => exact ho
  | undefined => trivial

theorem loop_extends {before after : State → Outcome} (cond : Var)
    (hbefore : ∀ s, (before s).Extends s.log) (hafter : ∀ s, (after s).Extends s.log)
    (n : ℕ) (s : State) : (loop before cond after n s).Extends s.log := by
  induction n generalizing s with
  | zero => exact List.suffix_rfl
  | succ n ih =>
    refine (hbefore s).bind fun s => ?_
    cases (s.env cond).toBool? with
    | none => trivial
    | some c =>
      cases c with
      | false => exact List.suffix_rfl
      | true => exact (hafter s).bind ih

theorem access_extends {s : State} (r : Ref) {o : Outcome} (ho : o.Extends s.log) :
    (s.access r o).Extends s.log := by
  by_cases h : .free r ∈ s.log
  · simp only [State.access, if_pos h]
    trivial
  · simpa only [State.access, if_neg h] using ho

end Outcome

section Runs

variable {α : Type} (init : Memory) (fuel : ℕ)

theorem eval_extends (st : Stmt α) (s : State) : (eval init fuel st s).Extends s.log := by
  induction st generalizing s with
  | skip => exact List.suffix_rfl
  | seq a b iha ihb => exact (iha s).bind ihb
  | pure dst op args => simp [eval, Outcome.Extends]
  | move dsts srcs => simp [eval, Outcome.Extends]
  | alloc dst type => exact List.suffix_rfl
  | load dst buffer index =>
    simp only [eval]
    cases address? (s.env buffer) (s.env index) with
    | none => trivial
    | some p =>
      refine Outcome.access_extends _ ?_
      simp [Outcome.Extends, State.record]
  | store src buffer index =>
    simp only [eval]
    cases address? (s.env buffer) (s.env index) with
    | none => trivial
    | some p =>
      refine Outcome.access_extends _ ?_
      simp [Outcome.Extends, State.record]
  | dealloc buffer =>
    simp only [eval]
    cases s.env buffer with
    | ptr r offset =>
      refine Outcome.access_extends _ ?_
      simp [Outcome.Extends, State.record]
    | undef => trivial
    | int n => trivial
  | scfIf cond a b iha ihb =>
    simp only [eval]
    cases (s.env cond).toBool? with
    | none => trivial
    | some c =>
      cases c with
      | true => exact iha s
      | false => exact ihb s
  | scfWhile before cond after ihb iha => exact Outcome.loop_extends cond ihb iha fuel s

theorem leave_extends (blocks : List (Block α)) {run : Block α → State → Outcome}
    (hrun : ∀ block s, (run block s).Extends s.log) (t : Terminator) (s : State) :
    (leave blocks run t s).Extends s.log := by
  simp only [leave]
  cases t.next s with
  | none => trivial
  | some next =>
    cases next with
    | none => exact List.suffix_rfl
    | some target =>
      cases hblock : blocks[target.dest]? with
      | none => simp only [hblock]; trivial
      | some block =>
        simp only [hblock]
        simpa using hrun block (s.assign block.args (target.args.map s.env))

theorem exec_extends (blocks : List (Block α)) (n : ℕ) (block : Block α) (s : State) :
    (exec init fuel blocks n block s).Extends s.log := by
  induction n generalizing block s with
  | zero => exact List.suffix_rfl
  | succ n ih =>
    exact (eval_extends init fuel block.body s).bind (leave_extends blocks ih block.term)

end Runs

/-! ### One run following another -/

namespace Outcome

variable {P : List Access → Prop} {R : State → State → Prop}

/-- As long as the history satisfies `P`, the second run ends as the first one does, in a
related state. -/
def Follows (P : List Access → Prop) (R : State → State → Prop) : Outcome → Outcome → Prop
  | .done s, o' => P s.log → ∃ s', o' = .done s' ∧ R s s'
  | .outOfFuel s, o' => P s.log → ∃ s', o' = .outOfFuel s' ∧ R s s'
  | .undefined, _ => True

/-- `P` looks back: what holds of a history holds of every earlier one. -/
def LooksBack (P : List Access → Prop) : Prop :=
  ∀ log log', log <:+ log' → P log' → P log

theorem Follows.mono {R' : State → State → Prop} {o o' : Outcome}
    (hR : ∀ s s', R s s' → R' s s') (h : o.Follows P R o') : o.Follows P R' o' := by
  cases o with
  | done s =>
    intro hlog
    obtain ⟨s', ho', hs⟩ := h hlog
    exact ⟨s', ho', hR s s' hs⟩
  | outOfFuel s =>
    intro hlog
    obtain ⟨s', ho', hs⟩ := h hlog
    exact ⟨s', ho', hR s s' hs⟩
  | undefined => trivial

theorem Follows.of_not {o o' : Outcome} {log : List Access} (hP : LooksBack P)
    (ho : o.Extends log) (hlog : ¬ P log) : o.Follows P R o' := by
  cases o with
  | done s => exact fun h => absurd (hP _ _ ho h) hlog
  | outOfFuel s => exact fun h => absurd (hP _ _ ho h) hlog
  | undefined => trivial

theorem Follows.bind {o o' : Outcome} {f f' : State → Outcome} (hP : LooksBack P)
    (ho : o.Follows P R o') (hext : ∀ s, (f s).Extends s.log)
    (hf : ∀ s s', R s s' → (f s).Follows P R (f' s')) :
    (o.bind f).Follows P R (o'.bind f') := by
  cases o with
  | done s =>
    by_cases hlog : P s.log
    · obtain ⟨s', rfl, hs⟩ := ho hlog
      exact hf s s' hs
    · exact .of_not hP (hext s) hlog
  | outOfFuel s =>
    intro hlog
    obtain ⟨s', rfl, hs⟩ := ho hlog
    exact ⟨s', rfl, hs⟩
  | undefined => trivial

theorem loop_follows {before after before' after' : State → Outcome} {cond : Var}
    (hP : LooksBack P)
    (hcond : ∀ s s', R s s' → ∀ c, (s.env cond).toBool? = some c →
      (s'.env cond).toBool? = some c)
    (hextb : ∀ s, (before s).Extends s.log) (hexta : ∀ s, (after s).Extends s.log)
    (hbefore : ∀ s s', R s s' → (before s).Follows P R (before' s'))
    (hafter : ∀ s s', R s s' → (after s).Follows P R (after' s'))
    (n : ℕ) (s s' : State) (h : R s s') :
    (loop before cond after n s).Follows P R (loop before' cond after' n s') := by
  have hloop := loop_extends cond hextb hexta
  induction n generalizing s s' with
  | zero => exact fun _ => ⟨s', rfl, h⟩
  | succ n ih =>
    refine (hbefore s s' h).bind hP (fun s => ?_) fun s s' h => ?_
    · cases (s.env cond).toBool? with
      | none => trivial
      | some c =>
        cases c with
        | false => exact List.suffix_rfl
        | true => exact (hexta s).bind (hloop n)
    · cases hc : (s.env cond).toBool? with
      | none => trivial
      | some c =>
        simp only [hcond s s' h c hc]
        cases c with
        | false => exact fun _ => ⟨s', rfl, h⟩
        | true => exact (hafter s s' h).bind hP (hloop n) ih

end Outcome

end TritonCpu.BufferLanguage
