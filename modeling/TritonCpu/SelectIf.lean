import TritonCpu.StructuredUse

/-!
# Selects merged into branches

CombineTensorSelectAndIf gathers the selects on the condition of an `scf.if` of
their block, erases them, and lets the branch return their values: the block that
is taken yields the value that the select would have had.
-/

set_option autoImplicit false

namespace TritonCpu.SelectIf

open Structured

/-- An `arith.select`, or any other operation. -/
inductive Prim (V L : Type) where
  | select (result cond trueValue falseValue : V)
  | other (label : L) (results operands : List V)

namespace Prim

variable {V L D W : Type}

def results : Prim V L → List V
  | select result _ _ _ => [result]
  | other _ results _ => results

def operands : Prim V L → List V
  | select _ cond trueValue falseValue => [cond, trueValue, falseValue]
  | other _ _ operands => operands

/-- What an operation binds and does; `sem` is the meaning of those other than selects. -/
def step [DecidableEq V] [Inhabited D] (isTrue : D → Bool) (sem : L → List D → W → List D × W) :
    Prim V L → State V D W → State V D W
  | select result cond trueValue falseValue, s =>
    s.bind [result] [if isTrue (s.env cond) then s.env trueValue else s.env falseValue]
  | other label results operands, s =>
    let r := sem label (operands.map s.env) s.world
    { s.bind results r.1 with world := r.2 }

end Prim

/-- `multiRootTopologicalSort` of the users of the condition of a select, as far as they stand
behind it: their places, counted from the operation that follows the select. -/
structure UserOrder (V : Type) where
  multiRootTopologicalSort : V → List ℕ → List ℕ
  perm : ∀ select users, (multiRootTopologicalSort select users).Perm users

section Pass

variable {V L : Type} [DecidableEq V]

/-- A program with its selects. -/
abbrev Program (V L : Type) := Code V (Prim V L)

/-- The places in a block of the `scf.if` operations on a condition. -/
def ifsOn (cond : V) : Program V L → List ℕ
  | .yield _ => []
  | .prim _ next => (ifsOn cond next).map (· + 1)
  | .forOp _ _ _ _ _ _ _ _ next => (ifsOn cond next).map (· + 1)
  | .ifOp c _ _ _ next => (if c = cond then [0] else []) ++ (ifsOn cond next).map (· + 1)
  | .whileOp _ _ _ _ _ _ next => (ifsOn cond next).map (· + 1)

/-- What the operations before a place of a block read, also inside their regions. -/
def usedBefore : Program V L → ℕ → List V
  | _, 0 => []
  | .yield vs, _ + 1 => vs
  | .prim op next, n + 1 => op.operands ++ usedBefore next n
  | .forOp _ lb ub stride inits _ body _ next, n + 1 =>
    lb :: ub :: stride :: inits ++ body.used Prim.operands ++ usedBefore next n
  | .ifOp cond thenBlock elseBlock _ next, n + 1 =>
    cond :: thenBlock.used Prim.operands ++ elseBlock.used Prim.operands ++ usedBefore next n
  | .whileOp inits _ before _ after _ next, n + 1 =>
    inits ++ before.used Prim.operands ++ after.used Prim.operands ++ usedBefore next n

/-- The branch stands behind the select, and dominates all its users: it dominates what comes
after it and also what is inside it. -/
def canMergeIntoIf (result : V) (next : Program V L) (place : ℕ) : Bool :=
  decide (result ∉ usedBefore next place)

/-- The first of the branches on the condition into which a select can be merged. -/
def mergedAt (order : UserOrder V) (result cond : V) (next : Program V L) : Option ℕ :=
  (order.multiRootTopologicalSort result (ifsOn cond next)).find? (canMergeIntoIf result next)

/-- A select on the way to the branch it is merged into. -/
structure Pending (V : Type) where
  result : V
  cond : V
  trueValue : V
  falseValue : V
  distance : ℕ

def Pending.step (p : Pending V) : Pending V := { p with distance := p.distance - 1 }

/-- The pass. The new result of a branch stands for the select whose uses it replaces, so it has
its name; the branch gets an else block that yields nothing if it has none. -/
def combineTensorSelectAndIf (order : UserOrder V) :
    Program V L → List (Pending V) → Program V L
  | .yield vs, _ => .yield vs
  | .prim (.select result cond trueValue falseValue) next, pending =>
    match mergedAt order result cond next with
    | some place => combineTensorSelectAndIf order next
        (pending.map Pending.step ++ [⟨result, cond, trueValue, falseValue, place⟩])
    | none => .prim (.select result cond trueValue falseValue)
        (combineTensorSelectAndIf order next (pending.map Pending.step))
  | .prim (.other label results operands) next, pending =>
    .prim (.other label results operands)
      (combineTensorSelectAndIf order next (pending.map Pending.step))
  | .forOp iv lb ub stride inits args body rs next, pending =>
    .forOp iv lb ub stride inits args (combineTensorSelectAndIf order body []) rs
      (combineTensorSelectAndIf order next (pending.map Pending.step))
  | .ifOp cond thenBlock elseBlock rs next, pending =>
    let selectOps := pending.filter (·.distance = 0)
    .ifOp cond
      ((combineTensorSelectAndIf order thenBlock []).yieldAlso (selectOps.map Pending.trueValue))
      ((combineTensorSelectAndIf order elseBlock []).yieldAlso (selectOps.map Pending.falseValue))
      (rs ++ selectOps.map Pending.result)
      (combineTensorSelectAndIf order next
        ((pending.filter (·.distance ≠ 0)).map Pending.step))
  | .whileOp inits args before afterArgs after rs next, pending =>
    .whileOp inits args (combineTensorSelectAndIf order before []) afterArgs
      (combineTensorSelectAndIf order after []) rs
      (combineTensorSelectAndIf order next (pending.map Pending.step))

def usedInside : Program V L → ℕ → List V
  | .yield _, _ => []
  | .prim _ next, n => usedInside next (n - 1)
  | .forOp _ _ _ _ _ _ _ _ next, n => usedInside next (n - 1)
  | .ifOp _ thenBlock elseBlock _ next, n =>
    if n = 0 then thenBlock.used Prim.operands ++ elseBlock.used Prim.operands
    else usedInside next (n - 1)
  | .whileOp _ _ _ _ _ _ next, n => usedInside next (n - 1)

/-- No select that is merged into a branch is used inside that branch. -/
def UsedOutside (order : UserOrder V) : Program V L → Prop
  | .yield _ => True
  | .prim (.select result cond _ _) next =>
    (∀ place ∈ mergedAt order result cond next, result ∉ usedInside next place) ∧
      UsedOutside order next
  | .prim (.other _ _ _) next => UsedOutside order next
  | .forOp _ _ _ _ _ _ body _ next => UsedOutside order body ∧ UsedOutside order next
  | .ifOp _ thenBlock elseBlock _ next =>
    UsedOutside order thenBlock ∧ UsedOutside order elseBlock ∧ UsedOutside order next
  | .whileOp _ _ before _ after _ next =>
    UsedOutside order before ∧ UsedOutside order after ∧ UsedOutside order next

end Pass

end TritonCpu.SelectIf
