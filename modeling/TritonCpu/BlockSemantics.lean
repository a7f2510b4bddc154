import Mathlib.Data.List.Nodup
import Mathlib.Data.Int.Notation
import Mathlib.Logic.Function.Basic
import Mathlib.Tactic.SplitIfs

/-!
# Blocks of operations on tiles

A block runs its operations one after the other. An operation reads and binds
values by name; loads and stores move a tile between a value and the memory,
under a mask if they have one. An operation with regions is given what its blocks
do. A block that was divided into two versions decides between them by a guard.
-/

set_option autoImplicit false

namespace TritonCpu.FullTile

abbrev Name := ℕ

/-- A static number, a value that a constant defines, or another value. -/
inductive OpFoldResult where
  | attr (n : ℤ)
  | constant (v : Name) (n : ℤ)
  | value (v : Name)
  deriving DecidableEq, Repr

/-- What a `tts.load` and a `tts.store` have in common. A `tts.make_tptr` has the
sizes of the tile that is moved through its pointer. -/
structure Access where
  ptr : Name
  shape : List ℕ
  elemBits : Option ℕ
  maskDims : List OpFoldResult
  definedByMakeTensorPtr : Bool
  deriving DecidableEq, Repr

/-- A value at run time: an index, a scalar, the elements of a tile row by row, the
addresses of a block pointer, or something else. -/
inductive Value (E X : Type) where
  | index (n : ℤ)
  | scalar (e : E)
  | tensor (elements : List E)
  | blockPtr (address : List ℕ → ℕ)
  | other (x : X)

abbrev Memory (E : Type) := ℕ → E

abbrev Env (E X : Type) := Name → Value E X

/-- What a block does: the values that are visible in it and the values of its
arguments go in, the operands of its terminator and the values that other blocks
use come out. -/
abbrev Denotation (E X : Type) := Env E X → List (Value E X) → Memory E →
  Option (List (Value E X) × List (Value E X) × Memory E)

mutual

inductive Op (E X : Type) where
  | load (result : Name) (access : Access) (other : Option Name)
  | store (access : Access) (value : Name)
  /-- An operation without memory effects. Its regions may use values from above. -/
  | pure (results operands captured : List Name)
      (compute : List (Value E X) → List (Value E X) → Option (List (Value E X)))
  | effect (results operands captured : List Name) (regions : List (Block E X))
      (perform : List ( Denotation E X) → Env E X → List (Value E X) → Memory E →
        Option (List (Value E X) × Memory E))

inductive Block (E X : Type) where
  | plain (scope args : List Name) (ops : List (Op E X)) (terminator usedLater : List Name)
  /-- The operations before the first masked access, the clones that compute the
  guard, the comparisons it makes, and both versions of the other operations. -/
  | versioned (args : List Name) (before guard : List (Op E X))
      (conditions : List (OpFoldResult × ℕ)) (full rest : List (Op E X))
      (terminator usedLater : List Name)

end

variable {E X : Type}

section Values

def Value.toIndex : Value E X → ℤ
  | .index n => n
  | _ => 0

def Value.toScalar (undef : E) : Value E X → E
  | .scalar e => e
  | _ => undef

def Value.toTile : Value E X → List E
  | .tensor elements => elements
  | _ => []

def Value.toAddress : Value E X → List ℕ → ℕ
  | .blockPtr address => address
  | _ => fun _ => 0

def bind : Env E X → List Name → List (Value E X) → Env E X
  | env, name :: names, value :: values => bind (Function.update env name value) names values
  | env, _, _ => env

def dimValue (env : Env E X) : OpFoldResult → ℤ
  | .attr n => n
  | .constant _ n => n
  | .value v => (env v).toIndex

def indices : List ℕ → List (List ℕ)
  | [] => [[]]
  | n :: shape => (List.range n).flatMap fun i => (indices shape).map (i :: ·)

def inMask : List ℤ → List ℕ → Bool
  | d :: mask, i :: index => decide ((i : ℤ) < d) && inMask mask index
  | _, _ => true

def loadTile (mem : Memory E) (address : List ℕ → ℕ) (shape : List ℕ) (mask : List ℤ) (other : E) :
    List E :=
  (indices shape).map fun i => if inMask mask i then mem (address i) else other

def storeTile (mem : Memory E) (address : List ℕ → ℕ) (shape : List ℕ) (mask : List ℤ)
    (elements : List E) : Memory E :=
  ((indices shape).zip elements).foldl (fun mem entry =>
    if inMask mask entry.1 then Function.update mem (address entry.1) entry.2 else mem) mem

end Values

section Run

variable (undef : E)

/-- The results are bound when there are as many as there should be. -/
def bindResults (env : Env E X) (results : List Name)
    (outcome : Option (List (Value E X) × Memory E)) : Option (Env E X × Memory E) :=
  outcome.bind fun r =>
    if r.1.length = results.length then some (bind env results r.1, r.2) else none

mutual

def Op.step : Op E X → Env E X → Memory E → Option (Env E X × Memory E)
  | .load result access other, env, mem =>
    let otherElement := (other.map fun v => (env v).toScalar undef).getD undef
    let tile := loadTile mem (env access.ptr).toAddress access.shape
      (access.maskDims.map (dimValue env)) otherElement
    some (bind env [result] [.tensor tile], mem)
  | .store access value, env, mem =>
    some (env, storeTile mem (env access.ptr).toAddress access.shape
      (access.maskDims.map (dimValue env)) (env value).toTile)
  | .pure results operands captured compute, env, mem =>
    bindResults env results
      ((compute (operands.map env) (captured.map env)).map fun values => (values, mem))
  | .effect results operands _ regions perform, env, mem =>
    bindResults env results (perform (denoteBlocks regions) env (operands.map env) mem)

def runOps : List (Op E X) → Env E X → Memory E → Option (Env E X × Memory E)
  | [], env, mem => some (env, mem)
  | op :: ops, env, mem => (op.step env mem).bind fun s => runOps ops s.1 s.2

def Block.denote : Block E X → Denotation E X
  | .plain _ args ops terminator usedLater, env, values, mem =>
    (runOps ops (bind env args values) mem).map fun s =>
      (terminator.map s.1, usedLater.map s.1, s.2)
  -- the clones of the guard and of both versions bind names of their own
  | .versioned args before guard conditions full rest terminator usedLater, env, values, mem =>
    (runOps before (bind env args values) mem).bind fun s =>
      (runOps guard s.1 s.2).bind fun g =>
        if conditions.all fun c => dimValue g.1 c.1 == c.2 then
          (runOps full s.1 g.2).map fun r => (terminator.map r.1, usedLater.map s.1, r.2)
        else
          (runOps rest s.1 g.2).map fun r => (terminator.map r.1, usedLater.map s.1, r.2)

def denoteBlocks : List (Block E X) → List ( Denotation E X)
  | [] => []
  | block :: blocks => block.denote :: denoteBlocks blocks

end

end Run

section Names

def OpFoldResult.value? : OpFoldResult → Option Name
  | .attr _ => none
  | .constant v _ => some v
  | .value v => some v

def Op.access? : Op E X → Option Access
  | .load _ access _ => some access
  | .store access _ => some access
  | _ => none

def Op.results : Op E X → List Name
  | .load result _ _ => [result]
  | .store _ _ => []
  | .pure results _ _ _ => results
  | .effect results _ _ _ _ => results

def Op.operands : Op E X → List Name
  | .load _ access other =>
    access.ptr :: access.maskDims.filterMap OpFoldResult.value? ++ other.toList
  | .store access value => access.ptr :: value :: access.maskDims.filterMap OpFoldResult.value?
  | .pure _ operands _ _ => operands
  | .effect _ operands _ _ _ => operands

def Op.captured : Op E X → List Name
  | .pure _ _ captured _ => captured
  | .effect _ _ captured _ _ => captured
  | _ => []

def Op.isMemoryEffectFree : Op E X → Bool
  | .pure _ _ _ _ => true
  | _ => false

end Names

section Runs

variable (undef : E)

theorem runOps_append (ops ops' : List (Op E X)) (env : Env E X) (mem : Memory E) :
    runOps undef (ops ++ ops') env mem =
      (runOps undef ops env mem).bind fun s => runOps undef ops' s.1 s.2 := by
  induction ops generalizing env mem with
  | nil => rfl
  | cons op ops ih =>
    rw [List.cons_append, runOps, runOps]
    cases op.step undef env mem with
    | none => rfl
    | some s => exact ih s.1 s.2

theorem inMask_full {shape index : List ℕ} (h : index ∈ indices shape) :
    inMask (shape.map (Nat.cast : ℕ → ℤ)) index = true := by
  induction shape generalizing index with
  | nil => rfl
  | cons n shape ih =>
    rw [indices, List.mem_flatMap] at h
    obtain ⟨i, hi, hmem⟩ := h
    obtain ⟨rest, hrest, rfl⟩ := List.mem_map.mp hmem
    rw [List.map_cons, inMask, ih hrest, Bool.and_true, decide_eq_true_iff]
    exact Int.ofNat_lt.mpr (List.mem_range.mp hi)

theorem inMask_nil (index : List ℕ) : inMask [] index = true := by
  cases index <;> rfl

theorem loadTile_full (mem : Memory E) (address : List ℕ → ℕ) (shape : List ℕ) (other other' : E) :
    loadTile mem address shape (shape.map (Nat.cast : ℕ → ℤ)) other =
      loadTile mem address shape [] other' := by
  apply List.map_congr_left
  intro index hindex
  rw [inMask_full hindex, inMask_nil]
  rfl

theorem storeTile_full (mem : Memory E) (address : List ℕ → ℕ) (shape : List ℕ)
    (elements : List E) : storeTile mem address shape (shape.map (Nat.cast : ℕ → ℤ)) elements =
      storeTile mem address shape [] elements := by
  have hentries : ∀ (entries : List (List ℕ × E)) (mem : Memory E),
      (∀ entry ∈ entries, entry.1 ∈ indices shape) →
      entries.foldl (fun mem entry => if inMask (shape.map (Nat.cast : ℕ → ℤ)) entry.1 then
        Function.update mem (address entry.1) entry.2 else mem) mem =
      entries.foldl (fun mem entry => if inMask [] entry.1 then
        Function.update mem (address entry.1) entry.2 else mem) mem := by
    intro entries
    induction entries with
    | nil => exact fun _ _ => rfl
    | cons entry entries ih =>
      intro mem hmem
      rw [List.foldl_cons, List.foldl_cons, inMask_full (hmem entry List.mem_cons_self),
        inMask_nil]
      exact ih _ fun e he => hmem e (List.mem_cons_of_mem _ he)
  exact hentries _ _ fun entry hentry => (List.of_mem_zip hentry).1

end Runs

end TritonCpu.FullTile
