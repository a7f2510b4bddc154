import TritonCpu.BufferLanguage

/-!
# Hoisting static allocations to the entry block

The pass moves every small allocation of static size to the front of its function and so
makes one buffer of all the instances a loop had. It looks at the size only. The moved
function follows the original one over every run in which no two instances of a moved
allocation are in use at once; a loop that carries its buffer into the next iteration
leaves that condition, and reads the new iteration's data.
-/

set_option autoImplicit false

namespace TritonCpu.HoistStaticAllocs
open BufferLanguage List

/-! ### The pass -/

inductive ElemType where
  | intOrFloat (bitWidth : ℕ)
  | other
  deriving DecidableEq, Repr

/-- A dimension of unknown size is `none`. -/
structure MemRefType where
  shape : List (Option ℕ)
  elementType : ElemType
  deriving DecidableEq, Repr

inductive ArraySize where
  | constant (n : ℕ)
  | value (v : Var)
  deriving DecidableEq, Repr

inductive AllocOp where
  | memrefAlloc (type : MemRefType) (dynamicSizes : List Var)
  | memrefAlloca (type : MemRefType) (dynamicSizes : List Var)
  | llvmAlloca (arraySize : ArraySize) (elemType : ElemType)
  deriving DecidableEq, Repr

def kMaxBytes : ℕ := 16 * 1024

def MemRefType.numElements (type : MemRefType) : ℕ :=
  (type.shape.map fun dim => dim.getD 0).prod

def smallStatic (type : MemRefType) : Bool :=
  if type.shape.any (· == none) then false
  else match type.elementType with
    | .other => false
    | .intOrFloat bitWidth => type.numElements * bitWidth / 8 ≤ kMaxBytes

def hoistableAlloc : AllocOp → Bool
  | .memrefAlloc type dynamicSizes => dynamicSizes.isEmpty && smallStatic type
  | _ => false

def hoistableAlloca : AllocOp → Bool
  | .memrefAlloca type dynamicSizes => dynamicSizes.isEmpty && smallStatic type
  | _ => false

def hoistableLLVMAlloca : AllocOp → Bool
  | .llvmAlloca (.constant n) (.intOrFloat bitWidth) =>
      n * bitWidth % 2 ^ 64 / 8 ≤ kMaxBytes
  | _ => false

section Pass

variable {α : Type}

@[simp] def allocs : Stmt α → List (Var × α)
  | .alloc x type => [(x, type)]
  | .seq a b => allocs a ++ allocs b
  | .scfIf _ a b => allocs a ++ allocs b
  | .scfWhile a _ b => allocs a ++ allocs b
  | _ => []

/-- The allocations inside the regions of a statement: those whose block is not the one
the statement stands in. -/
@[simp] def regionAllocs : Stmt α → List (Var × α)
  | .seq a b => regionAllocs a ++ regionAllocs b
  | .scfIf _ a b => allocs a ++ allocs b
  | .scfWhile a _ b => allocs a ++ allocs b
  | _ => []

@[simp] def erase (xs : List Var) : Stmt α → Stmt α
  | .alloc x type => if x ∈ xs then .skip else .alloc x type
  | .seq a b => .seq (erase xs a) (erase xs b)
  | .scfIf cond a b => .scfIf cond (erase xs a) (erase xs b)
  | .scfWhile a cond b => .scfWhile (erase xs a) cond (erase xs b)
  | st => st

def outsideEntry (b : Body α) : List (Var × α) :=
  regionAllocs b.entry.body ++ b.blocks.flatMap fun block => allocs block.body

def eraseBlock (xs : List Var) (block : Block α) : Block α :=
  { block with body := erase xs block.body }

def moveBefore (op : Var × α) (body : Stmt α) : Stmt α := .seq (.alloc op.1 op.2) body

/-- The operations of `toHoist` leave their places and go, last one first, to the front of
the entry block. -/
def hoist (toHoist : List (Var × α)) (b : Body α) : Body α :=
  let xs := toHoist.map Prod.fst
  { entry :=
      { b.entry with
        body := toHoist.reverse.foldl (fun body op => moveBefore op body)
          (erase xs b.entry.body) }
    blocks := b.blocks.map (eraseBlock xs) }

def toHoist (pred : α → Bool) (b : Body α) : List (Var × α) :=
  (outsideEntry b).filter fun op => pred op.2

def hoistInto (pred : α → Bool) (b : Body α) : Body α := hoist (toHoist pred b) b

end Pass

inductive FuncKind where
  | funcFunc
  | llvmFunc
  deriving DecidableEq, Repr

/-- An external function has no body. -/
structure Func where
  kind : FuncKind
  body : Option (Body AllocOp)

def hoistBody (kind : FuncKind) (b : Body AllocOp) : Body AllocOp :=
  match kind with
  | .funcFunc => hoistInto hoistableAlloca (hoistInto hoistableAlloc b)
  | .llvmFunc => hoistInto hoistableLLVMAlloca b

def hoistFunc (f : Func) : Func := { f with body := f.body.map (hoistBody f.kind) }

/-- `env` is the value of `TRITON_SHARED_HOIST_STATIC_ALLOCS`. -/
def runOnOperation (env : Option String) (module : List Func) : List Func :=
  if (env.bind fun off => off.toList.head?) = some '0' then module
  else module.map hoistFunc

def hoistedOps (kind : FuncKind) (b : Body AllocOp) : List (Var × AllocOp) :=
  match kind with
  | .funcFunc =>
      toHoist hoistableAlloca (hoistInto hoistableAlloc b) ++ toHoist hoistableAlloc b
  | .llvmFunc => toHoist hoistableLLVMAlloca b

/-! ### Two rounds of hoisting are one -/

section Rounds

variable {α : Type}

theorem allocs_erase (xs : List Var) (st : Stmt α) :
    allocs (erase xs st) = (allocs st).filter fun op => op.1 ∉ xs := by
  induction st with
  | seq a b iha ihb => simp only [erase, allocs, iha, ihb, filter_append]
  | scfIf cond a b iha ihb => simp only [erase, allocs, iha, ihb, filter_append]
  | scfWhile a cond b iha ihb => simp only [erase, allocs, iha, ihb, filter_append]
  | alloc x type =>
    by_cases hx : x ∈ xs
    · simp [erase, allocs, hx]
    · simp [erase, allocs, hx]
  | _ => rfl

theorem regionAllocs_erase (xs : List Var) (st : Stmt α) :
    regionAllocs (erase xs st) = (regionAllocs st).filter fun op => op.1 ∉ xs := by
  induction st with
  | seq a b iha ihb => simp only [erase, regionAllocs, iha, ihb, filter_append]
  | scfIf cond a b =>
    simp only [erase, regionAllocs, allocs_erase, filter_append]
  | scfWhile a cond b =>
    simp only [erase, regionAllocs, allocs_erase, filter_append]
  | alloc x type =>
    by_cases hx : x ∈ xs
    · simp [erase, regionAllocs, hx]
    · simp [erase, regionAllocs, hx]
  | _ => rfl

theorem erase_erase (xs ys : List Var) (st : Stmt α) :
    erase xs (erase ys st) = erase (xs ++ ys) st := by
  induction st with
  | seq a b iha ihb => simp only [erase, iha, ihb]
  | scfIf cond a b iha ihb => simp only [erase, iha, ihb]
  | scfWhile a cond b iha ihb => simp only [erase, iha, ihb]
  | alloc x type =>
    by_cases hy : x ∈ ys
    · simp [erase, hy]
    · simp [erase, hy]
  | _ => rfl

theorem foldl_moveBefore (ops : List (Var × α)) (body : Stmt α) :
    ops.reverse.foldl (fun body op => moveBefore op body) body =
      ops.foldr moveBefore body := by
  rw [foldl_reverse]

theorem regionAllocs_foldr (ops : List (Var × α)) (body : Stmt α) :
    regionAllocs (ops.foldr moveBefore body) = regionAllocs body := by
  induction ops with
  | nil => rfl
  | cons op ops ih => simpa [moveBefore, regionAllocs] using ih

theorem erase_foldr (xs : List Var) (ops : List (Var × α)) (body : Stmt α)
    (hxs : ∀ op ∈ ops, op.1 ∉ xs) :
    erase xs (ops.foldr moveBefore body) = ops.foldr moveBefore (erase xs body) := by
  induction ops with
  | nil => rfl
  | cons op ops ih =>
    have hop : op.1 ∉ xs := hxs op (by simp)
    simp only [foldr_cons, moveBefore, erase, if_neg hop]
    rw [ih fun op hop => hxs op (by simp [hop])]

theorem outsideEntry_hoist (ops : List (Var × α)) (b : Body α) :
    outsideEntry (hoist ops b) =
      (outsideEntry b).filter fun op => op.1 ∉ ops.map Prod.fst := by
  simp only [outsideEntry, hoist, foldl_moveBefore, regionAllocs_foldr, regionAllocs_erase,
    filter_append, flatMap_map, eraseBlock, allocs_erase, filter_flatMap]

theorem hoist_hoist (ops ops' : List (Var × α)) (b : Body α)
    (hops : ∀ op ∈ ops, op.1 ∉ ops'.map Prod.fst) :
    hoist ops' (hoist ops b) = hoist (ops' ++ ops) b := by
  simp only [hoist, foldl_moveBefore, erase_foldr _ ops _ hops, erase_erase,
    foldr_append, map_append, map_map]
  congr 1
  refine map_congr_left fun block _ => ?_
  simp only [Function.comp_apply, eraseBlock, erase_erase]

end Rounds

/-! ### What the moved function must not notice -/

section Condition

def accessed : Access → Ref
  | .read r _ _ => r
  | .write r _ _ => r
  | .free r => r

/-- Whether some instance of `op` was freed. -/
def freed (op : Var) (log : List Access) : Bool :=
  log.any fun
    | .free r => r.op == op
    | _ => false

/-- The instance of `op` that was last written at a cell. -/
def lastWriter (op : Var) (cell : ℤ) : List Access → Option Ref
  | [] => none
  | .write r cell' _ :: log =>
      if r.op = op ∧ cell' = cell then some r else lastWriter op cell log
  | _ :: log => lastWriter op cell log

/-- A read of a cell that was never written, or was last written in the same instance. -/
def ReadsOwn (log : List Access) : Access → Prop
  | .read r cell v => v = .undef ∨ lastWriter r.op cell log = some r
  | _ => True

/-- The instances of each allocation in `xs` are used one after the other: none is touched
once one was freed, and none is read at a cell another wrote last. -/
def Exclusive (xs : List Var) : List Access → Prop
  | [] => True
  | a :: log => Exclusive xs log ∧
      ((accessed a).op ∈ xs → freed (accessed a).op log = false ∧ ReadsOwn log a)

instance (log : List Access) : ∀ a, Decidable (ReadsOwn log a)
  | .read _ _ _ => inferInstanceAs (Decidable (_ ∨ _))
  | .write _ _ _ => isTrue trivial
  | .free _ => isTrue trivial

instance decidableExclusive (xs : List Var) : ∀ log, Decidable (Exclusive xs log)
  | [] => isTrue trivial
  | _ :: log =>
      have := decidableExclusive xs log
      inferInstanceAs (Decidable (_ ∧ _))

/-- All instances of an allocation in `xs` become the first one. -/
def merge (xs : List Var) (r : Ref) : Ref := if r.op ∈ xs then ⟨r.op, 0⟩ else r

/-- The two runs hold the same values and made the same accesses, read values included,
up to the merged buffers. -/
structure SameUpTo (xs : List Var) (s s' : State) : Prop where
  env : ∀ x, (s.env x).Refines (merge xs) (s'.env x)
  log : List.Forall₂ (Access.Refines (merge xs)) s.log s'.log

/-- What holds between the runs once the moved allocations were executed. -/
structure Merged (xs : List Var) (s s' : State) : Prop extends SameUpTo xs s s' where
  hoisted : ∀ x ∈ xs, s'.env x = .ptr ⟨x, 0⟩ 0
  count : ∀ x, x ∉ xs → s'.count x = s.count x

/-- A value from before the run: it does not point to a buffer the run is to make. -/
def Outside (xs : List Var) (v : Val) : Prop :=
  ∀ r offset, v = .ptr r offset → r.op ∉ xs

/-- At the start of a run the buffers of `xs` do not exist. -/
structure Fresh (xs : List Var) (init : Memory) (args : List Val) : Prop where
  cells : ∀ r cell, r.op ∈ xs → init r cell = .undef
  memory : ∀ r cell, Outside xs (init r cell)
  args : ∀ v ∈ args, Outside xs v

end Condition

section Assigned

variable {α : Type}

def assigned : Stmt α → List Var
  | .seq a b => assigned a ++ assigned b
  | .pure dst _ _ => [dst]
  | .move dsts _ => dsts
  | .load dst _ _ => [dst]
  | .scfIf _ a b => assigned a ++ assigned b
  | .scfWhile a _ b => assigned a ++ assigned b
  | _ => []

def assignedInBlock (block : Block α) : List Var := block.args ++ assigned block.body

/-- The results of allocations are distinct, and nothing else assigns them. -/
structure SingleAssignment (b : Body α) : Prop where
  nodup : ((outsideEntry b).map Prod.fst).Nodup
  entry : ∀ op ∈ outsideEntry b, op.1 ∉ assignedInBlock b.entry
  blocks : ∀ op ∈ outsideEntry b, ∀ block ∈ b.blocks, op.1 ∉ assignedInBlock block

end Assigned

/-! ### Merged buffers -/

section Merge

variable {xs : List Var}

theorem merge_of_mem {r : Ref} (h : r.op ∈ xs) : merge xs r = ⟨r.op, 0⟩ := if_pos h

theorem merge_of_notMem {r : Ref} (h : r.op ∉ xs) : merge xs r = r := if_neg h

@[simp] theorem merge_op (r : Ref) : (merge xs r).op = r.op := by
  by_cases h : r.op ∈ xs
  · rw [merge_of_mem h]
  · rw [merge_of_notMem h]

theorem merge_eq_of_notMem {r r' : Ref} (h : r.op ∉ xs) :
    merge xs r' = merge xs r ↔ r' = r := by
  constructor
  · intro heq
    have hop : r'.op = r.op := by simpa using congrArg Ref.op heq
    rwa [merge_of_notMem h, merge_of_notMem (hop ▸ h)] at heq
  · rintro rfl
    rfl

theorem merge_eq_of_mem {r r' : Ref} (h : r.op ∈ xs) :
    merge xs r' = merge xs r ↔ r'.op = r.op := by
  constructor
  · intro heq
    simpa using congrArg Ref.op heq
  · intro hop
    rw [merge_of_mem h, merge_of_mem (hop ▸ h), hop]

theorem Outside.refines {v : Val} (h : Outside xs v) : v.Refines (merge xs) v := by
  cases v with
  | undef => exact .undef _
  | int n => exact .int n
  | ptr r offset =>
    have hr := Val.Refines.ptr (f := merge xs) r offset
    rwa [merge_of_notMem (h r offset rfl)] at hr

theorem Exclusive.looksBack : Outcome.LooksBack (Exclusive xs) := by
  rintro log _ ⟨newer, rfl⟩ h
  induction newer with
  | nil => exact h
  | cons a newer ih => exact ih h.1

variable {log log' : List Access}

theorem contents_of_notMem (init : Memory) (hinit : ∀ r cell, Outside xs (init r cell))
    (hlog : List.Forall₂ (Access.Refines (merge xs)) log log') {r : Ref} (hr : r.op ∉ xs)
    (cell : ℤ) :
    (contents init r cell log).Refines (merge xs) (contents init (merge xs r) cell log') := by
  induction hlog with
  | nil =>
    rw [merge_of_notMem hr]
    exact (hinit r cell).refines
  | cons ha _ ih =>
    cases ha with
    | read r' cell' h => exact ih
    | free r' => exact ih
    | write r' cell' h =>
      simp only [contents, merge_eq_of_notMem hr]
      by_cases hcell : r' = r ∧ cell' = cell
      · simpa only [if_pos hcell] using h
      · simpa only [if_neg hcell] using ih

theorem contents_of_lastWriter (init : Memory)
    (hlog : List.Forall₂ (Access.Refines (merge xs)) log log') {r : Ref} (hr : r.op ∈ xs)
    (cell : ℤ) (hlast : lastWriter r.op cell log = some r) :
    (contents init r cell log).Refines (merge xs) (contents init (merge xs r) cell log') := by
  induction hlog with
  | nil => simp [lastWriter] at hlast
  | cons ha _ ih =>
    cases ha with
    | read r' cell' h => exact ih hlast
    | free r' => exact ih hlast
    | write r' cell' h =>
      simp only [lastWriter] at hlast
      simp only [contents, merge_eq_of_mem hr]
      by_cases hcell : r'.op = r.op ∧ cell' = cell
      · rw [if_pos hcell] at hlast
        have heq : r' = r := Option.some.inj hlast
        simpa only [if_pos hcell, if_pos (And.intro heq hcell.2)] using h
      · rw [if_neg hcell] at hlast
        have hne : ¬ (r' = r ∧ cell' = cell) := fun h => hcell ⟨h.1 ▸ rfl, h.2⟩
        simpa only [if_neg hcell, if_neg hne] using ih hlast

theorem freed_of_mem {r : Ref} (h : .free r ∈ log) : freed r.op log = true :=
  any_eq_true.mpr ⟨.free r, h, by simp⟩

theorem exists_free_of_merged (hlog : List.Forall₂ (Access.Refines (merge xs)) log log')
    {r : Ref} (h : .free r ∈ log') : ∃ r', .free r' ∈ log ∧ merge xs r' = r := by
  induction hlog with
  | nil => simp at h
  | cons ha _ ih =>
    cases mem_cons.mp h with
    | inl heq =>
      subst heq
      cases ha with
      | free r' => exact ⟨r', by simp, rfl⟩
    | inr hmem =>
      obtain ⟨r', hr', hm⟩ := ih hmem
      exact ⟨r', mem_cons_of_mem _ hr', hm⟩

theorem not_freed_merged (hlog : List.Forall₂ (Access.Refines (merge xs)) log log')
    {r : Ref} (hfree : .free r ∉ log) (hop : r.op ∈ xs → freed r.op log = false) :
    .free (merge xs r) ∉ log' := by
  intro h
  obtain ⟨r', hr', hm⟩ := exists_free_of_merged hlog h
  by_cases hmem : r.op ∈ xs
  · have hr := freed_of_mem hr'
    rw [(merge_eq_of_mem hmem).mp hm, hop hmem] at hr
    exact absurd hr (by decide)
  · rw [(merge_eq_of_notMem hmem).mp hm] at hr'
    exact hfree hr'

end Merge

/-! ### One operation -/

section Operations

variable {xs : List Var} {s s' : State}

theorem Merged.assign (h : Merged xs s s') (ys : List Var) (hys : ∀ y ∈ ys, y ∉ xs)
    {vs ws : List Val} (hvs : List.Forall₂ (Val.Refines (merge xs)) vs ws) :
    Merged xs (s.assign ys vs) (s'.assign ys ws) := by
  induction ys generalizing s s' vs ws with
  | nil => exact h
  | cons y ys ih =>
    cases hvs with
    | nil => exact h
    | cons hv hvs =>
      have hy : y ∉ xs := hys y (by simp)
      refine ih ⟨⟨?_, ?_⟩, ?_, ?_⟩ (fun z hz => hys z (by simp [hz])) hvs
      · intro x
        by_cases hx : x = y
        · simpa [Function.update, hx] using hv
        · simpa [Function.update, hx] using h.env x
      · exact h.log
      · intro x hx
        have hxy : x ≠ y := fun heq => hy (heq ▸ hx)
        simpa [Function.update, hxy] using h.hoisted x hx
      · exact h.count

theorem Merged.map_env (h : Merged xs s s') (ys : List Var) :
    List.Forall₂ (Val.Refines (merge xs)) (ys.map s.env) (ys.map s'.env) := by
  induction ys with
  | nil => exact .nil
  | cons y ys ih => exact .cons (h.env y) ih

theorem Merged.toBool?_eq (h : Merged xs s s') (x : Var) (c : Bool)
    (hc : (s.env x).toBool? = some c) : (s'.env x).toBool? = some c := by
  have hx := h.env x
  generalize s.env x = v at hx hc
  generalize s'.env x = w at hx ⊢
  cases hx with
  | int n => exact hc
  | undef => simp [Val.toBool?] at hc
  | ptr r offset => simp [Val.toBool?] at hc

theorem Merged.address?_eq (h : Merged xs s s') (buffer index : Var) {r : Ref} {cell : ℤ}
    (ha : address? (s.env buffer) (s.env index) = some (r, cell)) :
    address? (s'.env buffer) (s'.env index) = some (merge xs r, cell) := by
  have hb := h.env buffer
  have hi := h.env index
  generalize s.env buffer = v at ha hb
  generalize s.env index = w at ha hi
  generalize s'.env buffer = v' at hb ⊢
  generalize s'.env index = w' at hi ⊢
  cases hb with
  | undef => simp [address?] at ha
  | int => simp [address?] at ha
  | ptr r' offset =>
    cases hi with
    | undef => simp [address?] at ha
    | ptr => simp [address?] at ha
    | int n =>
      simp only [address?, Option.some.injEq, Prod.mk.injEq] at ha
      simp [address?, ha.1, ← ha.2]

theorem Merged.record (h : Merged xs s s') {a a' : Access} (ha : a.Refines (merge xs) a') :
    Merged xs (s.record a) (s'.record a') :=
  ⟨⟨h.env, .cons ha h.log⟩, h.hoisted, h.count⟩

theorem Merged.alloc (h : Merged xs s s') {x : Var} (hx : x ∉ xs) :
    Merged xs (s.alloc x) (s'.alloc x) := by
  refine ⟨⟨?_, ?_⟩, ?_, ?_⟩
  · intro y
    by_cases hy : y = x
    · have hr := Val.Refines.ptr (f := merge xs) ⟨x, s.count x⟩ 0
      rw [merge_of_notMem hx] at hr
      simpa [State.alloc, Function.update, hy, h.count x hx] using hr
    · simpa [State.alloc, Function.update, hy] using h.env y
  · exact h.log
  · intro y hy
    have hne : y ≠ x := fun heq => hx (heq ▸ hy)
    simpa [State.alloc, Function.update, hne] using h.hoisted y hy
  · intro y hy
    by_cases hne : y = x
    · simp [State.alloc, Function.update, hne, h.count x hx]
    · simpa [State.alloc, Function.update, hne] using h.count y hy

theorem Merged.alloc_left (h : Merged xs s s') {x : Var} (hx : x ∈ xs) :
    Merged xs (s.alloc x) s' := by
  refine ⟨⟨?_, ?_⟩, ?_, ?_⟩
  · intro y
    by_cases hy : y = x
    · have hr := Val.Refines.ptr (f := merge xs) ⟨x, s.count x⟩ 0
      rw [merge_of_mem hx] at hr
      simpa [State.alloc, Function.update, hy, h.hoisted x hx] using hr
    · simpa [State.alloc, Function.update, hy] using h.env y
  · exact h.log
  · exact h.hoisted
  · intro y hy
    have hne : y ≠ x := fun heq => hy (heq ▸ hx)
    simpa [State.alloc, Function.update, hne] using h.count y hy

theorem Merged.access_follows (h : Merged xs s s') {r : Ref} {a : Access} {t t' : State}
    (ha : accessed a = r) (ht : t.log = a :: s.log)
    (hrel : (r.op ∈ xs → ReadsOwn s.log a) → Merged xs t t') :
    (s.access r (.done t)).Follows (Exclusive xs) (Merged xs)
      (s'.access (merge xs r) (.done t')) := by
  by_cases hfree : .free r ∈ s.log
  · simp only [State.access, if_pos hfree]
    trivial
  simp only [State.access, if_neg hfree]
  intro hex
  rw [ht] at hex
  obtain ⟨-, halone⟩ := hex
  rw [ha] at halone
  rw [if_neg (not_freed_merged h.log hfree fun hmem => (halone hmem).1)]
  exact ⟨t', rfl, hrel fun hmem => (halone hmem).2⟩

variable {init : Memory} (hinit : ∀ r cell, Outside xs (init r cell))
include hinit

theorem Merged.contents_refines (h : Merged xs s s') {r : Ref} {cell : ℤ}
    (hown : r.op ∈ xs → ReadsOwn s.log (.read r cell (contents init r cell s.log))) :
    (contents init r cell s.log).Refines (merge xs)
      (contents init (merge xs r) cell s'.log) := by
  by_cases hmem : r.op ∈ xs
  · rcases hown hmem with hundef | hlast
    · rw [hundef]
      exact .undef _
    · exact contents_of_lastWriter init h.log hmem cell hlast
  · exact contents_of_notMem init hinit h.log hmem cell

end Operations

/-! ### Whole runs -/

section Runs

variable {α : Type} {xs : List Var} {init : Memory}
  (hinit : ∀ r cell, Outside xs (init r cell)) (fuel : ℕ)
include hinit

theorem eval_erase_follows (st : Stmt α) (hst : ∀ x ∈ xs, x ∉ assigned st) {s s' : State}
    (h : Merged xs s s') :
    (eval init fuel st s).Follows (Exclusive xs) (Merged xs)
      (eval init fuel (erase xs st) s') := by
  induction st generalizing s s' with
  | skip => exact fun _ => ⟨s', rfl, h⟩
  | seq a b iha ihb =>
    simp only [assigned, mem_append, not_or] at hst
    exact (iha (fun x hx => (hst x hx).1) h).bind Exclusive.looksBack (eval_extends init fuel b)
      fun _ _ h => ihb (fun x hx => (hst x hx).2) h
  | pure dst op args =>
    have hdst : ∀ y ∈ [dst], y ∉ xs := by
      intro y hy hx
      exact hst y hx (by simpa [assigned] using hy)
    have hop := op.natural _ _ _ (h.map_env args)
    exact fun _ => ⟨_, rfl, h.assign [dst] hdst (.cons hop .nil)⟩
  | move dsts srcs =>
    have hdsts : ∀ y ∈ dsts, y ∉ xs := fun y hy hx => hst y hx hy
    exact fun _ => ⟨_, rfl, h.assign dsts hdsts (h.map_env srcs)⟩
  | alloc x type =>
    by_cases hx : x ∈ xs
    · simp only [erase, if_pos hx]
      exact fun _ => ⟨s', rfl, h.alloc_left hx⟩
    · simp only [erase, if_neg hx]
      exact fun _ => ⟨_, rfl, h.alloc hx⟩
  | load dst buffer index =>
    simp only [eval, erase]
    cases ha : address? (s.env buffer) (s.env index) with
    | none => trivial
    | some p =>
      obtain ⟨r, cell⟩ := p
      simp only [h.address?_eq buffer index ha]
      refine h.access_follows (a := .read r cell (contents init r cell s.log)) rfl
        (by simp [State.record]) fun hown => ?_
      have hv := h.contents_refines hinit hown
      have hdst : ∀ y ∈ [dst], y ∉ xs := by
        intro y hy hx
        exact hst y hx (by simpa [assigned] using hy)
      exact (h.record (.read r cell hv)).assign [dst] hdst (.cons hv .nil)
  | store src buffer index =>
    simp only [eval, erase]
    cases ha : address? (s.env buffer) (s.env index) with
    | none => trivial
    | some p =>
      obtain ⟨r, cell⟩ := p
      simp only [h.address?_eq buffer index ha]
      exact h.access_follows (a := .write r cell (s.env src)) rfl rfl
        fun _ => h.record (.write r cell (h.env src))
  | dealloc buffer =>
    have hb := h.env buffer
    simp only [eval, erase]
    generalize s.env buffer = v at hb
    generalize s'.env buffer = w at hb
    cases hb with
    | undef => trivial
    | int => trivial
    | ptr r offset =>
      exact h.access_follows (a := .free r) rfl rfl fun _ => h.record (.free r)
  | scfIf cond a b iha ihb =>
    simp only [assigned, mem_append, not_or] at hst
    simp only [eval, erase]
    cases hc : (s.env cond).toBool? with
    | none => trivial
    | some c =>
      simp only [h.toBool?_eq cond c hc]
      cases c with
      | true => exact iha (fun x hx => (hst x hx).1) h
      | false => exact ihb (fun x hx => (hst x hx).2) h
  | scfWhile before cond after ihb iha =>
    simp only [assigned, mem_append, not_or] at hst
    exact Outcome.loop_follows Exclusive.looksBack (fun _ _ h => h.toBool?_eq cond)
      (eval_extends init fuel before) (eval_extends init fuel after)
      (fun _ _ h => ihb (fun x hx => (hst x hx).1) h)
      (fun _ _ h => iha (fun x hx => (hst x hx).2) h) fuel s s' h

omit hinit in
theorem Merged.next_eq {s s' : State} (h : Merged xs s s') (t : Terminator)
    {next : Option Target} (ht : t.next s = some next) : t.next s' = some next := by
  cases t with
  | ret => exact ht
  | br => exact ht
  | condBr cond a b =>
    simp only [Terminator.next, Option.map_eq_some_iff] at ht ⊢
    obtain ⟨c, hc, hnext⟩ := ht
    exact ⟨c, h.toBool?_eq cond c hc, hnext⟩

variable {blocks : List (Block α)}

omit hinit in
/-- The run of a block follows when its body does and the runs of the blocks it can branch
to do. -/
theorem exec_succ_follows {n : ℕ} {block : Block α} {body' : Stmt α} {s s' : State}
    (hargs : ∀ x ∈ xs, ∀ block ∈ blocks, x ∉ assignedInBlock block)
    (hbody : (eval init fuel block.body s).Follows (Exclusive xs) (Merged xs)
      (eval init fuel body' s'))
    (hnext : ∀ block ∈ blocks, ∀ s s', Merged xs s s' →
      (exec init fuel blocks n block s).Follows (Exclusive xs) (Merged xs)
        (exec init fuel (blocks.map (eraseBlock xs)) n (eraseBlock xs block) s')) :
    (exec init fuel blocks (n + 1) block s).Follows (Exclusive xs) (Merged xs)
      (exec init fuel (blocks.map (eraseBlock xs)) (n + 1)
        { block with body := body' } s') := by
  refine hbody.bind Exclusive.looksBack (fun s => ?_) fun s s' h => ?_
  · exact leave_extends blocks (exec_extends init fuel blocks n) block.term s
  · simp only [leave]
    cases ht : block.term.next s with
    | none => trivial
    | some next =>
      simp only [h.next_eq block.term ht]
      cases next with
      | none => exact fun _ => ⟨s', rfl, h⟩
      | some target =>
        cases hblock : blocks[target.dest]? with
        | none => simp only [hblock]; trivial
        | some block' =>
          have hmem : block' ∈ blocks := mem_of_getElem? hblock
          have hys : ∀ y ∈ block'.args, y ∉ xs := fun y hy hx =>
            hargs y hx block' hmem (mem_append_left _ hy)
          simp only [hblock, List.getElem?_map, Option.map_some]
          exact hnext block' hmem _ _ (h.assign _ hys (h.map_env target.args))

theorem exec_erase_follows (hargs : ∀ x ∈ xs, ∀ block ∈ blocks, x ∉ assignedInBlock block)
    (n : ℕ) (block : Block α) (hblock : block ∈ blocks) (s s' : State)
    (h : Merged xs s s') :
    (exec init fuel blocks n block s).Follows (Exclusive xs) (Merged xs)
      (exec init fuel (blocks.map (eraseBlock xs)) n (eraseBlock xs block) s') := by
  induction n generalizing block s s' with
  | zero => exact fun _ => ⟨s', rfl, h⟩
  | succ n ih =>
    have hbody : ∀ x ∈ xs, x ∉ assigned block.body := fun x hx hmem =>
      hargs x hx block hblock (mem_append_right _ hmem)
    exact exec_succ_follows fuel hargs (eval_erase_follows hinit fuel block.body hbody h) ih

end Runs

/-! ### The start of a run -/

section Start

variable {α : Type} {xs : List Var}

theorem eval_foldr_moveBefore (init : Memory) (fuel : ℕ) (ops : List (Var × α))
    (body : Stmt α) (s : State) :
    eval init fuel (ops.foldr moveBefore body) s =
      eval init fuel body ((ops.map Prod.fst).foldl State.alloc s) := by
  induction ops generalizing s with
  | nil => rfl
  | cons op ops ih => exact ih _

theorem foldl_alloc_frame (s : State) {y : Var} (hy : y ∉ xs) :
    (xs.foldl State.alloc s).env y = s.env y ∧
      (xs.foldl State.alloc s).count y = s.count y := by
  induction xs generalizing s with
  | nil => exact ⟨rfl, rfl⟩
  | cons x xs ih =>
    simp only [mem_cons, not_or] at hy
    obtain ⟨henv, hcount⟩ := ih (s.alloc x) hy.2
    rw [foldl_cons, henv, hcount]
    simp [State.alloc, Function.update, hy.1]

theorem foldl_alloc_log (s : State) : (xs.foldl State.alloc s).log = s.log := by
  induction xs generalizing s with
  | nil => rfl
  | cons x xs ih => exact ih _

theorem foldl_alloc_env (hxs : xs.Nodup) (s : State) {x : Var} (hx : x ∈ xs) :
    (xs.foldl State.alloc s).env x = .ptr ⟨x, s.count x⟩ 0 := by
  induction xs generalizing s with
  | nil => simp at hx
  | cons y xs ih =>
    obtain ⟨hy, hxs⟩ := nodup_cons.mp hxs
    rw [foldl_cons]
    by_cases hxy : x = y
    · rw [(foldl_alloc_frame (s.alloc y) (hxy ▸ hy)).1, hxy]
      simp [State.alloc]
    · have hmem : x ∈ xs := (mem_cons.mp hx).resolve_left hxy
      rw [ih hxs _ hmem]
      simp [State.alloc, Function.update, hxy]

theorem assign_env_of_notMem (s : State) {ys : List Var} (vs : List Val) {x : Var}
    (hx : x ∉ ys) : (s.assign ys vs).env x = s.env x := by
  induction ys generalizing s vs with
  | nil => rfl
  | cons y ys ih =>
    simp only [mem_cons, not_or] at hx
    cases vs with
    | nil => rfl
    | cons v vs =>
      simp only [State.assign]
      rw [ih _ _ hx.2]
      simp [hx.1]

theorem outside_assign (s : State) (hs : ∀ x, Outside xs (s.env x)) (ys : List Var)
    {vs : List Val} (hvs : ∀ v ∈ vs, Outside xs v) (x : Var) :
    Outside xs ((s.assign ys vs).env x) := by
  induction ys generalizing s vs with
  | nil => exact hs x
  | cons y ys ih =>
    cases vs with
    | nil => exact hs x
    | cons v vs =>
      refine ih _ (fun z => ?_) fun w hw => hvs w (by simp [hw])
      by_cases hz : z = y
      · simpa [Function.update, hz] using hvs v (by simp)
      · simpa [Function.update, hz] using hs z

theorem start_outside (b : Body α) {args : List Val} (hargs : ∀ v ∈ args, Outside xs v)
    (x : Var) : Outside xs ((b.start args).env x) := by
  refine outside_assign _ (fun _ => ?_) _ hargs x
  rintro r offset ⟨⟩

theorem merged_start (hxs : xs.Nodup) (b : Body α) {args : List Val}
    (hentry : ∀ x ∈ xs, x ∉ b.entry.args) (hargs : ∀ v ∈ args, Outside xs v) :
    Merged xs (b.start args) (xs.foldl State.alloc (b.start args)) := by
  have hundef : ∀ x ∈ xs, (b.start args).env x = .undef := fun x hx =>
    assign_env_of_notMem _ args (hentry x hx)
  refine ⟨⟨fun x => ?_, ?_⟩, fun x hx => ?_, fun x hx => (foldl_alloc_frame _ hx).2⟩
  · by_cases hx : x ∈ xs
    · rw [hundef x hx]
      exact .undef _
    · rw [(foldl_alloc_frame _ hx).1]
      exact (start_outside b hargs x).refines
  · rw [foldl_alloc_log]
    simp [Body.start]
  · rw [foldl_alloc_env hxs _ hx]
    simp [Body.start]

end Start

/-! ### The pass on a function -/

section Hoisted

variable {α : Type}

theorem hoist_follows (init : Memory) (fuel : ℕ) (ops : List (Var × α)) (b : Body α)
    (args : List Val) (hnodup : (ops.map Prod.fst).Nodup)
    (hentry : ∀ x ∈ ops.map Prod.fst, x ∉ assignedInBlock b.entry)
    (hblocks : ∀ x ∈ ops.map Prod.fst, ∀ block ∈ b.blocks, x ∉ assignedInBlock block)
    (hfresh : Fresh (ops.map Prod.fst) init args) :
    (b.run init fuel args).Follows (Exclusive (ops.map Prod.fst)) (SameUpTo (ops.map Prod.fst))
      ((hoist ops b).run init fuel args) := by
  have hstart := merged_start hnodup b
    (fun x hx hmem => hentry x hx (mem_append_left _ hmem)) hfresh.args
  cases fuel with
  | zero =>
    refine fun _ => ⟨_, rfl, fun x => (start_outside b hfresh.args x).refines, ?_⟩
    simp [Body.start]
  | succ n =>
    have hbody : ∀ x ∈ ops.map Prod.fst, x ∉ assigned b.entry.body := fun x hx hmem =>
      hentry x hx (mem_append_right _ hmem)
    have heval := eval_erase_follows hfresh.memory (n + 1) b.entry.body hbody hstart
    rw [← eval_foldr_moveBefore] at heval
    simp only [Body.run, hoist, foldl_moveBefore]
    exact (exec_succ_follows (n + 1) hblocks heval
      (exec_erase_follows hfresh.memory (n + 1) hblocks n)).mono fun _ _ h => h.toSameUpTo

theorem toHoist_sublist (pred : α → Bool) (b : Body α) :
    (toHoist pred b).Sublist (outsideEntry b) :=
  filter_sublist

theorem toHoist_hoist (pred : α → Bool) (ops : List (Var × α)) (b : Body α) :
    toHoist pred (hoist ops b) =
      (toHoist pred b).filter fun op => op.1 ∉ ops.map Prod.fst := by
  simp only [toHoist, outsideEntry_hoist, filter_filter, Bool.and_comm]

end Hoisted

theorem hoistBody_eq (kind : FuncKind) (b : Body AllocOp) :
    hoistBody kind b = hoist (hoistedOps kind b) b := by
  cases kind with
  | llvmFunc => rfl
  | funcFunc =>
    refine hoist_hoist _ _ b fun op hop hmem => ?_
    obtain ⟨op', hop', heq⟩ := mem_map.mp hmem
    rw [hoistInto, toHoist_hoist, mem_filter, heq] at hop'
    have hout := hop'.2
    simp only [decide_eq_true_eq] at hout
    exact hout (mem_map_of_mem hop)

theorem mem_outsideEntry_of_hoistedOps {kind : FuncKind} {b : Body AllocOp}
    {op : Var × AllocOp} (hop : op ∈ hoistedOps kind b) : op ∈ outsideEntry b := by
  cases kind with
  | llvmFunc => exact (toHoist_sublist _ b).mem hop
  | funcFunc =>
    cases mem_append.mp hop with
    | inl h =>
      rw [hoistInto, toHoist_hoist] at h
      exact (toHoist_sublist _ b).mem (mem_of_mem_filter h)
    | inr h => exact (toHoist_sublist _ b).mem h

theorem hoistedOps_nodup (kind : FuncKind) {b : Body AllocOp}
    (h : ((outsideEntry b).map Prod.fst).Nodup) :
    ((hoistedOps kind b).map Prod.fst).Nodup := by
  have hsub (pred : AllocOp → Bool) : ((toHoist pred b).map Prod.fst).Nodup :=
    h.sublist ((toHoist_sublist pred b).map Prod.fst)
  cases kind with
  | llvmFunc => exact hsub _
  | funcFunc =>
    simp only [hoistedOps, map_append, hoistInto, toHoist_hoist]
    refine List.Nodup.append ((hsub _).sublist (List.filter_sublist.map _)) (hsub _) ?_
    intro x hx hmem
    obtain ⟨op, hop, rfl⟩ := mem_map.mp hx
    have hout := (mem_filter.mp hop).2
    simp only [decide_eq_true_eq] at hout
    exact hout hmem

def hoistedVars (kind : FuncKind) (b : Body AllocOp) : List Var :=
  (hoistedOps kind b).map Prod.fst

theorem hoistBody_follows (init : Memory) (fuel : ℕ) (kind : FuncKind) (b : Body AllocOp)
    (args : List Val) (hssa : SingleAssignment b)
    (hfresh : Fresh (hoistedVars kind b) init args) :
    (b.run init fuel args).Follows (Exclusive (hoistedVars kind b))
      (SameUpTo (hoistedVars kind b)) ((hoistBody kind b).run init fuel args) := by
  rw [hoistBody_eq]
  refine hoist_follows init fuel (hoistedOps kind b) b args (hoistedOps_nodup kind hssa.nodup)
    (fun x hx => ?_) (fun x hx => ?_) hfresh
  · obtain ⟨op, hop, rfl⟩ := mem_map.mp hx
    exact hssa.entry op (mem_outsideEntry_of_hoistedOps hop)
  · obtain ⟨op, hop, rfl⟩ := mem_map.mp hx
    exact hssa.blocks op (mem_outsideEntry_of_hoistedOps hop)

/-- In every function of the module, every run in which the instances of each moved
allocation are used one after the other is followed by the moved function, read for read. -/
theorem runOnOperation_follows (env : Option String)
    (henv : (env.bind fun off => off.toList.head?) ≠ some '0') (module : List Func) :
    List.Forall₂ (fun f f' => ∀ b, f.body = some b → ∃ b', f'.body = some b' ∧
      ∀ (init : Memory) (fuel : ℕ) (args : List Val), SingleAssignment b →
        Fresh (hoistedVars f.kind b) init args →
        (b.run init fuel args).Follows (Exclusive (hoistedVars f.kind b))
          (SameUpTo (hoistedVars f.kind b)) (b'.run init fuel args))
      module (runOnOperation env module) := by
  rw [runOnOperation, if_neg henv, forall₂_map_right_iff, forall₂_same]
  intro f _ b hb
  refine ⟨hoistBody f.kind b, ?_, fun init fuel args hssa hfresh => ?_⟩
  · rw [hoistFunc, hb]
    rfl
  · exact hoistBody_follows init fuel f.kind b args hssa hfresh

/-! ### A scratch tile and a carried tile -/

def constant (n : ℤ) : PureOp := .ofInts fun _ => n

def tile : AllocOp := .memrefAlloc ⟨[some 1], .intOrFloat 32⟩ []

/-- Two iterations that fill a tile `7`; each reads back the tile `source`. The first
iteration is given a tile `3` from outside the loop, the second its predecessor's. -/
def fillTwice (source : Var) : Body AllocOp where
  entry :=
    { args := []
      body :=
        .seq (.pure 0 (constant 0) []) <| .seq (.pure 1 (constant 2) []) <|
        .seq (.pure 2 (constant 1) []) <| .seq (.alloc 3 tile) <| .seq (.store 2 3 0) <|
        .scfFor 4 0 1 2 5 [6] [3]
          (.seq (.alloc 7 tile) <| .seq (.store 4 7 0) <| .load 8 source 0) [7]
      term := .ret [] }
  blocks := []

theorem singleAssignment_fillTwice (source : Var) : SingleAssignment (fillTwice source) where
  nodup := by simp [fillTwice, outsideEntry, regionAllocs, allocs, Stmt.scfFor]
  entry := by
    simp [fillTwice, outsideEntry, regionAllocs, allocs, Stmt.scfFor, assignedInBlock, assigned]
  blocks := by simp [fillTwice]

theorem fresh_undef (xs : List Var) : Fresh xs (fun _ _ => .undef) [] where
  cells := fun _ _ _ => rfl
  memory := by rintro _ _ r offset ⟨⟩
  args := by simp

def readValues : List Access → List Val
  | [] => []
  | .read _ _ v :: log => v :: readValues log
  | _ :: log => readValues log

/-- A tile that each iteration reads itself is followed by the single tile. -/
theorem runOnOperation_follows_scratch :
    ∃ s s', (fillTwice 7).run (fun _ _ => .undef) 3 [] = .done s ∧
      (hoistBody .funcFunc (fillTwice 7)).run (fun _ _ => .undef) 3 [] = .done s' ∧
      SameUpTo [7] s s' ∧ readValues s.log = [.int 1, .int 0] := by
  have hmodule := runOnOperation_follows none (by decide) [⟨.funcFunc, some (fillTwice 7)⟩]
  obtain ⟨b', hb', hfollows⟩ := (forall₂_cons.mp hmodule).1 (fillTwice 7) rfl
  obtain rfl : hoistBody .funcFunc (fillTwice 7) = b' := Option.some.inj hb'
  obtain ⟨s', hs', hsame⟩ := hfollows (fun _ _ => .undef) 3 []
    (singleAssignment_fillTwice 7) (fresh_undef _) (by decide)
  exact ⟨_, s', rfl, hs', hsame, by decide⟩

/-- A tile that the next iteration reads is overwritten before it does: the second read
gives 1 where it gave 0. -/
theorem runOnOperation_carried :
    runOnOperation none [⟨.funcFunc, some (fillTwice 6)⟩] =
        [⟨.funcFunc, some (hoistBody .funcFunc (fillTwice 6))⟩] ∧
      SingleAssignment (fillTwice 6) ∧ Fresh [7] (fun _ _ => .undef) [] ∧
      ∃ s s', (fillTwice 6).run (fun _ _ => .undef) 3 [] = .done s ∧
        (hoistBody .funcFunc (fillTwice 6)).run (fun _ _ => .undef) 3 [] = .done s' ∧
        readValues s.log = [.int 0, .int 1] ∧ readValues s'.log = [.int 1, .int 1] := by
  refine ⟨rfl, singleAssignment_fillTwice 6, fresh_undef _, _, _, rfl, rfl, ?_, ?_⟩
  · decide
  · decide

end TritonCpu.HoistStaticAllocs
