import TritonCpu.TensorPointerAgree

/-!
# Rewritten programs touch what the block pointers point to

A block pointer is described by what is recorded of the value it came from as long as
it points into the same tensor. Loops and branches whose pointers do keep that, and
then the two programs touch the same addresses in the same order. A loop that
exchanges two block pointers does not.
-/

set_option autoImplicit false

namespace TritonCpu.TensorPointer

open TritonCpu.Structured List

variable {E : Type}

section Runs

variable (el : Elements E) (limit : ℕ)

def runSource (code : Code Value (SourceOp E)) (s : SourceState E) : SourceState E × List (Val E) :=
  exec control (SourceOp.step el) limit code s

def runTarget (code : Code Name (TargetOp E)) (s : TargetState E) : TargetState E × List (Val E) :=
  exec control (TargetOp.step el) limit code s

/-- The block pointer of the operation that a value goes back to. -/
def origin (defs : List (Value × Definition)) (s : SourceState E) (v : Value) : Val E :=
  ((getMakeTensorPtrOp defs v).map s.env).getD default

/-- In this run the block pointers that a loop yields point into the same tensors as those
it begins with, and those a branch yields into the tensors of the operations that the
first branch goes back to. -/
def KeepsTensors (defs : List (Value × Definition)) :
    Code Value (SourceOp E) → SourceState E → Prop
  | .yield _, _ => True
  | .prim op next, s => KeepsTensors defs next (op.step el s)
  | .forOp iv lb ub stride inits args body results next, s =>
    let enter := enterBody control iv args (s.env lb) (s.env stride)
    let loop := fun n => repeatFor (fun k x => runSource el limit body (enter k x)) n
      (s, inits.map s.env)
    let n := tripCount (s.env lb) (s.env ub) (s.env stride)
    (∀ k < n, KeepsTensors defs body (enter k (loop k)) ∧
      KeepsParents inits (loop (k + 1)).2 (inits.map s.env)) ∧
      KeepsTensors defs next ((loop n).1.bind results (loop n).2)
  | .ifOp cond thenBlock elseBlock results next, s =>
    let r := if isTrue (s.env cond) then runSource el limit thenBlock s
      else runSource el limit elseBlock s
    (if isTrue (s.env cond) then KeepsTensors defs thenBlock s else KeepsTensors defs elseBlock s) ∧
      KeepsParents (terminator thenBlock) r.2 ((terminator thenBlock).map (origin defs s)) ∧
      KeepsTensors defs next (r.1.bind results r.2)
  | .whileOp inits args before afterArgs after results next, s =>
    let runBefore := fun x => runSource el limit before (State.bind x.1 args x.2)
    let runAfter := fun x => runSource el limit after (State.bind x.1 afterArgs x.2)
    let r := repeatWhile isTrue runBefore runAfter limit (s, inits.map s.env)
    holdsWhile isTrue runBefore runAfter (fun x => KeepsTensors defs before (x.1.bind args x.2))
        (fun x => KeepsTensors defs after (x.1.bind afterArgs x.2)) limit (s, inits.map s.env) ∧
      KeepsTensors defs next (r.1.bind results r.2)

def sourceTypes : Types Ty := ⟨.int 1, fun type => ∃ width, type = .int width⟩

abbrev SourceSsa (code : Code Value (SourceOp E)) (scope : List Value) : Prop :=
  code.Ssa SourceOp.results SourceOp.operands scope

abbrev SourceTyped (code : Code Value (SourceOp E)) (yielded : List Ty) : Prop :=
  code.WellTyped sourceTypes Value.type SourceOp.WellTyped yielded

end Runs

section Sound

variable {el : Elements E} {limit : ℕ} {defs : List (Value × Definition)} {records : Records}
  {scope : List Value} {s : SourceState E} {s' : TargetState E}

theorem runTarget_prims (ops : List (TargetOp E)) (next : Code Name (TargetOp E))
    (s' : TargetState E) :
    runTarget el limit (prims ops next) s' = runTarget el limit next (runOps el ops s') := by
  induction ops generalizing s' with
  | nil => rfl
  | cons op ops ih => exact ih _

theorem runTarget_forOp (iv lb ub stride : Name) (inits args : List Name)
    (body : Code Name (TargetOp E)) (results : List Name) (next : Code Name (TargetOp E)) :
    runTarget el limit (.forOp iv lb ub stride inits args body results next) s' =
      let r := repeatFor (fun k y => runTarget el limit body
        (enterBody control iv args (s'.env lb) (s'.env stride) k y))
        (tripCount (s'.env lb) (s'.env ub) (s'.env stride)) (s', inits.map s'.env)
      runTarget el limit next (r.1.bind results r.2) := rfl

theorem runTarget_ifOp (cond : Name) (thenBlock elseBlock : Code Name (TargetOp E))
    (results : List Name) (next : Code Name (TargetOp E)) :
    runTarget el limit (.ifOp cond thenBlock elseBlock results next) s' =
      runTarget el limit next (State.bind
        (if isTrue (s'.env cond) then runTarget el limit thenBlock s'
          else runTarget el limit elseBlock s').1 results
        (if isTrue (s'.env cond) then runTarget el limit thenBlock s'
          else runTarget el limit elseBlock s').2) := rfl

theorem runSource_ifOp (cond : Value) (thenBlock elseBlock : Code Value (SourceOp E))
    (results : List Value) (next : Code Value (SourceOp E)) :
    runSource el limit (.ifOp cond thenBlock elseBlock results next) s =
      runSource el limit next (State.bind
        (if isTrue (s.env cond) then runSource el limit thenBlock s
          else runSource el limit elseBlock s).1 results
        (if isTrue (s.env cond) then runSource el limit thenBlock s
          else runSource el limit elseBlock s).2) := rfl

theorem runTarget_whileOp (inits args : List Name) (before : Code Name (TargetOp E))
    (afterArgs : List Name) (after : Code Name (TargetOp E)) (results : List Name)
    (next : Code Name (TargetOp E)) :
    runTarget el limit (.whileOp inits args before afterArgs after results next) s' =
      let r := repeatWhile isTrue (fun y => runTarget el limit before (y.1.bind args y.2))
        (fun y => runTarget el limit after (y.1.bind afterArgs y.2)) limit (s', inits.map s'.env)
      runTarget el limit next (r.1.bind results r.2) := rfl

theorem runSource_whileOp (inits args : List Value) (before : Code Value (SourceOp E))
    (afterArgs : List Value) (after : Code Value (SourceOp E)) (results : List Value)
    (next : Code Value (SourceOp E)) :
    runSource el limit (.whileOp inits args before afterArgs after results next) s =
      let r := repeatWhile isTrue (fun x => runSource el limit before (x.1.bind args x.2))
        (fun x => runSource el limit after (x.1.bind afterArgs x.2)) limit (s, inits.map s.env)
      runSource el limit next (r.1.bind results r.2) := rfl

/-- What the programs agree on before a region they agree on after it, as nothing that was
recorded is bound inside. -/
theorem Agree.restrict {records' : Records} {scope' : List Value} {t : SourceState E}
    {t' : TargetState E} (h : Agree records' scope' t t') (hsub : scope ⊆ scope')
    (hfind : ∀ v ∈ scope, records'.find v = records.find v) : Agree records scope t t' := by
  refine ⟨h.world, fun v hv => h.same v (hsub hv), ?_⟩
  intro v hv htype
  obtain ⟨info, p, hinfo, hrest⟩ := h.described v (hsub hv) htype
  exact ⟨info, p, (hfind v hv).symm.trans hinfo, hrest⟩

theorem find_recordOffsets {vs : List Value} {infos : List (Option RewritedInfo)} {v : Value}
    (hv : v ∉ vs) : (recordOffsets records vs infos).1.find v = records.find v := by
  induction vs generalizing infos with
  | nil => rfl
  | cons u vs ih =>
    obtain ⟨hne, hmem⟩ := not_or.mp (mt mem_cons.mpr hv)
    cases infos with
    | nil => rfl
    | cons info infos =>
      cases info with
      | none => exact ih hmem
      | some info =>
        simp only [recordOffsets]
        rw [find_cons_of_ne hne]
        exact ih hmem

theorem step_env_of_notMem (op : SourceOp E) (s : SourceState E) :
    ∀ v ∉ op.results, (op.step el s).env v = s.env v := by
  intro v hv
  cases op with
  | store ptr value boundaryCheck cache evict => rfl
  | anyOp results operands apply => exact bind_env_of_notMem _ _ hv
  | _ => exact bind_env_of_notMem _ _ hv

theorem runSource_env {code : Code Value (SourceOp E)} (hssa : SourceSsa code scope) {v : Value}
    (hv : v ∈ scope) (s : SourceState E) : (runSource el limit code s).1.env v = s.env v :=
  exec_env_of_notMem step_env_of_notMem code (hssa.notMem_bound v hv) s

theorem find_rewriteOp {records' : Records} {op : SourceOp E} {ops : List (TargetOp E)}
    (hop : rewriteOp records op = some (records', ops)) {v : Value} (hv : v ∉ op.results) :
    records'.find v = records.find v := by
  cases op with
  | makeTensorPtr res base shape strides offsets =>
    obtain ⟨⟨info, created⟩, -, heq⟩ := Option.bind_eq_some_iff.mp hop
    obtain ⟨rfl, -⟩ := Prod.mk.inj (Option.some.inj heq)
    exact find_cons_of_ne (by simpa [SourceOp.results] using hv) info
  | advance res ptr offsets =>
    obtain ⟨ptrInfo, -, hop'⟩ := Option.bind_eq_some_iff.mp hop
    obtain ⟨⟨info, created⟩, -, heq⟩ := Option.bind_eq_some_iff.mp hop'
    obtain ⟨rfl, -⟩ := Prod.mk.inj (Option.some.inj heq)
    exact find_cons_of_ne (by simpa [SourceOp.results] using hv) info
  | load res ptr boundaryCheck padding cache evict isVolatile =>
    obtain ⟨info, -, hop'⟩ := Option.bind_eq_some_iff.mp hop
    obtain ⟨mask, -, hop''⟩ := Option.bind_eq_some_iff.mp hop'
    obtain ⟨other, -, heq⟩ := Option.bind_eq_some_iff.mp hop''
    obtain ⟨rfl, -⟩ := Prod.mk.inj (Option.some.inj heq)
    rfl
  | store ptr value boundaryCheck cache evict =>
    obtain ⟨info, -, hop'⟩ := Option.bind_eq_some_iff.mp hop
    obtain ⟨mask, -, heq⟩ := Option.bind_eq_some_iff.mp hop'
    obtain ⟨rfl, -⟩ := Prod.mk.inj (Option.some.inj heq)
    rfl
  | anyOp results operands apply =>
    simp only [rewriteOp] at hop
    split at hop
    · cases hop
    · obtain ⟨rfl, -⟩ := Prod.mk.inj (Option.some.inj hop)
      rfl

theorem carried_same {types : List Ty} {ds : List (Val E)} (hlength : types.length = ds.length)
    (htypes : ∀ type ∈ types, isTensorPointerType type = false) : Carried types ds ds := by
  induction types generalizing ds with
  | nil =>
    obtain rfl := length_eq_zero_iff.mp hlength.symm
    exact .nil
  | cons type types ih =>
    cases ds with
    | nil => cases hlength
    | cons d ds =>
      exact .same (htypes type mem_cons_self)
        (ih (Nat.succ.inj hlength) fun t ht => htypes t (mem_cons_of_mem _ ht))

theorem rewriteTerminator_carried {operands : List Value} {isYield : Bool} {names : List Name}
    (hrewrite : rewriteTerminator records operands isYield = some names) (hoperands : operands ⊆ scope)
    (h : Agree records scope s s') :
    Carried (operands.map Value.type) (operands.map s.env) (names.map s'.env) := by
  unfold rewriteTerminator at hrewrite
  split at hrewrite
  · have hexpand : expandOperands records ([] ++ operands.map .old) ([] : List Name).length =
        some names := hrewrite
    obtain ⟨news, rfl, hcarried⟩ := expandOperands_carried h hoperands hexpand
    exact hcarried
  · split at hrewrite
    · cases hrewrite
    · rename_i hnone
      obtain rfl := Option.some.inj hrewrite
      have htypes : ∀ v ∈ operands, isTensorPointerType v.type = false := by simpa using hnone
      rw [h.map_env hoperands htypes]
      apply carried_same (by simp)
      intro type htype
      obtain ⟨v, hv, rfl⟩ := mem_map.mp htype
      exact htypes v hv

theorem recorded_iteration {inits vs : List Value} {infos : List (Option RewritedInfo)}
    {t : SourceState E} {t' : TargetState E} {ds ds' : List (Val E)} (hinits : inits ⊆ scope)
    (hinfos : carriedInfos records.find inits = some infos) (hscoped : Scoped records scope)
    (h : Agree records scope t t') (henv : ∀ v ∈ scope, t.env v = s.env v)
    (htypes : inits.map Value.type = vs.map Value.type)
    (hcarried : Carried (inits.map Value.type) ds ds')
    (hkeeps : KeepsParents inits ds (inits.map s.env)) : Recorded scope t'.env vs infos ds ds' := by
  refine hcarried.recorded htypes hinfos s.env ?_ hkeeps
  intro y hy hptr info hfind
  obtain ⟨info', p, hfind', hvalue, hdescribes, -⟩ := h.described y (hinits hy) hptr
  obtain rfl := Option.some.inj (hfind.symm.trans hfind')
  refine ⟨hscoped.known y info hfind, p.parent, ?_, hdescribes.parent⟩
  rw [← henv y (hinits hy), hvalue]
  rfl

theorem keepsParents_self (vs : List Value) (ds : List (Val E)) : KeepsParents vs ds ds := by
  induction vs generalizing ds with
  | nil => trivial
  | cons v vs ih =>
    cases ds with
    | nil => trivial
    | cons d ds => exact ⟨fun _ => rfl, ih ds⟩

theorem terminator_types {code : Code Value (SourceOp E)} {yielded : List Ty}
    (htyped : SourceTyped code yielded) : (terminator code).map Value.type = yielded := by
  induction code with
  | yield operands => exact htyped
  | prim op next ih => exact ih htyped.2
  | forOp iv lb ub stride inits args body results next ihBody ih => exact ih htyped.2.2.2.2.2
  | ifOp cond thenBlock elseBlock results next ihThen ihElse ih => exact ih htyped.2.2.2
  | whileOp inits args before afterArgs after results next ihBefore ihAfter ih =>
    exact ih htyped.2.2.2.2

theorem notTensorPointer_of_types {us vs : List Value}
    (htypes : us.map Value.type = vs.map Value.type)
    (hus : ∀ v ∈ us, isTensorPointerType v.type = false) :
    ∀ v ∈ vs, isTensorPointerType v.type = false := by
  intro v hv
  have hmem : v.type ∈ us.map Value.type := htypes ▸ mem_map_of_mem hv
  obtain ⟨u, hu, heq⟩ := mem_map.mp hmem
  rw [← heq]
  exact hus u hu

/-- Loops without block pointers carry the same values. -/
structure Together (records : Records) (scope : List Value)
    (x : SourceState E × List (Val E)) (y : TargetState E × List (Val E)) : Prop where
  agree : Agree records scope x.1 y.1
  same : y.2 = x.2

/-- What an iteration of a loop and the one it is rewritten to have in common. -/
structure Iterated (records : Records) (scope inits : List Value) (s : SourceState E)
    (x : SourceState E × List (Val E)) (y : TargetState E × List (Val E)) : Prop where
  agree : Agree records scope x.1 y.1
  carried : Carried (inits.map Value.type) x.2 y.2
  keeps : KeepsParents inits x.2 (inits.map s.env)
  env : ∀ v ∈ scope, x.1.env v = s.env v

theorem Iterated.enter {inits args : List Value} {infos : List (Option RewritedInfo)} {iv : Value}
    {x : SourceState E × List (Val E)} {y : TargetState E × List (Val E)}
    (h : Iterated records scope inits s x y) (hinits : inits ⊆ scope)
    (hinfos : carriedInfos records.find inits = some infos) (hscoped : Scoped records scope)
    (htypes : inits.map Value.type = args.map Value.type) (hfresh : Fresh scope (iv :: args))
    (hiv : isTensorPointerType iv.type = false) (d : Val E) :
    Scoped (recordOffsets records args infos).1 (iv :: args ++ scope) ∧
      Agree (recordOffsets records args infos).1 (iv :: args ++ scope)
        (x.1.bind (iv :: args) (d :: x.2))
        (y.1.bind (.old iv :: (recordOffsets records args infos).2) (d :: y.2)) := by
  obtain ⟨hargs, hiv'⟩ := hfresh.tail
  have hrecorded := recorded_iteration hinits hinfos hscoped h.agree h.env htypes h.carried h.keeps
  obtain ⟨hscoped', hagree, -⟩ := h.agree.bind hrecorded hscoped hargs
  exact ⟨hscoped'.mono (subset_cons_self _ _), hagree.cons_same hscoped' hiv' hiv d⟩

theorem rewriteBlock_agree {code : Code Value (SourceOp E)} {isYield : Bool}
    {newCode : Code Name (TargetOp E)} {yielded : List Ty} (hssa : SourceSsa code scope)
    (htyped : SourceTyped code yielded)
    (hrewrite : rewriteBlock defs code records isYield = some newCode)
    (hscoped : Scoped records scope) (h : Agree records scope s s')
    (hkeeps : KeepsTensors el limit defs code s) :
    Agree records scope (runSource el limit code s).1 (runTarget el limit newCode s').1 ∧
      Carried yielded (runSource el limit code s).2 (runTarget el limit newCode s').2 := by
  induction code generalizing records scope isYield newCode yielded s s' with
  | yield operands =>
    obtain ⟨names, hnames, heq⟩ := Option.bind_eq_some_iff.mp hrewrite
    obtain rfl := Option.some.inj heq
    obtain rfl : operands.map Value.type = yielded := htyped
    exact ⟨h, rewriteTerminator_carried hnames hssa h⟩
  | prim op next ih =>
    obtain ⟨hoperands, hfresh, hssaNext⟩ := hssa
    obtain ⟨hop, htypedNext⟩ := htyped
    obtain ⟨⟨newRecords, ops⟩, hrewriteOp, hrest⟩ := Option.bind_eq_some_iff.mp hrewrite
    obtain ⟨newNext, hrewriteNext, heq⟩ := Option.bind_eq_some_iff.mp hrest
    obtain rfl := Option.some.inj heq
    obtain ⟨hscoped', h'⟩ : Scoped newRecords (op.results ++ scope) ∧
        Agree newRecords (op.results ++ scope) (op.step el s) (runOps el ops s') :=
      rewriteOp_agree hrewriteOp hop hoperands hfresh hscoped h
    obtain ⟨hagree, hcarried⟩ := ih hssaNext htypedNext hrewriteNext hscoped' h' hkeeps
    rw [runTarget_prims]
    refine ⟨hagree.restrict (subset_append_right _ _) fun v hv => ?_, hcarried⟩
    exact find_rewriteOp hrewriteOp fun hmem => hfresh.notMem v hmem hv
  | forOp iv lb ub stride inits args body results next ihBody ih =>
    obtain ⟨hoperands, hargs, hresults, hssaBody, hssaNext⟩ := hssa
    obtain ⟨⟨width, hindex⟩, hbounds, hinitTypes, hresultTypes, htypedBody, htypedNext⟩ := htyped
    obtain ⟨newInits, hexpand, hrest⟩ := Option.bind_eq_some_iff.mp hrewrite
    obtain ⟨infos, hinfos, hrest'⟩ := Option.bind_eq_some_iff.mp hrest
    obtain ⟨newBody, hrewriteBody, hrest''⟩ := Option.bind_eq_some_iff.mp hrest'
    obtain ⟨newNext, hrewriteNext, heq⟩ := Option.bind_eq_some_iff.mp hrest''
    obtain rfl := Option.some.inj heq
    obtain ⟨hkeepsLoop, hkeepsNext⟩ := hkeeps
    have hinits : inits ⊆ scope := fun v hv => hoperands (by simp [hv])
    have hbound : ∀ v ∈ [lb, ub, stride], s'.env (.old v) = s.env v := by
      intro v hv
      apply h.same v
      · apply hoperands
        simp only [mem_cons, not_mem_nil, or_false] at hv ⊢
        tauto
      · rw [hbounds v hv, hindex]
        rfl
    have hiv : isTensorPointerType iv.type = false := by rw [hindex]; rfl
    have hcarriedInits : Carried (inits.map Value.type) (inits.map s.env) (newInits.map s'.env) := by
      obtain ⟨news, rfl, hcarried⟩ := expandOperands_carried h hinits
        (show expandOperands records ([] ++ inits.map .old) ([] : List Name).length = _ from hexpand)
      exact hcarried
    -- one iteration
    have hloop : Iterated records scope inits s
        (repeatFor (fun k x => runSource el limit body
          (enterBody control iv args (s.env lb) (s.env stride) k x))
          (tripCount (s.env lb) (s.env ub) (s.env stride)) (s, inits.map s.env))
        (repeatFor (fun k y => runTarget el limit newBody
          (enterBody control (.old iv) (recordOffsets records args infos).2 (s.env lb)
            (s.env stride) k y))
          (tripCount (s.env lb) (s.env ub) (s.env stride)) (s', newInits.map s'.env)) := by
      apply repeatFor_rel
      · exact ⟨h, hcarriedInits, keepsParents_self _ _, fun v _ => rfl⟩
      · intro k hk y hy
        obtain ⟨hkeepsBody, hkeepsYield⟩ := hkeepsLoop k hk
        obtain ⟨hscopedBody, hagree⟩ := hy.enter hinits hinfos hscoped hinitTypes hargs hiv
          (ivAt (s.env lb) (s.env stride) k)
        obtain ⟨hagree', hcarried⟩ := ihBody hssaBody htypedBody hrewriteBody hscopedBody hagree
          hkeepsBody
        refine ⟨?_, ?_, hkeepsYield, ?_⟩
        · apply hagree'.restrict (subset_append_right _ _)
          intro v hv
          exact find_recordOffsets fun hmem => hargs.notMem v (mem_cons_of_mem _ hmem) hv
        · rw [hinitTypes]
          exact hcarried
        · intro v hv
          rw [runSource_env hssaBody (mem_append_right _ hv), enterBody,
            bind_env_of_notMem _ _ fun hmem => hargs.notMem v hmem hv]
          exact hy.env v hv
    have hrecorded := recorded_iteration hinits hinfos hscoped hloop.agree hloop.env
      (hinitTypes.trans hresultTypes.symm) hloop.carried hloop.keeps
    obtain ⟨hscoped', hagree, -⟩ := hloop.agree.bind hrecorded hscoped hresults
    obtain ⟨hfinal, hyielded⟩ := ih hssaNext htypedNext hrewriteNext hscoped' hagree hkeepsNext
    rw [runTarget_forOp, hbound lb (by simp), hbound ub (by simp), hbound stride (by simp)]
    refine ⟨hfinal.restrict (subset_append_right _ _) fun v hv => ?_, hyielded⟩
    exact find_recordOffsets fun hmem => hresults.notMem v hmem hv
  | ifOp cond thenBlock elseBlock results next ihThen ihElse ih =>
    obtain ⟨hcondScope, hresults, hssaThen, hssaElse, hssaNext⟩ := hssa
    obtain ⟨hcondType, htypedThen, htypedElse, htypedNext⟩ := htyped
    obtain ⟨infos, hinfos, hrest⟩ := Option.bind_eq_some_iff.mp hrewrite
    obtain ⟨newThen, hrewriteThen, hrest'⟩ := Option.bind_eq_some_iff.mp hrest
    obtain ⟨newElse, hrewriteElse, hrest''⟩ := Option.bind_eq_some_iff.mp hrest'
    obtain ⟨newNext, hrewriteNext, heq⟩ := Option.bind_eq_some_iff.mp hrest''
    obtain rfl := Option.some.inj heq
    obtain ⟨hkeepsBranch, hkeepsYield, hkeepsNext⟩ := hkeeps
    have hcond : s'.env (.old cond) = s.env cond :=
      h.same cond hcondScope (by rw [hcondType]; rfl)
    -- the branch that is taken
    have hbranch : Agree records scope
          (if isTrue (s.env cond) then runSource el limit thenBlock s
            else runSource el limit elseBlock s).1
          (if isTrue (s.env cond) then runTarget el limit newThen s'
            else runTarget el limit newElse s').1 ∧
        Carried (results.map Value.type)
          (if isTrue (s.env cond) then runSource el limit thenBlock s
            else runSource el limit elseBlock s).2
          (if isTrue (s.env cond) then runTarget el limit newThen s'
            else runTarget el limit newElse s').2 ∧
        ∀ v ∈ scope, (if isTrue (s.env cond) then runSource el limit thenBlock s
            else runSource el limit elseBlock s).1.env v = s.env v := by
      split
      · rename_i htrue
        rw [if_pos htrue] at hkeepsBranch
        obtain ⟨hagree, hcarried⟩ := ihThen hssaThen htypedThen hrewriteThen hscoped h hkeepsBranch
        exact ⟨hagree, hcarried, fun v hv => runSource_env hssaThen hv s⟩
      · rename_i hfalse
        rw [if_neg hfalse] at hkeepsBranch
        obtain ⟨hagree, hcarried⟩ := ihElse hssaElse htypedElse hrewriteElse hscoped h hkeepsBranch
        exact ⟨hagree, hcarried, fun v hv => runSource_env hssaElse hv s⟩
    rw [runTarget_ifOp, runSource_ifOp, hcond]
    generalize (if isTrue (s.env cond) then runSource el limit thenBlock s
      else runSource el limit elseBlock s) = x at hbranch hkeepsYield hkeepsNext ⊢
    generalize (if isTrue (s.env cond) then runTarget el limit newThen s'
      else runTarget el limit newElse s') = y at hbranch ⊢
    obtain ⟨hagree, hcarried, henv⟩ := hbranch
    have hterminator := terminator_types htypedThen
    have hrecorded : Recorded scope y.1.env results infos x.2 y.2 := by
      refine Carried.recorded (hterminator ▸ hcarried) hterminator hinfos (origin defs s) ?_ hkeepsYield
      intro v hv hptr info hfind
      obtain ⟨made, hmade, hfindMade⟩ := Option.bind_eq_some_iff.mp hfind
      have hmem := hscoped.mem made info hfindMade
      obtain ⟨info', p, hfind', hvalue, hdescribes, -⟩ := hagree.described made hmem
        (hscoped.isTensorPointer made info hfindMade)
      obtain rfl := Option.some.inj (hfindMade.symm.trans hfind')
      refine ⟨hscoped.known made info hfindMade, p.parent, ?_, hdescribes.parent⟩
      rw [origin, hmade, Option.map_some, Option.getD_some, ← henv made hmem, hvalue]
      rfl
    obtain ⟨hscoped', hagree', -⟩ := hagree.bind hrecorded hscoped hresults
    obtain ⟨hfinal, hyielded⟩ := ih hssaNext htypedNext hrewriteNext hscoped' hagree' hkeepsNext
    refine ⟨hfinal.restrict (subset_append_right _ _) fun v hv => ?_, hyielded⟩
    exact find_recordOffsets fun hmem => hresults.notMem v hmem hv
  | whileOp inits args before afterArgs after results next ihBefore ihAfter ih =>
    obtain ⟨hinits, hargs, hafterArgs, hresults, hssaBefore, hssaAfter, hssaNext⟩ := hssa
    obtain ⟨hinitTypes, hresultTypes, htypedBefore, htypedAfter, htypedNext⟩ := htyped
    simp only [rewriteBlock] at hrewrite
    split at hrewrite
    · cases hrewrite
    rename_i hnone
    obtain ⟨newBefore, hrewriteBefore, hrest⟩ := Option.bind_eq_some_iff.mp hrewrite
    obtain ⟨newAfter, hrewriteAfter, hrest'⟩ := Option.bind_eq_some_iff.mp hrest
    obtain ⟨newNext, hrewriteNext, heq⟩ := Option.bind_eq_some_iff.mp hrest'
    obtain rfl := Option.some.inj heq
    obtain ⟨hkeepsLoop, hkeepsNext⟩ := hkeeps
    obtain ⟨hinitsNot, hresultsNot⟩ : (∀ v ∈ inits, isTensorPointerType v.type = false) ∧
        ∀ v ∈ results, isTensorPointerType v.type = false := by simpa using hnone
    have hargsNot := notTensorPointer_of_types hinitTypes hinitsNot
    have hafterNot := notTensorPointer_of_types hresultTypes hresultsNot
    have hloop : Together records scope
        (repeatWhile isTrue (fun x => runSource el limit before (x.1.bind args x.2))
          (fun x => runSource el limit after (x.1.bind afterArgs x.2)) limit (s, inits.map s.env))
        (repeatWhile isTrue (fun y => runTarget el limit newBefore (y.1.bind (args.map .old) y.2))
          (fun y => runTarget el limit newAfter (y.1.bind (afterArgs.map .old) y.2)) limit
            (s', (inits.map .old).map s'.env)) := by
      apply repeatWhile_rel (r := Together records scope) ?_ ?_ ?_ ?_ limit hkeepsLoop
        ⟨h, h.map_env hinits hinitsNot⟩
      · rintro ⟨t, ds⟩ ⟨t', ds'⟩ hkeepsBefore ⟨hagree, hsame⟩
        obtain rfl : ds' = ds := hsame
        obtain ⟨hafter, hcarried⟩ := ihBefore hssaBefore htypedBefore hrewriteBefore
          (hscoped.mono (subset_append_right _ _)) (hagree.bind_same hscoped hargs hargsNot ds')
          hkeepsBefore
        refine ⟨hafter.restrict (subset_append_right _ _) fun v _ => rfl, hcarried.eq_of_same ?_⟩
        intro type htype
        rcases mem_cons.mp htype with rfl | htype
        · rfl
        · obtain ⟨v, hv, rfl⟩ := mem_map.mp htype
          exact hafterNot v hv
      · rintro x y ⟨-, heq⟩
        rw [heq]
      · rintro x y ⟨hagree, heq⟩
        exact ⟨hagree, congrArg List.tail heq⟩
      · rintro ⟨t, ds⟩ ⟨t', ds'⟩ hkeepsAfter ⟨hagree, hsame⟩
        obtain rfl : ds' = ds := hsame
        obtain ⟨hafter, hcarried⟩ := ihAfter hssaAfter htypedAfter hrewriteAfter
          (hscoped.mono (subset_append_right _ _))
          (hagree.bind_same hscoped hafterArgs hafterNot ds') hkeepsAfter
        refine ⟨hafter.restrict (subset_append_right _ _) fun v _ => rfl, hcarried.eq_of_same ?_⟩
        intro type htype
        obtain ⟨v, hv, rfl⟩ := mem_map.mp htype
        exact hargsNot v hv
    rw [runTarget_whileOp, runSource_whileOp]
    generalize repeatWhile isTrue (fun x => runSource el limit before (x.1.bind args x.2))
      (fun x => runSource el limit after (x.1.bind afterArgs x.2)) limit (s, inits.map s.env) = x
      at hloop hkeepsNext ⊢
    obtain ⟨hagree, hsame⟩ := hloop
    dsimp only
    rw [hsame]
    obtain ⟨hfinal, hyielded⟩ := ih hssaNext htypedNext hrewriteNext
      (hscoped.mono (subset_append_right _ _))
      (hagree.bind_same hscoped hresults hresultsNot x.2) hkeepsNext
    exact ⟨hfinal.restrict (subset_append_right _ _) fun v _ => rfl, hyielded⟩

/-- A function whose block pointers are its own, rewritten: whenever they stay in the tensors
they came from, the loads and stores touch the same addresses in the same order, and
leave the same memory. -/
theorem rewriteTensorPointer_refines {args : List Value} {body : Code Value (SourceOp E)}
    {results : List Ty} {newBody : Code Name (TargetOp E)}
    (hargs : ∀ v ∈ args, isTensorPointerType v.type = false) (hssa : SourceSsa body args)
    (htyped : SourceTyped body results) (hrewrite : runOnOperation body = some newBody)
    (hworld : s'.world = s.world) (henv : ∀ v ∈ args, s'.env (.old v) = s.env v)
    (hkeeps : KeepsTensors el limit (definitions body).reverse body s) :
    (runTarget el limit newBody s').1.world = (runSource el limit body s).1.world := by
  have hscoped : Scoped [] args := by constructor <;> exact fun v info hfind => by cases hfind
  have hagree : Agree [] args s s' := by
    refine ⟨hworld, fun v hv _ => henv v hv, ?_⟩
    intro v hv hptr
    rw [hargs v hv] at hptr
    cases hptr
  exact (rewriteBlock_agree hssa htyped hrewrite hscoped hagree hkeeps).1.world

end Sound

section Example

def float32 : Pointee := ⟨4, false⟩
def firstBase : Value := ⟨0, .ptr float32⟩
def secondBase : Value := ⟨1, .ptr float32⟩
def size : Value := ⟨2, .int 64⟩
def stride : Value := ⟨3, .int 64⟩
def zero : Value := ⟨4, .int 32⟩
def bound : Value := ⟨5, .int 32⟩
def one : Value := ⟨6, .int 32⟩
def firstPtr : Value := ⟨7, .tensorPtr [1] float32⟩
def secondPtr : Value := ⟨8, .tensorPtr [1] float32⟩
def counter : Value := ⟨9, .int 32⟩
def firstArg : Value := ⟨10, .tensorPtr [1] float32⟩
def secondArg : Value := ⟨11, .tensorPtr [1] float32⟩
def loaded : Value := ⟨12, .tensor [1]⟩
def firstResult : Value := ⟨13, .tensorPtr [1] float32⟩
def secondResult : Value := ⟨14, .tensorPtr [1] float32⟩

def functionArgs : List Value := [firstBase, secondBase, size, stride, zero, bound, one]

/-- A loop that carries block pointers into two tensors and loads through the first. -/
def loadInLoop (yields : List Value) : Code Value (SourceOp ℕ) :=
  .prim (.makeTensorPtr firstPtr firstBase [size] [stride] [zero]) <|
  .prim (.makeTensorPtr secondPtr secondBase [size] [stride] [zero]) <|
  .forOp counter zero bound one [firstPtr, secondPtr] [firstArg, secondArg]
    (.prim (.load loaded firstArg [0] none .none .normal false) (.yield yields))
    [firstResult, secondResult] (.yield [])

def exampleEnv (v : Value) : Val ℕ :=
  if v = firstBase then .ptr 4096
  else if v = secondBase then .ptr 8192
  else if v = size ∨ v = stride then .int 64 1
  else if v = bound then .int 32 2
  else if v = one then .int 32 1
  else .int 32 0

def exampleSource : SourceState ℕ := ⟨exampleEnv, ⟨fun _ => 0, []⟩⟩

def exampleTarget : TargetState ℕ where
  env
    | .old v => exampleEnv v
    | _ => default
  world := ⟨fun _ => 0, []⟩

def exampleElements : Elements ℕ := ⟨fun _ => 0, fun _ => 0, 0⟩

/-- Block pointers that are yielded in their own places. -/
theorem loadInLoop_refines : ∃ newBody, runOnOperation (loadInLoop [firstArg, secondArg]) = some newBody ∧
    (runTarget exampleElements 0 newBody exampleTarget).1.world =
      (runSource exampleElements 0 (loadInLoop [firstArg, secondArg]) exampleSource).1.world := by
  have hsome : (runOnOperation (loadInLoop [firstArg, secondArg])).isSome = true := by decide +kernel
  obtain ⟨newBody, hrewrite⟩ := Option.isSome_iff_exists.mp hsome
  refine ⟨newBody, hrewrite, ?_⟩
  have hargs : ∀ v ∈ functionArgs, isTensorPointerType v.type = false := by decide
  have hsub : ∀ {us vs : List Value}, (∀ v ∈ us, v ∈ vs) → us ⊆ vs := fun h v hv => h v hv
  have hssa : SourceSsa (loadInLoop [firstArg, secondArg]) functionArgs := by
    refine ⟨hsub (by decide), ⟨by decide, by decide⟩, hsub (by decide), ⟨by decide, by decide⟩,
      hsub (by decide), ⟨by decide, by decide⟩, ⟨by decide, by decide⟩, ?_, hsub (by decide)⟩
    exact ⟨hsub (by decide), ⟨by decide, by decide⟩, hsub (by decide)⟩
  have hmake : ∀ res base, isTensorPointerType res.type = true → base.type = .ptr res.type.pointee →
      (SourceOp.makeTensorPtr res base [size] [stride] [zero] : SourceOp ℕ).WellTyped :=
    fun res base hptr hbase => ⟨hptr, hbase, by decide, by decide⟩
  have htyped : SourceTyped (loadInLoop [firstArg, secondArg]) [] := by
    refine ⟨hmake _ _ rfl rfl, hmake _ _ rfl rfl, ⟨32, rfl⟩, by decide, rfl, rfl, ⟨⟨rfl, rfl, ?_⟩, rfl⟩, rfl⟩
    decide
  refine rewriteTensorPointer_refines hargs hssa htyped hrewrite rfl (fun v _ => rfl) ?_
  refine ⟨?_, trivial⟩
  intro k hk
  have hcases : k = 0 ∨ k = 1 := by
    have hlt : k < 2 := hk
    omega
  rcases hcases with rfl | rfl
  · exact ⟨trivial, fun _ => rfl, fun _ => rfl, trivial⟩
  · exact ⟨trivial, fun _ => rfl, fun _ => rfl, trivial⟩

/-- Block pointers that are exchanged are loaded from the tensors they did not come from. -/
theorem exchanged_not_refines : ∃ newBody, runOnOperation (loadInLoop [secondArg, firstArg]) = some newBody ∧
    (runTarget exampleElements 0 newBody exampleTarget).1.world.accesses ≠
      (runSource exampleElements 0 (loadInLoop [secondArg, firstArg]) exampleSource).1.world.accesses := by
  have hany : (runOnOperation (loadInLoop [secondArg, firstArg])).any (fun newBody => decide
      ((runTarget exampleElements 0 newBody exampleTarget).1.world.accesses ≠
        (runSource exampleElements 0 (loadInLoop [secondArg, firstArg]) exampleSource).1.world.accesses)) =
          true := by decide +kernel
  obtain ⟨newBody, hrewrite, hne⟩ := (Option.any_eq_true _ _).mp hany
  exact ⟨newBody, hrewrite, of_decide_eq_true hne⟩

end Example

end TritonCpu.TensorPointer
