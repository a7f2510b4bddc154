import TritonCpu.FullTileVersioning

/-!
# The guard and the run of the block

Before the first masked access the clones recompute what is already there. From
there on they run ahead of the block, on the values that the block computes later.
-/

set_option autoImplicit false

namespace TritonCpu.FullTile

open List

variable {E X : Type}

section Bind

variable {env env' : Env E X} {names : List Name} {values : List (Value E X)} {v : Name}

theorem bind_of_notMem (h : v ∉ names) : bind env names values v = env v := by
  induction names generalizing env values with
  | nil => cases values <;> rfl
  | cons name names ih =>
    rw [mem_cons, not_or] at h
    cases values with
    | nil => rfl
    | cons value values =>
      rw [bind, ih h.2, Function.update_of_ne h.1]

theorem bind_of_mem (hlen : values.length = names.length) (h : v ∈ names) :
    bind env names values v = bind env' names values v := by
  induction names generalizing env env' values with
  | nil => exact absurd h not_mem_nil
  | cons name names ih =>
    cases values with
    | nil => simp at hlen
    | cons value values =>
      rw [bind, bind]
      by_cases hmem : v ∈ names
      · exact ih (by simpa using hlen) hmem
      · have hname : v = name := (mem_cons.mp h).resolve_right hmem
        rw [bind_of_notMem hmem, bind_of_notMem hmem, hname, Function.update_self,
          Function.update_self]

end Bind

section Frame

variable {undef : E} {env env' : Env E X} {mem mem' : Memory E} {op : Op E X}
  {ops : List (Op E X)} {scope : List Name} {v : Name}

theorem bindResults_eq_some {results : List Name} {outcome : Option (List (Value E X) × Memory E)}
    (h : bindResults env results outcome = some (env', mem')) :
    ∃ values, outcome = some (values, mem') ∧ values.length = results.length ∧
      env' = bind env results values := by
  cases outcome with
  | none => simp [bindResults] at h
  | some r =>
    change (if r.1.length = results.length then some (bind env results r.1, r.2) else none) = _ at h
    split_ifs at h with hlen
    obtain ⟨rfl, rfl⟩ := Prod.mk.inj (Option.some.inj h)
    exact ⟨r.1, rfl, hlen, rfl⟩

theorem step_frame (h : op.step undef env mem = some (env', mem')) (hv : v ∉ op.results) :
    env' v = env v := by
  cases op with
  | load result access other =>
    obtain ⟨rfl, -⟩ := Prod.mk.inj (Option.some.inj h)
    exact bind_of_notMem hv
  | store access value =>
    obtain ⟨rfl, -⟩ := Prod.mk.inj (Option.some.inj h)
    rfl
  | pure results operands captured compute =>
    obtain ⟨values, -, -, rfl⟩ := bindResults_eq_some h
    exact bind_of_notMem hv
  | effect results operands captured regions perform =>
    obtain ⟨values, -, -, rfl⟩ := bindResults_eq_some h
    exact bind_of_notMem hv

theorem runOps_cons_eq_some (h : runOps undef (op :: ops) env mem = some (env', mem')) :
    ∃ s, op.step undef env mem = some s ∧ runOps undef ops s.1 s.2 = some (env', mem') :=
  Option.bind_eq_some_iff.mp h

theorem runOps_frame (h : runOps undef ops env mem = some (env', mem'))
    (hv : v ∉ resultsOf ops) : env' v = env v := by
  induction ops generalizing env mem with
  | nil =>
    obtain ⟨rfl, -⟩ := Prod.mk.inj (Option.some.inj h)
    rfl
  | cons op ops ih =>
    rw [resultsOf_cons, mem_append, not_or] at hv
    obtain ⟨s, hstep, hrest⟩ := runOps_cons_eq_some h
    rw [ih hrest hv.2, step_frame hstep hv.1]

theorem runOps_scope (hscoped : Scoped scope ops)
    (h : runOps undef ops env mem = some (env', mem')) (hv : v ∈ scope) : env' v = env v :=
  runOps_frame h fun hresult => hscoped.fresh hresult hv

end Frame

section Pure

variable (undef : E) {env genv : Env E X} {op : Op E X} (hpure : op.isMemoryEffectFree = true)

include hpure

theorem pure_step (hagree : ∀ v ∈ op.uses, genv v = env v) (mem gmem : Memory E) :
    (op.step undef env mem = none ∧ op.step undef genv gmem = none) ∨
      ∃ values, values.length = op.results.length ∧
        op.step undef env mem = some (bind env op.results values, mem) ∧
        op.step undef genv gmem = some (bind genv op.results values, gmem) := by
  cases op with
  | load result access other => exact absurd hpure Bool.false_ne_true
  | store access value => exact absurd hpure Bool.false_ne_true
  | effect results operands captured regions perform => exact absurd hpure Bool.false_ne_true
  | pure results operands captured compute =>
    have hoperands : operands.map genv = operands.map env :=
      map_congr_left fun v hv => hagree v (mem_append_left _ hv)
    have hcaptured : captured.map genv = captured.map env :=
      map_congr_left fun v hv => hagree v (mem_append_right _ hv)
    rw [Op.step, Op.step, hoperands, hcaptured]
    cases compute (operands.map env) (captured.map env) with
    | none => exact Or.inl ⟨rfl, rfl⟩
    | some values =>
      by_cases hlen : values.length = results.length
      · refine Or.inr ⟨values, hlen, ?_, ?_⟩
        · exact if_pos hlen
        · exact if_pos hlen
      · exact Or.inl ⟨if_neg hlen, if_neg hlen⟩

end Pure

section Settled

variable {undef : E} {env env' : Env E X} {mem mem' : Memory E} {ops : List (Op E X)}
  {scope : List Name}

theorem settled (hscoped : Scoped scope ops)
    (h : runOps undef ops env mem = some (env', mem')) {op : Op E X} (hop : op ∈ ops)
    (hpure : op.isMemoryEffectFree = true) (gmem : Memory E) :
    op.step undef env' gmem = some (env', gmem) := by
  induction ops generalizing env mem scope with
  | nil => exact absurd hop not_mem_nil
  | cons head ops ih =>
    obtain ⟨s, hstep, hrest⟩ := runOps_cons_eq_some h
    obtain ⟨huses, hnew, -, hscopedRest⟩ := hscoped
    rcases mem_cons.mp hop with rfl | hmem
    · have hkept : ∀ v ∈ scope ++ op.results, env' v = s.1 v := fun v hv =>
        runOps_scope hscopedRest hrest hv
      have hagree : ∀ v ∈ op.uses, env' v = env v := by
        intro v hv
        have hscope := huses v hv
        rw [hkept v (mem_append_left _ hscope),
          step_frame hstep fun hresult => hnew v hresult hscope]
      rcases pure_step undef hpure hagree mem gmem with ⟨hnone, -⟩ | ⟨values, hlen, hs, hg⟩
      · rw [hnone] at hstep
        exact absurd hstep (by simp)
      · obtain rfl := Option.some.inj (hs.symm.trans hstep)
        rw [hg]
        congr 2
        funext v
        by_cases hv : v ∈ op.results
        · rw [hkept v (mem_append_right _ hv)]
          exact bind_of_mem hlen hv
        · exact bind_of_notMem hv
    · exact ih hscopedRest hrest hmem

theorem runOps_settled (h : ∀ op ∈ ops, ∀ gmem, op.step undef env gmem = some (env, gmem))
    (gmem : Memory E) : runOps undef ops env gmem = some (env, gmem) := by
  induction ops with
  | nil => rfl
  | cons op ops ih =>
    rw [runOps, h op mem_cons_self gmem]
    exact ih fun op' hop => h op' (mem_cons_of_mem _ hop)

end Settled

section Ahead

variable {undef : E} {condDefs : List Name} {known : List Name}

/-- The values that the guard has computed so far are those of the block. -/
structure Ahead (scope known condDefs : List Name) (env genv : Env E X)
    (ops : List (Op E X)) : Prop where
  ssa : Scoped scope ops
  known_scope : ∀ v ∈ known, v ∈ scope
  agree : ∀ v ∈ known, genv v = env v
  available : Available known (condSlice condDefs ops)
  pure : ∀ op ∈ condSlice condDefs ops, op.isMemoryEffectFree = true
  slice_known : ∀ v ∈ scope, v ∈ condDefs → v ∈ known
  mask : ∀ v ∈ maskNames (maskedAccesses ops), v ∈ condDefs

variable {scope : List Name} {env genv : Env E X} {op : Op E X} {ops : List (Op E X)}

theorem condSlice_cons_pos (h : op.inSlice condDefs = true) :
    condSlice condDefs (op :: ops) = op :: condSlice condDefs ops :=
  filter_cons_of_pos h

theorem condSlice_cons_neg (h : ¬ op.inSlice condDefs = true) :
    condSlice condDefs (op :: ops) = condSlice condDefs ops :=
  filter_cons_of_neg h

theorem maskNames_cons : ∀ v ∈ maskNames (maskedAccesses ops),
    v ∈ maskNames (maskedAccesses (op :: ops)) := by
  intro v hv
  rw [maskedAccesses, filter_cons]
  split_ifs
  · rw [filterMap_cons]
    cases op.access? with
    | none => exact hv
    | some access =>
      rw [maskNames, flatMap_cons]
      exact mem_append_right _ hv
  · exact hv

theorem notMem_results_of_known (h : Ahead scope known condDefs env genv (op :: ops)) {v : Name}
    (hv : v ∈ known) : v ∉ op.results := fun hresult =>
  h.ssa.2.1 v hresult (h.known_scope v hv)

theorem Ahead.skip (h : Ahead scope known condDefs env genv (op :: ops))
    (hslice : ¬ op.inSlice condDefs = true) {env' : Env E X}
    (hframe : ∀ v, v ∉ op.results → env' v = env v) :
    Ahead (scope ++ op.results) known condDefs env' genv ops where
  ssa := h.ssa.2.2.2
  known_scope := fun v hv => mem_append_left _ (h.known_scope v hv)
  agree := fun v hv => by
    rw [h.agree v hv, hframe v (notMem_results_of_known h hv)]
  available := by
    have havailable := h.available
    rwa [condSlice_cons_neg hslice] at havailable
  pure := fun op' hop => h.pure op' (by rwa [condSlice_cons_neg hslice])
  slice_known := fun v hv hdef => by
    rcases mem_append.mp hv with hscope | hresult
    · exact h.slice_known v hscope hdef
    · exact absurd (any_eq_true.mpr ⟨v, hresult, contains_iff_mem.mpr hdef⟩) hslice
  mask := fun v hv => h.mask v (maskNames_cons v hv)

theorem Ahead.both (h : Ahead scope known condDefs env genv (op :: ops))
    (hslice : op.inSlice condDefs = true) {values : List (Value E X)}
    (hlen : values.length = op.results.length) :
    Ahead (scope ++ op.results) (known ++ op.results) condDefs (bind env op.results values)
      (bind genv op.results values) ops where
  ssa := h.ssa.2.2.2
  known_scope := fun v hv => by
    rcases mem_append.mp hv with hknown | hresult
    · exact mem_append_left _ (h.known_scope v hknown)
    · exact mem_append_right _ hresult
  agree := fun v hv => by
    by_cases hresult : v ∈ op.results
    · exact bind_of_mem hlen hresult
    · rw [bind_of_notMem hresult, bind_of_notMem hresult]
      exact h.agree v ((mem_append.mp hv).resolve_right hresult)
  available := by
    have havailable := h.available
    rw [condSlice_cons_pos hslice] at havailable
    exact havailable.2
  pure := fun op' hop => h.pure op' (by
    rw [condSlice_cons_pos hslice]
    exact mem_cons_of_mem _ hop)
  slice_known := fun v hv hdef => by
    rcases mem_append.mp hv with hscope | hresult
    · exact mem_append_left _ (h.slice_known v hscope hdef)
    · exact mem_append_right _ hresult
  mask := fun v hv => h.mask v (maskNames_cons v hv)

theorem Ahead.pure_step (h : Ahead scope known condDefs env genv (op :: ops))
    (hslice : op.inSlice condDefs = true) (undef : E) (mem gmem : Memory E) :
    (op.step undef env mem = none ∧ op.step undef genv gmem = none) ∨
      ∃ values, values.length = op.results.length ∧
        op.step undef env mem = some (bind env op.results values, mem) ∧
        op.step undef genv gmem = some (bind genv op.results values, gmem) := by
  have hmem : op ∈ condSlice condDefs (op :: ops) := by
    rw [condSlice_cons_pos hslice]
    exact mem_cons_self
  have havailable := h.available
  rw [condSlice_cons_pos hslice] at havailable
  exact FullTile.pure_step undef (h.pure op hmem) (fun v hv => h.agree v (havailable.1 v hv))
    mem gmem

theorem Ahead.guard_frame (h : Ahead scope known condDefs env genv ops) {mem mem' : Memory E}
    {genv' : Env E X} (hguard : runOps undef (condSlice condDefs ops) genv mem = some (genv', mem'))
    {v : Name} (hv : v ∈ known) : genv' v = genv v := by
  apply runOps_frame hguard
  intro hresult
  obtain ⟨op', hop, hr⟩ := mem_resultsOf.mp hresult
  exact h.ssa.fresh (mem_resultsOf.mpr ⟨op', (mem_filter.mp hop).1, hr⟩)
    (h.known_scope v hv)

/-- An access that is not full in the environment `env` keeps its mask. -/
def FullIn (env : Env E X) (access : Access) : Prop :=
  ∀ c ∈ access.maskDims.zip access.shape, dimValue env c.1 = c.2

theorem Ahead.mask_known (h : Ahead scope known condDefs env genv (op :: ops)) {access : Access}
    (haccess : op.access? = some access) (hversionable : op.isVersionableAccess = true) :
    ∀ dim ∈ access.maskDims, ∀ v, dim.value? = some v → v ∈ known := by
  intro dim hdim v hv
  have hname : v ∈ access.maskDims.filterMap OpFoldResult.value? :=
    mem_filterMap.mpr ⟨dim, hdim, hv⟩
  apply h.slice_known v
  · apply h.ssa.1
    apply mem_append_left
    cases op with
    | load result a other =>
      obtain rfl := Option.some.inj haccess
      exact mem_cons_of_mem _ (mem_append_left _ hname)
    | store a value =>
      obtain rfl := Option.some.inj haccess
      exact mem_cons_of_mem _ (mem_cons_of_mem _ hname)
    | pure results operands captured compute => exact absurd haccess (by simp [Op.access?])
    | effect results operands captured regions perform =>
      exact absurd haccess (by simp [Op.access?])
  · apply h.mask
    rw [maskedAccesses, filter_cons_of_pos hversionable, filterMap_cons, haccess, maskNames,
      flatMap_cons]
    exact mem_append_left _ hname

theorem dimValue_congr {env env' : Env E X} {dim : OpFoldResult}
    (h : ∀ v, dim.value? = some v → env v = env' v) : dimValue env dim = dimValue env' dim := by
  cases dim with
  | attr n => rfl
  | constant v n => rfl
  | value v => rw [dimValue, dimValue, h v rfl]

theorem versionable_length {access : Access} (haccess : op.access? = some access)
    (hversionable : op.isVersionableAccess = true) :
    access.shape.length = access.maskDims.length := by
  rw [Op.isVersionableAccess, haccess] at hversionable
  simp only [Bool.and_eq_true, beq_iff_eq] at hversionable
  exact hversionable.2

theorem mask_eq_shape {access : Access} (hfull : FullIn env access)
    (hlen : access.shape.length = access.maskDims.length) :
    access.maskDims.map (dimValue env) = access.shape.map Nat.cast := by
  apply ext_getElem (by simp [hlen])
  intro i hi hi'
  rw [getElem_map, getElem_map]
  have hdim : i < access.maskDims.length := by simpa using hi
  have hshape : i < access.shape.length := by simpa using hi'
  apply hfull (access.maskDims[i], access.shape[i])
  rw [mem_iff_getElem]
  exact ⟨i, by rw [length_zip]; omega, by rw [getElem_zip]⟩

theorem step_cloneUnmasked (undef : E) {access : Access} (haccess : op.access? = some access)
    (hfull : FullIn env access) (hlen : access.shape.length = access.maskDims.length)
    (mem : Memory E) : op.cloneUnmasked.step undef env mem = op.step undef env mem := by
  have hmask := mask_eq_shape hfull hlen
  cases op with
  | load result a other =>
    obtain rfl := Option.some.inj haccess
    rw [Op.cloneUnmasked, Op.step, Op.step, hmask]
    simp only [map_nil]
    rw [← loadTile_full]
  | store a value =>
    obtain rfl := Option.some.inj haccess
    rw [Op.cloneUnmasked, Op.step, Op.step, hmask]
    simp only [map_nil]
    rw [← storeTile_full]
  | pure results operands captured compute => exact absurd haccess (by simp [Op.access?])
  | effect results operands captured regions perform =>
    exact absurd haccess (by simp [Op.access?])

theorem not_inSlice_of_versionable (h : Ahead scope known condDefs env genv (op :: ops))
    (hversionable : op.isVersionableAccess = true) : ¬ op.inSlice condDefs = true := by
  intro hslice
  have hpure := h.pure op (by rw [condSlice_cons_pos hslice]; exact mem_cons_self)
  cases op with
  | pure results operands captured compute => exact absurd hversionable Bool.false_ne_true
  | load result a other => exact absurd hpure Bool.false_ne_true
  | store a value => exact absurd hpure Bool.false_ne_true
  | effect results operands captured regions perform => exact absurd hpure Bool.false_ne_true

theorem exists_access (h : op.isVersionableAccess = true) : ∃ access, op.access? = some access := by
  rw [Op.isVersionableAccess] at h
  cases haccess : op.access? with
  | none => rw [haccess] at h; exact absurd h Bool.false_ne_true
  | some access => exact ⟨access, rfl⟩

theorem runOps_cloneFull {undef : E} (h : Ahead scope known condDefs env genv ops)
    (mem gmem : Memory E) {genv' : Env E X} {gmem' : Memory E}
    (hguard : runOps undef (condSlice condDefs ops) genv gmem = some (genv', gmem'))
    (hfull : ∀ access ∈ maskedAccesses ops, FullIn genv' access) :
    runOps undef (ops.map Op.cloneFull) env mem = runOps undef ops env mem := by
  induction ops generalizing scope known env genv mem gmem with
  | nil => rfl
  | cons op ops ih =>
    have hfullRest : ∀ access ∈ maskedAccesses ops, FullIn genv' access := by
      intro access haccess
      apply hfull
      obtain ⟨op', hop, hsome⟩ := mem_filterMap.mp haccess
      obtain ⟨hmem, hversionable⟩ := mem_filter.mp hop
      exact mem_filterMap.mpr
        ⟨op', mem_filter.mpr ⟨mem_cons_of_mem _ hmem, hversionable⟩, hsome⟩
    rw [map_cons, runOps, runOps]
    by_cases hslice : op.inSlice condDefs = true
    · -- an operation of the slice has no mask, and the guard has done it
      have hnot : ¬ op.isVersionableAccess = true := fun hversionable =>
        not_inSlice_of_versionable h hversionable hslice
      rw [Op.cloneFull, if_neg hnot]
      rw [condSlice_cons_pos hslice] at hguard
      obtain ⟨s, hstep, hrest⟩ := runOps_cons_eq_some hguard
      rcases h.pure_step hslice undef mem gmem with ⟨-, hnone⟩ | ⟨values, hlen, henv, hgenv⟩
      · rw [hnone] at hstep
        exact absurd hstep (by simp)
      · obtain rfl := Option.some.inj (hgenv.symm.trans hstep)
        rw [henv]
        exact ih (h.both hslice hlen) mem gmem hrest hfullRest
    · rw [condSlice_cons_neg hslice] at hguard
      have hclone : op.cloneFull.step undef env mem = op.step undef env mem := by
        rw [Op.cloneFull]
        split_ifs with hversionable
        · obtain ⟨access, haccess⟩ := exists_access hversionable
          apply step_cloneUnmasked undef haccess _ (versionable_length haccess hversionable)
          have haccessFull := hfull access (mem_filterMap.mpr
            ⟨op, mem_filter.mpr ⟨mem_cons_self, hversionable⟩, haccess⟩)
          intro c hc
          rw [← haccessFull c hc]
          apply dimValue_congr
          intro v hv
          have hknown := h.mask_known haccess hversionable c.1 (of_mem_zip hc).1 v hv
          rw [← h.agree v hknown]
          have hskip : Ahead (scope ++ op.results) known condDefs env genv ops :=
            h.skip hslice fun _ _ => rfl
          exact (hskip.guard_frame hguard hknown).symm
        · rfl
      rw [hclone]
      cases hstep : op.step undef env mem with
      | none => rfl
      | some s =>
        exact ih (h.skip hslice fun v hv => step_frame hstep hv) s.2 gmem hguard hfullRest

theorem guard_of_run {undef : E} (h : Ahead scope known condDefs env genv ops)
    {mem mem' : Memory E} (gmem : Memory E) {env' : Env E X}
    (hrun : runOps undef ops env mem = some (env', mem')) :
    ∃ genv', runOps undef (condSlice condDefs ops) genv gmem = some (genv', gmem) ∧
      ∀ v ∈ known ++ resultsOf (condSlice condDefs ops), genv' v = env' v := by
  induction ops generalizing scope known env genv mem with
  | nil =>
    obtain ⟨rfl, -⟩ := Prod.mk.inj (Option.some.inj hrun)
    refine ⟨genv, rfl, fun v hv => h.agree v ?_⟩
    simpa [condSlice, resultsOf] using hv
  | cons op ops ih =>
    obtain ⟨s, hstep, hrest⟩ := runOps_cons_eq_some hrun
    by_cases hslice : op.inSlice condDefs = true
    · rw [condSlice_cons_pos hslice]
      rcases h.pure_step hslice undef mem gmem with ⟨hnone, -⟩ | ⟨values, hlen, henv, hgenv⟩
      · rw [hnone] at hstep
        exact absurd hstep (by simp)
      · obtain rfl := Option.some.inj (henv.symm.trans hstep)
        obtain ⟨genv', hguard, hagree⟩ := ih (h.both hslice hlen) hrest
        refine ⟨genv', ?_, fun v hv => hagree v ?_⟩
        · rw [runOps, hgenv]
          exact hguard
        · rwa [resultsOf_cons, ← append_assoc] at hv
    · rw [condSlice_cons_neg hslice]
      exact ih (h.skip hslice fun v hv => step_frame hstep hv) hrest

end Ahead

end TritonCpu.FullTile
