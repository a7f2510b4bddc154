import TritonCpu.FullTileGuard

/-!
# Versioning refines the block

A versioned block does what the block did when the clones of the guard find their
values before the first masked access, and no other block uses what is now inside
of the two versions.
-/

set_option autoImplicit false

namespace TritonCpu.FullTile

open List

variable {E X : Type}

section Analysis

variable {maxTileBytes maxRegionTileBytes : ℤ} {ops : List (Op E X)} {info : VersionableBlock}

theorem analyzeBlock_eq_some (h : analyzeBlock maxTileBytes maxRegionTileBytes ops = some info) :
    info.maskedAccesses = maskedAccesses ops ∧
      info.condDefs = backwardSlice ops (maskNames (maskedAccesses ops)) ∧
      ∀ op ∈ condSlice info.condDefs ops, op.isMemoryEffectFree = true := by
  rw [analyzeBlock] at h
  dsimp only at h
  split_ifs at h with _ _ _ _ _ hpure
  obtain rfl := Option.some.inj h
  exact ⟨rfl, rfl, fun op hop => all_eq_true.mp hpure op hop⟩

theorem before_append_from (ops : List (Op E X)) : beforeFirst ops ++ fromFirst ops = ops :=
  takeWhile_append_dropWhile

theorem maskedAccesses_fromFirst (ops : List (Op E X)) :
    maskedAccesses (fromFirst ops) = maskedAccesses ops := by
  have hbefore : maskedAccesses (beforeFirst ops) = [] := by
    rw [maskedAccesses, filter_eq_nil_iff.mpr, filterMap_nil]
    intro op hop
    have hnot := all_eq_true.mp all_takeWhile op hop
    simpa using hnot
  have happend : maskedAccesses ops =
      maskedAccesses (beforeFirst ops) ++ maskedAccesses (fromFirst ops) := by
    rw [maskedAccesses, maskedAccesses, maskedAccesses, ← filterMap_append,
      ← filter_append, before_append_from]
  rw [happend, hbefore, nil_append]

theorem condSlice_append (condDefs : List Name) (ops ops' : List (Op E X)) :
    condSlice condDefs (ops ++ ops') = condSlice condDefs ops ++ condSlice condDefs ops' :=
  filter_append _ _

theorem mem_condSlice {condDefs : List Name} {op : Op E X} :
    op ∈ condSlice condDefs ops ↔ op ∈ ops ∧ op.inSlice condDefs = true :=
  mem_filter

theorem resultsOf_condSlice (condDefs : List Name) : ∀ v ∈ resultsOf (condSlice condDefs ops),
    v ∈ resultsOf ops := by
  intro v hv
  obtain ⟨op, hop, hr⟩ := mem_resultsOf.mp hv
  exact mem_resultsOf.mpr ⟨op, (mem_condSlice.mp hop).1, hr⟩

theorem conditions_iff (accesses : List Access) (env : Env E X) :
    ((conditions accesses).all fun c => dimValue env c.1 == c.2) = true ↔
      ∀ access ∈ accesses, FullIn env access := by
  rw [all_eq_true, conditions]
  simp only [mem_flatMap, mem_filter, bne_iff_ne, beq_iff_eq]
  constructor
  · intro h access haccess c hc
    by_cases hstatic : c.1.constant? = some (c.2 : ℤ)
    · obtain ⟨dim, size⟩ := c
      cases dim with
      | attr n => exact Option.some.inj hstatic
      | constant v n => exact Option.some.inj hstatic
      | value v => exact absurd hstatic (by simp [OpFoldResult.constant?])
    · exact h c ⟨access, haccess, hc, hstatic⟩
  · rintro h c ⟨access, haccess, hc, -⟩
    exact h access haccess c hc

end Analysis

section Available

variable {condDefs scope known scope' : List Name} {all ops : List (Op E X)}

theorem available_slice (hall : Scoped scope' all) (hmem : ∀ op ∈ ops, op ∈ all)
    (hssa : Scoped scope ops)
    (hdefs : ∀ v ∈ scope, v ∈ condDefs ∨ v ∈ resultsOf (condSlice condDefs all) → v ∈ known)
    (hoperands : ∀ op ∈ ops, op.inSlice condDefs = true → ∀ v ∈ op.operands, v ∈ condDefs)
    (hcaptured : ∀ op ∈ ops, op.inSlice condDefs = true → ∀ v ∈ op.captured,
      v ∈ known ∨ v ∈ resultsOf (condSlice condDefs all)) :
    Available known (condSlice condDefs ops) := by
  induction ops generalizing scope known with
  | nil => trivial
  | cons op ops ih =>
    have hmemRest : ∀ op' ∈ ops, op' ∈ all := fun op' hop => hmem op' (mem_cons_of_mem _ hop)
    have hoperandsRest := fun op' (hop : op' ∈ ops) => hoperands op' (mem_cons_of_mem _ hop)
    obtain ⟨huses, -, -, hrest⟩ := hssa
    by_cases hslice : op.inSlice condDefs = true
    · rw [condSlice_cons_pos hslice, Available]
      constructor
      · intro v hv
        have hscope := huses v hv
        rcases mem_append.mp hv with hoperand | hcap
        · exact hdefs v hscope (Or.inl (hoperands op mem_cons_self hslice v hoperand))
        · rcases hcaptured op mem_cons_self hslice v hcap with hknown | hresult
          · exact hknown
          · exact hdefs v hscope (Or.inr hresult)
      · apply ih hmemRest hrest _ hoperandsRest
        · intro op' hop hslice' v hv
          rcases hcaptured op' (mem_cons_of_mem _ hop) hslice' v hv with hknown | hresult
          · exact Or.inl (mem_append_left _ hknown)
          · exact Or.inr hresult
        · intro v hv hdef
          rcases mem_append.mp hv with hscope | hresult
          · exact mem_append_left _ (hdefs v hscope hdef)
          · exact mem_append_right _ hresult
    · rw [condSlice_cons_neg hslice]
      apply ih hmemRest hrest _ hoperandsRest
      · exact fun op' hop => hcaptured op' (mem_cons_of_mem _ hop)
      · intro v hv hdef
        rcases mem_append.mp hv with hscope | hresult
        · exact hdefs v hscope hdef
        · rcases hdef with hdef | hother
          · exact absurd (any_eq_true.mpr ⟨v, hresult, contains_iff_mem.mpr hdef⟩) hslice
          · -- an operation of the slice defines `v`, and only one operation does
            obtain ⟨op', hop, hr⟩ := mem_resultsOf.mp hother
            obtain ⟨hmem', hslice'⟩ := mem_condSlice.mp hop
            rw [hall.unique (hmem op mem_cons_self) hmem' hresult hr] at hslice
            exact absurd hslice' hslice

end Available

section Block

variable {scope args terminator usedLater : List Name} {ops : List (Op E X)}
  {info : VersionableBlock} {maxTileBytes maxRegionTileBytes : ℤ}

def visible (scope args : List Name) (ops : List (Op E X)) : List Name :=
  scope ++ args ++ resultsOf (beforeFirst ops)

/-- A value is defined once and before its uses, and the terminator and other blocks
use values that the block can see. -/
structure WellFormed (scope args : List Name) (ops : List (Op E X))
    (terminator usedLater : List Name) : Prop where
  ssa : Scoped (scope ++ args) ops
  terminator : ∀ v ∈ terminator, v ∈ scope ++ args ++ resultsOf ops
  usedLater : ∀ v ∈ usedLater, v ∈ scope ++ args ++ resultsOf ops

/-- What the regions of the slice use from above is visible before the first masked
access or computed by the slice, and other blocks use nothing that an operation from
there on defines. -/
structure Separable (condDefs scope args : List Name) (ops : List (Op E X))
    (usedLater : List Name) : Prop where
  captured : ∀ op ∈ condSlice condDefs ops, ∀ v ∈ op.captured,
    v ∈ visible scope args ops ∨ v ∈ resultsOf (condSlice condDefs ops)
  usedLater : ∀ v ∈ usedLater, v ∉ resultsOf (fromFirst ops)

variable (hwf : WellFormed scope args ops terminator usedLater)
  (hinfo : analyzeBlock maxTileBytes maxRegionTileBytes ops = some info)

include hwf

theorem scoped_fromFirst : Scoped (visible scope args ops) (fromFirst ops) := by
  have hssa := hwf.ssa
  rw [← before_append_from ops, scoped_append] at hssa
  exact hssa.2

theorem scoped_beforeFirst : Scoped (scope ++ args) (beforeFirst ops) := by
  have hssa := hwf.ssa
  rw [← before_append_from ops, scoped_append] at hssa
  exact hssa.1

include hinfo

theorem operands_condDefs {op : Op E X} (hop : op ∈ ops)
    (hslice : op.inSlice info.condDefs = true) : ∀ v ∈ op.operands, v ∈ info.condDefs := by
  obtain ⟨-, hdefs, -⟩ := analyzeBlock_eq_some hinfo
  rw [hdefs] at hslice ⊢
  exact operands_backwardSlice hwf.ssa hop hslice

omit hwf in
theorem mask_condDefs : ∀ v ∈ maskNames (maskedAccesses ops), v ∈ info.condDefs := by
  obtain ⟨-, hdefs, -⟩ := analyzeBlock_eq_some hinfo
  rw [hdefs]
  exact subset_backwardSlice

theorem available_fromFirst (hsep : Separable info.condDefs scope args ops usedLater) :
    Available (visible scope args ops) (condSlice info.condDefs (fromFirst ops)) := by
  have hmem : ∀ op ∈ fromFirst ops, op ∈ ops := fun op hop => by
    rw [← before_append_from ops]
    exact mem_append_right _ hop
  apply available_slice (scoped_fromFirst hwf) (fun _ hop => hop) (scoped_fromFirst hwf)
    (fun _ hv _ => hv) (fun op hop hslice => operands_condDefs hwf hinfo (hmem op hop) hslice)
  intro op hop hslice v hv
  rcases hsep.captured op (mem_condSlice.mpr ⟨hmem op hop, hslice⟩) v hv with hvisible | hresult
  · exact Or.inl hvisible
  · rw [← before_append_from ops, condSlice_append, resultsOf, flatMap_append,
      mem_append] at hresult
    rcases hresult with hbefore | hfrom
    · exact Or.inl (mem_append_right _ (resultsOf_condSlice _ v hbefore))
    · exact Or.inr hfrom

theorem ahead_fromFirst (hsep : Separable info.condDefs scope args ops usedLater)
    (env : Env E X) : Ahead (visible scope args ops) (visible scope args ops) info.condDefs env env
      (fromFirst ops) where
  ssa := scoped_fromFirst hwf
  known_scope := fun _ hv => hv
  agree := fun _ _ => rfl
  available := available_fromFirst hwf hinfo hsep
  pure := fun op hop => by
    obtain ⟨-, -, hpure⟩ := analyzeBlock_eq_some hinfo
    apply hpure op
    rw [← before_append_from ops, condSlice_append]
    exact mem_append_right _ hop
  slice_known := fun _ hv _ => hv
  mask := by
    rw [maskedAccesses_fromFirst]
    exact mask_condDefs hinfo

theorem available_guard (hsep : Separable info.condDefs scope args ops usedLater) :
    Available (visible scope args ops) (condSlice info.condDefs ops) := by
  rw [← before_append_from ops, condSlice_append, before_append_from, available_append]
  constructor
  · apply available_of_uses
    intro op hop v hv
    exact (scoped_beforeFirst hwf).uses (mem_condSlice.mp hop).1 hv
  · have havailable := available_fromFirst hwf hinfo hsep
    apply available_mono _ havailable
    intro v hv
    exact mem_append_left _ hv

omit hwf hinfo in
theorem maskNames_used : ∀ v ∈ maskNames (maskedAccesses ops), ∃ op ∈ fromFirst ops,
    v ∈ op.operands := by
  intro v hv
  rw [← maskedAccesses_fromFirst] at hv
  obtain ⟨access, haccess, hname⟩ := mem_flatMap.mp hv
  obtain ⟨op, hop, hsome⟩ := mem_filterMap.mp haccess
  refine ⟨op, (mem_filter.mp hop).1, ?_⟩
  cases op with
  | load result a other =>
    obtain rfl := Option.some.inj hsome
    exact mem_cons_of_mem _ (mem_append_left _ hname)
  | store a value =>
    obtain rfl := Option.some.inj hsome
    exact mem_cons_of_mem _ (mem_cons_of_mem _ hname)
  | pure results operands captured compute => exact absurd hsome (by simp [Op.access?])
  | effect results operands captured regions perform => exact absurd hsome (by simp [Op.access?])

theorem maskNames_known : ∀ v ∈ maskNames (maskedAccesses ops),
    v ∈ visible scope args ops ++ resultsOf (condSlice info.condDefs (fromFirst ops)) := by
  intro v hv
  have hdef := mask_condDefs hinfo v hv
  obtain ⟨op, hop, hoperand⟩ := maskNames_used v hv
  have hscope := (scoped_fromFirst hwf).uses hop (mem_append_left _ hoperand)
  rcases mem_append.mp hscope with hvisible | hresult
  · exact mem_append_left _ hvisible
  · obtain ⟨op', hop', hr⟩ := mem_resultsOf.mp hresult
    have hslice : op'.inSlice info.condDefs = true :=
      any_eq_true.mpr ⟨v, hr, contains_iff_mem.mpr hdef⟩
    exact mem_append_right _ (mem_resultsOf.mpr ⟨op', mem_condSlice.mpr ⟨hop', hslice⟩, hr⟩)

/-- The block divided into two versions, its inner blocks left as they are. -/
def divided (info : VersionableBlock) (args : List Name) (ops : List (Op E X))
    (terminator usedLater : List Name) : Block E X :=
  .versioned args (beforeFirst ops) (condSlice info.condDefs ops) (conditions info.maskedAccesses)
    ((fromFirst ops).map Op.cloneFull) (fromFirst ops) terminator usedLater

omit hwf hinfo in
theorem runOps_split (ops : List (Op E X)) (undef : E) (env : Env E X) (mem : Memory E) :
    runOps undef ops env mem =
    (runOps undef (beforeFirst ops) env mem).bind fun s =>
      runOps undef (fromFirst ops) s.1 s.2 := by
  rw [← runOps_append, before_append_from]

theorem guard_from {undef : E} {env env' : Env E X} {mem mem' : Memory E}
    (hbefore : runOps undef (beforeFirst ops) env mem = some (env', mem')) (gmem : Memory E) :
    runOps undef (condSlice info.condDefs ops) env' gmem =
      runOps undef (condSlice info.condDefs (fromFirst ops)) env' gmem := by
  obtain ⟨-, -, hpure⟩ := analyzeBlock_eq_some hinfo
  have hslice : condSlice info.condDefs ops = condSlice info.condDefs (beforeFirst ops) ++
      condSlice info.condDefs (fromFirst ops) := by
    rw [← condSlice_append, before_append_from]
  have hsettled : runOps undef (condSlice info.condDefs (beforeFirst ops)) env' gmem =
      some (env', gmem) := by
    apply runOps_settled
    intro op hop gmem
    apply settled (scoped_beforeFirst hwf) hbefore (mem_condSlice.mp hop).1
    apply hpure
    rw [hslice]
    exact mem_append_left _ hop
  rw [hslice, runOps_append, hsettled]
  rfl

omit hwf hinfo in
theorem runOps_pure {undef : E} {env env' : Env E X} {mem mem' : Memory E}
    (hpure : ∀ op ∈ ops, op.isMemoryEffectFree = true)
    (h : runOps undef ops env mem = some (env', mem')) : mem' = mem := by
  induction ops generalizing env mem with
  | nil =>
    obtain ⟨-, rfl⟩ := Prod.mk.inj (Option.some.inj h)
    rfl
  | cons op ops ih =>
    obtain ⟨s, hstep, hrest⟩ := runOps_cons_eq_some h
    rcases pure_step undef (hpure op mem_cons_self) (fun v _ => rfl : ∀ v ∈ op.uses, env v = env v)
      mem mem with ⟨hnone, -⟩ | ⟨values, -, hs, -⟩
    · rw [hnone] at hstep
      exact absurd hstep (by simp)
    · obtain rfl := Option.some.inj (hs.symm.trans hstep)
      exact ih (fun op' hop => hpure op' (mem_cons_of_mem _ hop)) hrest

variable (hsep : Separable info.condDefs scope args ops usedLater)

include hsep

omit hinfo in
theorem usedLater_visible : ∀ v ∈ usedLater, v ∈ visible scope args ops := by
  intro v hv
  have hscope := hwf.usedLater v hv
  rw [← before_append_from ops, resultsOf, flatMap_append, ← append_assoc,
    mem_append] at hscope
  exact hscope.resolve_right (hsep.usedLater v hv)

theorem denote_divided (undef : E) : (divided info args ops terminator usedLater).denote undef =
    (Block.plain scope args ops terminator usedLater).denote undef := by
  funext env values mem
  rw [divided, Block.denote, Block.denote, runOps_split ops]
  cases hbefore : runOps undef (beforeFirst ops) (bind env args values) mem with
  | none => rfl
  | some s =>
    have hahead := ahead_fromFirst hwf hinfo hsep s.1
    simp only [Option.bind_some]
    rw [guard_from hwf hinfo hbefore]
    have hlater : ∀ r, runOps undef (fromFirst ops) s.1 s.2 = some r →
        usedLater.map s.1 = usedLater.map r.1 := fun r hr => map_congr_left fun v hv =>
      (runOps_scope (scoped_fromFirst hwf) hr (usedLater_visible hwf hsep v hv)).symm
    have hsame : ((runOps undef (fromFirst ops) s.1 s.2).map fun r =>
        (terminator.map r.1, usedLater.map s.1, r.2)) =
        (runOps undef (fromFirst ops) s.1 s.2).map fun r =>
          (terminator.map r.1, usedLater.map r.1, r.2) := by
      cases hr : runOps undef (fromFirst ops) s.1 s.2 with
      | none => rfl
      | some r => rw [Option.map_some, Option.map_some, hlater r hr]
    cases hguard : runOps undef (condSlice info.condDefs (fromFirst ops)) s.1 s.2 with
    | none =>
      -- the block stops as well: it computes what the guard computes
      cases hrun : runOps undef (fromFirst ops) s.1 s.2 with
      | none => rfl
      | some r =>
        obtain ⟨genv', hsome, -⟩ := guard_of_run hahead s.2 hrun
        rw [hguard] at hsome
        exact absurd hsome (by simp)
    | some g =>
      have hmem : g.2 = s.2 := runOps_pure hahead.pure hguard
      simp only [Option.bind_some, hmem]
      split_ifs with hfull
      · rw [conditions_iff] at hfull
        obtain ⟨hmasked, -, -⟩ := analyzeBlock_eq_some hinfo
        rw [runOps_cloneFull hahead s.2 s.2 hguard, hsame]
        intro access haccess
        rw [maskedAccesses_fromFirst, ← hmasked] at haccess
        exact hfull access haccess
      · exact hsame

/-- Where the block gets to its end, the guard has said whether all of its masked
accesses were full. -/
theorem guard_iff {undef : E} {env env' : Env E X} {values : List (Value E X)}
    {mem mem' : Memory E} {s : Env E X × Memory E}
    (hbefore : runOps undef (beforeFirst ops) (bind env args values) mem = some s)
    (hfrom : runOps undef (fromFirst ops) s.1 s.2 = some (env', mem')) :
    ∃ genv, runOps undef (condSlice info.condDefs ops) s.1 s.2 = some (genv, s.2) ∧
      (((conditions info.maskedAccesses).all fun c => dimValue genv c.1 == c.2) = true ↔
        ∀ access ∈ maskedAccesses ops, FullIn env' access) := by
  have hahead := ahead_fromFirst hwf hinfo hsep s.1
  obtain ⟨genv, hguard, hagree⟩ := guard_of_run hahead s.2 hfrom
  refine ⟨genv, ?_, ?_⟩
  · rw [guard_from hwf hinfo hbefore, hguard]
  · obtain ⟨hmasked, -, -⟩ := analyzeBlock_eq_some hinfo
    rw [conditions_iff, hmasked]
    have hdims : ∀ access ∈ maskedAccesses ops, ∀ c ∈ access.maskDims.zip access.shape,
        dimValue genv c.1 = dimValue env' c.1 := by
      intro access haccess c hc
      apply dimValue_congr
      intro v hv
      apply hagree
      apply maskNames_known hwf hinfo
      exact mem_flatMap.mpr
        ⟨access, haccess, mem_filterMap.mpr ⟨c.1, (of_mem_zip hc).1, hv⟩⟩
    constructor
    · intro h access haccess c hc
      rw [← hdims access haccess c hc]
      exact h access haccess c hc
    · intro h access haccess c hc
      rw [hdims access haccess c hc]
      exact h access haccess c hc

end Block

end TritonCpu.FullTile
