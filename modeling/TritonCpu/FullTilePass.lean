import TritonCpu.FullTileRefinement

/-!
# The pass over nested blocks

An operation whose inner blocks do what they did does what it did, so every block
can be looked at as if the blocks inside of it had been left alone.
-/

set_option autoImplicit false

namespace TritonCpu.FullTile

open List

variable {E X : Type}

section Blocks

mutual

def Op.blocks : Op E X → List (Block E X)
  | .load _ _ _ => []
  | .store _ _ => []
  | .pure _ _ _ _ => []
  | .effect _ _ _ regions _ => blocksOf regions

def opsBlocks : List (Op E X) → List (Block E X)
  | [] => []
  | op :: ops => op.blocks ++ opsBlocks ops

def Block.blocks : Block E X → List (Block E X)
  | .plain scope args ops terminator usedLater =>
    .plain scope args ops terminator usedLater :: opsBlocks ops
  | .versioned _ _ _ _ _ _ _ _ => []

def blocksOf : List (Block E X) → List (Block E X)
  | [] => []
  | block :: blocks => block.blocks ++ blocksOf blocks

end

mutual

theorem Op.blocks_trans : ∀ (op : Op E X), ∀ c ∈ op.blocks, ∀ d ∈ c.blocks, d ∈ op.blocks
  | .load _ _ _ => fun _ hc => absurd hc not_mem_nil
  | .store _ _ => fun _ hc => absurd hc not_mem_nil
  | .pure _ _ _ _ => fun _ hc => absurd hc not_mem_nil
  | .effect _ _ _ regions _ => blocksOf_trans regions

theorem opsBlocks_trans : ∀ (ops : List (Op E X)), ∀ c ∈ opsBlocks ops, ∀ d ∈ c.blocks,
    d ∈ opsBlocks ops
  | [] => fun _ hc => absurd hc not_mem_nil
  | op :: ops => fun c hc d hd => by
    rw [opsBlocks, mem_append] at hc ⊢
    rcases hc with hc | hc
    · exact Or.inl (Op.blocks_trans op c hc d hd)
    · exact Or.inr (opsBlocks_trans ops c hc d hd)

theorem Block.blocks_trans : ∀ (b : Block E X), ∀ c ∈ b.blocks, ∀ d ∈ c.blocks, d ∈ b.blocks
  | .plain scope args ops terminator usedLater => fun c hc d hd => by
    rw [Block.blocks, mem_cons] at hc
    rcases hc with rfl | hc
    · exact hd
    · exact mem_cons_of_mem _ (opsBlocks_trans ops c hc d hd)
  | .versioned _ _ _ _ _ _ _ _ => fun _ hc => absurd hc not_mem_nil

theorem blocksOf_trans : ∀ (blocks : List (Block E X)), ∀ c ∈ blocksOf blocks, ∀ d ∈ c.blocks,
    d ∈ blocksOf blocks
  | [] => fun _ hc => absurd hc not_mem_nil
  | block :: blocks => fun c hc d hd => by
    rw [blocksOf, mem_append] at hc ⊢
    rcases hc with hc | hc
    · exact Or.inl (Block.blocks_trans block c hc d hd)
    · exact Or.inr (blocksOf_trans blocks c hc d hd)

end

end Blocks

section Map

variable (maxTileBytes maxRegionTileBytes : ℤ)

theorem versionOps_eq_map (ops : List (Op E X)) : versionOps maxTileBytes maxRegionTileBytes ops =
    ops.map (Op.version maxTileBytes maxRegionTileBytes) := by
  induction ops with
  | nil => rfl
  | cons op ops ih => rw [versionOps, ih, map_cons]

@[simp] theorem results_version (op : Op E X) :
    (op.version maxTileBytes maxRegionTileBytes).results = op.results := by
  cases op <;> rfl

@[simp] theorem access_version (op : Op E X) :
    (op.version maxTileBytes maxRegionTileBytes).access? = op.access? := by
  cases op <;> rfl

theorem version_of_pure {op : Op E X} (h : op.isMemoryEffectFree = true) :
    op.version maxTileBytes maxRegionTileBytes = op := by
  cases op with
  | effect results operands captured regions perform => exact absurd h Bool.false_ne_true
  | _ => rfl

theorem version_of_versionable {op : Op E X} (h : op.isVersionableAccess = true) :
    op.version maxTileBytes maxRegionTileBytes = op := by
  cases op with
  | effect results operands captured regions perform => exact absurd h Bool.false_ne_true
  | _ => rfl

theorem isVersionableAccess_version (op : Op E X) :
    (op.version maxTileBytes maxRegionTileBytes).isVersionableAccess = op.isVersionableAccess := by
  rw [Op.isVersionableAccess, Op.isVersionableAccess, access_version]

theorem not_versionable_version : (fun op : Op E X => !op.isVersionableAccess) ∘
    Op.version maxTileBytes maxRegionTileBytes = fun op => !op.isVersionableAccess := by
  funext op
  rw [Function.comp_apply, isVersionableAccess_version]

theorem beforeFirst_map (ops : List (Op E X)) :
    beforeFirst (ops.map (Op.version maxTileBytes maxRegionTileBytes)) =
      (beforeFirst ops).map (Op.version maxTileBytes maxRegionTileBytes) := by
  rw [beforeFirst, takeWhile_map, not_versionable_version]
  rfl

theorem fromFirst_map (ops : List (Op E X)) :
    fromFirst (ops.map (Op.version maxTileBytes maxRegionTileBytes)) =
      (fromFirst ops).map (Op.version maxTileBytes maxRegionTileBytes) := by
  rw [fromFirst, dropWhile_map, not_versionable_version]
  rfl

theorem resultsOf_map (ops : List (Op E X)) :
    resultsOf (ops.map (Op.version maxTileBytes maxRegionTileBytes)) = resultsOf ops := by
  rw [resultsOf, flatMap_map]
  simp only [results_version]
  rfl

theorem condSlice_map {condDefs : List Name} {ops : List (Op E X)}
    (hpure : ∀ op ∈ condSlice condDefs ops, op.isMemoryEffectFree = true) :
    condSlice condDefs (ops.map (Op.version maxTileBytes maxRegionTileBytes)) =
      condSlice condDefs ops := by
  have hslice : Op.inSlice condDefs ∘ Op.version maxTileBytes maxRegionTileBytes =
      (Op.inSlice condDefs : Op E X → Bool) := by
    funext op
    rw [Function.comp_apply, Op.inSlice, results_version]
    rfl
  rw [condSlice, filter_map, hslice]
  conv_rhs => rw [condSlice, ← map_id (ops.filter _)]
  apply map_congr_left
  intro op hop
  exact version_of_pure maxTileBytes maxRegionTileBytes (hpure op hop)

variable {maxTileBytes maxRegionTileBytes} {undef : E} {ops : List (Op E X)}
  (hstep : ∀ op ∈ ops, (op.version maxTileBytes maxRegionTileBytes).step undef = op.step undef)

theorem runOps_map_congr {f g : Op E X → Op E X}
    (h : ∀ op ∈ ops, (f op).step undef = (g op).step undef) :
    runOps undef (ops.map f) = runOps undef (ops.map g) := by
  induction ops with
  | nil => rfl
  | cons op ops ih =>
    funext env mem
    rw [map_cons, map_cons, runOps, runOps, h op mem_cons_self,
      ih fun op' hop => h op' (mem_cons_of_mem _ hop)]

theorem runOps_congr {f : Op E X → Op E X} (h : ∀ op ∈ ops, (f op).step undef = op.step undef) :
    runOps undef (ops.map f) = runOps undef ops := by
  rw [runOps_map_congr (g := id) h, map_id]

theorem mem_of_mem_beforeFirst {op : Op E X} (h : op ∈ beforeFirst ops) : op ∈ ops :=
  (takeWhile_sublist _).mem h

theorem mem_of_mem_fromFirst {op : Op E X} (h : op ∈ fromFirst ops) : op ∈ ops :=
  (dropWhile_sublist _).mem h

include hstep

theorem denote_divided_map {info : VersionableBlock} {args terminator usedLater : List Name}
    (hpure : ∀ op ∈ condSlice info.condDefs ops, op.isMemoryEffectFree = true) :
    (divided info args (ops.map (Op.version maxTileBytes maxRegionTileBytes)) terminator
      usedLater).denote undef = (divided info args ops terminator usedLater).denote undef := by
  have hbefore := runOps_congr fun op hop => hstep op (mem_of_mem_beforeFirst hop)
  have hfrom := runOps_congr fun op hop => hstep op (mem_of_mem_fromFirst hop)
  have hfull : runOps undef (((fromFirst ops).map (Op.version maxTileBytes
      maxRegionTileBytes)).map Op.cloneFull) = runOps undef ((fromFirst ops).map Op.cloneFull) := by
    rw [map_map]
    apply runOps_map_congr
    intro op hop
    rw [Function.comp_apply]
    by_cases hversionable : op.isVersionableAccess = true
    · rw [version_of_versionable _ _ hversionable]
    · rw [Op.cloneFull, isVersionableAccess_version, if_neg hversionable, Op.cloneFull,
        if_neg hversionable]
      exact hstep op (mem_of_mem_fromFirst hop)
  funext env values mem
  rw [divided, divided, Block.denote, Block.denote, beforeFirst_map, fromFirst_map,
    condSlice_map maxTileBytes maxRegionTileBytes hpure, hbefore, hfrom, hfull]

end Map

section Pass

variable (maxTileBytes maxRegionTileBytes : ℤ)

/-- What versioning promises for a block and its two versions: the clones find their
values, they ask whether every masked access is full, and memory and values are the
same. -/
structure Refines (scope args : List Name) (ops : List (Op E X)) (terminator usedLater : List Name)
    (before guard : List (Op E X)) (conditions : List (OpFoldResult × ℕ))
    (full rest : List (Op E X)) : Prop where
  guard_available : Available (scope ++ args ++ resultsOf before) guard
  conditions_available : ∀ c ∈ conditions, ∀ v, c.1.value? = some v →
    v ∈ scope ++ args ++ resultsOf before ++ resultsOf guard
  later_available : ∀ v ∈ usedLater, v ∈ scope ++ args ++ resultsOf before
  same : ∀ undef : E,
    (Block.versioned args before guard conditions full rest terminator usedLater).denote undef =
      (Block.plain scope args ops terminator usedLater).denote undef
  guard_original : ∀ (undef : E) (env : Env E X) (values : List (Value E X)) (mem : Memory E)
    (s : Env E X × Memory E) (env' : Env E X) (mem' : Memory E),
    runOps undef (beforeFirst ops) (bind env args values) mem = some s →
    runOps undef (fromFirst ops) s.1 s.2 = some (env', mem') →
    ∃ genv, runOps undef guard s.1 s.2 = some (genv, s.2) ∧
      ((conditions.all fun c => dimValue genv c.1 == c.2) = true ↔
        ∀ access ∈ maskedAccesses ops, FullIn env' access)

def Block.RefinedBy : Block E X → Block E X → Prop
  | .plain scope args ops terminator usedLater, .versioned _ before guard conditions full rest _ _ =>
    Refines scope args ops terminator usedLater before guard conditions full rest
  | block, block' => ∀ undef : E, block'.denote undef = block.denote undef

def Block.Refined (block : Block E X) : Prop :=
  block.RefinedBy (block.version maxTileBytes maxRegionTileBytes)

def Block.Valid : Block E X → Prop
  | .plain scope args ops terminator usedLater => WellFormed scope args ops terminator usedLater
  | .versioned _ _ _ _ _ _ _ _ => True

def Block.Divisible : Block E X → Prop
  | .plain scope args ops _ usedLater =>
    ∀ info, analyzeBlock maxTileBytes maxRegionTileBytes ops = some info →
      conditions info.maskedAccesses ≠ [] → Separable info.condDefs scope args ops usedLater
  | .versioned _ _ _ _ _ _ _ _ => True

variable {maxTileBytes maxRegionTileBytes} {scope args terminator usedLater : List Name}
  {ops : List (Op E X)} {info : VersionableBlock}

theorem version_divided (hinfo : analyzeBlock maxTileBytes maxRegionTileBytes ops = some info)
    (hne : conditions info.maskedAccesses ≠ []) :
    (Block.plain scope args ops terminator usedLater).version maxTileBytes maxRegionTileBytes =
      divided info args (ops.map (Op.version maxTileBytes maxRegionTileBytes)) terminator
        usedLater := by
  rw [Block.version, hinfo, Option.bind_some, versionBlock, versionOps_eq_map, if_neg]
  · rfl
  · rwa [List.isEmpty_iff]

theorem version_plain (h : ∀ info, analyzeBlock maxTileBytes maxRegionTileBytes ops = some info →
    conditions info.maskedAccesses = []) :
    (Block.plain scope args ops terminator usedLater).version maxTileBytes maxRegionTileBytes =
      .plain scope args (ops.map (Op.version maxTileBytes maxRegionTileBytes)) terminator
        usedLater := by
  rw [Block.version, versionOps_eq_map]
  cases hinfo : analyzeBlock maxTileBytes maxRegionTileBytes ops with
  | none => rfl
  | some info =>
    rw [Option.bind_some, versionBlock, if_pos]
    · rfl
    · rw [h info hinfo]
      rfl

variable (maxTileBytes maxRegionTileBytes) in
theorem version_cases (ops : List (Op E X)) :
    (∃ info, analyzeBlock maxTileBytes maxRegionTileBytes ops = some info ∧
      conditions info.maskedAccesses ≠ []) ∨
    ∀ info, analyzeBlock maxTileBytes maxRegionTileBytes ops = some info →
      conditions info.maskedAccesses = [] := by
  by_cases h : ∃ info, analyzeBlock maxTileBytes maxRegionTileBytes ops = some info ∧
      conditions info.maskedAccesses ≠ []
  · exact Or.inl h
  · right
    intro info hinfo
    by_contra hne
    exact h ⟨info, hinfo, hne⟩

variable (maxTileBytes maxRegionTileBytes) (undef : E)

mutual

theorem Op.step_version : ∀ op : Op E X,
    (∀ c ∈ op.blocks, c.Valid ∧ c.Divisible maxTileBytes maxRegionTileBytes) →
    (op.version maxTileBytes maxRegionTileBytes).step undef = op.step undef
  | .load _ _ _ => fun _ => rfl
  | .store _ _ => fun _ => rfl
  | .pure _ _ _ _ => fun _ => rfl
  | .effect results operands captured regions perform => fun h => by
    have hregions := denoteBlocks_version regions h
    funext env mem
    rw [Op.version, Op.step, Op.step, hregions]

theorem steps_version : ∀ ops : List (Op E X),
    (∀ c ∈ opsBlocks ops, c.Valid ∧ c.Divisible maxTileBytes maxRegionTileBytes) →
    ∀ op ∈ ops, (op.version maxTileBytes maxRegionTileBytes).step undef = op.step undef
  | [] => fun _ _ hop => absurd hop not_mem_nil
  | op :: ops => fun h op' hop => by
    have hhead := Op.step_version op fun c hc => h c (mem_append_left _ hc)
    have htail := steps_version ops fun c hc => h c (mem_append_right _ hc)
    rcases mem_cons.mp hop with heq | hmem
    · rw [heq]
      exact hhead
    · exact htail op' hmem

theorem Block.denote_version : ∀ b : Block E X,
    (∀ c ∈ b.blocks, c.Valid ∧ c.Divisible maxTileBytes maxRegionTileBytes) →
    (b.version maxTileBytes maxRegionTileBytes).denote undef = b.denote undef
  | .plain scope args ops terminator usedLater => fun h => by
    have hsteps := steps_version ops fun c hc => h c (mem_cons_of_mem _ hc)
    obtain ⟨hvalid, hdivisible⟩ := h _ mem_cons_self
    rcases version_cases maxTileBytes maxRegionTileBytes ops with ⟨info, hinfo, hne⟩ | hnone
    · obtain ⟨-, -, hpure⟩ := analyzeBlock_eq_some hinfo
      rw [version_divided hinfo hne, denote_divided_map hsteps hpure,
        denote_divided hvalid hinfo (hdivisible info hinfo hne)]
    · funext env values mem
      rw [version_plain hnone, Block.denote, Block.denote, runOps_congr hsteps]
  | .versioned _ _ _ _ _ _ _ _ => fun _ => rfl

theorem denoteBlocks_version : ∀ blocks : List (Block E X),
    (∀ c ∈ blocksOf blocks, c.Valid ∧ c.Divisible maxTileBytes maxRegionTileBytes) →
    denoteBlocks undef (versionBlocks maxTileBytes maxRegionTileBytes blocks) =
      denoteBlocks undef blocks
  | [] => fun _ => rfl
  | block :: blocks => fun h => by
    have hhead := Block.denote_version block fun c hc => h c (mem_append_left _ hc)
    have htail := denoteBlocks_version blocks fun c hc => h c (mem_append_right _ hc)
    rw [versionBlocks, denoteBlocks, denoteBlocks, hhead, htail]

end

section Promise

variable {maxTileBytes maxRegionTileBytes}

theorem refines_of_separable (hwf : WellFormed scope args ops terminator usedLater)
    (hinfo : analyzeBlock maxTileBytes maxRegionTileBytes ops = some info)
    (hsep : Separable info.condDefs scope args ops usedLater)
    (hinner : ∀ c ∈ opsBlocks ops, c.Valid ∧ c.Divisible maxTileBytes maxRegionTileBytes) :
    let inner := ops.map (Op.version maxTileBytes maxRegionTileBytes)
    Refines scope args ops terminator usedLater (beforeFirst inner)
      (condSlice info.condDefs inner) (conditions info.maskedAccesses)
      ((fromFirst inner).map Op.cloneFull) (fromFirst inner) := by
  intro inner
  obtain ⟨hmasked, -, hpure⟩ := analyzeBlock_eq_some hinfo
  have hguard : condSlice info.condDefs inner = condSlice info.condDefs ops :=
    condSlice_map maxTileBytes maxRegionTileBytes hpure
  have hbefore : resultsOf (beforeFirst inner) = resultsOf (beforeFirst ops) := by
    rw [beforeFirst_map, resultsOf_map]
  constructor
  · rw [hbefore, hguard]
    exact available_guard hwf hinfo hsep
  · intro c hc v hv
    rw [hbefore, hguard]
    have hname : v ∈ maskNames (maskedAccesses ops) := by
      rw [← hmasked]
      obtain ⟨access, haccess, hmem⟩ := mem_flatMap.mp hc
      exact mem_flatMap.mpr ⟨access, haccess, mem_filterMap.mpr
        ⟨c.1, (of_mem_zip (mem_filter.mp hmem).1).1, hv⟩⟩
    rcases mem_append.mp (maskNames_known hwf hinfo v hname) with hvisible | hresult
    · exact mem_append_left _ hvisible
    · obtain ⟨op, hop, hr⟩ := mem_resultsOf.mp hresult
      obtain ⟨hmem, hslice⟩ := mem_condSlice.mp hop
      have hin : op ∈ ops := (dropWhile_sublist _).mem hmem
      exact mem_append_right _ (mem_resultsOf.mpr ⟨op, mem_condSlice.mpr ⟨hin, hslice⟩, hr⟩)
  · rw [hbefore]
    exact usedLater_visible hwf hsep
  · intro undef
    have hsteps := steps_version maxTileBytes maxRegionTileBytes undef ops hinner
    have hdivided : (divided info args (ops.map (Op.version maxTileBytes maxRegionTileBytes))
        terminator usedLater).denote undef = (divided info args ops terminator usedLater).denote undef :=
      denote_divided_map hsteps hpure
    exact hdivided.trans (denote_divided hwf hinfo hsep undef)
  · intro undef env values mem s env' mem' hrunBefore hrunFrom
    rw [hguard]
    exact guard_iff hwf hinfo hsep hrunBefore hrunFrom

theorem separable_of_refines (hwf : WellFormed scope args ops terminator usedLater)
    (hinfo : analyzeBlock maxTileBytes maxRegionTileBytes ops = some info)
    (h : let inner := ops.map (Op.version maxTileBytes maxRegionTileBytes)
      Refines scope args ops terminator usedLater (beforeFirst inner)
        (condSlice info.condDefs inner) (conditions info.maskedAccesses)
        ((fromFirst inner).map Op.cloneFull) (fromFirst inner)) :
    Separable info.condDefs scope args ops usedLater := by
  obtain ⟨-, -, hpure⟩ := analyzeBlock_eq_some hinfo
  have havailable := h.guard_available
  have hlater := h.later_available
  rw [condSlice_map maxTileBytes maxRegionTileBytes hpure] at havailable
  rw [beforeFirst_map, resultsOf_map] at havailable hlater
  constructor
  · intro op hop v hv
    exact havailable.uses hop (mem_append_right _ hv)
  · intro v hv hresult
    exact (scoped_fromFirst hwf).fresh hresult (hlater v hv)

theorem Block.refined_of_divisible : ∀ block : Block E X,
    (∀ c ∈ block.blocks, c.Valid ∧ c.Divisible maxTileBytes maxRegionTileBytes) →
    block.Refined maxTileBytes maxRegionTileBytes
  | .plain scope args ops terminator usedLater => fun h => by
    obtain ⟨hwf, hdivisible⟩ := h _ mem_cons_self
    have hinner := fun c hc => h c (mem_cons_of_mem _ hc)
    have hdenote := fun undef => Block.denote_version maxTileBytes maxRegionTileBytes undef
      (.plain scope args ops terminator usedLater) h
    rcases version_cases maxTileBytes maxRegionTileBytes ops with ⟨info, hinfo, hne⟩ | hnone
    · rw [Block.Refined, version_divided hinfo hne]
      exact refines_of_separable hwf hinfo (hdivisible info hinfo hne) hinner
    · rw [Block.Refined]
      rw [version_plain hnone] at hdenote ⊢
      exact hdenote
  | .versioned _ _ _ _ _ _ _ _ => fun _ _ => rfl

theorem Block.divisible_of_refined : ∀ block : Block E X, block.Valid →
    block.Refined maxTileBytes maxRegionTileBytes →
    block.Divisible maxTileBytes maxRegionTileBytes
  | .plain scope args ops terminator usedLater => fun hwf h info hinfo hne => by
    rw [Block.Refined, version_divided hinfo hne] at h
    exact separable_of_refines hwf hinfo h
  | .versioned _ _ _ _ _ _ _ _ => fun _ _ => trivial

end Promise

/-- All blocks are refined when all of them can be divided: the regions of the slice
use from above what is there before the first masked access, and what is computed from
there on is used by no other block. -/
theorem fullTileVersioning_iff (block : Block E X) (hvalid : ∀ c ∈ block.blocks, c.Valid) :
    (∀ c ∈ block.blocks, c.Refined maxTileBytes maxRegionTileBytes) ↔
      ∀ c ∈ block.blocks, c.Divisible maxTileBytes maxRegionTileBytes := by
  constructor
  · intro h c hc
    exact Block.divisible_of_refined c (hvalid c hc) (h c hc)
  · intro h c hc
    apply Block.refined_of_divisible
    intro d hd
    have hmem := Block.blocks_trans block c hc d hd
    exact ⟨hvalid d hmem, h d hmem⟩

/-- Two loads of a row: one of the tile at pointer 0, and one of the tile at pointer 3
under a mask that a loop computes from the value 11. -/
def maskFromLoop (loopUses : List Name) : Block ℕ Unit :=
  .plain [0, 1, 2, 3] []
    [.load 10 ⟨0, [4], some 32, [.value 2], true⟩ none,
     .pure [11] [1] [] fun operands _ => some operands,
     .pure [12] [1] loopUses fun operands captured => some [captured.headD (operands.headD (.index 0))],
     .load 13 ⟨3, [4], some 32, [.value 12], true⟩ none]
    [] []

theorem maskFromLoop_valid (loopUses : List Name) (h : ∀ v ∈ loopUses, v ∈ [0, 1, 2, 3, 10, 11]) :
    ∀ c ∈ (maskFromLoop loopUses).blocks, c.Valid := by
  intro c hc
  obtain rfl : c = maskFromLoop loopUses := by
    simpa [maskFromLoop, Block.blocks, opsBlocks, Op.blocks] using hc
  constructor
  · simp [Scoped, Op.uses, Op.operands, Op.captured, Op.results, OpFoldResult.value?] at h ⊢
    exact h
  · simp
  · simp

/-- The loop uses a value from above, so the slice does not contain what computes it. -/
theorem maskFromLoop_not_refined : (∀ c ∈ (maskFromLoop [11]).blocks, c.Valid) ∧
    ¬ ∀ c ∈ (maskFromLoop [11]).blocks, c.Refined 512 4096 := by
  have hvalid := maskFromLoop_valid [11] (by decide)
  refine ⟨hvalid, fun h => ?_⟩
  have hself : maskFromLoop [11] ∈ (maskFromLoop [11]).blocks := mem_cons_self
  have hdivisible := Block.divisible_of_refined _ (hvalid _ hself) (h _ hself)
  have hsep := hdivisible ⟨_, _⟩ rfl (by decide)
  have hcaptured := hsep.captured _ (mem_cons_self) 11 (by simp [Op.captured])
  revert hcaptured
  decide

theorem maskFromLoop_refined : (∀ c ∈ (maskFromLoop [2]).blocks, c.Valid) ∧
    ∀ c ∈ (maskFromLoop [2]).blocks, c.Refined 512 4096 := by
  have hvalid := maskFromLoop_valid [2] (by decide)
  refine ⟨hvalid, ?_⟩
  apply (fullTileVersioning_iff 512 4096 (maskFromLoop [2]) hvalid).mpr
  intro c hc
  obtain rfl : c = maskFromLoop [2] := by
    simpa [maskFromLoop, Block.blocks, opsBlocks, Op.blocks] using hc
  intro info hinfo hne
  obtain rfl := Option.some.inj hinfo
  constructor
  · intro op hop v hv
    obtain rfl : op = .pure [12] [1] [2] fun operands captured =>
        some [captured.headD (operands.headD (.index 0))] := by
      simpa [condSlice, Op.inSlice, Op.results, backwardSlice, maskNames, maskedAccesses,
        Op.operands, OpFoldResult.value?, Op.isVersionableAccess, Op.access?] using hop
    obtain rfl : v = 2 := mem_singleton.mp hv
    exact Or.inl (by decide)
  · simp

end Pass

end TritonCpu.FullTile
