import Mathlib
import TritonCpu.MembarBlocks
import TritonCpu.Worklist

/-!
# Termination of the barrier analysis

The recorded outputs only grow, but a barrier that is inserted on a later visit
shrinks what a block leaves pending. From then on the fresh output never equals
the recorded one, and every visit of the block puts its successors back on the
worklist. The worklist empties exactly when no cycle of the graph ever consists
of such blocks only.
-/

set_option autoImplicit false

namespace TritonCpu.MembarTermination
open Membar MembarTrace MembarSound Worklist

section Blocks

variable {B : Type} (filter : MembarFilterFn) (funcBlockInfoMap : FuncId → BlockInfo)
  (f : Function B)

/-- The block synchronises, and what it leaves pending after its last
synchronisation is not what is recorded as its output. -/
def Losing (s : ResolveState B) (b : B) : Prop :=
  Synchronises (s.ops b) ∧ ∃ output ops info, s.outputBlockInfoMap b = some output ∧
    visitBlock filter funcBlockInfoMap (s.ops b) BlockInfo.empty = .ok (ops, info) ∧
      info ≠ output

def LosingEdge (s : ResolveState B) (b c : B) : Prop :=
  Losing filter funcBlockInfoMap s b ∧ c ∈ (f.terminator b).successors

def OnCycle (s : ResolveState B) (b : B) : Prop :=
  Relation.TransGen (LosingEdge filter funcBlockInfoMap f s) b b

def LosingCycle (s : ResolveState B) : Prop := ∃ b, OnCycle filter funcBlockInfoMap f s b

/-- What a turn on the block `b` does. A turn that finds the recorded output
only takes the block off the worklist. -/
structure Turned (s : ResolveState B) (b : B) (rest : List B) (ops : List Op) (info : BlockInfo)
    (t : ResolveState B) : Prop where
  visit : visitBlock filter funcBlockInfoMap (s.ops b) (s.inputBlockInfoMap b) = .ok (ops, info)
  self : t.ops b = ops
  others {c : B} : c ≠ b →
    t.ops c = s.ops c ∧ t.outputBlockInfoMap c = s.outputBlockInfoMap c
  inputs (c : B) : Le (s.inputBlockInfoMap c) (t.inputBlockInfoMap c)
  output : s.outputBlockInfoMap b = some info ∧ t.outputBlockInfoMap b = some info ∧
      t.inputBlockInfoMap = s.inputBlockInfoMap ∧ t.blockList = rest ∨
    s.outputBlockInfoMap b ≠ some info ∧
      ∃ output, output = ((s.outputBlockInfoMap b).getD BlockInfo.empty).join info ∧
        t.outputBlockInfoMap b = some output ∧
        (∀ c, Le (t.inputBlockInfoMap c) ((s.inputBlockInfoMap c).join output)) ∧
        t.blockList = rest ++ (f.terminator b).successors

variable {filter funcBlockInfoMap f}

theorem Turned.recorded {s t : ResolveState B} {b : B} {rest : List B} {ops : List Op}
    {info : BlockInfo} (h : Turned filter funcBlockInfoMap f s b rest ops info t) :
    ∃ output, t.outputBlockInfoMap b = some output ∧ Le info output ∧
      ∀ old, s.outputBlockInfoMap b = some old → Le old output := by
  rcases h.output with ⟨hold, hnew, -⟩ | ⟨-, output, houtput, hnew, -⟩
  · refine ⟨info, hnew, le_refl _, fun old h => ?_⟩
    rw [hold, Option.some.injEq] at h
    rw [h]
    exact le_refl _
  · refine ⟨output, hnew, houtput ▸ le_join_right _ _, fun old h => ?_⟩
    rw [houtput, h, Option.getD_some]
    exact le_join_left _ _

theorem Turned.waiting {s t : ResolveState B} {b c : B} {rest : List B} {ops : List Op}
    {info : BlockInfo} (h : Turned filter funcBlockInfoMap f s b rest ops info t)
    (hc : c ∈ rest) : c ∈ t.blockList := by
  rcases h.output with ⟨-, -, -, hlist⟩ | ⟨-, -, -, -, -, hlist⟩
  · rwa [hlist]
  · rw [hlist]
    exact List.mem_append_left _ hc

/-! Losing blocks. -/

theorem losing_iff {s : ResolveState B} {b : B} {output info info₀ : BlockInfo} {ops : List Op}
    (hv : visitBlock filter funcBlockInfoMap ops info₀ = .ok (s.ops b, info))
    (hsync : Synchronises (s.ops b)) (hout : s.outputBlockInfoMap b = some output)
    (halone : ∀ op ∈ s.ops b, ScratchAlone op) :
    Losing filter funcBlockInfoMap s b ↔ info ≠ output := by
  constructor
  · rintro ⟨-, output', ops', info', hout', hv', hne⟩
    rw [hout, Option.some.injEq] at hout'
    rwa [hout', ← visitBlock_again hv hsync hv']
  · intro hne
    obtain ⟨⟨ops', info'⟩, hv'⟩ := visitBlock_ok halone BlockInfo.empty
    have hsame := visitBlock_again hv hsync hv'
    exact ⟨hsync, output, ops', info', hout, hv', hsame ▸ hne⟩

theorem losing_congr {s t : ResolveState B} {b : B} (hops : t.ops b = s.ops b)
    (hout : t.outputBlockInfoMap b = s.outputBlockInfoMap b) :
    Losing filter funcBlockInfoMap t b ↔ Losing filter funcBlockInfoMap s b := by
  unfold Losing
  rw [hops, hout]

/-! The invariant of the loop. -/

variable (funcBlockInfoMap f) in
def allAccesses : BlockInfo :=
  f.blocks.foldr (fun b info => (accesses funcBlockInfoMap (f.ops b)).join info) BlockInfo.empty

theorem le_allAccesses (b : B) :
    Le (accesses funcBlockInfoMap (f.ops b)) (allAccesses funcBlockInfoMap f) := by
  have hb := f.blocks_complete b
  unfold allAccesses
  generalize f.blocks = blocks at hb
  induction blocks with
  | nil => cases hb
  | cons c rest ih =>
    rcases List.mem_cons.mp hb with rfl | hb
    · exact le_join_left _ _
    · exact le_trans (ih hb) (le_join_right _ _)

variable (filter funcBlockInfoMap f) in
/-- A recorded output has everything the last visit left pending; a block
that does not synchronise has passed all of it on. -/
structure Recorded (s : ResolveState B) : Prop where
  keeps (b : B) : withoutBarriers (s.ops b) = withoutBarriers (f.ops b)
  visited {b : B} {output : BlockInfo} : s.outputBlockInfoMap b = some output →
    ∃ ops info₀ info, visitBlock filter funcBlockInfoMap ops info₀ = .ok (s.ops b, info) ∧
      Le info output
  passing {b : B} {output : BlockInfo} : s.outputBlockInfoMap b = some output →
    ¬ Synchronises (s.ops b) →
      Le output ((s.inputBlockInfoMap b).join (accesses funcBlockInfoMap (s.ops b)))
  input (b : B) : Le (s.inputBlockInfoMap b) (allAccesses funcBlockInfoMap f)
  output {b : B} {output : BlockInfo} : s.outputBlockInfoMap b = some output →
    Le output (allAccesses funcBlockInfoMap f)

theorem initial_recorded : Recorded filter funcBlockInfoMap f (initialState f) where
  keeps _ := rfl
  visited h := by simp [initialState] at h
  passing h := by simp [initialState] at h
  input _ := empty_le _
  output h := by simp [initialState] at h

theorem Recorded.accesses {s : ResolveState B} (h : Recorded filter funcBlockInfoMap f s) (b : B) :
    accesses funcBlockInfoMap (s.ops b) = accesses funcBlockInfoMap (f.ops b) := by
  rw [← accesses_withoutBarriers, h.keeps, accesses_withoutBarriers]

theorem Recorded.alone {s : ResolveState B} (h : Recorded filter funcBlockInfoMap f s)
    (halone : ∀ b, ∀ op ∈ f.ops b, ScratchAlone op) (b : B) :
    ∀ op ∈ s.ops b, ScratchAlone op := by
  intro op hop
  by_cases hbarrier : op = .barrier
  · rw [hbarrier]
    trivial
  · have hmem : op ∈ withoutBarriers (s.ops b) := by simp [withoutBarriers, hop, hbarrier]
    rw [h.keeps] at hmem
    exact halone b op (List.mem_filter.mp hmem).1

theorem Recorded.turned {s t : ResolveState B} (hs : Recorded filter funcBlockInfoMap f s)
    {b : B} {rest : List B} {ops : List Op} {info : BlockInfo}
    (h : Turned filter funcBlockInfoMap f s b rest ops info t) :
    Recorded filter funcBlockInfoMap f t := by
  have hinfo : Le info (allAccesses funcBlockInfoMap f) := by
    refine le_trans (visitBlock_bounded h.visit) (join_le (hs.input b) ?_)
    rw [hs.accesses]
    exact le_allAccesses b
  have hold : Le (((s.outputBlockInfoMap b).getD BlockInfo.empty).join info)
      (allAccesses funcBlockInfoMap f) := by
    refine join_le ?_ hinfo
    cases hout : s.outputBlockInfoMap b with
    | none => exact empty_le _
    | some old => exact hs.output hout
  constructor
  · intro c
    by_cases hc : c = b
    · subst hc
      rw [h.self, visitBlock_keeps _ _ _ _ _ _ h.visit, hs.keeps]
    · rw [(h.others hc).1, hs.keeps]
  · intro c output hout
    by_cases hc : c = b
    · subst hc
      obtain ⟨output', hout', hle, -⟩ := h.recorded
      rw [hout, Option.some.injEq] at hout'
      rw [h.self, hout']
      exact ⟨_, _, _, h.visit, hle⟩
    · rw [(h.others hc).2] at hout
      rw [(h.others hc).1]
      exact hs.visited hout
  · intro c output hout hnot
    by_cases hc : c = b
    · subst hc
      rw [h.self] at hnot ⊢
      obtain ⟨hops, hpassed⟩ := visitBlock_passing h.visit hnot
      have hle : Le output info := by
        rcases h.output with ⟨-, hnew, -⟩ | ⟨-, output', houtput, hnew, -⟩
        · rw [hnew, Option.some.injEq] at hout
          rw [hout]
          exact le_refl _
        · rw [hnew, Option.some.injEq] at hout
          rw [← hout, houtput]
          refine join_le ?_ (le_refl _)
          cases hprev : s.outputBlockInfoMap c with
          | none => exact empty_le _
          | some old =>
            rw [hpassed]
            exact hs.passing hprev (hops ▸ hnot)
      rw [hops]
      refine le_trans hle ?_
      rw [hpassed]
      exact join_mono (h.inputs c) _
    · rw [(h.others hc).2] at hout
      rw [(h.others hc).1] at hnot ⊢
      exact le_trans (hs.passing hout hnot) (join_mono (h.inputs c) _)
  · intro c
    rcases h.output with ⟨-, -, hin, -⟩ | ⟨-, output, houtput, -, hin, -⟩
    · rw [hin]
      exact hs.input c
    · exact le_trans (hin c) (join_le (hs.input c) (houtput ▸ hold))
  · intro c output hout
    by_cases hc : c = b
    · subst hc
      rcases h.output with ⟨-, hnew, -⟩ | ⟨-, output', houtput, hnew, -⟩
      · rw [hnew, Option.some.injEq] at hout
        exact hout ▸ hinfo
      · rw [hnew, Option.some.injEq] at hout
        rw [← hout, houtput]
        exact hold
    · rw [(h.others hc).2] at hout
      exact hs.output hout

/-! Progress. -/

def size (info : BlockInfo) : ℕ :=
  info.syncReadIntervals.card + info.syncWriteIntervals.card

theorem size_le {a b : BlockInfo} (h : Le a b) : size a ≤ size b :=
  Nat.add_le_add (Finset.card_le_card h.1) (Finset.card_le_card h.2)

theorem eq_of_size {a b : BlockInfo} (h : Le a b) (hsize : size b ≤ size a) : a = b := by
  have hreads := Finset.card_le_card h.1
  have hwrites := Finset.card_le_card h.2
  unfold size at hsize
  exact BlockInfo.ext (Finset.eq_of_subset_of_card_le h.1 (by omega))
    (Finset.eq_of_subset_of_card_le h.2 (by omega))

def outputDebt (bound : ℕ) : Option BlockInfo → ℕ
  | none => bound + 1
  | some output => bound - size output

def syncDebt (ops : List Op) : ℕ := if Synchronises ops then 0 else 1

variable (funcBlockInfoMap f) in
/-- What a block can still gain: accesses of its input and of its recorded
output, and its first synchronisation. -/
def debt (s : ResolveState B) (b : B) : ℕ :=
  size (allAccesses funcBlockInfoMap f) - size (s.inputBlockInfoMap b) +
    outputDebt (size (allAccesses funcBlockInfoMap f)) (s.outputBlockInfoMap b) +
    syncDebt (s.ops b)

variable (funcBlockInfoMap f) in
def rank (s : ResolveState B) : ℕ := (f.blocks.map (debt funcBlockInfoMap f s)).sum

theorem Turned.outputs {s t : ResolveState B} {b : B} {rest : List B} {ops : List Op}
    {info : BlockInfo} (h : Turned filter funcBlockInfoMap f s b rest ops info t) {c : B}
    {old : BlockInfo} (hold : s.outputBlockInfoMap c = some old) :
    ∃ output, t.outputBlockInfoMap c = some output ∧ Le old output := by
  by_cases hc : c = b
  · subst hc
    obtain ⟨output, hout, -, hle⟩ := h.recorded
    exact ⟨output, hout, hle old hold⟩
  · exact ⟨old, (h.others hc).2.trans hold, le_refl _⟩

theorem Turned.synchronises {s t : ResolveState B} {b : B} {rest : List B} {ops : List Op}
    {info : BlockInfo} (h : Turned filter funcBlockInfoMap f s b rest ops info t) {c : B}
    (hsync : Synchronises (s.ops c)) : Synchronises (t.ops c) := by
  by_cases hc : c = b
  · subst hc
    rw [h.self]
    exact synchronises_kept h.visit hsync
  · rwa [(h.others hc).1]

theorem syncDebt_le {ops ops' : List Op} (h : Synchronises ops → Synchronises ops') :
    syncDebt ops' ≤ syncDebt ops ∧
      (syncDebt ops' = syncDebt ops → Synchronises ops' → Synchronises ops) := by
  unfold syncDebt
  split_ifs <;> simp_all

theorem outputDebt_le {bound : ℕ} {old new : Option BlockInfo}
    (h : ∀ output, old = some output → ∃ output', new = some output' ∧ Le output output')
    (hbound : ∀ output, new = some output → size output ≤ bound) :
    outputDebt bound new ≤ outputDebt bound old ∧
      (outputDebt bound new = outputDebt bound old → new = old) := by
  cases old with
  | none =>
    cases new with
    | none => exact ⟨le_rfl, fun _ => rfl⟩
    | some output =>
      simp only [outputDebt]
      exact ⟨by omega, fun heq => by omega⟩
  | some output =>
    obtain ⟨output', rfl, hle⟩ := h output rfl
    have hsize := size_le hle
    have htop := hbound output' rfl
    simp only [outputDebt]
    exact ⟨by omega, fun heq => by rw [eq_of_size hle (by omega)]⟩

/-- A turn that is not progress leaves the recorded outputs and the blocks that
synchronise as they are. -/
theorem debt_turned {s t : ResolveState B} (ht : Recorded filter funcBlockInfoMap f t) {b : B}
    {rest : List B} {ops : List Op} {info : BlockInfo}
    (h : Turned filter funcBlockInfoMap f s b rest ops info t) (c : B) :
    debt funcBlockInfoMap f t c ≤ debt funcBlockInfoMap f s c ∧
      (debt funcBlockInfoMap f t c = debt funcBlockInfoMap f s c →
        t.outputBlockInfoMap c = s.outputBlockInfoMap c ∧
          (Synchronises (t.ops c) → Synchronises (s.ops c))) := by
  have hin := size_le (h.inputs c)
  have hout := outputDebt_le (fun _ hold => h.outputs hold)
    fun _ hnew => size_le (ht.output (b := c) hnew)
  have hsync := syncDebt_le (h.synchronises (c := c))
  unfold debt
  exact ⟨by omega, fun heq => ⟨hout.2 (by omega), hsync.2 (by omega)⟩⟩

theorem rank_turned {s t : ResolveState B} (ht : Recorded filter funcBlockInfoMap f t) {b : B}
    {rest : List B} {ops : List Op} {info : BlockInfo}
    (h : Turned filter funcBlockInfoMap f s b rest ops info t) :
    rank funcBlockInfoMap f t < rank funcBlockInfoMap f s ∨
      rank funcBlockInfoMap f t = rank funcBlockInfoMap f s ∧
        ∀ c, t.outputBlockInfoMap c = s.outputBlockInfoMap c ∧
          (Synchronises (t.ops c) → Synchronises (s.ops c)) := by
  have hdebt := debt_turned ht h
  by_cases hless : ∃ c, debt funcBlockInfoMap f t c < debt funcBlockInfoMap f s c
  · obtain ⟨c, hc⟩ := hless
    exact .inl (List.sum_lt_sum _ _ (fun d _ => (hdebt d).1) ⟨c, f.blocks_complete c, hc⟩)
  · have hsame (c : B) : debt funcBlockInfoMap f t c = debt funcBlockInfoMap f s c := by
      have hle := (hdebt c).1
      have hnot : ¬ debt funcBlockInfoMap f t c < debt funcBlockInfoMap f s c :=
        fun hc => hless ⟨c, hc⟩
      omega
    refine .inr ⟨?_, fun c => (hdebt c).2 (hsame c)⟩
    unfold rank
    rw [funext hsame]

/-! Losing blocks under a turn. -/

variable (halone : ∀ b, ∀ op ∈ f.ops b, ScratchAlone op)

include halone

theorem losing_kept {s t : ResolveState B} (hs : Recorded filter funcBlockInfoMap f s)
    (ht : Recorded filter funcBlockInfoMap f t) {b : B} {rest : List B} {ops : List Op}
    {info : BlockInfo} (h : Turned filter funcBlockInfoMap f s b rest ops info t) {c : B}
    (hc : Losing filter funcBlockInfoMap s c) : Losing filter funcBlockInfoMap t c := by
  by_cases hcb : c = b
  · subst hcb
    have ⟨hsync, old, _, _, hold, _⟩ := hc
    obtain ⟨ops₀, info₀, last, hlast, hle⟩ := hs.visited hold
    have hne := (losing_iff hlast hsync hold (hs.alone halone c)).mp hc
    have hsame : info = last := visitBlock_again hlast hsync h.visit
    obtain ⟨output, hout, hinfo, hmono⟩ := h.recorded
    have hkept : output = old := by
      rcases h.output with ⟨hskip, -⟩ | ⟨-, output', houtput, hnew, -⟩
      · rw [hold, Option.some.injEq] at hskip
        exact absurd (hskip.trans hsame).symm hne
      · rw [hnew, Option.some.injEq] at hout
        rw [← hout, houtput, hold, Option.getD_some]
        exact le_antisymm (join_le (le_refl _) (hsame ▸ hle)) (le_join_left _ _)
    have hvisit := h.visit
    rw [← h.self] at hvisit
    refine (losing_iff hvisit (h.synchronises hsync) hout (ht.alone halone c)).mpr ?_
    rwa [hkept, hsame]
  · exact (losing_congr (h.others hcb).1 (h.others hcb).2).mpr hc

theorem losing_pushes {s t : ResolveState B} (ht : Recorded filter funcBlockInfoMap f t)
    {b : B} {rest : List B} {ops : List Op} {info : BlockInfo}
    (h : Turned filter funcBlockInfoMap f s b rest ops info t)
    (hb : Losing filter funcBlockInfoMap t b) {c : B} (hc : c ∈ (f.terminator b).successors) :
    c ∈ t.blockList := by
  have hsync := hb.1
  have hvisit := h.visit
  rw [← h.self] at hvisit
  rcases h.output with ⟨-, hnew, -⟩ | ⟨-, -, -, -, -, hlist⟩
  · exact absurd rfl ((losing_iff hvisit hsync hnew (ht.alone halone b)).mp hb)
  · rw [hlist]
    exact List.mem_append_right _ hc

/-- A turn that is not progress changes no losing block, and pushes only the
successors of one. -/
theorem turn_turned {s t : ResolveState B} (hs : Recorded filter funcBlockInfoMap f s)
    (ht : Recorded filter funcBlockInfoMap f t) {b : B} {rest : List B} {ops : List Op}
    {info : BlockInfo} (hlist : s.blockList = b :: rest)
    (h : Turned filter funcBlockInfoMap f s b rest ops info t) :
    Turn ResolveState.blockList (rank funcBlockInfoMap f) (LosingEdge filter funcBlockInfoMap f)
      s t := by
  refine (rank_turned ht h).imp_right fun ⟨hrank, hsame⟩ => ⟨hrank, ?_, b, rest, ?_⟩
  · have hlosing (c : B) :
        Losing filter funcBlockInfoMap t c ↔ Losing filter funcBlockInfoMap s c := by
      refine ⟨fun hc => ?_, losing_kept halone hs ht h⟩
      by_cases hcb : c = b
      · subst hcb
        have ⟨hsync, output, _, _, hnew, _⟩ := hc
        have hold := (hsame c).1 ▸ hnew
        have hsync' := (hsame c).2 hsync
        obtain ⟨ops₀, info₀, last, hlast, -⟩ := hs.visited hold
        have hvisit := h.visit
        rw [← h.self] at hvisit
        refine (losing_iff hlast hsync' hold (hs.alone halone c)).mpr ?_
        rw [← visitBlock_again hlast hsync' h.visit]
        exact (losing_iff hvisit hsync hnew (ht.alone halone c)).mp hc
      · exact (losing_congr (h.others hcb).1 (h.others hcb).2).mp hc
    funext c d
    exact propext (and_congr_left fun _ => hlosing c)
  · rcases h.output with ⟨-, -, -, hempty⟩ | ⟨hdiffer, output, houtput, hnew, -, hpushed⟩
    · exact ⟨[], hlist, by rw [hempty, List.append_nil], fun c hc => (List.not_mem_nil hc).elim⟩
    refine ⟨(f.terminator b).successors, hlist, hpushed, fun c hc => ⟨?_, hc⟩⟩
    have hold : s.outputBlockInfoMap b = some output := (hsame b).1 ▸ hnew
    have hne : info ≠ output := fun he => hdiffer (he ▸ hold)
    have hle : Le info output := houtput ▸ le_join_right _ _
    have hsync : Synchronises (s.ops b) := by
      by_contra hnot
      -- a passing block would have recorded what it passes
      have hnot' : ¬ Synchronises ops := fun hops => hnot ((hsame b).2 (h.self ▸ hops))
      obtain ⟨-, hpassed⟩ := visitBlock_passing h.visit hnot'
      exact hne (le_antisymm hle (hpassed ▸ hs.passing hold hnot))
    obtain ⟨ops₀, info₀, last, hlast, -⟩ := hs.visited hold
    refine (losing_iff hlast hsync hold (hs.alone halone b)).mpr ?_
    rwa [← visitBlock_again hlast hsync h.visit]

end Blocks

section Resolve

variable {B : Type} [DecidableEq B] (filter : MembarFilterFn)
  (funcBlockInfoMap : FuncId → BlockInfo) (f : Function B)

def Step (s t : ResolveState B) : Prop :=
  ∃ b rest, s.blockList = b :: rest ∧
    visit filter funcBlockInfoMap f b { s with blockList := rest } = .ok t

inductive Reached : ResolveState B → Prop
  | start : Reached (initialState f)
  | step {s t : ResolveState B} : Reached s → Step filter funcBlockInfoMap f s t → Reached t

def Empties : Prop :=
  ∃ fuel t, resolveLoop filter funcBlockInfoMap f fuel (initialState f) = .ok t ∧
    t.blockList = []

theorem pushSuccessors_blockList (output : BlockInfo) (successors : List B)
    (s : ResolveState B) :
    (pushSuccessors output successors s).blockList = s.blockList ++ successors := by
  induction successors generalizing s with
  | nil => exact (List.append_nil _).symm
  | cons c rest ih =>
    have h := ih { s with
      inputBlockInfoMap := Function.update s.inputBlockInfoMap c
        ((s.inputBlockInfoMap c).join output)
      blockList := s.blockList ++ [c] }
    rw [List.append_assoc] at h
    exact h

variable {filter funcBlockInfoMap f}

theorem visit_turned {s t : ResolveState B} {b : B} {rest : List B}
    (h : visit filter funcBlockInfoMap f b { s with blockList := rest } = .ok t) :
    ∃ ops info, Turned filter funcBlockInfoMap f s b rest ops info t := by
  obtain ⟨⟨ops, info⟩, hv, h⟩ := except_bind_ok h
  refine ⟨ops, info, ?_⟩
  dsimp only at h
  split_ifs at h with hout
  · cases h
    exact ⟨hv, Function.update_self .., fun hc => ⟨Function.update_of_ne hc .., rfl⟩,
      fun c => le_refl _, .inl ⟨hout, hout, rfl, rfl⟩⟩
  · cases h
    have hp := pushSuccessors_pushed
      (((s.outputBlockInfoMap b).getD BlockInfo.empty).join info) (f.terminator b).successors
      { s with
        ops := Function.update s.ops b ops
        blockList := rest
        outputBlockInfoMap := Function.update s.outputBlockInfoMap b
          (some (((s.outputBlockInfoMap b).getD BlockInfo.empty).join info)) }
    refine ⟨hv, ?_, fun hc => ⟨?_, ?_⟩, hp.inputs, .inr ⟨hout, _, rfl, ?_, hp.bounded, ?_⟩⟩
    · rw [hp.ops]
      exact Function.update_self ..
    · rw [hp.ops]
      exact Function.update_of_ne hc ..
    · rw [hp.outputs]
      exact Function.update_of_ne hc ..
    · rw [hp.outputs]
      exact Function.update_self ..
    · exact pushSuccessors_blockList _ _ _

theorem step_turned {s t : ResolveState B} (h : Step filter funcBlockInfoMap f s t) :
    ∃ b rest ops info, s.blockList = b :: rest ∧
      Turned filter funcBlockInfoMap f s b rest ops info t := by
  obtain ⟨b, rest, hlist, hvisit⟩ := h
  obtain ⟨ops, info, hturned⟩ := visit_turned hvisit
  exact ⟨b, rest, ops, info, hlist, hturned⟩

theorem reached_recorded {s : ResolveState B} (h : Reached filter funcBlockInfoMap f s) :
    Recorded filter funcBlockInfoMap f s := by
  induction h with
  | start => exact initial_recorded
  | step _ hstep ih =>
    obtain ⟨b, rest, ops, info, -, hturned⟩ := step_turned hstep
    exact ih.turned hturned

variable (halone : ∀ b, ∀ op ∈ f.ops b, ScratchAlone op)

include halone

theorem cycle_waiting {s : ResolveState B} (h : Reached filter funcBlockInfoMap f s)
    (hcycle : LosingCycle filter funcBlockInfoMap f s) :
    ∃ c ∈ s.blockList, OnCycle filter funcBlockInfoMap f s c := by
  induction h with
  | start =>
    obtain ⟨b, hb⟩ := hcycle
    obtain ⟨c, ⟨hlosing, -⟩, -⟩ := Relation.TransGen.head'_iff.mp hb
    obtain ⟨-, output, -, -, hout, -⟩ := hlosing
    simp [initialState] at hout
  | @step s t hs hstep ih =>
    obtain ⟨b, rest, ops, info, hlist, hturned⟩ := step_turned hstep
    have hrec := reached_recorded hs
    have hrec' := hrec.turned hturned
    by_cases hb : OnCycle filter funcBlockInfoMap f t b
    · -- the block of this turn is on the cycle, so its successor on it waits
      obtain ⟨c, ⟨hlosing, hc⟩, hback⟩ := Relation.TransGen.head'_iff.mp hb
      refine ⟨c, losing_pushes halone hrec' hturned hlosing hc, ?_⟩
      exact Relation.TransGen.tail' hback ⟨hlosing, hc⟩
    · obtain ⟨x, hx⟩ := hcycle
      have hold : OnCycle filter funcBlockInfoMap f s x := by
        refine Relation.TransGen.mono (fun c d hedge => ?_) x x (cycle_restrict hx)
        obtain ⟨⟨hlosing, hd⟩, hc⟩ := hedge
        have hcb : c ≠ b := fun he => hb (he ▸ hc)
        exact ⟨(losing_congr (hturned.others hcb).1 (hturned.others hcb).2).mp hlosing, hd⟩
      obtain ⟨c, hc, hcycle⟩ := ih ⟨x, hold⟩
      have hkept : OnCycle filter funcBlockInfoMap f t c :=
        Relation.TransGen.mono
          (fun _ _ hedge => ⟨losing_kept halone hrec hrec' hturned hedge.1, hedge.2⟩) c c hcycle
      have hcb : c ≠ b := fun he => hb (he ▸ hkept)
      rw [hlist] at hc
      exact ⟨c, hturned.waiting ((List.mem_cons.mp hc).resolve_left hcb), hkept⟩

theorem resolveLoop_cycle {s : ResolveState B} (h : Reached filter funcBlockInfoMap f s)
    (hcycle : LosingCycle filter funcBlockInfoMap f s) (fuel : ℕ) (t : ResolveState B) :
    resolveLoop filter funcBlockInfoMap f fuel s ≠ .ok t := by
  induction fuel generalizing s with
  | zero =>
    obtain ⟨c, hc, -⟩ := cycle_waiting halone h hcycle
    intro hloop
    simp only [resolveLoop] at hloop
    split_ifs at hloop with hempty
    rw [hempty] at hc
    cases hc
  | succ fuel ih =>
    obtain ⟨c, hc, -⟩ := cycle_waiting halone h hcycle
    intro hloop
    unfold resolveLoop at hloop
    split at hloop
    · next hempty =>
      rw [hempty] at hc
      cases hc
    · next b rest hlist =>
      obtain ⟨u, hvisit, hloop⟩ := except_bind_ok hloop
      have hstep : Step filter funcBlockInfoMap f s u := ⟨b, rest, hlist, hvisit⟩
      obtain ⟨ops, info, hturned⟩ := visit_turned hvisit
      have hrec := reached_recorded h
      obtain ⟨x, hx⟩ := hcycle
      refine ih (.step h hstep) ⟨x, Relation.TransGen.mono (fun _ _ hedge => ?_) x x hx⟩ hloop
      exact ⟨losing_kept halone hrec (hrec.turned hturned) hturned hedge.1, hedge.2⟩

omit halone in
theorem resolveLoop_reached {s : ResolveState B} (h : Reached filter funcBlockInfoMap f s)
    (hempties : Empties filter funcBlockInfoMap f) :
    ∃ fuel t, resolveLoop filter funcBlockInfoMap f fuel s = .ok t := by
  induction h with
  | start =>
    obtain ⟨fuel, t, hloop, -⟩ := hempties
    exact ⟨fuel, t, hloop⟩
  | @step s t _ hstep ih =>
    obtain ⟨fuel, last, hloop⟩ := ih
    obtain ⟨b, rest, hlist, hvisit⟩ := hstep
    cases fuel with
    | zero =>
      simp only [resolveLoop, hlist] at hloop
      cases hloop
    | succ fuel =>
      unfold resolveLoop at hloop
      rw [hlist] at hloop
      dsimp only at hloop
      rw [hvisit] at hloop
      exact ⟨fuel, last, hloop⟩

theorem exists_step {s : ResolveState B} (hs : Recorded filter funcBlockInfoMap f s) {b : B}
    {rest : List B} :
    ∃ t, visit filter funcBlockInfoMap f b { s with blockList := rest } = .ok t := by
  obtain ⟨⟨ops, info⟩, hvisit⟩ := visitBlock_ok (hs.alone halone b) (s.inputBlockInfoMap b)
  unfold visit
  rw [hvisit]
  by_cases hout : s.outputBlockInfoMap b = some info
  · exact ⟨_, if_pos hout⟩
  · exact ⟨_, if_neg hout⟩

theorem step_acc (hno : ¬ ∃ s, Reached filter funcBlockInfoMap f s ∧
      LosingCycle filter funcBlockInfoMap f s) {s : ResolveState B}
    (hs : Reached filter funcBlockInfoMap f s) :
    Acc (fun t s => Step filter funcBlockInfoMap f s t) s := by
  have : Finite B := (Fintype.ofList f.blocks f.blocks_complete).finite
  have hturn (s t : ResolveState B) (hs : Reached filter funcBlockInfoMap f s)
      (hstep : Step filter funcBlockInfoMap f s t) :
      Turn ResolveState.blockList (rank funcBlockInfoMap f)
        (LosingEdge filter funcBlockInfoMap f) s t := by
    obtain ⟨b, rest, ops, info, hlist, hturned⟩ := step_turned hstep
    have hrec := reached_recorded hs
    exact turn_turned halone hrec (hrec.turned hturned) hlist hturned
  refine acc_of_turns (fun _ _ => Reached.step) hturn (fun s hs => ?_) s hs
  exact wellFounded_of_acyclic fun b hb => hno ⟨s, hs, b, Relation.transGen_swap.mp hb⟩

theorem resolveLoop_ends {s : ResolveState B}
    (hacc : Acc (fun t s => Step filter funcBlockInfoMap f s t) s)
    (hs : Reached filter funcBlockInfoMap f s) :
    ∃ fuel t, resolveLoop filter funcBlockInfoMap f fuel s = .ok t ∧ t.blockList = [] := by
  induction hacc with
  | intro s _ ih =>
    cases hlist : s.blockList with
    | nil => exact ⟨0, s, if_pos hlist, hlist⟩
    | cons b rest =>
      obtain ⟨t, hvisit⟩ := exists_step halone (reached_recorded hs)
      have hstep : Step filter funcBlockInfoMap f s t := ⟨b, rest, hlist, hvisit⟩
      obtain ⟨fuel, last, hloop, hempty⟩ := ih t hstep (.step hs hstep)
      refine ⟨fuel + 1, last, ?_, hempty⟩
      unfold resolveLoop
      rw [hlist]
      dsimp only
      rw [hvisit]
      exact hloop

/-- The worklist empties exactly when no state of the run has a cycle of
losing blocks. -/
theorem resolve_empties_iff : Empties filter funcBlockInfoMap f ↔
    ¬ ∃ s, Reached filter funcBlockInfoMap f s ∧ LosingCycle filter funcBlockInfoMap f s := by
  constructor
  · rintro hempties ⟨s, hs, hcycle⟩
    obtain ⟨fuel, t, hloop⟩ := resolveLoop_reached hs hempties
    exact resolveLoop_cycle halone hs hcycle fuel t hloop
  · exact fun hno => resolveLoop_ends halone (step_acc halone hno .start) .start

/-! Blocks that are never losing. -/

variable (funcBlockInfoMap f) in
/-- A block that synchronises from the start, or accesses nothing. -/
def Calm (b : B) : Prop :=
  Synchronises (f.ops b) ∨ accesses funcBlockInfoMap (f.ops b) = BlockInfo.empty

theorem calm_not_losing {s : ResolveState B} (h : Reached filter funcBlockInfoMap f s) {b : B}
    (hcalm : Calm funcBlockInfoMap f b) : ¬ Losing filter funcBlockInfoMap s b := by
  by_cases hfirst : Synchronises (f.ops b)
  · suffices hgen : Synchronises (s.ops b) ∧ ¬ Losing filter funcBlockInfoMap s b from hgen.2
    clear hcalm
    induction h with
    | start =>
      refine ⟨hfirst, ?_⟩
      rintro ⟨-, output, -, -, hout, -⟩
      simp [initialState] at hout
    | @step s t hs hstep ih =>
      obtain ⟨hsync, hnot⟩ := ih
      obtain ⟨c, rest, ops, info, -, hturned⟩ := step_turned hstep
      have hrec := reached_recorded hs
      refine ⟨hturned.synchronises hsync, fun hlosing => ?_⟩
      by_cases hcb : b = c
      · subst hcb
        have hvisit := hturned.visit
        rw [← hturned.self] at hvisit
        have hsame : t.outputBlockInfoMap b = some info := by
          rcases hturned.output with ⟨-, hnew, -⟩ | ⟨hdiffer, output, houtput, hnew, -⟩
          · exact hnew
          · cases hold : s.outputBlockInfoMap b with
            | none => rw [hnew, houtput, hold, Option.getD_none, empty_join]
            | some old =>
              -- a later visit finds what the first one recorded
              obtain ⟨ops₀, info₀, last, hlast, -⟩ := hrec.visited hold
              have hkept : last = old := by
                by_contra hne
                exact hnot ((losing_iff hlast hsync hold (hrec.alone halone b)).mpr hne)
              rw [hold, ← hkept, ← visitBlock_again hlast hsync hturned.visit] at hdiffer
              exact absurd rfl hdiffer
        exact (losing_iff hvisit (hturned.synchronises hsync) hsame
          ((hrec.turned hturned).alone halone b)).mp hlosing rfl
      · exact hnot ((losing_congr (hturned.others hcb).1 (hturned.others hcb).2).mp hlosing)
  · have hempty := hcalm.resolve_left hfirst
    suffices hgen : ¬ Synchronises (s.ops b) from fun hlosing => hgen hlosing.1
    clear hcalm
    induction h with
    | start => exact hfirst
    | @step s t hs hstep ih =>
      obtain ⟨c, rest, ops, info, -, hturned⟩ := step_turned hstep
      by_cases hcb : b = c
      · subst hcb
        have hrec := reached_recorded hs
        have hvisit := hturned.visit
        rw [visitBlock_accessless ih ((hrec.accesses b).trans hempty)] at hvisit
        cases hvisit
        rwa [hturned.self]
      · rwa [(hturned.others hcb).1]

/-- The worklist empties when every cycle of the graph has a block that
synchronises from the start or accesses nothing, such as the header of a
counted loop. -/
theorem resolve_empties_of_calm
    (hcalm : ∀ b, ¬ Relation.TransGen
      (fun c d => ¬ Calm funcBlockInfoMap f c ∧ d ∈ (f.terminator c).successors) b b) :
    Empties filter funcBlockInfoMap f := by
  refine resolveLoop_ends halone (step_acc halone ?_ .start) .start
  rintro ⟨s, hs, b, hb⟩
  refine hcalm b (Relation.TransGen.mono (fun c d hedge => ⟨fun hc => ?_, hedge.2⟩) b b hb)
  exact calm_not_losing halone hs hc hedge.1

end Resolve

/-- `reuseLoop` conflicts with itself on its first visit already. -/
theorem resolve_empties_iff_reuseLoop :
    ¬ ∃ s, Reached none (fun _ => .empty) reuseLoop s ∧
      LosingCycle none (fun _ => .empty) reuseLoop s := by
  refine (resolve_empties_iff ?_).mp ⟨8, _, rfl, rfl⟩
  intro b
  cases b <;> decide

theorem zero_le_eight : 0 ≤ 8 := Nat.zero_le 8

/-- A loop of one block that reads one buffer and then writes another, between
an entry and a return. -/
def shrinkLoop : Function (Fin 3) where
  blocks := [0, 1, 2]
  blocks_complete := by decide
  entry := 0
  ops b := if b = 1 then
    [.effects 0 [⟨0, 8, zero_le_eight⟩] [] none, .effects 1 [] [⟨8, 16, by decide⟩] none] else []
  terminator b := if b = 0 then .branch [1] else if b = 1 then .branch [1, 2] else .ret

/-- The same loop with a header of its own, as for a counted loop. -/
def countedLoop : Function (Fin 4) where
  blocks := [0, 1, 2, 3]
  blocks_complete := by decide
  entry := 0
  ops b := if b = 2 then shrinkLoop.ops 1 else []
  terminator b := if b = 0 ∨ b = 2 then .branch [1] else if b = 1 then .branch [2, 3] else .ret

theorem resolve_empties_of_calm_countedLoop : Empties none (fun _ => .empty) countedLoop := by
  refine resolve_empties_of_calm (by decide) fun b hcycle => ?_
  have hedge : ∀ c d, ¬ Calm (fun _ => .empty) countedLoop c ∧
      d ∈ (countedLoop.terminator c).successors → c = 2 ∧ d = 1 := by
    rintro c d ⟨hcalm, hd⟩
    by_cases hc : c = 2
    · subst hc
      exact ⟨rfl, List.mem_singleton.mp hd⟩
    · exact absurd (.inr (by simp [countedLoop, hc, accesses])) hcalm
  -- what ends in the header does not begin there
  cases hcycle with
  | single h =>
    obtain ⟨rfl, h⟩ := hedge _ _ h
    exact absurd h (by decide)
  | tail hpath h =>
    obtain ⟨-, rfl⟩ := hedge _ _ h
    obtain ⟨d, hfirst, -⟩ := Relation.TransGen.head'_iff.mp hpath
    exact absurd (hedge _ _ hfirst).1 (by decide)

/-- The second visit of the loop puts a barrier before the write, and from then
on the read is recorded but no longer pending. -/
theorem shrinkLoop_losing : ∃ s, Reached none (fun _ => .empty) shrinkLoop s ∧
    LosingCycle none (fun _ => .empty) shrinkLoop s := by
  refine ⟨_, .step (.step (.step .start ⟨0, [], rfl, rfl⟩) ⟨1, [], rfl, rfl⟩)
    ⟨1, [2], rfl, rfl⟩, 1,
    .single ⟨⟨⟨.barrier, by decide, trivial⟩, _, _, _, rfl, rfl, ?_⟩, by decide⟩⟩
  decide

theorem shrinkLoop_never_empties : ¬ Empties none (fun _ => .empty) shrinkLoop := by
  rintro ⟨fuel, t, hloop, hempty⟩
  obtain ⟨s, hs, hcycle⟩ := shrinkLoop_losing
  obtain ⟨fuel', t', hloop'⟩ := resolveLoop_reached hs ⟨fuel, t, hloop, hempty⟩
  exact resolveLoop_cycle (by decide) hs hcycle fuel' t' hloop'

end TritonCpu.MembarTermination
