import TritonCpu.MembarTrace

/-!
# Soundness of the barrier analysis inside a function

The worklist changes the transfer function while it runs, so the fixed point
is stated about the block bodies of the final state. Every block whose output
is recorded either waits on the worklist or passes its own transfer from its
recorded input, and every recorded output has reached the successors.
-/

set_option autoImplicit false

namespace TritonCpu.MembarSound
open Membar SyncTrace MembarTrace

section Blocks

variable (funcBlockInfoMap : FuncId → BlockInfo) (callRun callPart : FuncId → ℕ → Trace → Prop)

/-- The summary of a callee stands for the accesses of its executions, whether
the call returns or not. -/
def CallSound (callee : FuncId) (offset : ℕ) : Prop :=
  ∀ (info : BlockInfo) (P : Set Access), Covers info P →
    ¬ info.isIntersected none (funcBlockInfoMap callee) →
    (∀ tr, callRun callee offset tr → Safe Conflict P tr ∧
      Covers (info.join (funcBlockInfoMap callee)) (pending P tr)) ∧
    ∀ tr, callPart callee offset tr → Safe Conflict P tr

def CallsSound (ops : List Op) : Prop :=
  ∀ id callee offset, Op.call id callee offset ∈ ops →
    CallSound funcBlockInfoMap callRun callPart callee offset

variable {funcBlockInfoMap callRun callPart}

theorem effects_sound {info cur : BlockInfo} {P : Set Access} {a : Access}
    (hP : Covers info P) (ha : Covers cur {a}) (h : ¬ info.isIntersected none cur) :
    Safe Conflict P [.access a] ∧ Covers (info.join cur) (pending P [.access a]) := by
  refine ⟨⟨fun x hx hc => h (conflict_intersected hP ha hx rfl hc), trivial⟩, ?_⟩
  exact covers_insert (covers_mono hP (le_join_left _ _)) (covers_mono ha (le_join_right _ _))

theorem op_sound {op : Op} {info info' : BlockInfo} {P : Set Access} {tr : Trace}
    (hcall : CallsSound funcBlockInfoMap callRun callPart [op]) (hP : Covers info P)
    (ht : transfer none funcBlockInfoMap op info = some info') (hr : OpRun callRun op tr) :
    Safe Conflict P tr ∧ Covers info' (pending P tr) := by
  cases hr with
  | barrier => exact ⟨trivial, covers_empty _⟩
  | asyncWait =>
    cases ht
    exact ⟨trivial, hP⟩
  | effects id reads writes =>
    simp only [transfer, Option.ite_none_left_eq_some, Option.some.injEq] at ht
    obtain ⟨hc, rfl⟩ := ht
    exact effects_sound hP (covers_effects id reads writes) hc
  | scratch id reads writes interval =>
    simp only [transfer, Option.ite_none_left_eq_some, Option.some.injEq] at ht
    obtain ⟨hc, rfl⟩ := ht
    have hw : Covers ⟨∅, {(interval, id)}⟩ {⟨[], [interval]⟩} := by
      rintro a rfl
      simp
    have hr : Covers ⟨{(interval, id)}, {(interval, id)}⟩ {⟨[interval], []⟩} := by
      rintro a rfl
      simp
    refine ⟨⟨(effects_sound hP hw hc).1.1, ?_⟩, ?_⟩
    · exact ⟨fun x hx => hx.elim, trivial⟩
    · exact covers_insert (covers_empty _) (covers_mono hr (le_join_right _ _))
  | call id callee offset tr h =>
    simp only [transfer, Option.ite_none_left_eq_some, Option.some.injEq] at ht
    obtain ⟨hc, rfl⟩ := ht
    exact (hcall id callee offset (by simp) info P hP hc).1 tr h

theorem ops_sound {ops : List Op} {info info' : BlockInfo} {P : Set Access} {tr : Trace}
    (hcall : CallsSound funcBlockInfoMap callRun callPart ops) (hP : Covers info P)
    (ht : transferBlock none funcBlockInfoMap ops info = some info')
    (hr : OpsRun callRun ops tr) :
    Safe Conflict P tr ∧ Covers info' (pending P tr) := by
  induction hr generalizing info P with
  | nil =>
    cases ht
    exact ⟨trivial, hP⟩
  | @cons op rest s t h hr ih =>
    obtain ⟨mid, hm, ht⟩ := Option.bind_eq_some_iff.mp ht
    have hop := op_sound (fun id g off hg => hcall id g off (by simp_all)) hP hm h
    have hrest := ih (fun id g off hg => hcall id g off (by simp [hg])) hop.2 ht
    rw [safe_append, pending_append]
    exact ⟨⟨hop.1, hrest.1⟩, hrest.2⟩

/-- A post-fixed point of the transfer functions of the final bodies, whose
returns are below the summary. -/
structure PostFixed {B : Type} (funcBlockInfoMap : FuncId → BlockInfo) (f : Function B)
    (summary : BlockInfo) (input : B → BlockInfo) (reached : B → Prop) : Prop where
  entry : reached f.entry
  block : ∀ b, reached b → ∃ info, transferBlock none funcBlockInfoMap (f.ops b) (input b) =
    some info ∧ (∀ c ∈ (f.terminator b).successors, reached c ∧ Le info (input c)) ∧
      (f.terminator b = .ret → Le info summary)

variable {B : Type} {f : Function B} {summary : BlockInfo} {input : B → BlockInfo}
  {reached : B → Prop} (hf : PostFixed funcBlockInfoMap f summary input reached)
  (hcall : ∀ b, CallsSound funcBlockInfoMap callRun callPart (f.ops b)) {b : B} {tr : Trace}

include hf hcall

/-- Along every path the pending accesses stay below the inputs, and no
access conflicts with a pending one. -/
theorem run_safe (hr : Run callRun callPart f b tr) (P : Set Access) (hb : reached b)
    (hP : Covers (input b) P) : Safe Conflict P tr := by
  induction hr generalizing P with
  | @halt b done rest tr hops h =>
    obtain ⟨info, ht, -⟩ := hf.block b hb
    rw [hops, transferBlock_append] at ht
    obtain ⟨mid, hm, -⟩ := Option.bind_eq_some_iff.mp ht
    have hdone : CallsSound funcBlockInfoMap callRun callPart done :=
      fun id g off hg => hcall b id g off (by simp [hops, hg])
    exact (ops_sound hdone hP hm h).1
  | @haltCall b done rest id callee offset s t hops h hc =>
    obtain ⟨info, ht, -⟩ := hf.block b hb
    rw [hops, transferBlock_append] at ht
    obtain ⟨mid, hm, hrest⟩ := Option.bind_eq_some_iff.mp ht
    have hdone : CallsSound funcBlockInfoMap callRun callPart done :=
      fun id g off hg => hcall b id g off (by simp [hops, hg])
    have hs := ops_sound hdone hP hm h
    obtain ⟨next, hnext, -⟩ := Option.bind_eq_some_iff.mp hrest
    simp only [transfer, Option.ite_none_left_eq_some] at hnext
    rw [safe_append]
    exact ⟨hs.1, (hcall b id callee offset (by simp [hops]) mid _ hs.2 hnext.1).2 t hc⟩
  | @step b c s t h hc hr ih =>
    obtain ⟨info, ht, hsucc, -⟩ := hf.block b hb
    have hs := ops_sound (hcall b) hP ht h
    have hle := hsucc c hc
    rw [safe_append]
    exact ⟨hs.1, ih (pending P s) hle.1 (covers_mono hs.2 hle.2)⟩

theorem complete_safe (hr : Complete callRun f b tr) (P : Set Access) (hb : reached b)
    (hP : Covers (input b) P) : Safe Conflict P tr ∧ Covers summary (pending P tr) := by
  induction hr generalizing P with
  | @ret b tr hret h =>
    obtain ⟨info, ht, -, hsum⟩ := hf.block b hb
    have hs := ops_sound (hcall b) hP ht h
    exact ⟨hs.1, covers_mono hs.2 (hsum hret)⟩
  | @step b c s t h hc hr ih =>
    obtain ⟨info, ht, hsucc, -⟩ := hf.block b hb
    have hs := ops_sound (hcall b) hP ht h
    have hle := hsucc c hc
    have hrest := ih (pending P s) hle.1 (covers_mono hs.2 hle.2)
    rw [safe_append, pending_append]
    exact ⟨⟨hs.1, hrest.1⟩, hrest.2⟩

end Blocks

def withoutBarriers (ops : List Op) : List Op := ops.filter (· ≠ .barrier)

section Visit

variable (filter : MembarFilterFn) (funcBlockInfoMap : FuncId → BlockInfo)

theorem update_keeps (op : Op) (next : Option Op) (info info' : BlockInfo) (ops : List Op)
    (h : update filter funcBlockInfoMap op next info = .ok (ops, info')) :
    withoutBarriers ops = withoutBarriers [op] := by
  cases op with
  | barrier =>
    cases h
    rfl
  | asyncWait =>
    simp only [update] at h
    split_ifs at h <;> cases h <;> simp [withoutBarriers]
  | effects id reads writes scratch =>
    cases scratch with
    | none =>
      cases h
      unfold barrierIf
      split_ifs <;> simp [withoutBarriers]
    | some interval =>
      simp only [update] at h
      split_ifs at h
      cases h
      unfold barrierIf
      split_ifs <;> simp [withoutBarriers]
  | call id callee offset =>
    cases h
    unfold barrierIf
    split_ifs <;> simp [withoutBarriers]

theorem visitBlock_keeps (ops ops' : List Op) (info info' : BlockInfo)
    (h : visitBlock filter funcBlockInfoMap ops info = .ok (ops', info')) :
    withoutBarriers ops' = withoutBarriers ops := by
  induction ops generalizing info info' ops' with
  | nil =>
    cases h
    rfl
  | cons op rest ih =>
    obtain ⟨⟨head, mid⟩, hu, h⟩ := except_bind_ok h
    obtain ⟨⟨tail, last⟩, hv, h⟩ := except_bind_ok h
    cases h
    have hhead := update_keeps filter funcBlockInfoMap op _ _ _ _ hu
    have htail := ih _ _ _ hv
    simp only [withoutBarriers, List.filter_append, ← List.singleton_append (l := rest)] at *
    rw [hhead, htail]

end Visit

section Worklist

variable {B : Type} (funcBlockInfoMap : FuncId → BlockInfo) (f : Function B)

/-- A block the analysis need not visit again unless its input grows. -/
def Settled (s : ResolveState B) (b : B) : Prop :=
  ∃ output info, s.outputBlockInfoMap b = some output ∧
    transferBlock none funcBlockInfoMap (s.ops b) (s.inputBlockInfoMap b) = some info ∧
    Le info output

def Handled (s : ResolveState B) (b : B) : Prop :=
  b ∈ s.blockList ∨ Settled funcBlockInfoMap s b

structure Inv (s : ResolveState B) : Prop where
  entry : Handled funcBlockInfoMap s f.entry
  successors : ∀ b output, s.outputBlockInfoMap b = some output →
    ∀ c ∈ (f.terminator b).successors,
      Le output (s.inputBlockInfoMap c) ∧ Handled funcBlockInfoMap s c
  keeps : ∀ b, withoutBarriers (s.ops b) = withoutBarriers (f.ops b)

theorem initial_inv : Inv funcBlockInfoMap f (initialState f) where
  entry := .inl (by simp [initialState])
  successors b output h := by simp [initialState] at h
  keeps _ := rfl

theorem settled_congr (s t : ResolveState B) {b : B} (ho : t.ops b = s.ops b)
    (hi : t.inputBlockInfoMap b = s.inputBlockInfoMap b)
    (hout : t.outputBlockInfoMap b = s.outputBlockInfoMap b)
    (h : Settled funcBlockInfoMap s b) : Settled funcBlockInfoMap t b := by
  simpa [Settled, ho, hi, hout] using h

variable [DecidableEq B]

/-- The recorded outputs and the block bodies do not change while the
successors are pushed; inputs grow only at blocks that are pushed. -/
structure Pushed (output : BlockInfo) (successors : List B) (s t : ResolveState B) : Prop where
  ops : t.ops = s.ops
  outputs : t.outputBlockInfoMap = s.outputBlockInfoMap
  inputs : ∀ c, Le (s.inputBlockInfoMap c) (t.inputBlockInfoMap c)
  bounded : ∀ c, Le (t.inputBlockInfoMap c) ((s.inputBlockInfoMap c).join output)
  unchanged : ∀ c, c ∉ successors → t.inputBlockInfoMap c = s.inputBlockInfoMap c
  waiting : ∀ c ∈ s.blockList, c ∈ t.blockList
  reached : ∀ c ∈ successors, Le output (t.inputBlockInfoMap c) ∧ c ∈ t.blockList

theorem pushSuccessors_pushed (output : BlockInfo) (successors : List B)
    (s : ResolveState B) : Pushed output successors s (pushSuccessors output successors s) := by
  induction successors generalizing s with
  | nil =>
    exact ⟨rfl, rfl, fun c => le_refl _, fun c => le_join_left _ _, fun c _ => rfl,
      fun c h => h, by simp⟩
  | cons d rest ih =>
    have h := ih { s with
      inputBlockInfoMap := Function.update s.inputBlockInfoMap d
        ((s.inputBlockInfoMap d).join output)
      blockList := s.blockList ++ [d] }
    have hd : Le output ((pushSuccessors output (d :: rest) s).inputBlockInfoMap d) := by
      refine le_trans ?_ (h.inputs d)
      simpa using le_join_right (s.inputBlockInfoMap d) output
    refine ⟨h.ops, h.outputs, fun c => le_trans ?_ (h.inputs c),
      fun c => le_trans (h.bounded c) ?_, fun c hc => ?_,
      fun c hc => h.waiting c (by simp [hc]), fun c hc => ?_⟩
    · by_cases hcd : c = d
      · subst hcd
        simpa using le_join_left (s.inputBlockInfoMap c) output
      · simpa [hcd] using le_refl (s.inputBlockInfoMap c)
    · by_cases hcd : c = d
      · subst hcd
        simpa using join_le (le_refl _) (le_join_right _ _)
      · simpa [hcd] using le_refl _
    · have hcd : c ≠ d := fun e => hc (by simp [e])
      have hcr : c ∉ rest := fun e => hc (by simp [e])
      exact (h.unchanged c hcr).trans (by simp [hcd])
    · rcases List.mem_cons.mp hc with rfl | hc
      · exact ⟨hd, h.waiting c (by simp)⟩
      · exact h.reached c hc

theorem visit_cases {filter : MembarFilterFn} {s t : ResolveState B} {b : B} {rest : List B}
    (h : visit filter funcBlockInfoMap f b { s with blockList := rest } = .ok t) :
    ∃ ops info, visitBlock filter funcBlockInfoMap (s.ops b) (s.inputBlockInfoMap b) =
        .ok (ops, info) ∧
      ((s.outputBlockInfoMap b = some info ∧
          t = { s with ops := Function.update s.ops b ops, blockList := rest }) ∨
        ∃ output, output = ((s.outputBlockInfoMap b).getD BlockInfo.empty).join info ∧
          Pushed output (f.terminator b).successors
            { s with ops := Function.update s.ops b ops, blockList := rest,
                     outputBlockInfoMap := Function.update s.outputBlockInfoMap b (some output) }
            t) := by
  obtain ⟨⟨ops, info⟩, hv, h⟩ := except_bind_ok h
  refine ⟨ops, info, hv, ?_⟩
  dsimp only at h
  split_ifs at h with hout
  · cases h
    exact .inl ⟨hout, rfl⟩
  · cases h
    exact .inr ⟨_, rfl, pushSuccessors_pushed _ _ _⟩

theorem resolveLoop_induction {filter : MembarFilterFn} {P : ResolveState B → Prop}
    (step : ∀ s t b rest, P s → s.blockList = b :: rest →
      visit filter funcBlockInfoMap f b { s with blockList := rest } = .ok t → P t)
    (fuel : ℕ) (s t : ResolveState B) (hs : P s)
    (h : resolveLoop filter funcBlockInfoMap f fuel s = .ok t) : P t ∧ t.blockList = [] := by
  induction fuel generalizing s with
  | zero =>
    simp only [resolveLoop] at h
    split_ifs at h with he
    cases h
    exact ⟨hs, he⟩
  | succ fuel ih =>
    unfold resolveLoop at h
    split at h
    · next hl =>
      cases h
      exact ⟨hs, hl⟩
    · next b rest hl =>
      obtain ⟨u, hu, h⟩ := except_bind_ok h
      exact ih u (step s u b rest hs hl hu) h

theorem visit_inv (s t : ResolveState B) (b : B) (rest : List B)
    (hs : Inv funcBlockInfoMap f s) (hl : s.blockList = b :: rest)
    (h : visit none funcBlockInfoMap f b { s with blockList := rest } = .ok t) :
    Inv funcBlockInfoMap f t := by
  obtain ⟨ops, info, hv, h⟩ := visit_cases funcBlockInfoMap f h
  have htr := visitBlock_transfer none funcBlockInfoMap _ _ _ _ hv
  have hkeep := visitBlock_keeps none funcBlockInfoMap _ _ _ _ hv
  have hkeeps : ∀ c, withoutBarriers (Function.update s.ops b ops c) =
      withoutBarriers (f.ops c) := by
    intro c
    by_cases hcb : c = b
    · subst hcb
      simpa using hkeep.trans (hs.keeps c)
    · simpa [hcb] using hs.keeps c
  have hold : ∀ c, c ≠ b → c ∈ s.blockList → c ∈ rest := by
    intro c hcb hc
    rw [hl] at hc
    simpa [hcb] using hc
  rcases h with ⟨hout, rfl⟩ | ⟨output, houtput, hp⟩
  · -- the output is unchanged: only `b` leaves the worklist, and it is settled
    have hb : ∀ c, Handled funcBlockInfoMap s c → Handled funcBlockInfoMap
        { s with ops := Function.update s.ops b ops, blockList := rest } c := by
      intro c hc
      by_cases hcb : c = b
      · subst hcb
        exact .inr ⟨info, info, hout, by simpa using htr, le_refl _⟩
      · rcases hc with hc | hc
        · exact .inl (hold c hcb hc)
        · exact .inr (settled_congr funcBlockInfoMap s _ (by simp [hcb]) rfl rfl hc)
    exact ⟨hb _ hs.entry, fun c o ho d hd => ⟨(hs.successors c o ho d hd).1,
      hb d (hs.successors c o ho d hd).2⟩, hkeeps⟩
  · have hb : ∀ c, Handled funcBlockInfoMap s c → Handled funcBlockInfoMap t c := by
      intro c hc
      by_cases hcs : c ∈ (f.terminator b).successors
      · exact .inl (hp.reached c hcs).2
      have hci := hp.unchanged c hcs
      by_cases hcb : c = b
      · subst hcb
        refine .inr ⟨output, info, by simp [hp.outputs], ?_, houtput ▸ le_join_right _ _⟩
        rw [hp.ops, hci]
        simpa using htr
      · rcases hc with hc | hc
        · exact .inl (hp.waiting c (hold c hcb hc))
        · exact .inr (settled_congr funcBlockInfoMap s t (by simp [hp.ops, hcb]) hci
            (by simp [hp.outputs, hcb]) hc)
    refine ⟨hb _ hs.entry, fun c o ho d hd => ?_, by rw [hp.ops]; exact hkeeps⟩
    rw [hp.outputs] at ho
    by_cases hcb : c = b
    · subst hcb
      simp only [Function.update_self, Option.some.injEq] at ho
      subst ho
      exact ⟨(hp.reached d hd).1, .inl (hp.reached d hd).2⟩
    · have ho' : s.outputBlockInfoMap c = some o := by simpa [hcb] using ho
      have hcd := hs.successors c o ho' d hd
      exact ⟨le_trans hcd.1 (hp.inputs d), hb d hcd.2⟩

theorem resolve_ok {filter : MembarFilterFn} {fuel : ℕ} {f' : Function B} {summary : BlockInfo}
    (h : resolve filter funcBlockInfoMap fuel f = .ok (f', summary)) :
    ∃ t, resolveLoop filter funcBlockInfoMap f fuel (initialState f) = .ok t ∧
      f' = { f with ops := t.ops } ∧ summary = danglingInfo f t := by
  obtain ⟨t, ht, h⟩ := except_bind_ok h
  cases h
  exact ⟨t, ht, rfl, rfl⟩

theorem danglingInfo_le (t : ResolveState B) (b : B) (output : BlockInfo)
    (hout : t.outputBlockInfoMap b = some output) (hret : f.terminator b = .ret) :
    Le output (danglingInfo f t) := by
  suffices h : ∀ (blocks : List B) (info : BlockInfo), b ∈ blocks ∨ Le output info →
      Le output (blocks.foldl (fun info block =>
        if f.terminator block = .ret then
          info.join ((t.outputBlockInfoMap block).getD BlockInfo.empty)
        else info) info) from
    h f.blocks BlockInfo.empty (.inl (f.blocks_complete b))
  intro blocks
  induction blocks with
  | nil => simp
  | cons c rest ih =>
    intro info h
    refine ih _ ?_
    rcases h with h | h
    · rcases List.mem_cons.mp h with rfl | h
      · exact .inr (by simpa [hret, hout] using le_join_right info output)
      · exact .inl h
    · refine .inr ?_
      dsimp only
      split_ifs
      · exact le_trans h (le_join_left _ _)
      · exact h

theorem resolve_postFixed {fuel : ℕ} {f' : Function B} {summary : BlockInfo}
    (h : resolve none funcBlockInfoMap fuel f = .ok (f', summary)) :
    ∃ t : ResolveState B, f' = { f with ops := t.ops } ∧ Inv funcBlockInfoMap f t ∧
      PostFixed funcBlockInfoMap f' summary t.inputBlockInfoMap (Settled funcBlockInfoMap t) := by
  obtain ⟨t, hloop, rfl, rfl⟩ := resolve_ok funcBlockInfoMap f h
  obtain ⟨hinv, hnil⟩ := resolveLoop_induction funcBlockInfoMap f
    (visit_inv funcBlockInfoMap f) fuel _ t (initial_inv funcBlockInfoMap f) hloop
  have hdone : ∀ b, Handled funcBlockInfoMap t b → Settled funcBlockInfoMap t b := by
    rintro b (hb | hb)
    · simp [hnil] at hb
    · exact hb
  refine ⟨t, rfl, hinv, hdone _ hinv.entry, fun b hb => ?_⟩
  obtain ⟨output, info, hout, htr, hle⟩ := hb
  refine ⟨info, htr, fun c hc => ?_, fun hret => ?_⟩
  · have hs := hinv.successors b output hout c hc
    exact ⟨hdone c hs.2, le_trans hle hs.1⟩
  · exact le_trans hle (danglingInfo_le f t b output hout hret)

theorem resolve_keeps {fuel : ℕ} {f' : Function B} {summary : BlockInfo}
    (h : resolve none funcBlockInfoMap fuel f = .ok (f', summary)) (b : B) :
    withoutBarriers (f'.ops b) = withoutBarriers (f.ops b) := by
  obtain ⟨t, rfl, hinv, -⟩ := resolve_postFixed funcBlockInfoMap f h
  exact hinv.keeps b

end Worklist

def CallFree {B : Type} (f : Function B) : Prop :=
  ∀ b id callee offset, Op.call id callee offset ∉ f.ops b

theorem mem_withoutBarriers (ops : List Op) (id : OpId) (callee : FuncId) (offset : ℕ) :
    Op.call id callee offset ∈ withoutBarriers ops ↔ Op.call id callee offset ∈ ops := by
  simp [withoutBarriers]

/-- A loop that reads a buffer and overwrites it, followed by a return. -/
def reuseLoop : Function Bool where
  blocks := [false, true]
  blocks_complete := by decide
  entry := false
  ops b := if b then [] else
    [.effects 0 [⟨0, 8, by decide⟩] [] none, .effects 1 [] [⟨0, 8, by decide⟩] none]
  terminator b := if b then .ret else .branch [false, true]

end TritonCpu.MembarSound
