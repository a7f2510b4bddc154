import TritonCpu.MembarSummary

/-!
# Barriers across calls

The post-order walk resolves every callee before its callers, so each summary
a function uses is the final one. By induction on the depth of the calls,
every execution of a module whose calls are covered is synchronised. A call
that is not covered loses barriers.
-/

set_option autoImplicit false

namespace TritonCpu.MembarCalls
open Membar SyncTrace MembarTrace MembarSound MembarSummary

variable {B : Type}

section Guarded

variable {funcBlockInfoMap : FuncId → BlockInfo} {f f' : Function B}

theorem visitBlock_guarded {filter : MembarFilterFn} {ops ops' : List Op}
    {info info' : BlockInfo} (hg : ops.head? = some .barrier)
    (h : visitBlock filter funcBlockInfoMap ops info = .ok (ops', info')) :
    ops'.head? = some .barrier := by
  obtain ⟨rest, rfl⟩ : ∃ rest, ops = .barrier :: rest := by
    cases ops with
    | nil => cases hg
    | cons op rest => exact ⟨rest, by simpa using hg⟩
  obtain ⟨⟨head, mid⟩, hu, h⟩ := except_bind_ok h
  obtain ⟨⟨tail, last⟩, hv, h⟩ := except_bind_ok h
  cases h
  cases hu
  rfl

theorem resolve_guarded [DecidableEq B] {fuel : ℕ} {summary : BlockInfo}
    (hg : (f.ops f.entry).head? = some .barrier)
    (h : resolve none funcBlockInfoMap fuel f = .ok (f', summary)) :
    (f'.ops f'.entry).head? = some .barrier := by
  obtain ⟨t, hloop, rfl, -⟩ := resolve_ok funcBlockInfoMap f h
  refine (resolveLoop_induction funcBlockInfoMap f
    (P := fun s => (s.ops f.entry).head? = some .barrier) ?_ fuel _ t hg hloop).1
  intro s t b rest hs hl hv
  obtain ⟨ops, info, hvisit, hcase⟩ := visit_cases funcBlockInfoMap f hv
  have hupdate : (Function.update s.ops b ops f.entry).head? = some .barrier := by
    by_cases hb : f.entry = b
    · subst hb
      simpa using visitBlock_guarded hs hvisit
    · simpa [hb] using hs
  rcases hcase with ⟨-, rfl⟩ | ⟨output, -, hp⟩
  · exact hupdate
  · exact hp.ops ▸ hupdate

variable {callRun callPart : FuncId → ℕ → Trace → Prop}

theorem guarded_ops_exposed {ops : List Op} {tr : Trace} (hg : ops.head? = some .barrier)
    (h : OpsRun callRun ops tr) : exposed tr = ∅ := by
  cases h with
  | nil => cases hg
  | cons hop hrest =>
    cases hg
    cases hop
    rfl

theorem guarded_exposed_append {ops : List Op} {s t : Trace} (hg : ops.head? = some .barrier)
    (h : OpsRun callRun ops s) : exposed (s ++ t) = ∅ := by
  cases h with
  | nil => cases hg
  | cons hop hrest =>
    cases hg
    cases hop
    rfl

theorem guarded_run_exposed {b : B} {tr : Trace} (hg : (f.ops b).head? = some .barrier)
    (h : Run callRun callPart f b tr) : exposed tr = ∅ := by
  cases h with
  | @halt _ done rest _ hops h =>
    cases done with
    | nil =>
      cases h
      rfl
    | cons op done =>
      rw [hops] at hg
      exact guarded_ops_exposed (by simpa using hg) h
  | @haltCall _ done rest id callee offset s t hops h hc =>
    rw [hops] at hg
    cases done with
    | nil => cases hg
    | cons op done => exact guarded_exposed_append (by simpa using hg) h
  | step h hstep hr => exact guarded_exposed_append hg h

end Guarded

section Silent

variable {body : FuncId → Function B} {callRun callPart : FuncId → ℕ → Trace → Prop}

def Idle (tr : Trace) : Prop := ∀ a, .access a ∈ tr → a.reads = [] ∧ a.writes = []

theorem idle_append {s t : Trace} (hs : Idle s) (ht : Idle t) : Idle (s ++ t) := by
  intro a ha
  rcases List.mem_append.mp ha with ha | ha
  · exact hs a ha
  · exact ht a ha

theorem idle_shift {offset : ℕ} {tr : Trace} (h : Idle tr) : Idle (shiftTrace offset tr) := by
  intro a ha
  obtain ⟨e, he, hmap⟩ := List.mem_map.mp ha
  cases e with
  | sync => cases hmap
  | access c =>
    cases hmap
    simp [Access.shift, h c he]

theorem idle_safe {tr : Trace} (h : Idle tr) (P : Set Access) : Safe Conflict P tr := by
  induction tr generalizing P with
  | nil => trivial
  | cons e tr ih =>
    have htr : Idle tr := fun a ha => h a (by simp [ha])
    cases e with
    | sync => exact ih htr ∅
    | access a =>
      obtain ⟨hr, hw⟩ := h a (by simp)
      exact ⟨fun x _ => by simp [Conflict, AnyIntersect, hr, hw], ih htr _⟩

theorem idle_covers {tr : Trace} (h : Idle tr) {info : BlockInfo} {P : Set Access}
    (hP : Covers info P) : Covers info (pending P tr) := by
  induction tr generalizing P with
  | nil => exact hP
  | cons e tr ih =>
    have htr : Idle tr := fun a ha => h a (by simp [ha])
    cases e with
    | sync => exact ih htr (covers_empty info)
    | access a =>
      obtain ⟨hr, hw⟩ := h a (by simp)
      refine ih htr (covers_insert hP ?_)
      rintro x rfl
      simp [hr, hw]

theorem idle_exposed {tr : Trace} (h : Idle tr) (info : BlockInfo) : Covers info (exposed tr) := by
  induction tr with
  | nil => exact covers_empty info
  | cons e tr ih =>
    cases e with
    | sync => exact covers_empty info
    | access a =>
      obtain ⟨hr, hw⟩ := h a (by simp)
      refine covers_insert (ih fun x hx => h x (by simp [hx])) ?_
      rintro x rfl
      simp [hr, hw]

theorem silent_callee {id : OpId} {callee : FuncId} {offset : ℕ}
    (h : ¬ Touches body (.call id callee offset)) : Silent body callee :=
  fun _ _ hop ⟨a, ha, hne⟩ => h ⟨a, .call hop ha, hne⟩

def CallsIdle (body : FuncId → Function B) (call : FuncId → ℕ → Trace → Prop) : Prop :=
  ∀ callee offset tr, Silent body callee → call callee offset tr → Idle tr

theorem op_idle {op : Op} {tr : Trace} (hc : CallsIdle body callRun) (hop : ¬ Touches body op)
    (h : OpRun callRun op tr) : Idle tr := by
  cases h with
  | barrier => simp [Idle]
  | asyncWait => simp [Idle]
  | effects id reads writes =>
    intro a ha
    have ha : a = ⟨reads, writes⟩ := by simpa using ha
    by_contra hne
    refine hop ⟨_, .effects id reads writes, ?_⟩
    subst ha
    simpa [or_iff_not_imp_left] using hne
  | scratch id reads writes interval =>
    exact absurd ⟨_, .scratch id reads writes interval, .inl (by simp)⟩ hop
  | call id callee offset tr h => exact hc callee offset tr (silent_callee hop) h

theorem ops_idle {ops : List Op} {tr : Trace} (hc : CallsIdle body callRun)
    (hops : ∀ op ∈ ops, ¬ Touches body op) (h : OpsRun callRun ops tr) : Idle tr := by
  induction h with
  | nil => simp [Idle]
  | @cons op rest s t hop hrest ih =>
    exact idle_append (op_idle hc (hops op (by simp)) hop) (ih fun o ho => hops o (by simp [ho]))

theorem run_idle {f : Function B} {b : B} {tr : Trace} (hc : CallsIdle body callRun)
    (hp : CallsIdle body callPart) (hf : ∀ b, ∀ op ∈ f.ops b, ¬ Touches body op)
    (h : Run callRun callPart f b tr) : Idle tr := by
  induction h with
  | @halt b done rest tr hops h => exact ops_idle hc (fun op ho => hf b op (by simp [hops, ho])) h
  | @haltCall b done rest id callee offset s t hops h hpart =>
    have hcall := hf b (.call id callee offset) (by simp [hops])
    exact idle_append (ops_idle hc (fun op ho => hf b op (by simp [hops, ho])) h)
      (hp callee offset t (silent_callee hcall) hpart)
  | @step b c s t h hstep hr ih => exact idle_append (ops_idle hc (hf b) h) ih

/-- `after` runs the bodies of `before` with barriers added. -/
def OnlyBarriersAdded (before after : FuncId → Function B) : Prop :=
  ∀ f b, withoutBarriers ((after f).ops b) = withoutBarriers ((before f).ops b)

theorem silent_idle {before after : FuncId → Function B}
    (hkeep : OnlyBarriersAdded before after) (n : ℕ) (f : FuncId) (hf : Silent before f) :
    (∀ tr, completeAt after n f tr → Idle tr) ∧ ∀ tr, partialAt after n f tr → Idle tr := by
  induction n generalizing f with
  | zero => exact ⟨fun _ h => h.elim, fun _ h => h.elim⟩
  | succ n ih =>
    have hops : ∀ b, ∀ op ∈ (after f).ops b, ¬ Touches before op := by
      intro b op hop
      rcases keeps_blockOps (hkeep f b) op hop with rfl | hop
      · rintro ⟨a, ha, -⟩
        cases ha
      · exact hf b op hop
    have hcomplete : CallsIdle before fun callee offset t =>
        ∃ s, completeAt after n callee s ∧ t = shiftTrace offset s := by
      rintro callee offset _ hs ⟨s, hrun, rfl⟩
      exact idle_shift ((ih callee hs).1 s hrun)
    have hpartial : CallsIdle before fun callee offset t =>
        ∃ s, partialAt after n callee s ∧ t = shiftTrace offset s := by
      rintro callee offset _ hs ⟨s, hrun, rfl⟩
      exact idle_shift ((ih callee hs).2 s hrun)
    exact ⟨fun tr h => run_idle hcomplete hpartial hops h.run, fun tr h => run_idle hcomplete hpartial hops h⟩

end Silent

section Walk

theorem call_within {body : FuncId → Function B} {ops : Set Op} {id : OpId} {callee : FuncId}
    {offset : ℕ} {info : BlockInfo}
    (hops : ops ⊆ {op | ∃ b, op ∈ (body callee).ops b}) (h : Within body ops info) :
    Within body {.call id callee offset} info := by
  refine ⟨fun i j hi => ?_, fun i j hi => ?_⟩
  · obtain ⟨op, hop, a, ha, hia⟩ := h.1 i j hi
    obtain ⟨b, hb⟩ := hops hop
    exact ⟨_, rfl, a, .call hb ha, hia⟩
  · obtain ⟨op, hop, a, ha, hia⟩ := h.2 i j hi
    obtain ⟨b, hb⟩ := hops hop
    exact ⟨_, rfl, a, .call hb ha, hia⟩

theorem mem_callees {f : Function B} {b : B} {id : OpId} {callee : FuncId} {offset : ℕ}
    (h : Op.call id callee offset ∈ f.ops b) : callee ∈ f.callees :=
  List.mem_flatMap.mpr ⟨b, f.blocks_complete b, List.mem_filterMap.mpr ⟨_, h, rfl⟩⟩

variable [DecidableEq B] (fuel : ℕ) (m : Module B)

/-- Every analysed function was resolved with the final summaries of its
callees. -/
structure ModuleInv (s : ModuleState B) : Prop where
  resolved : ∀ f summary, s.funcMap f = some summary → ∃ infoMap,
    resolve none infoMap fuel (m.body f) = .ok (s.body f, summary) ∧
      ∀ callee ∈ (m.body f).callees, s.funcMap callee = some (infoMap callee)
  untouched : ∀ f, s.funcMap f = none → s.body f = m.body f

def Analysed (s : ModuleState B) (f : FuncId) : Prop := ∃ summary, s.funcMap f = some summary

def Extends (s t : ModuleState B) : Prop :=
  ∀ f summary, s.funcMap f = some summary → t.funcMap f = some summary

variable {fuel m}

theorem empty_join (info : BlockInfo) : BlockInfo.empty.join info = info := by
  ext <;> simp [BlockInfo.join, BlockInfo.empty]

theorem updateNode_inv {f : FuncId} {s t : ModuleState B} (hs : ModuleInv fuel m s)
    (hcallees : ∀ callee ∈ (m.body f).callees, Analysed s callee)
    (h : updateNode none fuel f s = .ok t) :
    ModuleInv fuel m t ∧ Extends s t ∧ Analysed t f := by
  unfold updateNode at h
  split at h
  · next summary hf =>
    cases h
    exact ⟨hs, fun _ _ h => h, summary, hf⟩
  · next hf =>
    obtain ⟨⟨body, summary⟩, hr, h⟩ := except_bind_ok h
    cases h
    simp only [empty_join, Function.update_idem]
    rw [hs.untouched f hf] at hr
    have hother : ∀ g, Analysed s g → g ≠ f := by
      rintro g ⟨S, hg⟩ rfl
      simp [hf] at hg
    have hextends : ∀ g S, s.funcMap g = some S →
        Function.update s.funcMap f (some summary) g = some S := by
      intro g S hg
      rw [Function.update_of_ne (hother g ⟨S, hg⟩)]
      exact hg
    refine ⟨⟨fun g S hg => ?_, fun g hg => ?_⟩, hextends, summary, by simp⟩
    · by_cases hgf : g = f
      · subst hgf
        simp only [Function.update_self, Option.some.injEq] at hg
        subst hg
        refine ⟨_, by simpa using hr, fun callee hc => ?_⟩
        obtain ⟨S, hS⟩ := hcallees callee hc
        refine (hextends callee S hS).trans ?_
        simp [ModuleState.lookup, hother callee ⟨S, hS⟩, hS]
      · obtain ⟨infoMap, hres, hc⟩ := hs.resolved g S (by simpa [hgf] using hg)
        exact ⟨infoMap, by simpa [hgf] using hres, fun callee hcallee =>
          hextends callee _ (hc callee hcallee)⟩
    · have hgf : g ≠ f := by
        rintro rfl
        simp at hg
      simpa [hgf] using hs.untouched g (by simpa [hgf] using hg)

theorem foldlM_walk {walk : FuncId → ModuleState B → Except Halt (ModuleState B)}
    (hwalk : ∀ f s t, ModuleInv fuel m s → walk f s = .ok t →
      ModuleInv fuel m t ∧ Extends s t ∧ Analysed t f)
    (l : List FuncId) (s t : ModuleState B) (hs : ModuleInv fuel m s)
    (h : l.foldlM (fun s f => walk f s) s = .ok t) :
    ModuleInv fuel m t ∧ Extends s t ∧ ∀ f ∈ l, Analysed t f := by
  induction l generalizing s with
  | nil =>
    cases h
    exact ⟨hs, fun _ _ h => h, by simp⟩
  | cons f rest ih =>
    rw [List.foldlM_cons] at h
    obtain ⟨u, hu, h⟩ := except_bind_ok h
    obtain ⟨hinv, hext, S, hS⟩ := hwalk f s u hs hu
    obtain ⟨hinv', hext', hrest⟩ := ih u hinv h
    refine ⟨hinv', fun g S hg => hext' g S (hext g S hg), fun g hg => ?_⟩
    rcases List.mem_cons.mp hg with rfl | hg
    · exact ⟨S, hext' g S hS⟩
    · exact hrest g hg

theorem doWalk_inv (depth : ℕ) (f : FuncId) (s t : ModuleState B) (hs : ModuleInv fuel m s)
    (h : doWalk none fuel m depth f s = .ok t) :
    ModuleInv fuel m t ∧ Extends s t ∧ Analysed t f := by
  induction depth generalizing f s t with
  | zero => cases h
  | succ depth ih =>
    obtain ⟨u, hu, h⟩ := except_bind_ok h
    obtain ⟨hinv, hext, hcallees⟩ := foldlM_walk ih _ s u hs hu
    obtain ⟨hinv', hext', hf⟩ := updateNode_inv hinv hcallees h
    exact ⟨hinv', fun g S hg => hext' g S (hext g S hg), hf⟩

theorem run_inv {depth : ℕ} {s : ModuleState B} (h : run none fuel depth m = .ok s) :
    ModuleInv fuel m s ∧ ∀ f ∈ m.roots, Analysed s f := by
  have hinit : ModuleInv fuel m { body := m.body, funcMap := fun _ => none } :=
    ⟨fun f summary hf => (by cases hf), fun f _ => rfl⟩
  obtain ⟨hinv, -, hroots⟩ := foldlM_walk (doWalk_inv depth) _ _ s hinit h
  exact ⟨hinv, hroots⟩

variable {s : ModuleState B}

theorem onlyBarriersAdded (hs : ModuleInv fuel m s) : OnlyBarriersAdded m.body s.body := by
  intro f b
  cases hf : s.funcMap f with
  | none => rw [hs.untouched f hf]
  | some summary =>
    obtain ⟨infoMap, hr, -⟩ := hs.resolved f summary hf
    exact resolve_keeps infoMap (m.body f) hr b

theorem summary_within (hs : ModuleInv fuel m s) (f : FuncId) (summary : BlockInfo)
    (hf : s.funcMap f = some summary) :
    Within m.body {op | ∃ b, op ∈ (m.body f).ops b} summary := by
  induction hn : m.rank f using Nat.strong_induction_on generalizing f summary with
  | h n ih =>
    obtain ⟨infoMap, hr, hc⟩ := hs.resolved f summary hf
    refine resolve_within (fun b id callee offset hop => ?_) hr
    have hcallee := mem_callees hop
    have hlt := m.rank_callee f callee hcallee
    exact call_within subset_rfl (ih _ (hn ▸ hlt) callee _ (hc callee hcallee) rfl)

theorem callees_within (hs : ModuleInv fuel m s) {f : FuncId} {infoMap : FuncId → BlockInfo}
    (hc : ∀ callee ∈ (m.body f).callees, s.funcMap callee = some (infoMap callee)) :
    CalleesWithin m.body infoMap (m.body f) := by
  intro b id callee offset hop
  exact call_within subset_rfl (summary_within hs callee _ (hc callee (mem_callees hop)))

end Walk

section Depth

/-- What the executions of a function up to a depth of calls do, against its
summary. -/
structure Sound (body after : FuncId → Function B) (n : ℕ) (f : FuncId)
    (summary : BlockInfo) : Prop where
  complete : ∀ tr, completeAt after n f tr →
    Safe Conflict ∅ tr ∧ Covers summary (pending ∅ tr)
  part : ∀ tr, partialAt after n f tr → Safe Conflict ∅ tr
  exposes : Quiet body f ∨ Guarded body f → (∀ tr, completeAt after n f tr →
    Covers summary (exposed tr)) ∧ ∀ tr, partialAt after n f tr → Covers summary (exposed tr)

theorem shiftTrace_zero (tr : Trace) : shiftTrace 0 tr = tr := by
  have hshift : ∀ l : List Interval, l.map (Interval.shift 0) = l := fun l => by
    simp [funext Interval.shift_zero]
  have hevent : ∀ e : Event Access, e.map (Access.shift 0) = e := by
    rintro (a | _)
    · simp [Event.map, Access.shift, hshift]
    · rfl
  simp [shiftTrace, funext hevent]

variable {body after : FuncId → Function B} {n : ℕ}

theorem call_sound (hkeep : OnlyBarriersAdded body after) {funcBlockInfoMap : FuncId → BlockInfo}
    {callee : FuncId} {offset : ℕ} (hoff : offset = 0 ∨ Silent body callee)
    (hexp : Quiet body callee ∨ Guarded body callee)
    (h : Sound body after n callee (funcBlockInfoMap callee)) :
    CallSound funcBlockInfoMap
      (fun callee offset t => ∃ s, completeAt after n callee s ∧ t = shiftTrace offset s)
      (fun callee offset t => ∃ s, partialAt after n callee s ∧ t = shiftTrace offset s)
      callee offset := by
  intro info P hP hnot
  rcases hoff with rfl | hsilent
  · have hsafe : ∀ tr, Safe Conflict ∅ tr → Covers (funcBlockInfoMap callee) (exposed tr) →
        Safe Conflict P tr := fun tr hs he => safe_of_exposed Conflict P tr hs
      fun x hx a ha hc => hnot (conflict_intersected hP he hx ha hc)
    refine ⟨?_, ?_⟩
    · rintro _ ⟨tr, hrun, rfl⟩
      rw [shiftTrace_zero]
      obtain ⟨hs, hpend⟩ := h.complete tr hrun
      refine ⟨hsafe tr hs ((h.exposes hexp).1 tr hrun), ?_⟩
      refine covers_subset (covers_union (covers_mono hP (le_join_left _ _)) ?_)
        (pending_subset P tr)
      exact covers_mono hpend (le_join_right _ _)
    · rintro _ ⟨tr, hrun, rfl⟩
      rw [shiftTrace_zero]
      exact hsafe tr (h.part tr hrun) ((h.exposes hexp).2 tr hrun)
  · obtain ⟨hcomplete, hpart⟩ := silent_idle hkeep n callee hsilent
    refine ⟨?_, ?_⟩
    · rintro _ ⟨tr, hrun, rfl⟩
      have hidle : Idle (shiftTrace offset tr) := idle_shift (hcomplete tr hrun)
      exact ⟨idle_safe hidle P, idle_covers hidle (covers_mono hP (le_join_left _ _))⟩
    · rintro _ ⟨tr, hrun, rfl⟩
      exact idle_safe (idle_shift (hpart tr hrun)) P

theorem call_exposed (hkeep : OnlyBarriersAdded body after) {callee : FuncId} {offset : ℕ}
    {info : BlockInfo} (hoff : offset = 0 ∨ Silent body callee)
    (hexp : Quiet body callee ∨ Guarded body callee) (h : Sound body after n callee info) :
    (∀ tr, (∃ s, completeAt after n callee s ∧ tr = shiftTrace offset s) →
      Covers info (exposed tr)) ∧
    ∀ tr, (∃ s, partialAt after n callee s ∧ tr = shiftTrace offset s) →
      Covers info (exposed tr) := by
  rcases hoff with rfl | hsilent
  · refine ⟨?_, ?_⟩
    · rintro _ ⟨tr, hrun, rfl⟩
      rw [shiftTrace_zero]
      exact (h.exposes hexp).1 tr hrun
    · rintro _ ⟨tr, hrun, rfl⟩
      rw [shiftTrace_zero]
      exact (h.exposes hexp).2 tr hrun
  · obtain ⟨hcomplete, hpart⟩ := silent_idle hkeep n callee hsilent
    refine ⟨?_, ?_⟩
    · rintro _ ⟨tr, hrun, rfl⟩
      exact idle_exposed (idle_shift (hcomplete tr hrun)) info
    · rintro _ ⟨tr, hrun, rfl⟩
      exact idle_exposed (idle_shift (hpart tr hrun)) info

variable [DecidableEq B] {fuel : ℕ} {m : Module B} {s : ModuleState B}

theorem module_sound (hs : ModuleInv fuel m s) (hcov : CallsCovered m.body) (n : ℕ) (f : FuncId)
    (summary : BlockInfo) (hf : s.funcMap f = some summary) :
    Sound m.body s.body n f summary := by
  induction n generalizing f summary with
  | zero => exact ⟨fun _ h => h.elim, fun _ h => h.elim, fun _ =>
      ⟨fun _ h => h.elim, fun _ h => h.elim⟩⟩
  | succ n ih =>
    obtain ⟨infoMap, hr, hc⟩ := hs.resolved f summary hf
    have hkeep := onlyBarriersAdded hs
    have hsource : ∀ b id callee offset, Op.call id callee offset ∈ (s.body f).ops b →
        Op.call id callee offset ∈ (m.body f).ops b := by
      intro b id callee offset hop
      rw [← mem_withoutBarriers, hkeep f b, mem_withoutBarriers] at hop
      exact hop
    have hsound : ∀ b id callee offset, Op.call id callee offset ∈ (s.body f).ops b →
        Sound m.body s.body n callee (infoMap callee) := fun b id callee offset hop =>
      ih callee _ (hc callee (mem_callees (hsource b id callee offset hop)))
    have hcovered := fun b id callee offset hop =>
      hcov f b id callee offset (hsource b id callee offset hop)
    obtain ⟨t, hbody, -, hpost⟩ := resolve_postFixed infoMap (m.body f) hr
    have hcalls : ∀ b, CallsSound infoMap
        (fun callee offset t => ∃ s', completeAt s.body n callee s' ∧ t = shiftTrace offset s')
        (fun callee offset t => ∃ s', partialAt s.body n callee s' ∧ t = shiftTrace offset s')
        ((s.body f).ops b) := fun b id callee offset hop =>
      call_sound hkeep (hcovered b id callee offset hop).1 (hcovered b id callee offset hop).2
        (hsound b id callee offset hop)
    refine ⟨fun tr h => ?_, fun tr h => ?_, fun hquiet => ?_⟩
    · exact complete_safe hpost hcalls h ∅ hpost.entry (covers_empty _)
    · exact run_safe hpost hcalls h ∅ hpost.entry (covers_empty _)
    · rcases hquiet with hquiet | hguard
      · have hwithin := callees_within hs hc
        have hsame := quiet_resolve_same hquiet hwithin hr
        rw [hsame] at hpost hsound hcovered
        have hle := fun b hb op (hop : op ∈ (m.body f).ops b) =>
          quiet_recorded hquiet hwithin hpost hb hop
        have hexp := fun b id callee offset hop => call_exposed hkeep
          (hcovered b id callee offset hop).1 (hcovered b id callee offset hop).2
          (hsound b id callee offset hop)
        refine ⟨fun tr h => ?_, fun tr h => ?_⟩
        · rw [completeAt, hsame] at h
          exact complete_exposed hpost hle
            (fun b id callee offset hop => (hexp b id callee offset hop).1) h hpost.entry
        · rw [partialAt, hsame] at h
          exact run_exposed hpost hle (fun b id callee offset hop => (hexp b id callee offset hop).1)
            (fun b id callee offset hop => (hexp b id callee offset hop).2) h hpost.entry
      · have hentry := resolve_guarded hguard hr
        refine ⟨fun tr h => ?_, fun tr h => ?_⟩
        · rw [guarded_run_exposed hentry (h.run : Run _ (fun _ _ _ => False) _ _ _)]
          exact covers_empty _
        · rw [guarded_run_exposed hentry h]
          exact covers_empty _

end Depth

def straight (ops : List Op) : Function Unit where
  blocks := [()]
  blocks_complete _ := by simp
  entry := ()
  ops _ := ops
  terminator _ := .ret

/-- A caller that writes bytes 4 to 8 and then calls a function that writes
four bytes, with or without a barrier before the callee returns. -/
def callModule (offset start : ℕ) (fenced : Bool) : Module Unit where
  functions := [0, 1]
  body f :=
    if f = 0 then straight [.effects 0 [] [⟨4, 8, by decide⟩] none, .call 1 1 offset]
    else straight (.effects 2 [] [⟨start, start + 4, by omega⟩] none ::
      if fenced then [.barrier] else [])
  rank f := if f = 0 then 1 else 0
  rank_callee f callee h := by
    by_cases hf : f = 0
    · have hcallee : 1 = callee := by simpa [straight, Function.callees, Op.callee, hf] using h
      simp [hf, ← hcallee]
    · cases fenced <;> simp_all [straight, Function.callees, Op.callee]

theorem callModule_covered : CallsCovered (callModule 0 4 false).body := by
  have hquiet : Quiet (callModule 0 4 false).body 1 := by
    refine ⟨fun b => ?_, fun b => ?_, fun b c h => ?_, fun b => ⟨b, .refl, rfl⟩⟩
    · simp [callModule, straight]
    · simp [callModule, straight]
    · obtain ⟨d, hd, -⟩ := Relation.TransGen.head'_iff.mp h
      simp [Step, callModule, straight, Terminator.successors] at hd
  intro f b id callee offset h
  by_cases hf : f = 0
  · simp [callModule, straight, hf] at h
    obtain ⟨-, rfl, rfl⟩ := h
    exact ⟨.inl rfl, .inl hquiet⟩
  · simp [callModule, straight, hf] at h

/-- An execution of the analysed module that is not synchronised. -/
def Unsynchronised (m : Module Unit) : Prop :=
  ∃ s, run none 2 2 m = .ok s ∧ ∃ f ∈ m.roots, ∃ tr, Execution s.body f tr ∧
    ¬ Synchronised Conflict tr

theorem callModule_unsynchronised {after : FuncId → Function Unit} {offset : ℕ}
    {rest : List Op} (i j : Interval) (h0 : (after 0).ops () =
      [.effects 0 [] [i] none, .call 1 1 offset]) (he0 : (after 0).entry = ())
    (h1 : (after 1).ops () = .effects 2 [] [j] none :: rest) (he1 : (after 1).entry = ())
    (hij : i.intersects (j.shift offset) = true) :
    ∃ tr, Execution after 0 tr ∧ ¬ Synchronised Conflict tr := by
  have hcallee : partialAt after 1 1 [.access ⟨[], [j]⟩] :=
    .halt (b := (after 1).entry) (he1 ▸ h1) (.cons (.effects 2 [] [j]) .nil)
  have hcaller : partialAt after 2 0 ([.access ⟨[], [i]⟩] ++
      shiftTrace offset [.access ⟨[], [j]⟩]) :=
    .haltCall (b := (after 0).entry) (he0 ▸ h0) (.cons (.effects 0 [] [i]) .nil)
      ⟨_, hcallee, rfl⟩
  refine ⟨_, ⟨2, hcaller⟩, fun h => ?_⟩
  have hsync := h [] [] [] _ _ rfl (.inr (.inr ⟨i, .head _, j.shift offset, .head _, hij⟩))
  cases hsync

end TritonCpu.MembarCalls
