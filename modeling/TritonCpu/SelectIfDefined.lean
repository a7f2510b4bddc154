import Mathlib.Data.List.Nodup
import TritonCpu.SelectIfSound

/-!
# When merging selects keeps values defined

A merged select is defined by its branch, so not in the blocks of the branch. The
merged program is well formed if and only if these do not use it.
-/

set_option autoImplicit false

namespace TritonCpu.SelectIf

open Structured List

section Parts

variable {V L : Type} [DecidableEq V] {order : UserOrder V}

theorem bound_combine (code : Program V L) : ∀ {pending : List (Pending V)} {v : V},
    v ∈ (combineTensorSelectAndIf order code pending).bound Prim.results →
    v ∈ code.bound Prim.results ∨ v ∈ waiting pending := by
  induction code with
  | yield vs => exact fun hv => absurd hv not_mem_nil
  | prim op next ih =>
    intro pending v hv
    cases op with
    | select result cond trueValue falseValue =>
      rw [combineTensorSelectAndIf] at hv
      cases hplace : mergedAt order result cond next with
      | some place =>
        rw [hplace] at hv
        rcases ih hv with hv | hv
        · exact .inl (mem_append_right _ hv)
        · rw [waiting, map_append, ← waiting, waiting_step, mem_append] at hv
          exact hv.symm.imp_left (mem_append_left _)
      | none =>
        rw [hplace] at hv
        rcases mem_append.mp hv with hv | hv
        · exact .inl (mem_append_left _ hv)
        · rw [← waiting_step]
          exact (ih hv).imp_left (mem_append_right _)
    | other label results operands =>
      rcases mem_append.mp hv with hv | hv
      · exact .inl (mem_append_left _ hv)
      · rw [← waiting_step]
        exact (ih hv).imp_left (mem_append_right _)
  | forOp iv lb ub stride inits args body rs next ihBody ih =>
    intro pending v hv
    rw [← waiting_step]
    simp only [combineTensorSelectAndIf, Code.bound, mem_append] at hv ⊢
    rcases hv with ((hv | hv) | hv) | hv
    · exact .inl (.inl (.inl (.inl hv)))
    · exact .inl (.inl (.inl (.inr ((ihBody hv).resolve_right not_mem_nil))))
    · exact .inl (.inl (.inr hv))
    · exact (ih hv).imp_left .inr
  | ifOp cond thenBlock elseBlock rs next ihThen ihElse ih =>
    intro pending v hv
    rw [mem_waiting_iff, ← waiting_step (onTheWay pending)]
    simp only [combineTensorSelectAndIf, Code.bound, bound_yieldAlso, mem_append] at hv ⊢
    rcases hv with ((hv | hv) | hv | hv) | hv
    · exact .inl (.inl (.inl (.inl ((ihThen hv).resolve_right not_mem_nil))))
    · exact .inl (.inl (.inl (.inr ((ihElse hv).resolve_right not_mem_nil))))
    · exact .inl (.inl (.inr hv))
    · exact .inr (.inl hv)
    · exact (ih hv).imp .inr .inr
  | whileOp inits args before afterArgs after rs next ihBefore ihAfter ih =>
    intro pending v hv
    rw [← waiting_step]
    simp only [combineTensorSelectAndIf, Code.bound, mem_append] at hv ⊢
    rcases hv with ((((hv | hv) | hv) | hv) | hv) | hv
    · exact .inl (.inl (.inl (.inl (.inl (.inl hv)))))
    · exact .inl (.inl (.inl (.inl (.inl (.inr ((ihBefore hv).resolve_right not_mem_nil))))))
    · exact .inl (.inl (.inl (.inl (.inr hv))))
    · exact .inl (.inl (.inl (.inr ((ihAfter hv).resolve_right not_mem_nil))))
    · exact .inl (.inl (.inr hv))
    · exact (ih hv).imp_left .inr

theorem used_combine (code : Program V L) : ∀ {pending : List (Pending V)} {v : V},
    (∀ p ∈ pending, Ready code p) →
    (v ∈ code.used Prim.operands ∨ ∃ p ∈ pending, v ∈ p.reads) →
    v ∈ (combineTensorSelectAndIf order code pending).used Prim.operands := by
  have hstep {pending : List (Pending V)} {v : V} (h : ∃ p ∈ pending, v ∈ p.reads) :
      ∃ p ∈ pending.map Pending.step, v ∈ p.reads := by
    obtain ⟨p, hp, hv⟩ := h
    exact ⟨p.step, mem_map_of_mem hp, hv⟩
  induction code with
  | yield vs =>
    rintro pending v hready (hv | ⟨p, hp, -⟩)
    · exact hv
    · exact absurd (hready p hp) not_ready_yield
  | prim op next ih =>
    intro pending v hready hv
    have hnext : ∀ p ∈ pending.map Pending.step, Ready next p :=
      forall_mem_map.mpr fun p hp => (hready p hp).prim.2
    have hkept (hnot : v ∉ op.operands) :
        v ∈ (combineTensorSelectAndIf order next (pending.map Pending.step)).used
          Prim.operands :=
      ih hnext (hv.imp (fun hv => (mem_append.mp hv).resolve_left hnot) hstep)
    cases op with
    | select result cond trueValue falseValue =>
      rw [combineTensorSelectAndIf]
      cases hplace : mergedAt order result cond next with
      | some place =>
        refine ih (forall_mem_append.mpr ⟨hnext, ?_⟩) ?_
        · exact forall_mem_singleton.mpr (ready_of_mergedAt hplace)
        · rcases hv with hv | hv
          · rcases mem_append.mp hv with hv | hv
            · exact .inr ⟨_, mem_append_right _ mem_cons_self, hv⟩
            · exact .inl hv
          · obtain ⟨p, hp, hv⟩ := hstep hv
            exact .inr ⟨p, mem_append_left _ hp, hv⟩
      | none =>
        refine mem_append.mpr (or_iff_not_imp_left.mpr hkept)
    | other label results operands =>
      exact mem_append.mpr (or_iff_not_imp_left.mpr hkept)
  | forOp iv lb ub stride inits args body rs next ihBody ih =>
    intro pending v hready hv
    have hnext : ∀ p ∈ pending.map Pending.step, Ready next p :=
      forall_mem_map.mpr fun p hp => (hready p hp).forOp.2
    have hbody (hv : v ∈ body.used Prim.operands) :=
      ihBody (fun p hp => absurd hp not_mem_nil) (.inl hv)
    have hrest (hv : v ∈ next.used Prim.operands ∨ ∃ p ∈ pending, v ∈ p.reads) :=
      ih hnext (hv.imp_right hstep)
    simp only [combineTensorSelectAndIf, Code.used, mem_append] at hv ⊢
    rcases hv with ((hv | hv) | hv) | hv
    · exact .inl (.inl hv)
    · exact .inl (.inr (hbody hv))
    · exact .inr (hrest (.inl hv))
    · exact .inr (hrest (.inr hv))
  | ifOp cond thenBlock elseBlock rs next ihThen ihElse ih =>
    intro pending v hready hv
    have hnext : ∀ p ∈ (onTheWay pending).map Pending.step, Ready next p :=
      forall_mem_map.mpr fun p hp =>
        ((hready p (mem_onTheWay hp).1).ifOp (mem_onTheWay hp).2).2
    have hthen (hv : v ∈ thenBlock.used Prim.operands) :=
      ihThen (fun p hp => absurd hp not_mem_nil) (.inl hv)
    have helse (hv : v ∈ elseBlock.used Prim.operands) :=
      ihElse (fun p hp => absurd hp not_mem_nil) (.inl hv)
    have hrest (hv : v ∈ next.used Prim.operands ∨ ∃ p ∈ onTheWay pending, v ∈ p.reads) :=
      ih hnext (hv.imp_right hstep)
    have harrived (h : ∃ p ∈ pending, v ∈ p.reads) :
        (∃ p ∈ onTheWay pending, v ∈ p.reads) ∨ v = cond ∨
          v ∈ (arrived pending).map Pending.trueValue ∨
          v ∈ (arrived pending).map Pending.falseValue := by
      obtain ⟨p, hp, hv⟩ := h
      by_cases hzero : p.distance = 0
      · have hmem : p ∈ arrived pending := mem_filter.mpr ⟨hp, decide_eq_true hzero⟩
        rw [Pending.reads, (hready p hp).ifOp_cond hzero] at hv
        rcases hv with _ | ⟨_, _ | ⟨_, _ | ⟨_, hv⟩⟩⟩
        · exact .inr (.inl rfl)
        · exact .inr (.inr (.inl (mem_map_of_mem hmem)))
        · exact .inr (.inr (.inr (mem_map_of_mem hmem)))
        · cases hv
      · exact .inl ⟨p, mem_filter.mpr ⟨hp, decide_eq_true hzero⟩, hv⟩
    unfold arrived at harrived
    unfold onTheWay at hrest harrived
    simp only [combineTensorSelectAndIf, Code.used, cons_append, mem_cons,
      mem_append, mem_used_yieldAlso] at hv ⊢
    rcases hv with (hv | (hv | hv) | hv) | hv
    · exact .inl hv
    · exact .inr (.inl (.inl (.inl (hthen hv))))
    · exact .inr (.inl (.inr (.inl (helse hv))))
    · exact .inr (.inr (hrest (.inl hv)))
    · rcases harrived hv with hv | hv | hv | hv
      · exact .inr (.inr (hrest (.inr hv)))
      · exact .inl hv
      · exact .inr (.inl (.inl (.inr hv)))
      · exact .inr (.inl (.inr (.inr hv)))
  | whileOp inits args before afterArgs after rs next ihBefore ihAfter ih =>
    intro pending v hready hv
    have hnext : ∀ p ∈ pending.map Pending.step, Ready next p :=
      forall_mem_map.mpr fun p hp => (hready p hp).whileOp.2
    have hbefore (hv : v ∈ before.used Prim.operands) :=
      ihBefore (fun p hp => absurd hp not_mem_nil) (.inl hv)
    have hafter (hv : v ∈ after.used Prim.operands) :=
      ihAfter (fun p hp => absurd hp not_mem_nil) (.inl hv)
    have hrest (hv : v ∈ next.used Prim.operands ∨ ∃ p ∈ pending, v ∈ p.reads) :=
      ih hnext (hv.imp_right hstep)
    simp only [combineTensorSelectAndIf, Code.used, mem_append] at hv ⊢
    rcases hv with (((hv | hv) | hv) | hv) | hv
    · exact .inl (.inl (.inl hv))
    · exact .inl (.inl (.inr (hbefore hv)))
    · exact .inl (.inr (hafter hv))
    · exact .inr (hrest (.inl hv))
    · exact .inr (hrest (.inr hv))

end Parts

section Defined

variable {V : Type} {stale : V → Prop} {pending : List (Pending V)}
  {scope scope' : List V}

/-- The values `scope'` are in scope in the merged program where `scope` are in the original. -/
structure Keeps (stale : V → Prop) (pending : List (Pending V)) (scope scope' : List V) :
    Prop where
  known : ∀ v ∈ scope, ¬ Unknown stale pending v → v ∈ scope'
  old : scope' ⊆ scope
  waits : ∀ v ∈ waiting pending, v ∉ scope'

theorem Keeps.fresh (h : Keeps stale pending scope scope') {vs : List V} (hvs : Fresh scope vs) :
    Fresh scope' vs where
  nodup := hvs.nodup
  notMem v hv hmem := hvs.notMem v hv (h.old hmem)

theorem Keeps.subset (h : Keeps stale pending scope scope') {vs : List V} (hvs : vs ⊆ scope)
    (hknown : ∀ v ∈ vs, ¬ Unknown stale pending v) : vs ⊆ scope' :=
  fun v hv => h.known v (hvs hv) (hknown v hv)

theorem Keeps.past (h : Keeps stale pending scope scope') {rs : List V} (hrs : Fresh scope rs)
    (hwaiting : ∀ v ∈ waiting pending, v ∈ scope) :
    Keeps stale (pending.map Pending.step) (rs ++ scope) (rs ++ scope') where
  known v hv hknown := by
    rw [mem_append] at hv ⊢
    exact hv.imp_right fun hv => h.known v hv fun hunknown => hknown ((unknown_step v).mpr hunknown)
  old := append_subset.mpr ⟨subset_append_left _ _,
    subset_append_of_subset_right _ h.old⟩
  waits v hv := by
    rw [waiting_step] at hv
    rw [mem_append, not_or]
    exact ⟨fun hmem => hrs.notMem v hmem (hwaiting v hv), h.waits v hv⟩

theorem Keeps.block (h : Keeps stale pending scope scope') (args : List V) :
    Keeps (Unknown stale pending) [] (args ++ scope) (args ++ scope') where
  known v hv hknown := by
    rw [mem_append] at hv ⊢
    exact hv.imp_right fun hv => h.known v hv fun hunknown => hknown (.inl hunknown)
  old := append_subset.mpr ⟨subset_append_left _ _,
    subset_append_of_subset_right _ h.old⟩
  waits v hv := absurd hv not_mem_nil

theorem Keeps.select (h : Keeps stale pending scope scope') {p : Pending V}
    (hresult : p.result ∉ scope) :
    Keeps stale (pending.map Pending.step ++ [p]) (p.result :: scope) scope' where
  known v hv hknown := by
    have hwaiting : v ∉ waiting (pending.map Pending.step ++ [p]) := fun hw => hknown (.inr hw)
    rw [waiting, map_append, ← waiting, waiting_step, mem_append, not_or] at hwaiting
    refine h.known v ((mem_cons.mp hv).resolve_left fun heq => ?_) ?_
    · exact hwaiting.2 (mem_singleton.mpr heq)
    · exact fun hunknown => hunknown.elim (fun hs => hknown (.inl hs)) hwaiting.1
  old := subset_cons_of_subset _ h.old
  waits v hv := by
    rw [waiting, map_append, ← waiting, waiting_step, mem_append] at hv
    rcases hv with hv | hv
    · exact h.waits v hv
    · rw [mem_singleton.mp hv]
      exact fun hmem => hresult (h.old hmem)

theorem notMem_waiting_onTheWay (hnodup : (waiting pending).Nodup) {v : V}
    (hv : v ∈ waiting (onTheWay pending)) : v ∉ waiting (arrived pending) := by
  obtain ⟨p, hp, rfl⟩ := mem_map.mp hv
  obtain ⟨hmem, hne⟩ := mem_onTheWay hp
  intro harrived
  obtain ⟨q, hq, heq⟩ := mem_map.mp harrived
  obtain ⟨hmem', hzero⟩ := mem_filter.mp hq
  rw [inj_on_of_nodup_map hnodup hmem' hmem heq] at hzero
  exact hne (of_decide_eq_true hzero)

theorem Keeps.ifOp (h : Keeps stale pending scope scope') {rs : List V} (hrs : Fresh scope rs)
    (hnodup : (waiting pending).Nodup) (hwaiting : ∀ v ∈ waiting pending, v ∈ scope) :
    Keeps stale ((onTheWay pending).map Pending.step) (rs ++ scope)
      (rs ++ waiting (arrived pending) ++ scope') where
  known v hv hknown := by
    rw [append_assoc, mem_append, mem_append]
    refine (mem_append.mp hv).imp_right fun hv => or_iff_not_imp_left.mpr fun harrived => ?_
    refine h.known v hv fun hunknown => hknown ((unknown_step v).mpr ?_)
    exact hunknown.imp_right fun hmem => (mem_waiting_iff.mp hmem).resolve_left harrived
  old := by
    refine append_subset.mpr ⟨append_subset.mpr
      ⟨subset_append_left _ _, fun v hv => ?_⟩, subset_append_of_subset_right _ h.old⟩
    exact mem_append_right _ (hwaiting v (mem_waiting_iff.mpr (.inl hv)))
  waits v hv := by
    rw [waiting_step] at hv
    have hmem : v ∈ waiting pending := mem_waiting_iff.mpr (.inr hv)
    simp only [mem_append, not_or]
    exact ⟨⟨fun hr => hrs.notMem v hr (hwaiting v hmem), notMem_waiting_onTheWay hnodup hv⟩,
      h.waits v hmem⟩

theorem Keeps.fresh_ifOp (h : Keeps stale pending scope scope') {rs : List V}
    (hrs : Fresh scope rs) (hnodup : (waiting pending).Nodup)
    (hwaiting : ∀ v ∈ waiting pending, v ∈ scope) :
    Fresh scope' (rs ++ waiting (arrived pending)) where
  nodup := by
    refine nodup_append.mpr ⟨hrs.nodup, hnodup.sublist (List.filter_sublist.map _),
      fun u hu v hv heq => hrs.notMem u hu ?_⟩
    rw [heq]
    exact hwaiting v (mem_waiting_iff.mpr (.inl hv))
  notMem v hv := by
    rcases mem_append.mp hv with hv | hv
    · exact fun hmem => hrs.notMem v hv (h.old hmem)
    · exact h.waits v (mem_waiting_iff.mpr (.inl hv))

end Defined

section Combine

variable {V L : Type} [DecidableEq V] {order : UserOrder V}

theorem reads_subset {stale : V → Prop} {pending : List (Pending V)} {scope scope' : List V}
    {code : Program V L} {value : Pending V → V} (h : Carries stale scope code pending)
    (hkeeps : Keeps stale pending scope scope') (hreads : ∀ p, value p ∈ p.reads) :
    (arrived pending).map value ⊆ scope' := by
  intro v hv
  obtain ⟨p, hp, rfl⟩ := mem_map.mp hv
  obtain ⟨hscope, hstale, hwaiting⟩ :=
    h.reads p (mem_of_mem_filter hp) (value p) (hreads p)
  exact hkeeps.known _ hscope (not_or.mpr ⟨hstale, hwaiting⟩)

theorem notMem_used_of_ssa {pending : List (Pending V)} {scope scope' also : List V}
    {block : Program V L} (hssa : block.Ssa Prim.results Prim.operands scope)
    (hscope : ∀ v ∈ waiting pending, v ∈ scope) (hwaits : ∀ v ∈ waiting pending, v ∉ scope')
    (h : ((combineTensorSelectAndIf order block []).yieldAlso also).Ssa Prim.results
      Prim.operands scope') : ∀ v ∈ waiting pending, v ∉ block.used Prim.operands := by
  intro v hv hused
  have hmem : v ∈ (combineTensorSelectAndIf order block []).used Prim.operands :=
    used_combine block (fun p hp => absurd hp not_mem_nil) (.inl hused)
  rcases h.of_yieldAlso.used_subset hmem with hin | hbound
  · exact hwaits v hv hin
  · exact hssa.notMem_bound v (hscope v hv) ((bound_combine block hbound).resolve_right
      not_mem_nil)

theorem ssa_combine_iff (code : Program V L) : ∀ {stale : V → Prop} {scope scope' : List V}
    {pending : List (Pending V)}, code.Ssa Prim.results Prim.operands scope →
    Carries stale scope code pending → Keeps stale pending scope scope' →
    ((combineTensorSelectAndIf order code pending).Ssa Prim.results Prim.operands scope' ↔
      Outside code pending ∧ UsedOutside order code) := by
  have hnil (code : Program V L) : Outside code [] := fun _ hp => absurd hp not_mem_nil
  induction code with
  | yield vs =>
    intro stale scope scope' pending hssa h hkeeps
    have hpending : pending = [] :=
      eq_nil_iff_forall_not_mem.mpr fun p hp => not_ready_yield (h.ready p hp)
    subst hpending
    refine iff_of_true (hkeeps.subset hssa fun v hv => ?_) ⟨hnil _, trivial⟩
    exact not_or.mpr ⟨h.used v hv, not_mem_nil⟩
  | prim op next ih =>
    intro stale scope scope' pending hssa h hkeeps
    obtain ⟨hop, hfresh, hnext⟩ := hssa
    have hkept : ((Code.prim op (combineTensorSelectAndIf order next
        (pending.map Pending.step))).Ssa Prim.results Prim.operands scope' ↔
        Outside (.prim op next) pending ∧ UsedOutside order next) := by
      rw [Code.Ssa, ih hnext h.prim (hkeeps.past hfresh h.inScope), outside_map_step]
      exact ⟨fun hall => hall.2.2, fun hall => ⟨hkeeps.subset hop h.known_prim,
        hkeeps.fresh hfresh, hall⟩⟩
    cases op with
    | select result cond trueValue falseValue =>
      rw [combineTensorSelectAndIf, UsedOutside]
      cases hplace : mergedAt order result cond next with
      | some place =>
        have hmerged := ih hnext (h.select ⟨hop, hfresh, hnext⟩ hplace)
          (hkeeps.select (p := ⟨result, cond, trueValue, falseValue, place⟩)
            (hfresh.notMem result mem_cons_self))
        refine hmerged.trans ?_
        rw [outside_append, outside_map_step, and_assoc]
        refine and_congr_right fun _ => and_congr_left fun _ => ?_
        exact ⟨fun hout n hn => Option.some.inj hn ▸ hout, fun hout => hout place rfl⟩
      | none =>
        refine hkept.trans (and_congr_right fun _ => ?_)
        exact ⟨fun hout => ⟨fun n hn => (by cases hn), hout⟩, fun hout => hout.2⟩
    | other label results operands => exact hkept
  | forOp iv lb ub stride inits args body rs next ihBody ih =>
    intro stale scope scope' pending hssa h hkeeps
    obtain ⟨hop, hargs, hrs, hbody, hnext⟩ := hssa
    rw [combineTensorSelectAndIf, Code.Ssa, ihBody hbody h.forOp_body (hkeeps.block _),
      ih hnext h.forOp (hkeeps.past hrs h.inScope), outside_map_step, UsedOutside]
    constructor
    · rintro ⟨_, _, _, hin, hpending, hout⟩
      exact ⟨hpending, hin.2, hout⟩
    · rintro ⟨hpending, hin, hout⟩
      exact ⟨hkeeps.subset hop h.known_forOp, hkeeps.fresh hargs, hkeeps.fresh hrs,
        ⟨hnil _, hin⟩, hpending, hout⟩
  | ifOp cond thenBlock elseBlock rs next ihThen ihElse ih =>
    intro stale scope scope' pending hssa h hkeeps
    obtain ⟨hcond, hrs, hthen, helse, hnext⟩ := hssa
    have hrest := ih hnext h.ifOp (hkeeps.ifOp hrs h.nodup h.inScope)
    have hblocks (harrived : ∀ v ∈ waiting (arrived pending),
        v ∉ thenBlock.used Prim.operands ++ elseBlock.used Prim.operands) :=
      And.intro (ihThen hthen (h.ifOp_blocks harrived).1 (hkeeps.block []))
        (ihElse helse (h.ifOp_blocks harrived).2 (hkeeps.block []))
    rw [combineTensorSelectAndIf, Code.Ssa, UsedOutside, outside_ifOp]
    constructor
    · rintro ⟨_, _, hthen', helse', hnext'⟩
      have harrived : ∀ v ∈ waiting (arrived pending),
          v ∉ thenBlock.used Prim.operands ++ elseBlock.used Prim.operands := by
        intro v hv
        have hmem : v ∈ waiting pending := mem_waiting_iff.mpr (.inl hv)
        rw [mem_append, not_or]
        exact ⟨notMem_used_of_ssa hthen h.inScope hkeeps.waits hthen' v hmem,
          notMem_used_of_ssa helse h.inScope hkeeps.waits helse' v hmem⟩
      obtain ⟨hpending, hout⟩ := hrest.mp hnext'
      exact ⟨⟨harrived, hpending⟩, ((hblocks harrived).1.mp hthen'.of_yieldAlso).2,
        ((hblocks harrived).2.mp helse'.of_yieldAlso).2, hout⟩
    · rintro ⟨⟨harrived, hpending⟩, hinThen, hinElse, hout⟩
      exact ⟨hkeeps.known cond hcond h.known_ifOp, hkeeps.fresh_ifOp hrs h.nodup h.inScope,
        ((hblocks harrived).1.mpr ⟨hnil _, hinThen⟩).yieldAlso
          (reads_subset h hkeeps fun p => by simp [Pending.reads]),
        ((hblocks harrived).2.mpr ⟨hnil _, hinElse⟩).yieldAlso
          (reads_subset h hkeeps fun p => by simp [Pending.reads]),
        hrest.mpr ⟨hpending, hout⟩⟩
  | whileOp inits args before afterArgs after rs next ihBefore ihAfter ih =>
    intro stale scope scope' pending hssa h hkeeps
    obtain ⟨hop, hargs, hafterArgs, hrs, hbefore, hafter, hnext⟩ := hssa
    rw [combineTensorSelectAndIf, Code.Ssa, ihBefore hbefore h.whileOp_blocks.1 (hkeeps.block _),
      ihAfter hafter h.whileOp_blocks.2 (hkeeps.block _),
      ih hnext h.whileOp (hkeeps.past hrs h.inScope), outside_map_step, UsedOutside]
    constructor
    · rintro ⟨_, _, _, _, hinBefore, hinAfter, hpending, hout⟩
      exact ⟨hpending, hinBefore.2, hinAfter.2, hout⟩
    · rintro ⟨hpending, hinBefore, hinAfter, hout⟩
      exact ⟨hkeeps.subset hop h.known_whileOp, hkeeps.fresh hargs, hkeeps.fresh hafterArgs,
        hkeeps.fresh hrs, ⟨hnil _, hinBefore⟩, ⟨hnil _, hinAfter⟩, hpending, hout⟩

end Combine

section Main

variable {V L : Type}

theorem keeps_nil (scope : List V) : Keeps (fun _ => False) [] scope scope where
  known _ hv _ := hv
  old := List.Subset.refl _
  waits _ hv := absurd hv not_mem_nil

variable [DecidableEq V]

theorem execProgram_combine {D W : Type} [Inhabited D] {order : UserOrder V} {code : Program V L}
    {scope : List V} {n : ℕ} (hssa : code.Ssa Prim.results Prim.operands scope)
    (harity : code.Arity n) (houtside : UsedOutside order code) (control : Control D)
    (sem : L → List D → W → List D × W) (limit : ℕ) (s : State V D W) :
    execProgram control sem limit (combineTensorSelectAndIf order code []) s =
      execProgram control sem limit code s := by
  have hcarries : Carries (fun _ => False) scope code [] := carries_nil fun _ _ => not_false
  obtain ⟨hyields, hstates⟩ := (simulates_combine code hssa harity houtside hcarries
    fun _ hp => absurd hp not_mem_nil).block
    (⟨rfl, fun _ _ => rfl⟩ : Agrees (fun _ => False) s s)
  exact (Prod.ext hstates.eq hyields).symm

/-- Values are defined before they are used, and every operation reads the values that it read
and yields the same, just when no select is used inside the branch it is merged into. -/
theorem combineTensorSelectAndIf_keeps_iff (order : UserOrder V) (code : Program V L)
    (scope : List V) (n : ℕ) (hssa : code.Ssa Prim.results Prim.operands scope)
    (harity : code.Arity n) :
    ((combineTensorSelectAndIf order code []).Ssa Prim.results Prim.operands scope ∧
      ∀ (D W : Type) [Inhabited D] (control : Control D) (sem : L → List D → W → List D × W)
        (limit : ℕ) (s : State V D W),
        execProgram control sem limit (combineTensorSelectAndIf order code []) s =
          execProgram control sem limit code s) ↔
      UsedOutside order code := by
  have hcarries : Carries (fun _ => False) scope code [] := carries_nil fun _ _ => not_false
  have hdefined : (combineTensorSelectAndIf order code []).Ssa Prim.results Prim.operands scope ↔
      Outside code [] ∧ UsedOutside order code :=
    ssa_combine_iff code hssa hcarries (keeps_nil scope)
  constructor
  · exact fun ⟨hnew, _⟩ => (hdefined.mp hnew).2
  · intro houtside
    refine ⟨hdefined.mpr ⟨fun _ hp => absurd hp not_mem_nil, houtside⟩, ?_⟩
    exact fun D W _ => execProgram_combine hssa harity houtside

end Main

section Nested

def inOrder : UserOrder ℕ := ⟨fun _ users => users, fun _ users => List.Perm.refl users⟩

/-- `%3 = select %0, %1, %2` and an `scf.if` on `%0`, in which `inside` is read. -/
def selectBeforeIf (inside : ℕ) : Program ℕ Unit :=
  .prim (.select 3 0 1 2) (.ifOp 0 (.prim (.other () [] [inside]) (.yield [])) (.yield []) []
    (.yield [3]))

theorem selectBeforeIf_ssa {inside : ℕ} (h : inside ∈ [3, 0, 1, 2]) :
    (selectBeforeIf inside).Ssa Prim.results Prim.operands [0, 1, 2] := by
  have hnone (scope : List ℕ) : Fresh scope [] :=
    ⟨nodup_nil, fun _ hv => absurd hv not_mem_nil⟩
  have hresult : [3] ⊆ [3, 0, 1, 2] := by decide
  refine ⟨by decide, ⟨by decide, by decide⟩, by decide, hnone _, ⟨?_, hnone _, ?_⟩, ?_, hresult⟩
  · exact cons_subset.mpr ⟨h, nil_subset _⟩
  · exact nil_subset _
  · exact nil_subset _

theorem selectBeforeIf_keeps :
    ((combineTensorSelectAndIf inOrder (selectBeforeIf 1) []).Ssa Prim.results Prim.operands
        [0, 1, 2] ∧
      ∀ (D W : Type) [Inhabited D] (control : Control D) (sem : Unit → List D → W → List D × W)
        (limit : ℕ) (s : State ℕ D W),
        execProgram control sem limit (combineTensorSelectAndIf inOrder (selectBeforeIf 1) []) s =
          execProgram control sem limit (selectBeforeIf 1) s) ↔
      UsedOutside inOrder (selectBeforeIf 1) :=
  combineTensorSelectAndIf_keeps_iff inOrder (selectBeforeIf 1) [0, 1, 2] 1
    (selectBeforeIf_ssa (by decide)) ⟨rfl, rfl, rfl⟩

def record : Unit → List ℕ → List ℕ → List ℕ × List ℕ := fun _ ds world => ([], world ++ ds)

/-- The branch dominates a use of the select in its own block, so the select is merged into it
and is used there before it is defined. -/
theorem select_used_inside_merged :
    ((selectBeforeIf 3).Ssa Prim.results Prim.operands [0, 1, 2] ∧ (selectBeforeIf 3).Arity 1) ∧
      ¬ (combineTensorSelectAndIf inOrder (selectBeforeIf 3) []).Ssa Prim.results Prim.operands
        [0, 1, 2] ∧
      (execProgram ⟨fun _ _ _ => 0, fun _ _ _ => 0, fun d => d = 1⟩ record 0 (selectBeforeIf 3)
        ⟨fun v => if v < 3 then v + 1 else 0, []⟩).1.world = [2] ∧
      (execProgram ⟨fun _ _ _ => 0, fun _ _ _ => 0, fun d => d = 1⟩ record 0
        (combineTensorSelectAndIf inOrder (selectBeforeIf 3) [])
        ⟨fun v => if v < 3 then v + 1 else 0, []⟩).1.world = [0] := by
  refine ⟨⟨selectBeforeIf_ssa (by decide), rfl, rfl, rfl⟩, ?_, by decide, by decide⟩
  intro hssa
  have hread : [3] ⊆ [0, 1, 2] := hssa.2.2.1.1
  exact absurd (hread mem_cons_self) (by decide)

end Nested

end TritonCpu.SelectIf
