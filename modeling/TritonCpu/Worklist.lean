import Mathlib.Data.Fintype.Card
import Mathlib.Logic.Hydra
import Mathlib.Order.WellFounded
import Mathlib.Tactic.Common

/-!
# Worklists

A worklist ends when each turn either makes progress on a finite measure, or
leaves everything that decides the next turns unchanged and replaces the item
it takes by items further down a well-founded relation.
-/

set_option autoImplicit false

namespace TritonCpu.Worklist

variable {σ B : Type}

theorem wellFounded_of_acyclic [Finite B] {r : B → B → Prop}
    (h : ∀ b, ¬ Relation.TransGen r b b) : WellFounded r := by
  have : IsTrans B (Relation.TransGen r) := ⟨fun _ _ _ => Relation.TransGen.trans⟩
  have : Std.Irrefl (Relation.TransGen r) := ⟨h⟩
  exact Subrelation.wf Relation.TransGen.single
    (Finite.wellFounded_of_trans_of_irrefl (Relation.TransGen r))

theorem cycle_restrict {r : B → B → Prop} {b : B} (h : Relation.TransGen r b b) :
    Relation.TransGen (fun c d => r c d ∧ Relation.TransGen r c c) b b := by
  suffices hgen : ∀ c, Relation.TransGen r b c → Relation.ReflTransGen r c b →
      Relation.TransGen (fun c d => r c d ∧ Relation.TransGen r c c) b c from
    hgen b h .refl
  intro c hc
  induction hc with
  | single hedge =>
    intro _
    exact .single ⟨hedge, h⟩
  | tail hpath hedge ih =>
    intro hback
    have hcycle := (Relation.TransGen.head' hedge hback).trans hpath
    exact .tail (ih (.head hedge hback)) ⟨hedge, hcycle⟩

variable (worklist : σ → List B) (rank : σ → ℕ) (pushes : σ → B → B → Prop)

def Turn (s t : σ) : Prop :=
  rank t < rank s ∨ rank t = rank s ∧ pushes t = pushes s ∧
    ∃ b rest pushed, worklist s = b :: rest ∧ worklist t = rest ++ pushed ∧
      ∀ c ∈ pushed, pushes s b c

variable {worklist rank pushes}

theorem cutExpand_of_pushed {r : B → B → Prop} {b : B} {rest pushed : List B}
    (h : ∀ c ∈ pushed, r c b) :
    Relation.CutExpand r (rest ++ pushed : List B) (b :: rest : List B) := by
  refine ⟨pushed, b, by simpa using h, ?_⟩
  rw [← Multiset.coe_add, ← Multiset.cons_coe, ← Multiset.singleton_add]
  ac_rfl

theorem acc_of_turns {step : σ → σ → Prop} {inv : σ → Prop}
    (hinv : ∀ s t, inv s → step s t → inv t)
    (hturn : ∀ s t, inv s → step s t → Turn worklist rank pushes s t)
    (hwf : ∀ s, inv s → WellFounded fun c b => pushes s b c) (s : σ) (hs : inv s) :
    Acc (fun t s => step s t) s := by
  induction hrank : rank s using Nat.strong_induction_on generalizing s with
  | _ n ihRank =>
    subst hrank
    have hcut := (hwf s hs).cutExpand
    -- the inner induction is on the worklist, with everything else unchanged
    suffices hgen : ∀ (m : Multiset B) (t : σ), (worklist t : Multiset B) = m → inv t →
        rank t = rank s → pushes t = pushes s → Acc (fun t s => step s t) t from
      hgen _ s rfl hs rfl rfl
    intro m
    induction m using hcut.induction with
    | _ m ihList =>
      intro t hm ht hrank hpushes
      refine ⟨t, fun u hstep => ?_⟩
      have hu := hinv t u ht hstep
      rcases hturn t u ht hstep with hless | ⟨hsame, hpushes', b, rest, pushed, hw, hw', hdown⟩
      · exact ihRank (rank u) (hrank ▸ hless) u hu rfl
      · refine ihList (worklist u : Multiset B) ?_ u rfl hu (hsame.trans hrank)
          (hpushes'.trans hpushes)
        rw [← hm, hw, hw']
        exact cutExpand_of_pushed fun c hc => hpushes ▸ hdown c hc

end TritonCpu.Worklist
