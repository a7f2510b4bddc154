import TritonCpu.MaskAnalysis
import TritonCpu.PtrDenotation

/-!
# Boxes

The box of a list of sizes holds the indices below every size. A new dimension
of size 1, a broadcast and a changed size each act on one coordinate.
-/

set_option autoImplicit false

namespace TritonCpu.MaskAnalysis
open Builder TritonIR OpFoldResult AnalysisStructured List

def InBox (ρ : Env) (dims : List OFR) (idx : List ℕ) : Prop :=
  List.Forall₂ (fun (d : OFR) (i : ℕ) => (i : ℤ) < d.eval ρ) dims idx

def ofShape (shape : List ℕ) : List OFR := shape.map fun n : ℕ => OFR.attr n

theorem forall₂_iff_getElem? {α β : Type} {R : α → β → Prop} {l : List α} {l' : List β}
    (h : l.length = l'.length) :
    List.Forall₂ R l l' ↔ ∀ (k : ℕ) a b, l[k]? = some a → l'[k]? = some b → R a b := by
  induction l generalizing l' with
  | nil =>
    cases l' with
    | nil => simp
    | cons b l' => simp at h
  | cons a l ih =>
    cases l' with
    | nil => simp at h
    | cons b l' =>
      rw [forall₂_cons, ih (by simpa using h)]
      constructor
      · rintro ⟨hab, hall⟩ k x y hx hy
        cases k with
        | zero =>
          cases hx
          cases hy
          exact hab
        | succ k => exact hall k x y (by simpa using hx) (by simpa using hy)
      · intro hall
        constructor
        · exact hall 0 a b rfl rfl
        · intro k x y hx hy
          exact hall (k + 1) x y (by simpa using hx) (by simpa using hy)

theorem forall₂_insertIdx {α β : Type} {R : α → β → Prop} {l : List α} {l' : List β} {a : α}
    {k : ℕ} (hk : k ≤ l.length) :
    List.Forall₂ R (l.insertIdx k a) l' ↔
      (∃ b, l'[k]? = some b ∧ R a b) ∧ List.Forall₂ R l (l'.eraseIdx k) := by
  induction k generalizing l l' with
  | zero =>
    cases l' with
    | nil => simp
    | cons b l' => simp
  | succ k ih =>
    cases l with
    | nil => simp at hk
    | cons x l =>
      cases l' with
      | nil => simp
      | cons b l' =>
        rw [insertIdx_succ_cons, forall₂_cons, ih (by simpa using hk),
          eraseIdx_cons_succ, forall₂_cons, List.getElem?_cons_succ]
        tauto

theorem inBox_ofShape {shape idx : List ℕ} (ρ : Env) (h : InBounds shape idx) :
    InBox ρ (ofShape shape) idx := by
  unfold InBox ofShape
  rw [forall₂_map_left_iff]
  refine h.imp fun d i hlt => ?_
  exact Int.ofNat_lt.mpr hlt

theorem inBox_set {shape idx : List ℕ} {k : ℕ} {d : OFR} (ρ : Env) (h : InBounds shape idx) :
    InBox ρ ((ofShape shape).set k d) idx ↔ ∀ i, idx[k]? = some i → (i : ℤ) < d.eval ρ := by
  have hlen := inBounds_length h
  have hall := inBox_ofShape ρ h
  unfold InBox at hall ⊢
  have hlen' : (ofShape shape).length = idx.length := by
    rw [ofShape, length_map]
    exact hlen
  rw [forall₂_iff_getElem? hlen'] at hall
  rw [forall₂_iff_getElem? (by rw [length_set]; exact hlen')]
  constructor
  · intro hset i hi
    have hk : k < (ofShape shape).length := by
      rw [hlen']
      exact (List.getElem?_eq_some_iff.mp hi).1
    exact hset k d i (List.getElem?_set_self hk) hi
  · intro hd j a i ha hi
    by_cases hj : j = k
    · subst hj
      have hk : j < (ofShape shape).length := by
        rw [hlen']
        exact (List.getElem?_eq_some_iff.mp hi).1
      rw [List.getElem?_set_self hk] at ha
      cases ha
      exact hd i hi
    · rw [List.getElem?_set_ne (Ne.symm hj)] at ha
      exact hall j a i ha hi

theorem inBox_insertIdx {dims : List OFR} {shape idx : List ℕ} {axis : ℕ} (ρ : Env)
    (haxis : axis ≤ dims.length) (hshape : axis ≤ shape.length)
    (h : InBounds (shape.insertIdx axis 1) idx) :
    InBox ρ (dims.insertIdx axis (.attr 1)) idx ↔ InBox ρ dims (idx.eraseIdx axis) := by
  unfold InBox
  rw [forall₂_insertIdx haxis]
  obtain ⟨⟨i, hi, hlt⟩, -⟩ := (forall₂_insertIdx hshape).mp h
  constructor
  · exact fun hbox => hbox.2
  · intro hbox
    refine ⟨⟨i, hi, ?_⟩, hbox⟩
    show (i : ℤ) < 1
    omega

/-- The sizes after a broadcast. -/
inductive Widened : List ℕ → List ℕ → List OFR → List OFR → Prop
  | nil : Widened [] [] [] []
  | same (n : ℕ) (d : OFR) {ss ts : List ℕ} {ds es : List OFR} (h : Widened ss ts ds es) :
      Widened (n :: ss) (n :: ts) (d :: ds) (d :: es)
  | wider (m n : ℕ) (d : OFR) {ss ts : List ℕ} {ds es : List OFR} (hlt : m < n)
      (h : Widened ss ts ds es) : Widened (m :: ss) (n :: ts) (d :: ds) (.attr n :: es)

theorem returns_broadcastDims {src dst : List ℕ} {dims dims' : List OFR}
    (hsrc : src.length = dst.length) (hdims : dims.length = src.length)
    (h : Returns (broadcastDims src dst dims) dims') : Widened src dst dims dims' := by
  induction src generalizing dst dims dims' with
  | nil =>
    cases dst with
    | cons n ts => simp at hsrc
    | nil =>
      cases dims with
      | cons d ds => simp at hdims
      | nil =>
        rw [broadcastDims, returns_pure] at h
        · subst h
          exact .nil
        all_goals simp
  | cons m ss ih =>
    cases dst with
    | nil => simp at hsrc
    | cons n ts =>
      cases dims with
      | nil => simp at hdims
      | cons d ds =>
        rw [broadcastDims] at h
        split_ifs at h with heq hlt
        · obtain ⟨es, hes, h⟩ := returns_bind h
          rw [returns_pure] at h
          subst h heq
          exact .same m d (ih (by simpa using hsrc) (by simpa using hdims) hes)
        · obtain ⟨es, hes, h⟩ := returns_bind h
          rw [returns_pure] at h
          subst h
          exact .wider m n d hlt (ih (by simpa using hsrc) (by simpa using hdims) hes)
        · exact absurd h (not_returns_stop _ _)

section Broadcast

variable {ss ts : List ℕ} {ds es : List OFR}

theorem Widened.length_eq (h : Widened ss ts ds es) :
    ds.length = ss.length ∧ es.length = ts.length := by
  induction h with
  | nil => simp
  | same n d h ih => simpa using ih
  | wider m n d hlt h ih => simpa using ih

theorem Widened.ofShape (h : Widened ss ts ds es) (hds : ds = ofShape ss) : es = ofShape ts := by
  induction h with
  | nil => rfl
  | same n d h ih =>
    cases hds
    rw [ih rfl]
    rfl
  | wider m n d hlt h ih =>
    cases hds
    rw [ih rfl]
    rfl

/-- `flags` marks the dimensions in which a mask may be empty. It is empty in
one of them if it is empty at all. -/
def Anchored (ρ : Env) (dims : List OFR) (flags : List Bool) : Prop :=
  List.Forall₂ (fun d b => b = true → 0 < d.eval ρ) dims flags → ∀ d ∈ dims, 0 < d.eval ρ

def Kept (src dst : List ℕ) (flags : List Bool) : Prop :=
  ∀ (k m n : ℕ), flags[k]? = some true → src[k]? = some m → dst[k]? = some n → m = n

theorem Kept.tail {m n : ℕ} {b : Bool} {flags : List Bool}
    (h : Kept (m :: ss) (n :: ts) (b :: flags)) : Kept ss ts flags := by
  intro k x y hb hx hy
  exact h (k + 1) x y (by simpa using hb) (by simpa using hx) (by simpa using hy)

theorem Widened.flagged {ρ : Env} {flags : List Bool} (h : Widened ss ts ds es)
    (hkept : Kept ss ts flags)
    (hflags : List.Forall₂ (fun d b => b = true → 0 < d.eval ρ) es flags) :
    List.Forall₂ (fun d b => b = true → 0 < d.eval ρ) ds flags := by
  induction h generalizing flags with
  | nil => exact hflags
  | same n d h ih =>
    cases hflags with
    | cons hd hflags => exact .cons hd (ih hkept.tail hflags)
  | wider m n d hlt h ih =>
    cases hflags with
    | cons hd hflags =>
      refine .cons (fun hb => ?_) (ih hkept.tail hflags)
      have heq := hkept 0 m n (by simp [hb]) rfl rfl
      omega

theorem Widened.positive {ρ : Env} (h : Widened ss ts ds es) (hds : ∀ d ∈ ds, 0 < d.eval ρ) :
    ∀ d ∈ es, 0 < d.eval ρ := by
  induction h with
  | nil => exact hds
  | same n d h ih =>
    rw [forall_mem_cons] at hds ⊢
    exact ⟨hds.1, ih hds.2⟩
  | wider m n d hlt h ih =>
    rw [forall_mem_cons] at hds ⊢
    refine ⟨?_, ih hds.2⟩
    show (0 : ℤ) < n
    omega

theorem Widened.anchored {ρ : Env} {flags : List Bool} (h : Widened ss ts ds es)
    (hkept : Kept ss ts flags) (ha : Anchored ρ ds flags) : Anchored ρ es flags :=
  fun hflags => h.positive (ha (h.flagged hkept hflags))

theorem Widened.inBox {ρ : Env} {idx : List ℕ} (h : Widened ss ts ds es)
    (hone : List.Forall₂ (fun d e => d = e ∨ d = 1) ss ts) (hidx : InBounds ts idx)
    (hbox : InBox ρ ds (broadcastIndex ss idx)) : InBox ρ es idx := by
  induction h generalizing idx with
  | nil =>
    cases hidx
    exact .nil
  | same n d h ih =>
    cases hidx with
    | @cons _ i _ is hi hidx =>
      cases hone with
      | cons _ hone =>
        cases hbox with
        | cons hd hbox =>
          refine .cons ?_ (ih hone hidx hbox)
          show (i : ℤ) < d.eval ρ
          change ((if n = 1 then 0 else i : ℕ) : ℤ) < d.eval ρ at hd
          by_cases hn : n = 1
          · rw [if_pos hn] at hd
            have hzero : i = 0 := by omega
            rw [hzero]
            exact hd
          · rw [if_neg hn] at hd
            exact hd
  | wider m n d hlt h ih =>
    cases hidx with
    | cons hi hidx =>
      cases hone with
      | cons _ hone =>
        cases hbox with
        | cons hd hbox => exact .cons (Int.ofNat_lt.mpr hi) (ih hone hidx hbox)

theorem Widened.inBox_source {ρ : Env} {idx : List ℕ} (h : Widened ss ts ds es)
    (hone : List.Forall₂ (fun d e => d = e ∨ d = 1) ss ts) (hpos : ∀ d ∈ ds, 0 < d.eval ρ)
    (hbox : InBox ρ es idx) : InBox ρ ds (broadcastIndex ss idx) := by
  induction h generalizing idx with
  | nil =>
    cases hbox
    exact .nil
  | same n d h ih =>
    rw [forall_mem_cons] at hpos
    cases hone with
    | cons _ hone =>
      cases hbox with
      | @cons _ i _ is hi hbox =>
        refine .cons ?_ (ih hone hpos.2 hbox)
        show ((if n = 1 then 0 else i : ℕ) : ℤ) < d.eval ρ
        by_cases hn : n = 1
        · rw [if_pos hn]
          exact hpos.1
        · rw [if_neg hn]
          exact hi
  | wider m n d hlt h ih =>
    rw [forall_mem_cons] at hpos
    cases hone with
    | cons hone' hone =>
      cases hbox with
      | @cons _ i _ is hi hbox =>
        refine .cons ?_ (ih hone hpos.2 hbox)
        show ((if m = 1 then 0 else i : ℕ) : ℤ) < d.eval ρ
        rcases hone' with heq | heq
        · omega
        · rw [if_pos heq]
          exact hpos.1

end Broadcast

theorem inBox_positive {ρ : Env} {dims : List OFR} {idx : List ℕ} (h : InBox ρ dims idx) :
    ∀ d ∈ dims, 0 < d.eval ρ := by
  induction h with
  | nil => simp
  | @cons d i ds is hi h ih =>
    rw [forall_mem_cons]
    refine ⟨?_, ih⟩
    omega

end TritonCpu.MaskAnalysis
