import TritonCpu.PtrVisit

/-!
# Structured expressions decode exactly

By induction on the expression its state follows the affine reading of the
tree. The address is the value at every index exactly when the reading keeps
no stride and no start that the value does not have: a range of one element
keeps its stride when it is broadcast, and a tensor of rank zero loses its
scalar when it gets a dimension.
-/

set_option autoImplicit false

namespace TritonCpu.AnalysisStructured
open Builder TritonIR OpFoldResult

section Induction

variable {ctx : Context} {v : Value} {s : PtrState}

theorem affine_tensor (h : v.ty.shape.isSome) : ¬ (v.ty.shape = none ∧ v.ty.elt ≠ .ptr) := by
  rintro ⟨hnone, -⟩
  simp [hnone] at h

theorem shape_operands {lhs rhs : Value} (h : lhs.ty = rhs.ty) : rhs.shape = lhs.shape := by
  rw [Value.shape, Value.shape, h]

theorem visitOperand_tracks (hexpr : Expr v) (hver : v.Verified)
    (hknown : ∀ w t, Expr w → w.Verified → ctx.knownPtrs w = some t → Tracks w t)
    (h : Returns (visitOperand ctx v) s) : Tracks v s := by
  induction hexpr generalizing s with
  | scalar v hshape helt =>
    obtain ⟨pointer, tensor, heq⟩ := visitOperand_dispatch ctx v
    rw [heq] at h
    refine tracks_dispatch (hknown v s (.scalar v hshape helt) hver) (fun hty _ => ?_)
      (fun hs _ => ?_) h
    · exact absurd (by rw [hty]) helt
    · simp [hshape] at hs
  | blockArg id =>
    exact tracks_base (hknown _ s (.blockArg id) hver) rfl
      (fun ρ => by simp [affine, Value.ty]) h
  | pointerOp id =>
    exact tracks_base (hknown _ s (.pointerOp id) hver) rfl
      (fun ρ => by simp [affine, Value.ty]) h
  | makeRange id start count =>
    refine tracks_dispatch (hknown _ s (.makeRange id start count) hver)
      (fun _ hp => absurd hp not_returns_unexpectedPointer) (fun _ ht => ?_) h
    obtain ⟨hfollows, hsizes, hsource⟩ := follows_makeRange ht
    exact ⟨hsizes, fun _ => hsource, hfollows, regular_makeRange id start count⟩
  | constant id width shape value =>
    refine tracks_dispatch (hknown _ s (.constant id width shape value) hver)
      (fun _ hp => absurd hp not_returns_unexpectedPointer) (fun _ ht => ?_) h
    obtain ⟨hfollows, hsizes, hsource⟩ := follows_constant ht
    exact ⟨hsizes, fun _ => hsource, hfollows, regular_constant id ⟨some shape, .int width⟩ value⟩
  | splat id src shape hsrc ih =>
    have haffine : ∀ ρ, affine ρ (.splat id src shape) = (affine ρ src).splat shape :=
      fun ρ => by simp [affine, Value.ty]
    refine tracks_dispatch (hknown _ s (.splat id src shape hsrc) hver)
      (fun _ hp => absurd hp not_returns_unexpectedPointer) (fun _ ht => ?_) h
    have htracks : ∀ t, Returns (visitOperand ctx src) t → Tracks src t := fun t => ih hver.1
    have hnil : src.shape = [] := by simp [Value.shape, hver.2]
    obtain ⟨hfollows, hsizes, t, ht, hsource⟩ := follows_splat
      (fun t ht => ⟨(htracks t ht).follows, by simpa [hnil] using (htracks t ht).sizes⟩) ht
    constructor
    · exact hsizes
    · intro helt
      rw [hsource, (htracks t ht).source helt]
    · simp only [haffine]
      exact hfollows
    · simp only [haffine]
      exact regular_splat (htracks t ht).regular id shape hver.2
  | expandDims id src axis hsrc ih =>
    obtain ⟨hsrcVer, shape, hshape, haxis⟩ := hver
    have hsrcShape := shape_of_ty hshape
    have haffine : ∀ ρ, affine ρ (.expandDims id src axis) = (affine ρ src).expandDims axis :=
      fun ρ => by simp [affine, Value.ty, hshape]
    refine tracks_dispatch
      (hknown _ s (.expandDims id src axis hsrc) ⟨hsrcVer, shape, hshape, haxis⟩)
      (fun _ hp => absurd hp not_returns_unexpectedPointer) (fun _ ht => ?_) h
    have htracks : ∀ t, Returns (visitOperand ctx src) t → Tracks src t := fun t => ih hsrcVer
    have hlength : ∀ t, Returns (visitOperand ctx src) t → axis ≤ t.dims.length := fun t ht => by
      have hlen := congrArg List.length (htracks t ht).sizes
      rw [List.length_map, List.length_map, hsrcShape] at hlen
      omega
    obtain ⟨hfollows, t, ht, hsizes, hsource⟩ :=
      follows_expandDims (fun t ht => ⟨(htracks t ht).follows, hlength t ht⟩) ht
    constructor
    · rw [hsizes, (htracks t ht).sizes, hsrcShape]
      simp [Value.shape, Value.ty, hshape, List.map_insertIdx]
    · intro helt
      rw [hsource, (htracks t ht).source helt]
    · simp only [haffine]
      exact hfollows
    · simp only [haffine]
      exact regular_expandDims (htracks t ht).regular id axis (by simp [hshape])
        (by rw [hsrcShape]; exact haxis)
  | broadcast id src shape hsrc ih =>
    obtain ⟨hsrcVer, srcShape, hshape, hdims⟩ := hver
    have haffine : ∀ ρ, affine ρ (.broadcast id src shape) = { affine ρ src with
        lost := broadcastLost src.shape shape (affine ρ src).strides (affine ρ src).lost } :=
      fun ρ => by simp [affine, Value.ty]
    refine tracks_dispatch
      (hknown _ s (.broadcast id src shape hsrc) ⟨hsrcVer, srcShape, hshape, hdims⟩)
      (fun _ hp => absurd hp not_returns_unexpectedPointer) (fun _ ht => ?_) h
    have htracks : ∀ t, Returns (visitOperand ctx src) t → Tracks src t := fun t => ih hsrcVer
    obtain ⟨hfollows, hsizes, t, ht, hsource⟩ := follows_broadcast
      (fun ρ => broadcastLost src.shape shape (affine ρ src).strides (affine ρ src).lost)
      (fun t ht => ⟨(htracks t ht).follows, (htracks t ht).sizes⟩) ht
    constructor
    · exact hsizes
    · intro helt
      rw [hsource, (htracks t ht).source helt]
    · simp only [haffine]
      exact hfollows
    · simp only [haffine]
      exact regular_broadcast (htracks t ht).regular id shape (by rwa [shape_of_ty hshape])
  | addi id lhs rhs hl hr ihl ihr =>
    obtain ⟨hlv, hrv, hty, helt⟩ := hver
    refine tracks_dispatch (hknown _ s (.addi id lhs rhs hl hr) ⟨hlv, hrv, hty, helt⟩)
      (fun _ hp => absurd hp not_returns_unexpectedPointer) (fun hs ht => ?_) h
    obtain ⟨L, R, hL, hR, hsum⟩ := returns_visitOperandAdd
      (fun L hL => (ihl hlv hL).no_modulo) (fun R hR => (ihr hrv hR).no_modulo) ht
    apply tracks_sum (v := .binary id .addi lhs rhs) (ihl hlv hL) (ihr hrv hR) rfl
      (shape_operands hty) (fun ρ idx => rfl) (fun _ => ⟨helt, hty ▸ helt⟩) (fun ρ => ?_) hsum
    conv_lhs => unfold affine
    rw [if_neg (affine_tensor hs)]
  | muli id lhs rhs hl hr ihl ihr =>
    obtain ⟨hlv, hrv, hty, helt⟩ := hver
    refine tracks_dispatch (hknown _ s (.muli id lhs rhs hl hr) ⟨hlv, hrv, hty, helt⟩)
      (fun _ hp => absurd hp not_returns_unexpectedPointer) (fun hs ht => ?_) h
    obtain ⟨L, R, hL, hR, hproduct⟩ := returns_visitOperandMul
      (fun L hL => (ihl hlv hL).no_modulo) (fun R hR => (ihr hrv hR).no_modulo) ht
    apply tracks_product (v := .binary id .muli lhs rhs) (ihl hlv hL) (ihr hrv hR) rfl
      (shape_operands hty) (fun ρ idx => rfl) helt (hty ▸ helt) (fun ρ => ?_) hproduct
    conv_lhs => unfold affine
    rw [if_neg (affine_tensor hs)]
  | extSI id src elt hsrc ih =>
    obtain ⟨hsrcVer, hsrcElt, helt⟩ := hver
    refine tracks_dispatch (hknown _ s (.extSI id src elt hsrc) ⟨hsrcVer, hsrcElt, helt⟩)
      (fun _ hp => absurd hp not_returns_unexpectedPointer) (fun hs ht => ?_) h
    have hsrcTracks := ih hsrcVer ht
    have haffine : ∀ ρ, affine ρ (.cast id .extSI src elt) = affine ρ src := fun ρ => by
      conv_lhs => unfold affine
      rw [if_neg (affine_tensor hs)]
    have hregular := hsrcTracks.regular
    constructor
    · exact hsrcTracks.sizes
    · intro _
      exact hsrcTracks.source hsrcElt
    · simp only [haffine]
      exact hsrcTracks.follows
    · simp only [haffine]
      constructor
      · constructor
        · exact hregular.lost
        · exact hregular.strides
        · exact hregular.value
        · exact fun ρ c hc _ => hregular.uniform ρ c hc hsrcElt
      · exact fun hnil _ => hregular.rank_zero hnil hsrcElt
  | addptr id ptr offset hp ho ihp iho =>
    obtain ⟨hpv, hov, hshape, helt⟩ := hver
    have hsum : Returns (visitOperandAddptr ctx (visitOperand ctx ptr) (visitOperand ctx offset)) s →
        Tracks (.addptr id ptr offset) s := fun hs => by
      obtain ⟨L, R, hL, hR, hsum⟩ := returns_visitOperandAddptr hs
      apply tracks_sum (v := .addptr id ptr offset) (ihp hpv hL) (iho hov hR) rfl
        (by rw [Value.shape, ← hshape]; rfl) (fun ρ idx => rfl) (fun hne => absurd helt hne) (fun ρ => ?_) hsum
      conv_lhs => unfold affine
      rw [if_neg (by simp [Value.ty, helt])]
    exact tracks_dispatch (hknown _ s (.addptr id ptr offset hp ho) ⟨hpv, hov, hshape, helt⟩)
      (fun _ => hsum) (fun _ => hsum) h

end Induction

/-- The table of known pointers: the state of each `tt.addptr` is recorded
after its visit, and values outside the language have any state. -/
inductive Recorded (ctx : Context) : (Value → Option PtrState) → Prop
  | nil : Recorded ctx fun _ => none
  | addptr (known : Value → Option PtrState) (h : Recorded ctx known) (id : ℕ)
      (ptr offset : Value) (s : PtrState)
      (hs : Returns (visitOperand { ctx with knownPtrs := known } (.addptr id ptr offset)) s) :
      Recorded ctx (Function.update known (.addptr id ptr offset) (some s))
  | other (known : Value → Option PtrState) (h : Recorded ctx known) (v : Value) (s : PtrState)
      (hv : ¬ Expr v) : Recorded ctx (Function.update known v (some s))

theorem recorded_tracks {ctx : Context} {known : Value → Option PtrState}
    (h : Recorded ctx known) :
    ∀ w t, Expr w → w.Verified → known w = some t → Tracks w t := by
  induction h with
  | nil =>
    intro w t _ _ ht
    cases ht
  | addptr known _ id ptr offset s hs ih =>
    intro w t hexpr hver ht
    by_cases hw : w = .addptr id ptr offset
    · subst hw
      rw [Function.update_self] at ht
      cases ht
      exact visitOperand_tracks hexpr hver ih hs
    · rw [Function.update_of_ne hw] at ht
      exact ih w t hexpr hver ht
  | other known _ v s hv ih =>
    intro w t hexpr hver ht
    have hw : w ≠ v := fun e => hv (e ▸ hexpr)
    rw [Function.update_of_ne hw] at ht
    exact ih w t hexpr hver ht

/-- The state has the shape of the value, and its address is the value at every
index. -/
def Denotes (ρ : Env) (v : Value) (s : PtrState) : Prop :=
  s.dims.map Dim.size = (v.shape.map fun n : ℕ => OFR.attr n) ∧
    ∀ idx, InBounds v.shape idx → s.address ρ idx = v.eval ρ idx

def Affine.Exact (shape : List ℕ) (a : Affine) : Prop :=
  0 ∈ shape ∨ a.lostStart = 0 ∧ ∀ p ∈ shape.zip a.lost, 1 < p.1 → p.2 = 0

theorem inBounds_origin {shape : List ℕ} (h : 0 ∉ shape) :
    InBounds shape (shape.map fun _ => 0) := by
  induction shape with
  | nil => exact .nil
  | cons d ds ih =>
    rw [List.mem_cons, not_or] at h
    exact .cons (Nat.pos_of_ne_zero (Ne.symm h.1)) (ih h.2)

theorem not_inBounds_empty {shape idx : List ℕ} (h : 0 ∈ shape) : ¬ InBounds shape idx := by
  intro hidx
  induction hidx with
  | nil => cases h
  | @cons d i ds is hi _ ih =>
    rcases List.mem_cons.mp h with rfl | h
    · omega
    · exact ih h

/-- A linear form is constant on a box exactly when it is zero on every side of
more than one element. -/
theorem dot_constant_iff (shape : List ℕ) (a : List ℤ) (c : ℤ) (h : a.length = shape.length) :
    (∀ idx, InBounds shape idx → dot a idx = c) ↔
      0 ∈ shape ∨ c = 0 ∧ ∀ p ∈ shape.zip a, 1 < p.1 → p.2 = 0 := by
  induction shape generalizing a with
  | nil =>
    cases a with
    | cons x xs => simp at h
    | nil =>
      constructor
      · intro hall
        exact .inr ⟨(hall [] .nil).symm, by simp⟩
      · rintro (hmem | ⟨rfl, -⟩) idx hidx
        · cases hmem
        · cases hidx
          rfl
  | cons d ds ih =>
    cases a with
    | nil => simp at h
    | cons x xs =>
      have ih := ih xs (by simpa using h)
      constructor
      · intro hall
        rcases Nat.eq_zero_or_pos d with rfl | hd
        · exact .inl List.mem_cons_self
        -- the first side at zero leaves the form on the others
        have hrest : ∀ is, InBounds ds is → dot xs is = c := fun is his => by
          simpa [dot] using hall (0 :: is) (.cons hd his)
        by_cases hzero : 0 ∈ ds
        · exact .inl (List.mem_cons_of_mem _ hzero)
        obtain ⟨hc, hsides⟩ := (ih.mp hrest).resolve_left hzero
        refine .inr ⟨hc, fun p hp hside => ?_⟩
        rw [List.zip_cons_cons] at hp
        rcases List.mem_cons.mp hp with rfl | hp
        · have horigin := inBounds_origin hzero
          have hstep := hall (1 :: ds.map fun _ => 0) (.cons hside horigin)
          have hbase := hrest _ horigin
          rw [dot, hbase] at hstep
          simpa using hstep
        · exact hsides p hp hside
      · rintro (hmem | ⟨hc, hsides⟩) idx hidx
        · exact absurd hidx (not_inBounds_empty hmem)
        · cases hidx with
          | @cons _ i _ is hi his =>
            have hrest := ih.mpr (.inr ⟨hc, fun p hp =>
              hsides p (by rw [List.zip_cons_cons]; exact List.mem_cons_of_mem _ hp)⟩) is his
            have hhead : x * i = 0 := by
              by_cases hside : 1 < d
              · have hx := hsides (d, x) (by rw [List.zip_cons_cons]; exact List.mem_cons_self) hside
                dsimp only at hx
                rw [hx, zero_mul]
              · have hi0 : i = 0 := by omega
                rw [hi0]
                simp
            rw [dot, hhead, hrest, zero_add]

theorem Tracks.denotes_iff {v : Value} {s : PtrState} (htracks : Tracks v s) (ρ : Env) :
    Denotes ρ v s ↔ (affine ρ v).Exact v.shape := by
  have hfollows := htracks.follows
  have hregular := htracks.regular
  have hlength : s.dims.length = v.shape.length := by
    simpa using congrArg List.length htracks.sizes
  have haddress : ∀ idx, InBounds v.shape idx →
      (s.address ρ idx = v.eval ρ idx ↔ dot (affine ρ v).lost idx = (affine ρ v).lostStart) := by
    intro idx hidx
    rw [address_plain ρ s idx hfollows.plain (hlength.trans (inBounds_length hidx)), hfollows.strides ρ,
      hfollows.base ρ, hregular.value ρ idx hidx]
    constructor
    · intro heq
      linarith
    · intro heq
      linarith
  unfold Affine.Exact
  rw [← dot_constant_iff _ _ _ (hregular.lost ρ)]
  constructor
  · intro hdenotes idx hidx
    exact (haddress idx hidx).mp (hdenotes.2 idx hidx)
  · intro hdot
    exact ⟨htracks.sizes, fun idx hidx => (haddress idx hidx).mpr (hdot idx hidx)⟩

def basePointers (n : ℕ) : Value := .splat 1 (.blockArg 0 ⟨none, .ptr⟩) [n]

/-- `ptr + (pid + arange(0, 4))`. -/
def blockPointers : Value :=
  .addptr 5 (basePointers 4)
    (.binary 4 .addi (.splat 3 (.blockArg 2 ⟨none, .int 32⟩) [4]) (.makeRange 6 0 4))

/-- `ptr + broadcast(arange(0, 1))`. -/
def broadcastPointers : Value := .addptr 4 (basePointers 4) (.broadcast 3 (.makeRange 2 0 1) [4])

def pidOffset : Value := .cast 100 .indexCast (.blockArg 2 ⟨none, .int 32⟩) .index

theorem expr_basePointers (n : ℕ) : Expr (basePointers n) := .splat _ _ _ (.blockArg 0)

theorem expr_blockPointers : Expr blockPointers := by
  apply Expr.addptr
  · exact expr_basePointers 4
  · exact .addi _ _ _ (.splat _ _ _ (.scalar _ rfl (by decide))) (.makeRange _ _ _)

end TritonCpu.AnalysisStructured
