import TritonCpu.BlockTensor
import Mathlib.Tactic.Ring

/-!
# Tensors by their row-major elements

A tensor is described by its shape and by a function of the row-major position.
A reshape and an added axis keep that function. A broadcast reads it at the
projected position, and a reduction folds it along the axis.
-/

set_option autoImplicit false

namespace TritonCpu.FlatTensor
open TritonIR BlockTensor List

/-! The row-major positions. -/

theorem length_unravel (shape : List ℕ) (k : ℕ) : (unravel shape k).length = shape.length := by
  induction shape generalizing k with
  | nil => rfl
  | cons d ds ih => simp [unravel, ih]

theorem unravel_inBounds (shape : List ℕ) (k : ℕ) (h : k < shape.prod) :
    InBounds shape (unravel shape k) := by
  induction shape generalizing k with
  | nil => exact .nil
  | cons d ds ih =>
    rw [prod_cons] at h
    have hpos : 0 < ds.prod := Nat.pos_of_ne_zero fun hz => by simp [hz] at h
    exact .cons (Nat.div_lt_of_lt_mul (by rwa [Nat.mul_comm] at h)) (ih _ (Nat.mod_lt _ hpos))

theorem ravel_lt {shape idx : List ℕ} (h : InBounds shape idx) : ravel shape idx < shape.prod := by
  induction h with
  | nil => simp [ravel]
  | @cons d i ds is hi _ ih =>
    rw [ravel, prod_cons]
    have hrow : (i + 1) * ds.prod ≤ d * ds.prod := Nat.mul_le_mul_right _ hi
    rw [Nat.succ_mul] at hrow
    omega

theorem unravel_ravel {shape idx : List ℕ} (h : InBounds shape idx) :
    unravel shape (ravel shape idx) = idx := by
  induction h with
  | nil => rfl
  | @cons d i ds is hi hrest ih =>
    have hlt := ravel_lt hrest
    have hpos : 0 < ds.prod := by omega
    rw [ravel, unravel, Nat.mul_comm i, Nat.mul_add_div hpos, Nat.mul_add_mod,
      Nat.div_eq_of_lt hlt, Nat.mod_eq_of_lt hlt, ih, Nat.add_zero]

theorem inBounds_append {front front' back back' : List ℕ} (h : InBounds front front')
    (h' : InBounds back back') : InBounds (front ++ back) (front' ++ back') := by
  induction h with
  | nil => exact h'
  | cons hi _ ih => exact .cons hi ih

theorem inBounds_concat {shape idx : List ℕ} {n k : ℕ} :
    InBounds (shape ++ [n]) (idx ++ [k]) ↔ InBounds shape idx ∧ k < n := by
  induction shape generalizing idx with
  | nil =>
    cases idx with
    | nil => simp [InBounds]
    | cons i is => simp [InBounds]
  | cons d ds ih =>
    cases idx with
    | nil => simp [InBounds]
    | cons i is =>
      simp only [InBounds, cons_append, forall₂_cons] at ih ⊢
      rw [ih, and_assoc]

theorem unravel_append (front back : List ℕ) (k : ℕ) (h : k < (front ++ back).prod) :
    unravel (front ++ back) k = unravel front (k / back.prod) ++ unravel back (k % back.prod) := by
  induction front generalizing k with
  | nil =>
    rw [nil_append] at h
    rw [Nat.mod_eq_of_lt h]
    rfl
  | cons d ds ih =>
    rw [cons_append, prod_cons] at h
    have hpos : 0 < (ds ++ back).prod := Nat.pos_of_ne_zero fun hz => by simp [hz] at h
    have hrest := ih (k % (ds ++ back).prod) (Nat.mod_lt _ hpos)
    rw [prod_append, Nat.mod_mul_left_mod, Nat.mod_mul_left_div_self] at hrest
    simp only [cons_append, unravel, prod_append, hrest]
    rw [Nat.mul_comm ds.prod, Nat.div_div_eq_div_mul]

theorem ravel_append {front front' : List ℕ} (h : front.length = front'.length)
    (back back' : List ℕ) :
    ravel (front ++ back) (front' ++ back') =
      ravel front front' * back.prod + ravel back back' := by
  induction front generalizing front' with
  | nil =>
    obtain rfl : front' = [] := length_eq_zero_iff.mp h.symm
    simp [ravel]
  | cons d ds ih =>
    cases front' with
    | nil => simp at h
    | cons i is =>
      simp only [cons_append, ravel, ih (Nat.succ.inj h), prod_append]
      ring

def project (src dst : List ℕ) (k : ℕ) : ℕ := ravel src (broadcastIndex src (unravel dst k))

theorem project_append (front front' : List ℕ) (h : front.length = front'.length)
    (back back' : List ℕ) (k : ℕ) (hk : k < (front' ++ back').prod) :
    project (front ++ back) (front' ++ back') k =
      project front front' (k / back'.prod) * back.prod + project back back' (k % back'.prod) := by
  rw [project, unravel_append _ _ _ hk, broadcastIndex, zipWith_append (by
    rw [h, length_unravel]), ravel_append (by simp [length_unravel, h])]
  rfl

theorem broadcastIndex_inBounds {shape idx : List ℕ} (h : InBounds shape idx) :
    broadcastIndex shape idx = idx := by
  induction h with
  | nil => rfl
  | @cons d i ds is hi _ ih =>
    simp only [broadcastIndex, zipWith_cons_cons] at ih ⊢
    rw [ih]
    by_cases hd : d = 1
    · simp [hd]; omega
    · simp [hd]

@[simp]
theorem project_self {shape : List ℕ} {k : ℕ} (h : k < shape.prod) : project shape shape k = k := by
  rw [project, broadcastIndex_inBounds (unravel_inBounds _ _ h), ravel_unravel _ _ h]

theorem project_ones (n : ℕ) (dst : List ℕ) (k : ℕ) : project (List.replicate n 1) dst k = 0 := by
  have hzero : ∀ (n : ℕ) (idx : List ℕ),
      ravel (List.replicate n 1) (broadcastIndex (List.replicate n 1) idx) = 0 := by
    intro n
    induction n with
    | zero => intro idx; rfl
    | succ n ih =>
      intro idx
      cases idx with
      | nil => rfl
      | cons i is => simpa [replicate_succ, broadcastIndex, ravel] using ih is
  exact hzero n _

/-! The description of a tensor. -/

variable {α β γ : Type}

structure Flat (x : Tensor α) (shape : List ℕ) (f : ℕ → α) : Prop where
  shape_eq : x.shape = shape
  get_unravel : ∀ k < shape.prod, x.get (unravel shape k) = f k

theorem Flat.get_eq {x : Tensor α} {shape : List ℕ} {f : ℕ → α} (h : Flat x shape f) {idx : List ℕ}
    (hidx : InBounds shape idx) : x.get idx = f (ravel shape idx) := by
  rw [← h.get_unravel _ (ravel_lt hidx), unravel_ravel hidx]

theorem Flat.valid {x : Tensor α} {shape : List ℕ} {f : ℕ → α} (h : Flat x shape f) :
    ValidBlockShape shape := h.shape_eq ▸ x.valid

theorem Flat.congr {x : Tensor α} {shape : List ℕ} {f g : ℕ → α} (h : Flat x shape f)
    (hfg : ∀ k < shape.prod, f k = g k) : Flat x shape g :=
  ⟨h.shape_eq, fun k hk => (h.get_unravel k hk).trans (hfg k hk)⟩

theorem Flat.map {x : Tensor α} {shape : List ℕ} {f : ℕ → α} (h : Flat x shape f) (op : α → β) :
    Flat (x.map op) shape fun k => op (f k) :=
  ⟨h.shape_eq, fun k hk => congrArg op (h.get_unravel k hk)⟩

theorem Flat.get_row {x : Tensor α} {outer : List ℕ} {n : ℕ} {f : ℕ → α} (h : Flat x (outer ++ [n]) f)
    {idx : List ℕ} (hidx : InBounds outer idx) {k : ℕ} (hk : k < n) :
    x.get (idx ++ [k]) = f (ravel outer idx * n + k) := by
  rw [h.get_eq (inBounds_concat.mpr ⟨hidx, hk⟩), ravel_append hidx.length_eq, prod_singleton]
  simp [ravel]

def elements (x : Tensor α) (k : ℕ) : α := x.get (unravel x.shape k)

theorem flat_elements (x : Tensor α) : Flat x x.shape (elements x) := ⟨rfl, fun _ _ => rfl⟩

def Computes (m : Except LanguageError (Tensor α)) (shape : List ℕ) (f : ℕ → α) : Prop :=
  ∃ x, m = .ok x ∧ Flat x shape f

theorem Computes.bind {m : Except LanguageError (Tensor α)} {shape : List ℕ} {f : ℕ → α}
    (h : Computes m shape f) {next : Tensor α → Except LanguageError (Tensor β)}
    {shape' : List ℕ} {g : ℕ → β} (hnext : ∀ x, Flat x shape f → Computes (next x) shape' g) :
    Computes (m >>= next) shape' g := by
  obtain ⟨x, rfl, hx⟩ := h
  exact hnext x hx

theorem Computes.congr {m : Except LanguageError (Tensor α)} {shape : List ℕ} {f g : ℕ → α}
    (h : Computes m shape f) (hfg : ∀ k < shape.prod, f k = g k) : Computes m shape g := by
  obtain ⟨x, hm, hx⟩ := h
  exact ⟨x, hm, hx.congr hfg⟩

theorem computes_ok {x : Tensor α} {shape : List ℕ} {f : ℕ → α} (h : Flat x shape f) :
    Computes (.ok x) shape f := ⟨x, rfl, h⟩

theorem computes_block {shape : List ℕ} (hne : shape ≠ []) (hvalid : ValidBlockShape shape)
    (get : List ℕ → α) : Computes (block shape get) shape fun k => get (unravel shape k) :=
  ⟨⟨shape, hvalid, get⟩, by rw [block, if_neg hne, dif_pos hvalid], rfl, fun _ _ => rfl⟩

/-! The operations. -/

theorem computes_reshape {x : Tensor α} {shape dst : List ℕ} {f : ℕ → α} (h : Flat x shape f)
    (hne : dst ≠ []) (hprod : dst.prod = shape.prod) (hvalid : ValidBlockShape dst) :
    Computes (reshape x dst) dst f := by
  have hnumel : x.numel = dst.prod := by rw [Tensor.numel, h.shape_eq, hprod]
  have hreshape : reshape x dst = block dst fun idx => x.get (unravel x.shape (ravel dst idx)) := by
    simp [reshape, validateBlockShape, hvalid, hnumel, bind, Except.bind]
  rw [hreshape]
  refine (computes_block hne hvalid _).congr fun k hk => ?_
  rw [ravel_unravel _ _ hk, h.shape_eq, h.get_unravel k (hprod ▸ hk)]

theorem isPowerOfTwo_two_pow (m : ℕ) : isPowerOfTwo (2 ^ m) = true := by
  rw [isPowerOfTwo, Nat.and_two_pow_sub_one_eq_mod, Nat.mod_self]
  rfl

theorem isPowerOfTwo_one : isPowerOfTwo 1 = true := isPowerOfTwo_two_pow 0

theorem valid_insert_one (front : List ℕ) {back : List ℕ} (h : ValidBlockShape (front ++ back)) :
    ValidBlockShape (front ++ 1 :: back) := by
  refine ⟨fun d hd => ?_, ?_⟩
  · rcases mem_append.mp hd with hd | hd
    · exact h.1 d (mem_append_left _ hd)
    rcases mem_cons.mp hd with rfl | hd
    · exact isPowerOfTwo_one
    · exact h.1 d (mem_append_right _ hd)
  · simpa [prod_append] using h.2

theorem insertIdx_length (front back : List α) (a : α) :
    (front ++ back).insertIdx front.length a = front ++ a :: back := by
  induction front with
  | nil => rfl
  | cons d ds ih => simpa using ih

theorem eraseIdx_length (front back : List α) (a : α) :
    (front ++ a :: back).eraseIdx front.length = front ++ back := by
  induction front with
  | nil => rfl
  | cons d ds ih => simpa using ih

theorem unravel_axis (front back : List ℕ) (d k : ℕ) (h : k < (front ++ d :: back).prod) :
    unravel (front ++ d :: back) k =
      unravel front (k / (d * back.prod)) ++
        k % (d * back.prod) / back.prod :: unravel back (k % back.prod) := by
  rw [unravel_append _ _ _ h, prod_cons, unravel, Nat.mod_mul_left_mod]

theorem computes_expandDims {x : Tensor α} (front back : List ℕ) {f : ℕ → α}
    (h : Flat x (front ++ back) f) :
    Computes (expandDims x front.length) (front ++ 1 :: back) f := by
  have haxis : ¬ x.shape.length + 1 ≤ front.length := by
    rw [h.shape_eq, length_append]
    omega
  have hexpand : expandDims x front.length =
      block (front ++ 1 :: back) fun idx => x.get (idx.eraseIdx front.length) := by
    rw [expandDims, if_neg haxis, h.shape_eq, insertIdx_length]
  rw [hexpand]
  refine (computes_block (by simp) (valid_insert_one _ h.valid) _).congr fun k hk => ?_
  have hlength : (unravel front (k / (1 * back.prod))).length = front.length := length_unravel _ _
  have hk' : k < (front ++ back).prod := by simpa [prod_append] using hk
  rw [unravel_axis _ _ _ _ hk, ← hlength, eraseIdx_length, Nat.one_mul, ← unravel_append _ _ _ hk',
    h.get_unravel k hk']

theorem computes_axis_front {x : Tensor α} {shape : List ℕ} {f : ℕ → α} (h : Flat x shape f) :
    Computes (block (1 :: x.shape) fun idx => x.get idx.tail) (1 :: shape) f := by
  have hvalid : ValidBlockShape (1 :: x.shape) := valid_insert_one [] x.valid
  rw [h.shape_eq] at hvalid ⊢
  refine (computes_block (by simp) hvalid _).congr fun k hk => ?_
  rw [prod_cons, Nat.one_mul] at hk
  rw [unravel, tail_cons, Nat.mod_eq_of_lt hk, h.get_unravel k hk]

theorem computes_addAxes {x : Tensor α} {shape : List ℕ} {f : ℕ → α} (n : ℕ) (h : Flat x shape f) :
    Computes (addAxes n x) (List.replicate n 1 ++ shape) f := by
  induction n generalizing x shape with
  | zero => exact computes_ok h
  | succ n ih =>
    have hshape : List.replicate (n + 1) 1 ++ shape = List.replicate n 1 ++ 1 :: shape := by
      rw [replicate_succ', append_assoc]
      rfl
    rw [hshape]
    exact (computes_axis_front h).bind fun y hy => ih hy

/-! The broadcasts. -/

/-- Two shapes and the one both are broadcast to. -/
inductive Joins : List ℕ → List ℕ → List ℕ → Prop
  | nil : Joins [] [] []
  | same (d : ℕ) {s t u : List ℕ} : Joins s t u → Joins (d :: s) (d :: t) (d :: u)
  | left (d : ℕ) {s t u : List ℕ} : Joins s t u → Joins (1 :: s) (d :: t) (d :: u)
  | right (d : ℕ) {s t u : List ℕ} : Joins s t u → Joins (d :: s) (1 :: t) (d :: u)

namespace Joins

variable {s t u s' t' u' : List ℕ}

theorem append (h : Joins s t u) (h' : Joins s' t' u') : Joins (s ++ s') (t ++ t') (u ++ u') := by
  induction h with
  | nil => exact h'
  | same d _ ih => exact ih.same d
  | left d _ ih => exact ih.left d
  | right d _ ih => exact ih.right d

theorem refl (s : List ℕ) : Joins s s s := by
  induction s with
  | nil => exact .nil
  | cons d ds ih => exact ih.same d

theorem ones_right (s : List ℕ) : Joins s (List.replicate s.length 1) s := by
  induction s with
  | nil => exact .nil
  | cons d ds ih => exact ih.right d

theorem length_left (h : Joins s t u) : s.length = u.length := by
  induction h with
  | nil => rfl
  | same _ _ ih | left _ _ ih | right _ _ ih => simp [ih]

theorem length_right (h : Joins s t u) : t.length = u.length := by
  induction h with
  | nil => rfl
  | same _ _ ih | left _ _ ih | right _ _ ih => simp [ih]

theorem compatibleShape_eq (h : Joins s t u) (i : ℕ) : compatibleShape i s t = .ok u := by
  induction h generalizing i with
  | nil => rfl
  | same d _ ih =>
    by_cases hd : d = 1 <;> simp [compatibleShape, hd, ih, Functor.map, Except.map]
  | left d _ ih => simp [compatibleShape, ih, Functor.map, Except.map]
  | right d _ ih =>
    by_cases hd : d = 1 <;> simp [compatibleShape, hd, ih, Functor.map, Except.map]

theorem inBounds_left (h : Joins s t u) {idx : List ℕ} (hidx : InBounds u idx) :
    InBounds s (broadcastIndex s idx) := by
  induction h generalizing idx with
  | nil => cases hidx; exact .nil
  | same d _ ih | right d _ ih =>
    cases hidx with
    | cons hi hrest =>
      refine .cons ?_ (ih hrest)
      show (if d = 1 then 0 else _) < d
      split <;> omega
  | left d _ ih =>
    cases hidx with
    | cons hi hrest => exact .cons (by simp) (ih hrest)

theorem symm (h : Joins s t u) : Joins t s u := by
  induction h with
  | nil => exact .nil
  | same d _ ih => exact ih.same d
  | left d _ ih => exact ih.right d
  | right d _ ih => exact ih.left d

end Joins

theorem computes_expandTo {x : Tensor α} {s t u : List ℕ} {f : ℕ → α} (h : Flat x s f)
    (hjoin : Joins s t u) (hne : u ≠ []) (hvalid : ValidBlockShape u) :
    Computes (expandTo x u) u fun k => f (project s u k) := by
  have hshape := h.shape_eq
  rw [expandTo]
  split
  next hsame =>
    obtain rfl : s = u := hshape.symm.trans hsame
    exact (computes_ok h).congr fun k hk => by rw [project_self hk]
  next =>
    refine (computes_block hne hvalid _).congr fun k hk => ?_
    rw [hshape, h.get_eq (hjoin.inBounds_left (unravel_inBounds _ _ hk))]
    rfl

theorem broadcastImplValue_same {x : Tensor α} {y : Tensor β} (h : x.shape = y.shape) :
    broadcastImplValue x y = .ok (x, y) := by
  have hjoin := (Joins.refl y.shape).compatibleShape_eq 0
  by_cases hy : y.shape = []
  · simp [broadcastImplValue, h, hy, addAxes, bind, Except.bind, compatibleShape, expandTo, pure,
      Except.pure]
  · simp [broadcastImplValue, h, hy, addAxes, bind, Except.bind, hjoin, expandTo, pure, Except.pure]

theorem computes_elementwise_padded {x : Tensor α} {y : Tensor β} {s t u : List ℕ} {f : ℕ → α}
    {g : ℕ → β} (n : ℕ) (hx : Flat x s f) (hy : Flat y t g)
    (hjoin : Joins s (List.replicate n 1 ++ t) u) (ht : t ≠ []) (hvalid : ValidBlockShape u)
    (op : α → β → γ) :
    Computes (elementwise op x y) u fun k =>
      op (f (project s u k)) (g (project (List.replicate n 1 ++ t) u k)) := by
  have hlength : s.length = n + t.length := by
    rw [hjoin.length_left, ← hjoin.length_right, length_append, length_replicate]
  have hpos : 0 < t.length := length_pos_iff.mpr ht
  have hs : s ≠ [] := length_pos_iff.mp (by omega)
  have hne : u ≠ [] := length_pos_iff.mp (by rw [← hjoin.length_left]; omega)
  obtain ⟨x', hx', hflatx⟩ := computes_expandTo hx hjoin hne hvalid
  obtain ⟨z, hz, hflatz⟩ := computes_addAxes n hy
  obtain ⟨y', hy', hflaty⟩ := computes_expandTo hflatz hjoin.symm hne hvalid
  have hpair : broadcastImplValue x y = .ok (x', y') := by
    have hfront : t.length - s.length = 0 := by omega
    have hback : s.length - t.length = n := by omega
    simp only [broadcastImplValue, hx.shape_eq, hy.shape_eq, hs, ht, ne_eq, not_false_iff,
      true_and, and_true, if_false, hfront, addAxes, bind, Except.bind, hback, hz, hflatz.shape_eq,
      hjoin.compatibleShape_eq, hx', hy', pure, Except.pure]
  refine ⟨⟨x'.shape, x'.valid, fun idx => op (x'.get idx) (y'.get idx)⟩, ?_, hflatx.shape_eq, ?_⟩
  · rw [elementwise, hpair]
    rfl
  · intro k hk
    exact congrArg₂ op (hflatx.get_unravel k hk) (hflaty.get_unravel k hk)

theorem computes_elementwise {x : Tensor α} {y : Tensor β} {s t u : List ℕ} {f : ℕ → α} {g : ℕ → β}
    (hx : Flat x s f) (hy : Flat y t g) (hjoin : Joins s t u) (ht : t ≠ [])
    (hvalid : ValidBlockShape u) (op : α → β → γ) :
    Computes (elementwise op x y) u fun k => op (f (project s u k)) (g (project t u k)) :=
  computes_elementwise_padded 0 hx hy hjoin ht hvalid op

theorem computes_elementwise_same {x : Tensor α} {y : Tensor β} {s : List ℕ} {f : ℕ → α} {g : ℕ → β}
    (hx : Flat x s f) (hy : Flat y s g) (hne : s ≠ []) (op : α → β → γ) :
    Computes (elementwise op x y) s fun k => op (f k) (g k) :=
  (computes_elementwise hx hy (.refl s) hne hx.valid op).congr fun k hk => by rw [project_self hk]

theorem computes_elementwise_scalar_left {y : Tensor β} {s : List ℕ} {g : ℕ → β} (a : α)
    (hy : Flat y s g) (hne : s ≠ []) (op : α → β → γ) :
    Computes (elementwise op (scalar a) y) s fun k => op a (g k) := by
  obtain ⟨x', hx', hflat⟩ := computes_block hne hy.valid fun _ => a
  refine ⟨⟨x'.shape, x'.valid, fun idx => op (x'.get idx) (y.get idx)⟩, ?_, hflat.shape_eq, ?_⟩
  · have hpair : broadcastImplValue (scalar a) y = .ok (x', y) := by
      simp [broadcastImplValue, scalar, hy.shape_eq, hne, hx', Functor.map, Except.map]
    rw [elementwise, hpair]
    rfl
  · intro k hk
    exact congrArg₂ op (hflat.get_unravel k hk) (hy.get_unravel k hk)

theorem computes_elementwise_scalar_right {x : Tensor α} {s : List ℕ} {f : ℕ → α} (b : β)
    (hx : Flat x s f) (hne : s ≠ []) (op : α → β → γ) :
    Computes (elementwise op x (scalar b)) s fun k => op (f k) b := by
  obtain ⟨y', hy', hflat⟩ := computes_block hne hx.valid fun _ => b
  refine ⟨⟨x.shape, x.valid, fun idx => op (x.get idx) (y'.get idx)⟩, ?_, hx.shape_eq, ?_⟩
  · have hpair : broadcastImplValue x (scalar b) = .ok (x, y') := by
      simp [broadcastImplValue, scalar, hx.shape_eq, hne, hy', Functor.map, Except.map]
    rw [elementwise, hpair]
    rfl
  · intro k hk
    exact congrArg₂ op (hx.get_unravel k hk) (hflat.get_unravel k hk)

theorem findIdx?_of_joins {s t u : List ℕ} (hjoin : Joins s t u) :
    (s.zip u).findIdx? (fun (item, size) => size ≠ item ∧ item ≠ 1) = none := by
  rw [List.findIdx?_eq_none_iff]
  induction hjoin with
  | nil => simp
  | same d _ ih | left d _ ih | right d _ ih => simpa using ih

theorem computes_broadcastTo {x : Tensor α} {s t u : List ℕ} {f : ℕ → α} (h : Flat x s f)
    (hjoin : Joins s t u) (hs : s ≠ []) (hvalid : ValidBlockShape u) :
    Computes (broadcastTo x u) u fun k => f (project s u k) := by
  have hlength := hjoin.length_left
  have hne : u ≠ [] := by
    rw [← length_pos_iff] at hs ⊢
    omega
  have hnone := findIdx?_of_joins hjoin
  have heq : broadcastTo x u = expandTo x u := by
    simp only [broadcastTo, validateBlockShape, hvalid, if_true, bind, Except.bind, h.shape_eq, hs,
      if_false, hlength, hnone, expandTo]
    simp
  rw [heq]
  exact computes_expandTo h hjoin hne hvalid

theorem elementwise_invalid {x : Tensor α} {y : Tensor β} {s t u : List ℕ} {f : ℕ → α} {g : ℕ → β}
    (hx : Flat x s f) (hy : Flat y t g) (hjoin : Joins s t u) (ht : t ≠ [])
    (hvalid : ¬ ValidBlockShape u) (op : α → β → γ) :
    elementwise op x y = .error (shapeError u) := by
  have hlength : s.length = t.length := hjoin.length_left.trans hjoin.length_right.symm
  have hs : s ≠ [] := length_pos_iff.mp (hlength ▸ length_pos_iff.mpr ht)
  have hu : u ≠ [] := length_pos_iff.mp (hjoin.length_right ▸ length_pos_iff.mpr ht)
  have hne : s ≠ u := fun h => hvalid (h ▸ hx.valid)
  have hexpand : expandTo x u = .error (shapeError u) := by
    rw [expandTo, hx.shape_eq, if_neg hne, block, if_neg hu, dif_neg hvalid]
  simp [elementwise, broadcastImplValue, hx.shape_eq, hy.shape_eq, hs, ht, hlength, addAxes, bind,
    Except.bind, hjoin.compatibleShape_eq, hexpand]

/-! The reduction. -/

theorem valid_erase {front back : List ℕ} {d : ℕ} (h : ValidBlockShape (front ++ d :: back))
    (hd : 0 < d) : ValidBlockShape (front ++ back) := by
  refine ⟨fun e he => h.1 e ?_, ?_⟩
  · rcases mem_append.mp he with he | he
    · exact mem_append_left _ he
    · exact mem_append_right _ (mem_cons_of_mem _ he)
  · have hprod := h.2
    rw [prod_append, prod_cons, Nat.mul_left_comm] at hprod
    rw [prod_append]
    exact (Nat.le_mul_of_pos_left _ hd).trans hprod

theorem foldAxis_two (combine : α → α → α) (f : ℕ → α) :
    foldAxis combine 2 f = combine (f 0) (f 1) := rfl

theorem foldAxis_congr {combine : α → α → α} {size : ℕ} {f g : ℕ → α} (hpos : 0 < size)
    (h : ∀ j < size, f j = g j) : foldAxis combine size f = foldAxis combine size g := by
  rw [foldAxis, foldAxis, h 0 hpos]
  refine foldl_ext _ _ _ fun acc j hj => ?_
  rw [h (j + 1) (by rw [mem_range] at hj; omega)]

theorem computes_reduce {x : Tensor α} (front back : List ℕ) {d : ℕ} {f : ℕ → α}
    (h : Flat x (front ++ d :: back) f) (hd : 0 < d) (hne : front ++ back ≠ [])
    (combine : α → α → α) :
    Computes (reduce combine x front.length) (front ++ back) fun k =>
      foldAxis combine d fun j => f ((k / back.prod * d + j) * back.prod + k % back.prod) := by
  have haxis : ¬ x.shape.length ≤ front.length := by
    rw [h.shape_eq, length_append, length_cons]
    omega
  have herase : x.shape.eraseIdx front.length = front ++ back := by
    rw [h.shape_eq, eraseIdx_length]
  have hsize : x.shape.getD front.length 0 = d := by
    rw [h.shape_eq]
    simp [List.getD]
  have hreduce : reduce combine x front.length = block (front ++ back) fun idx =>
      foldAxis combine d fun j => x.get (idx.insertIdx front.length j) := by
    simp only [reduce, if_neg haxis, herase, if_neg hne, hsize]
  rw [hreduce]
  refine (computes_block hne (valid_erase h.valid hd) _).congr fun k hk => ?_
  refine foldAxis_congr hd fun j hj => ?_
  have hlength : (unravel front (k / back.prod)).length = front.length := length_unravel _ _
  have hpos : 0 < back.prod := Nat.pos_of_ne_zero fun hz => by simp [prod_append, hz] at hk
  have hfront : k / back.prod < front.prod := by
    rw [prod_append, Nat.mul_comm] at hk
    exact Nat.div_lt_of_lt_mul hk
  have hindex : InBounds (front ++ d :: back)
      (unravel front (k / back.prod) ++ j :: unravel back (k % back.prod)) := by
    exact inBounds_append (unravel_inBounds _ _ hfront)
      (.cons hj (unravel_inBounds _ _ (Nat.mod_lt _ hpos)))
  rw [unravel_append _ _ _ hk, ← hlength, insertIdx_length, h.get_eq hindex,
    ravel_append (length_unravel _ _).symm, prod_cons, ravel, ravel_unravel _ _ hfront,
    ravel_unravel _ _ (Nat.mod_lt _ hpos)]
  congr 1
  ring

end TritonCpu.FlatTensor
