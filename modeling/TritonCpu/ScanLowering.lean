import TritonCpu.LoopNest
import Mathlib.Logic.Function.Basic

/-!
# The lowering of a scan

`CumSumConverter` replaces a scan by a loop nest over the whole shape. Each iteration
reads the result before it along the axis, clones the combine region, and stores
the results. The memory of the results starts undefined.
-/

set_option autoImplicit false

namespace TritonCpu.ScanLowering
open LoopNest List

/-! The combine region. -/

variable {Name Value : Type}

structure InnerOp (Name Value : Type) where
  operands : List Name
  results : List Name
  eval : List Value → List Value

structure Region (Name Value : Type) where
  arguments : List Name
  body : List (InnerOp Name Value)
  returns : List Name

/-- What the names of the region stand for in the loop body. A name without an entry
is a value from outside. -/
abbrev IRMapping (Name Value : Type) := Name → Value

variable [DecidableEq Name]

/-- `mapping.map(name, value)`, for each of the names. -/
def mapAll (mapping : IRMapping Name Value) (names : List Name) (values : List Value) :
    IRMapping Name Value :=
  (names.zip values).foldl (fun mapping p => Function.update mapping p.1 p.2) mapping

/-- `b.clone(innerOp, mapping)`, and what the clone computes. -/
def InnerOp.clone (mapping : IRMapping Name Value) (op : InnerOp Name Value) :
    IRMapping Name Value :=
  mapAll mapping op.results (op.eval (op.operands.map mapping))

def Region.cloneBody (region : Region Name Value) (mapping : IRMapping Name Value) : List Value :=
  region.returns.map (region.body.foldl InnerOp.clone mapping)

/-- The combine function of the region: its arguments are the accumulated values, then
the current ones. -/
def Region.combine (region : Region Name Value) (outer : IRMapping Name Value)
    (accs curs : List Value) : List Value :=
  region.cloneBody (mapAll outer region.arguments (accs ++ curs))

/-! Memory. -/

abbrev Tensor (Value : Type) := List ℤ → Value

/-- A buffer whose elements may be undefined. -/
abbrev Memref (Value : Type) := List ℤ → Option Value

def extract (shape : List ℕ) (t : Tensor Value) (idxs : List ℤ) : Option Value :=
  if InBounds shape idxs then some (t idxs) else none

def load (shape : List ℕ) (m : Memref Value) (idxs : List ℤ) : Option Value :=
  if InBounds shape idxs then m idxs else none

def store (shape : List ℕ) (m : Memref Value) (idxs : List ℤ) (v : Value) :
    Option (Memref Value) :=
  if InBounds shape idxs then some (Function.update m idxs (some v)) else none

def alloc : Memref Value := fun _ => none

/-! The operation and its lowering. -/

/-- `tt.scan`, as its verifier accepts it. -/
structure ScanOp (Name Value : Type) where
  shape : List ℕ
  sources : List (Tensor Value)
  axis : ℕ
  reverse : Bool
  region : Region Name Value
  outer : IRMapping Name Value
  sources_ne : sources ≠ []
  axis_lt : axis < shape.length
  arguments_length : region.arguments.length = 2 * sources.length
  returns_length : region.returns.length = sources.length

namespace ScanOp

variable (op : ScanOp Name Value)

def numReductions : ℕ := op.sources.length

/-- The map of the region's arguments: first the accumulated values, then the current ones. -/
def mapping (accs curs : List Value) : IRMapping Name Value :=
  mapAll (mapAll op.outer (op.region.arguments.take op.numReductions) accs)
    (op.region.arguments.drop op.numReductions) curs

/-- The body of the loop nest, at one point. A read that is out of range or undefined fails. -/
def body (ivs : List ℤ) (outputMemrefs : List (Memref Value)) : Option (List (Memref Value)) := do
  let ivAxis ← ivs[op.axis]?
  let dimSize ← op.shape[op.axis]?
  let pos := if op.reverse then (dimSize - 1 : ℤ) - ivAxis else ivAxis
  let idxs := ivs.set op.axis pos
  if ivAxis = 0 then
    (op.sources.zip outputMemrefs).mapM fun p => do
      let v ← extract op.shape p.1 idxs
      store op.shape p.2 idxs v
  else
    let prevPos := if op.reverse then pos + 1 else pos - 1
    let prevIdx := idxs.set op.axis prevPos
    let accs ← outputMemrefs.mapM fun m => load op.shape m prevIdx
    let curs ← op.sources.mapM fun t => extract op.shape t idxs
    let results := op.region.cloneBody (op.mapping accs curs)
    (results.zip outputMemrefs).mapM fun p => store op.shape p.2 idxs p.1

def lowered : Option (List (Memref Value)) :=
  buildLoopNest op.shape op.body (List.replicate op.numReductions alloc)

/-! What a scan is. -/

def row (sources : List (Tensor Value)) (idxs : List ℤ) : List Value := sources.map fun t => t idxs

/-- The inclusive scan along the axis, from its first element on. -/
def forward (sources : List (Tensor Value)) (idxs : List ℤ) : List Value :=
  inclusiveScan (op.region.combine op.outer) (fun j => row sources (idxs.set op.axis j))
    (idxs.getD op.axis 0).toNat

def flipped (idxs : List ℤ) : List ℤ :=
  idxs.set op.axis ((op.shape.getD op.axis 0 : ℤ) - 1 - idxs.getD op.axis 0)

/-- The results of the scan at a point: a reverse scan flips the operands, scans them, and
flips the results. -/
def scan (idxs : List ℤ) : List Value :=
  if op.reverse then op.forward (op.sources.map fun t idxs => t (op.flipped idxs)) (op.flipped idxs)
  else op.forward op.sources idxs

end ScanOp

/-! Reads and writes of all operands. -/

section Access

variable {shape : List ℕ} {idxs : List ℤ}

theorem mapM_eq_map {α β : Type} {f : α → Option β} {g : α → β} (l : List α)
    (h : ∀ x ∈ l, f x = some (g x)) : l.mapM f = some (l.map g) := by
  induction l with
  | nil => rfl
  | cons x l ih =>
    rw [mapM_cons, h x mem_cons_self, ih fun y hy => h y (mem_cons_of_mem x hy)]
    rfl

theorem load_all (h : InBounds shape idxs) {memrefs : List (Memref Value)} {vs : List Value}
    (hvs : memrefs.map (fun m => m idxs) = vs.map some) :
    (memrefs.mapM fun m => load shape m idxs) = some vs := by
  induction memrefs generalizing vs with
  | nil =>
    obtain rfl : vs = [] := map_eq_nil_iff.mp hvs.symm
    rfl
  | cons m memrefs ih =>
    cases vs with
    | nil => simp at hvs
    | cons v vs =>
      simp only [map_cons, List.cons.injEq] at hvs
      rw [mapM_cons, ih hvs.2, load, if_pos h, hvs.1]
      rfl

theorem extract_all (h : InBounds shape idxs) (sources : List (Tensor Value)) :
    (sources.mapM fun t => extract shape t idxs) = some (ScanOp.row sources idxs) :=
  mapM_eq_map sources fun _ _ => if_pos h

def stored (idxs : List ℤ) (vs : List Value) (memrefs : List (Memref Value)) :
    List (Memref Value) :=
  (vs.zip memrefs).map fun p => Function.update p.2 idxs (some p.1)

theorem store_all (h : InBounds shape idxs) (vs : List Value) (memrefs : List (Memref Value)) :
    ((vs.zip memrefs).mapM fun p => store shape p.2 idxs p.1) = some (stored idxs vs memrefs) :=
  mapM_eq_map _ fun _ _ => if_pos h

theorem copy_all (h : InBounds shape idxs) (sources : List (Tensor Value))
    (memrefs : List (Memref Value)) :
    ((sources.zip memrefs).mapM fun p => do
        let v ← extract shape p.1 idxs
        store shape p.2 idxs v) = some (stored idxs (ScanOp.row sources idxs) memrefs) := by
  rw [stored, ScanOp.row, zip_map_left, map_map]
  refine mapM_eq_map _ fun p _ => ?_
  rw [extract, if_pos h]
  exact if_pos h

variable {vs : List Value} {memrefs : List (Memref Value)}

theorem length_stored (hlength : vs.length = memrefs.length) :
    (stored idxs vs memrefs).length = memrefs.length := by
  rw [stored, length_map, length_zip, hlength, min_self]

theorem stored_at (hlength : vs.length = memrefs.length) :
    (stored idxs vs memrefs).map (fun m => m idxs) = vs.map some := by
  rw [stored, map_map]
  conv_rhs => rw [← map_fst_zip hlength.le, map_map]
  exact map_congr_left fun p _ => Function.update_self _ _ _

theorem stored_other {jdxs : List ℤ} (hne : jdxs ≠ idxs) (hlength : vs.length = memrefs.length) :
    (stored idxs vs memrefs).map (fun m => m jdxs) = memrefs.map fun m => m jdxs := by
  rw [stored, map_map]
  conv_rhs => rw [← map_snd_zip hlength.ge, map_map]
  exact map_congr_left fun p _ => Function.update_of_ne hne _ _

end Access

/-! The points of the axis. -/

namespace ScanOp

variable {op : ScanOp Name Value} {ivs jvs : List ℤ} {i : ℤ} {d : ℕ}

section Points

omit [DecidableEq Name]

/-- The point that the iteration at `ivs` computes. -/
def place (op : ScanOp Name Value) (ivs : List ℤ) : List ℤ :=
  if op.reverse then op.flipped ivs else ivs

theorem flipped_eq (hd : op.shape[op.axis]? = some d) (hi : ivs[op.axis]? = some i) :
    op.flipped ivs = ivs.set op.axis (d - 1 - i) := by
  simp [flipped, getD_eq_getElem?_getD, hd, hi]

theorem place_eq (hd : op.shape[op.axis]? = some d) (hi : ivs[op.axis]? = some i) :
    op.place ivs = ivs.set op.axis (if op.reverse then (d - 1 : ℤ) - i else i) := by
  rw [place]
  split_ifs with hreverse
  · exact flipped_eq hd hi
  · obtain ⟨hlt, rfl⟩ := List.getElem?_eq_some_iff.mp hi
    exact (set_getElem_self hlt).symm

theorem getElem?_set_axis (hi : ivs[op.axis]? = some i) (j : ℤ) :
    (ivs.set op.axis j)[op.axis]? = some j :=
  List.getElem?_set_self (List.getElem?_eq_some_iff.mp hi).1

theorem place_set (hd : op.shape[op.axis]? = some d) (hi : ivs[op.axis]? = some i) (j : ℤ) :
    op.place (ivs.set op.axis j) =
      ivs.set op.axis (if op.reverse then (d - 1 : ℤ) - j else j) := by
  rw [place_eq hd (getElem?_set_axis hi j), set_set]

theorem place_place (hd : op.shape[op.axis]? = some d) (hi : ivs[op.axis]? = some i) :
    op.place (op.place ivs) = ivs := by
  obtain ⟨hlt, hget⟩ := List.getElem?_eq_some_iff.mp hi
  rw [place_eq hd hi, place_set hd hi]
  split_ifs
  · rw [sub_sub_cancel, ← hget, set_getElem_self hlt]
  · rw [← hget, set_getElem_self hlt]

theorem exists_dim (op : ScanOp Name Value) : ∃ d, op.shape[op.axis]? = some d :=
  ⟨_, List.getElem?_eq_getElem op.axis_lt⟩

theorem place_place_of_inBounds (h : InBounds op.shape ivs) : op.place (op.place ivs) = ivs := by
  obtain ⟨d, hd⟩ := exists_dim op
  obtain ⟨i, hi, -⟩ := h.coordinate hd
  exact place_place hd hi

theorem place_inBounds (h : InBounds op.shape ivs) : InBounds op.shape (op.place ivs) := by
  obtain ⟨d, hd⟩ := exists_dim op
  obtain ⟨i, hi, hpos, hlt⟩ := h.coordinate hd
  rw [place_eq hd hi]
  refine h.set hd ?_
  split_ifs <;> omega

end Points

def value (op : ScanOp Name Value) (ivs : List ℤ) : List Value :=
  inclusiveScan (op.region.combine op.outer) (fun j => row op.sources (op.place (ivs.set op.axis j)))
    (ivs.getD op.axis 0).toNat

theorem scan_eq (op : ScanOp Name Value) (idxs : List ℤ) :
    op.scan idxs = op.value (op.place idxs) := by
  rw [scan, value]
  unfold place
  split_ifs with hreverse
  · simp only [forward, row, map_map]
    rfl
  · rfl

theorem value_first (hi : ivs[op.axis]? = some 0) :
    op.value ivs = row op.sources (op.place ivs) := by
  obtain ⟨hlt, hget⟩ := List.getElem?_eq_some_iff.mp hi
  have hindex : (ivs.getD op.axis 0).toNat = 0 := by
    rw [getD_eq_getElem?_getD, hi]
    rfl
  have hself : ivs.set op.axis ((0 : ℕ) : ℤ) = ivs := by
    rw [Nat.cast_zero, ← hget, set_getElem_self hlt]
  rw [value, hindex, inclusiveScan, hself]

theorem value_next {k : ℕ} (hi : ivs[op.axis]? = some ((k + 1 : ℕ) : ℤ)) :
    op.value ivs = op.region.combine op.outer (op.value (ivs.set op.axis k))
      (row op.sources (op.place ivs)) := by
  obtain ⟨hlt, hget⟩ := List.getElem?_eq_some_iff.mp hi
  have hindex : (ivs.getD op.axis 0).toNat = k + 1 := by
    rw [getD_eq_getElem?_getD, hi]
    rfl
  have hbefore : ((ivs.set op.axis (k : ℤ)).getD op.axis 0).toNat = k := by
    rw [getD_eq_getElem?_getD, getElem?_set_axis hi]
    rfl
  have hself : ivs.set op.axis ((k + 1 : ℕ) : ℤ) = ivs := by rw [← hget, set_getElem_self hlt]
  rw [value, hindex, inclusiveScan, hself, value, hbefore]
  simp only [set_set]

theorem length_combine (op : ScanOp Name Value) (accs curs : List Value) :
    (op.region.combine op.outer accs curs).length = op.numReductions := by
  rw [Region.combine, Region.cloneBody, length_map, op.returns_length]
  rfl

theorem length_value (op : ScanOp Name Value) (ivs : List ℤ) :
    (op.value ivs).length = op.numReductions := by
  rw [value]
  cases (ivs.getD op.axis 0).toNat with
  | zero => exact length_map _
  | succ k => exact length_combine op _ _

theorem cloneBody_mapping (op : ScanOp Name Value) {accs : List Value} (curs : List Value)
    (haccs : accs.length = op.numReductions) :
    op.region.cloneBody (op.mapping accs curs) = op.region.combine op.outer accs curs := by
  have htake : (op.region.arguments.take op.numReductions).length = accs.length := by
    rw [length_take, op.arguments_length, haccs, numReductions]
    omega
  rw [Region.combine, mapping, mapAll, mapAll, mapAll, ← foldl_append, ← zip_append htake,
    take_append_drop]

/-! One iteration, and the whole nest. -/

/-- The results at the points visited so far. -/
structure Computed (op : ScanOp Name Value) (done : List (List ℤ)) (outs : List (Memref Value)) :
    Prop where
  length : outs.length = op.numReductions
  inBounds : ∀ ivs ∈ done, InBounds op.shape ivs
  values : ∀ ivs ∈ done, outs.map (fun m => m (op.place ivs)) = (op.value ivs).map some

variable {done : List (List ℤ)} {outs : List (Memref Value)}

theorem Computed.store (hdone : Computed op done outs) (h : InBounds op.shape ivs)
    (hnew : ivs ∉ done) : Computed op (done ++ [ivs]) (stored (op.place ivs) (op.value ivs) outs) := by
  have hlength : (op.value ivs).length = outs.length := by rw [length_value, hdone.length]
  refine ⟨by rw [length_stored hlength, hdone.length], ?_, ?_⟩
  · intro jvs hjvs
    rcases mem_append.mp hjvs with hjvs | hjvs
    · exact hdone.inBounds jvs hjvs
    · rwa [mem_singleton.mp hjvs]
  · intro jvs hjvs
    rcases mem_append.mp hjvs with hjvs | hjvs
    · have hne : op.place jvs ≠ op.place ivs := fun heq => by
        have hsame := congrArg op.place heq
        rw [place_place_of_inBounds (hdone.inBounds jvs hjvs), place_place_of_inBounds h] at hsame
        exact hnew (hsame ▸ hjvs)
      rw [stored_other hne hlength, hdone.values jvs hjvs]
    · rw [mem_singleton.mp hjvs, stored_at hlength]

theorem body_computes (hdone : Computed op done outs) (h : InBounds op.shape ivs)
    (hbefore : ∀ jvs, InBounds op.shape jvs → List.Lex (· < ·) jvs ivs → jvs ∈ done) :
    op.body ivs outs = some (stored (op.place ivs) (op.value ivs) outs) := by
  obtain ⟨d, hd⟩ := exists_dim op
  obtain ⟨i, hi, hpos, hlt⟩ := h.coordinate hd
  have hplace := place_inBounds h
  rw [body, hi, hd]
  simp only [Option.bind_eq_bind, Option.bind_some]
  rw [← place_eq hd hi]
  obtain ⟨k, rfl⟩ := Int.eq_ofNat_of_zero_le hpos
  cases k with
  | zero =>
    rw [if_pos Nat.cast_zero, value_first hi]
    exact copy_all hplace op.sources outs
  | succ k =>
    have hprev : (op.place ivs).set op.axis
        (if op.reverse then (if op.reverse then (d - 1 : ℤ) - (k + 1 : ℕ) else (k + 1 : ℕ)) + 1
          else (if op.reverse then (d - 1 : ℤ) - (k + 1 : ℕ) else (k + 1 : ℕ)) - 1) =
        op.place (ivs.set op.axis k) := by
      rw [place_eq hd hi, place_set hd hi, set_set]
      congr 1
      split_ifs <;> push_cast <;> ring
    have hprevBounds : InBounds op.shape (ivs.set op.axis k) :=
      h.set hd ⟨Int.natCast_nonneg k, by push_cast at hlt; omega⟩
    have hmem := hbefore _ hprevBounds (lex_set hi (by push_cast; omega))
    rw [if_neg (by push_cast; omega), hprev,
      load_all (place_inBounds hprevBounds) (hdone.values _ hmem), extract_all hplace]
    simp only [Option.bind_some]
    rw [cloneBody_mapping op _ (length_value op _), ← value_next hi, store_all hplace]

/-- The lowered scan reads and writes in range only, reads what is defined only, and leaves
the inclusive scan at every point. -/
theorem lowered_scans (op : ScanOp Name Value) : ∃ outs, op.lowered = some outs ∧
    outs.length = op.sources.length ∧
    ∀ idxs, InBounds op.shape idxs → outs.map (fun m => m idxs) = (op.scan idxs).map some := by
  have hinit : Computed op [] (List.replicate op.numReductions alloc) :=
    ⟨length_replicate, fun _ h => absurd h not_mem_nil,
      fun _ h => absurd h not_mem_nil⟩
  obtain ⟨outs, hrun, hdone⟩ := buildLoopNest_invariant (P := Computed op) hinit
    fun done ivs outs h hnew hbefore hdone =>
      ⟨_, body_computes hdone h hbefore, hdone.store h hnew⟩
  refine ⟨outs, hrun, hdone.length, fun idxs h => ?_⟩
  have hvalue := hdone.values (op.place idxs) (mem_points.mpr (place_inBounds h))
  rwa [place_place_of_inBounds h, ← scan_eq] at hvalue

end ScanOp

end TritonCpu.ScanLowering
