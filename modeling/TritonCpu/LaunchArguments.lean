import TritonCpu.KernelCache

/-!
# The arguments of a launch

The launcher of a kernel parses one value for each parameter. A call sends the
values of the parameters that are not `constexpr`, in order, and the launcher puts
the others back at their indices. The parsing format follows the signature, which
is completed with the constants and sorted by index.
-/

set_option autoImplicit false

namespace TritonCpu.LaunchArguments
open JIT Python
open List hiding keys

/-! The format of the parsed arguments. -/

def isPointer (ty : String) : Bool := ty.toList.head? == some '*'

def _ty_to_cpp (ty : String) : Option String :=
  if isPointer ty then some "void*"
  else if ty = "constexpr" then some "PyObject*"
  else
    [("i1", "int32_t"), ("i8", "int8_t"), ("i16", "int16_t"), ("i32", "int32_t"), ("i64", "int64_t"),
     ("u1", "uint32_t"), ("u8", "uint8_t"), ("u16", "uint16_t"), ("u32", "uint32_t"),
     ("u64", "uint64_t"), ("fp16", "float"), ("bf16", "float"), ("fp32", "float"), ("f32", "float"),
     ("fp64", "double")].lookup ty

def _extracted_type (ty : String) : Option String :=
  if isPointer ty then some "PyObject*"
  else if ty = "constexpr" then some "PyObject*"
  else _ty_to_cpp ty

def _format_of (ty : String) : Option Char :=
  [("PyObject*", 'O'), ("constexpr", 'O'), ("float", 'f'), ("double", 'd'), ("long", 'l'),
   ("int8_t", 'b'), ("int16_t", 'h'), ("int32_t", 'i'), ("int64_t", 'l'), ("uint8_t", 'B'),
   ("uint16_t", 'H'), ("uint32_t", 'I'), ("uint64_t", 'K')].lookup ty

/-- The code that parses an argument of the type; an unknown type raises. -/
def formatCode (ty : String) : Option Char := (_extracted_type ty).bind _format_of

/-- The generated `launch`: its parsing format, and the indices of the variables
`_arg{i}` it parses into after the seven of the preamble. -/
structure LaunchFunction where
  format : List Char
  arg_list : List ℕ

def _generate_launcher (signature : List (ℕ × String)) : Option LaunchFunction :=
  (signature.mapM fun item => formatCode item.2).map fun args_format =>
    ⟨"iiiOOOO".toList ++ args_format, signature.map Prod.fst⟩

/-! The launcher object. -/

/-- `signature[i] = "constexpr"` -/
def setConstexpr (signature : List (ℕ × String)) (i : ℕ) : List (ℕ × String) :=
  if i ∈ signature.map Prod.fst then
    signature.map fun item => if item.1 = i then (i, "constexpr") else item
  else signature ++ [(i, "constexpr")]

def sortedByIndex {α : Type} (d : List (ℕ × α)) : List (ℕ × α) := d.mergeSort (·.1 ≤ ·.1)

structure CPULauncher where
  function : LaunchFunction
  _constant_inserts : List (ℕ × PyValue)

/-- `{cst_key(key): value for key, value in items.items()}`; a name that is no parameter raises. -/
def byIndex {α : Type} (arg_names : List String) (items : Dict α) : Option (List (ℕ × α)) :=
  items.mapM fun item => (arg_names.idxOf? item.1).map fun i => (i, item.2)

/-- `CPULauncher.__init__` -/
def init (arg_names : List String) (constexpr_indices : List ℕ) (signature : Dict String)
    (constants : Dict PyValue) : Option CPULauncher := do
  let constants ← byIndex arg_names constants
  let signature ← byIndex arg_names signature
  let signature := (constants.map Prod.fst).foldl setConstexpr signature
  let function ← _generate_launcher (sortedByIndex signature)
  return ⟨function, sortedByIndex (constants.filter fun item => item.1 ∈ constexpr_indices)⟩

/-- An object that a launch hands on: one of the preamble, or an argument. -/
inductive Arg (Object : Type) where
  | object (o : Object)
  | value (v : PyValue)

variable {Object : Type}

/-- `args.insert(idx, val)`; an index past the end appends. -/
def insert (args : List (Arg Object)) (idx : ℕ) (val : Arg Object) : List (Arg Object) :=
  args.take idx ++ val :: args.drop idx

/-- The parameters of the Python `launch`; `stream` and `cu_function` stay there. -/
def compiledLaunch : List (Arg Object) → Option (List (Arg Object))
  | gridX :: gridY :: gridZ :: _stream :: _cu_function :: kernel_metadata :: launch_metadata ::
      launch_enter_hook :: launch_exit_hook :: args =>
    some (gridX :: gridY :: gridZ :: kernel_metadata :: launch_metadata :: launch_enter_hook ::
      launch_exit_hook :: args)
  | _ => none

/-- `CPULauncher.__call__`, up to the generated `launch`. -/
def call (launcher : CPULauncher) (args : List (Arg Object)) : Option (List (Arg Object)) :=
  compiledLaunch (launcher._constant_inserts.foldl
    (fun args item => insert args (item.1 + 9) (.value item.2)) args)

/-- `PyArg_ParseTuple`: the variables `_arg{i}` and what they receive. -/
def parse (function : LaunchFunction) (args : List (Arg Object)) : Option (List (ℕ × Arg Object)) :=
  if args.length = function.format.length then some (function.arg_list.zip (args.drop 7)) else none

/-! What `run` sends. -/

/-- The arguments before those of the kernel. -/
structure Preamble (Object : Type) where
  (grid_0 grid_1 grid_2 stream function packed_metadata launch_metadata : Object)
  (launch_enter_hook launch_exit_hook : Object)

def Preamble.sent (p : Preamble Object) : List (Arg Object) :=
  [p.grid_0, p.grid_1, p.grid_2, p.stream, p.function, p.packed_metadata, p.launch_metadata,
    p.launch_enter_hook, p.launch_exit_hook].map .object

/-- The part of the preamble that the generated `launch` parses. -/
def Preamble.parsed (p : Preamble Object) : List (Arg Object) :=
  [p.grid_0, p.grid_1, p.grid_2, p.packed_metadata, p.launch_metadata, p.launch_enter_hook,
    p.launch_exit_hook].map .object

section Run

variable (f : JITFunction)

def constexpr_indices : List ℕ := (f.params.zipIdx.filter fun p => p.1.is_constexpr).map Prod.snd

def non_constexpr_indices : List ℕ :=
  (f.params.zipIdx.filter fun p => !p.1.is_constexpr).map Prod.snd

/-- The values of the parameters that are not `constexpr`: from the merged arguments on
the fast path, from the binder otherwise. -/
def non_constexpr_vals (fast : Bool) (vals : List PyValue) : List PyValue :=
  if fast then (non_constexpr_indices f).filterMap fun i => vals[i]?
  else ((f.params.zip vals).filter fun a => !a.1.is_constexpr).map Prod.snd

def kernelLauncher (b : Bound) : Option CPULauncher :=
  init f.names (constexpr_indices f) (f.signature b) (f.constants b)

end Run

/-! The indices of the parameters. -/

section Indices

variable {f : JITFunction}

theorem idxOf_name {x : KernelParam × ℕ} (hx : x ∈ f.params.zipIdx) :
    f.names.idxOf? x.1.name = some x.2 := by
  have hget := mem_zipIdx_iff_getElem?.mp hx
  have hname : f.names[x.2]? = some x.1.name := by
    rw [JITFunction.names, List.getElem?_map, hget]
    rfl
  obtain ⟨hlt, heq⟩ := List.getElem?_eq_some_iff.mp hname
  rw [List.idxOf?_eq_some_iff]
  refine ⟨hlt, heq, fun j hj hsame => ?_⟩
  have hij : f.names[j] = f.names[x.2] := hsame.trans heq.symm
  exact absurd ((List.Nodup.getElem_inj_iff f.names_nodup).mp hij) (by omega)

theorem byIndex_eq {α : Type} (items : Dict α) (ps : List (KernelParam × ℕ))
    (hps : ∀ x ∈ ps, x ∈ f.params.zipIdx) (hnames : keys items = ps.map fun x => x.1.name) :
    byIndex f.names items = some ((ps.map Prod.snd).zip (items.map Prod.snd)) := by
  induction items generalizing ps with
  | nil =>
    obtain rfl : ps = [] := map_eq_nil_iff.mp hnames.symm
    rfl
  | cons item items ih =>
    cases ps with
    | nil => simp [keys] at hnames
    | cons x ps =>
      simp only [keys, map_cons, List.cons.injEq] at hnames
      have hrest := ih ps (fun y hy => hps y (mem_cons_of_mem _ hy)) hnames.2
      rw [byIndex] at hrest ⊢
      rw [mapM_cons, hrest, hnames.1, idxOf_name (hps x mem_cons_self)]
      rfl

theorem filter_zipIdx {α : Type} (p : α → Bool) (l : List α) :
    l.filter p = (l.zipIdx.filter fun x => p x.1).map Prod.fst := by
  conv_lhs => rw [← zipIdx_map_fst 0 l]
  rw [filter_map]
  rfl

theorem filter_indices_sorted {α : Type} (p : α × ℕ → Bool) (l : List α) :
    ((l.zipIdx.filter p).map Prod.snd).Pairwise (· < ·) := by
  have hall : (l.zipIdx.map Prod.snd).Pairwise (· < ·) := by
    rw [zipIdx_map_snd]
    exact pairwise_lt_range'
  exact hall.sublist (List.filter_sublist.map _)

theorem length_mapM {α β : Type} {g : α → Option β} {l : List α} {r : List β}
    (h : l.mapM g = some r) : r.length = l.length := by
  induction l generalizing r with
  | nil => simp_all
  | cons a l ih =>
    rw [mapM_cons] at h
    obtain ⟨b, -, h⟩ := Option.bind_eq_some_iff.mp h
    obtain ⟨r', hr', h⟩ := Option.bind_eq_some_iff.mp h
    rw [← Option.some.inj h, length_cons, length_cons, ih hr']

theorem mem_params {vals : List PyValue} {x : (KernelParam × PyValue) × ℕ}
    (hx : x ∈ (f.params.zip vals).zipIdx) : (x.1.1, x.2) ∈ f.params.zipIdx := by
  have hget := mem_zipIdx_iff_getElem?.mp hx
  rw [List.getElem?_zip_eq_some] at hget
  exact mem_zipIdx_iff_getElem?.mpr hget.1

end Indices

/-! The launcher of a compiled kernel. -/

section Kernel

variable {f : JITFunction} {b : Bound} {args : List PyValue} {kwargs : Dict PyValue}

def arguments (f : JITFunction) (b : Bound) : List ((KernelParam × PyValue) × ℕ) :=
  (f.params.zip b.bound_vals).zipIdx

def isConstant (f : JITFunction) (b : Bound) (a : KernelParam × PyValue) : Bool :=
  a.1.is_constexpr || a.1.num ∈ (f.attrs b).get_constants.map Prod.fst || isNone a.2

theorem constants_eq (f : JITFunction) (b : Bound) : f.constants b =
    ((arguments f b).filter fun x => isConstant f b x.1).map fun x => (x.1.1.name, x.1.2) := by
  show ((f.params.zip b.bound_vals).filter (isConstant f b)).map (fun a => (a.1.name, a.2)) = _
  rw [filter_zipIdx, map_map]
  rfl

theorem byIndex_constants (f : JITFunction) (b : Bound) :
    byIndex f.names (f.constants b) =
      some (((arguments f b).filter fun x => isConstant f b x.1).map fun x => (x.2, x.1.2)) := by
  have h := byIndex_eq (f.constants b)
    (((arguments f b).filter fun x => isConstant f b x.1).map fun x => (x.1.1, x.2))
    (fun y hy => by
      obtain ⟨x, hx, rfl⟩ := mem_map.mp hy
      exact mem_params (mem_of_mem_filter hx))
    (by simp [keys, constants_eq])
  rw [h, constants_eq, map_map, map_map, zip_map']
  rfl

theorem keys_signature (hb : BoundBy f args kwargs b) : keys (f.signature b) =
    (f.params.zipIdx.filter fun x => !x.1.is_constexpr).map fun x => x.1.name := by
  have htypes : (f.params.filter fun p => !p.is_constexpr).length ≤ b.signature_types.length := by
    rw [length_mapM hb.types]
    have hparams : f.params = (f.params.zip b.bound_vals).map Prod.fst :=
      (map_fst_zip (by rw [hb.length])).symm
    conv_lhs => rw [hparams, filter_map, length_map]
    exact le_rfl
  rw [keys, JITFunction.signature, map_fst_zip (by simpa using htypes), filter_zipIdx,
    map_map]
  rfl

theorem byIndex_signature (hb : BoundBy f args kwargs b) :
    ∃ signature, byIndex f.names (f.signature b) = some signature ∧
      signature.map Prod.fst = non_constexpr_indices f := by
  have hkeys := keys_signature hb
  have h := byIndex_eq (f := f) _ _ (fun x hx => mem_of_mem_filter hx) hkeys
  refine ⟨_, h, map_fst_zip ?_⟩
  have hlength := congrArg List.length hkeys
  simp only [keys, length_map] at hlength
  rw [length_map, length_map, hlength]

theorem mem_byIndex {α : Type} {arg_names : List String} {items : Dict α} {r : List (ℕ × α)}
    (h : byIndex arg_names items = some r) {i : ℕ} {v : α} (hmem : (i, v) ∈ r) :
    ∃ name, (name, v) ∈ items ∧ arg_names.idxOf? name = some i := by
  induction items generalizing r with
  | nil =>
    obtain rfl := Option.some.inj h
    exact absurd hmem not_mem_nil
  | cons item items ih =>
    rw [byIndex, mapM_cons] at h
    obtain ⟨first, hfirst, h⟩ := Option.bind_eq_some_iff.mp h
    obtain ⟨rest, hrest, h⟩ := Option.bind_eq_some_iff.mp h
    obtain ⟨j, hj, rfl⟩ := Option.map_eq_some_iff.mp hfirst
    rw [← Option.some.inj h] at hmem
    rcases mem_cons.mp hmem with heq | hmem
    · cases heq
      exact ⟨item.1, mem_cons_self, hj⟩
    · obtain ⟨name, hname, hi⟩ := ih hrest hmem
      exact ⟨name, mem_cons_of_mem _ hname, hi⟩

end Kernel

/-! The completed signature. -/

section Signature

variable {signature : List (ℕ × String)}

theorem keys_setConstexpr (signature : List (ℕ × String)) (i : ℕ) :
    (setConstexpr signature i).map Prod.fst =
      if i ∈ signature.map Prod.fst then signature.map Prod.fst
      else signature.map Prod.fst ++ [i] := by
  rw [setConstexpr]
  split_ifs with hi
  · rw [map_map]
    refine map_congr_left fun item _ => ?_
    by_cases heq : item.1 = i <;> simp [heq]
  · rw [map_append, map_singleton]

theorem nodup_setConstexpr {i : ℕ} (h : (signature.map Prod.fst).Nodup) :
    ((setConstexpr signature i).map Prod.fst).Nodup := by
  rw [keys_setConstexpr]
  split_ifs with hi
  · exact h
  · exact nodup_append.mpr ⟨h, nodup_singleton i, by
      rintro a ha c hc rfl
      exact hi (mem_singleton.mp hc ▸ ha)⟩

theorem mem_setConstexpr {i j : ℕ} {ty : String} : (j, ty) ∈ setConstexpr signature i ↔
    if j = i then ty = "constexpr" else (j, ty) ∈ signature := by
  rw [setConstexpr]
  split_ifs with hi hj hj
  · subst hj
    obtain ⟨item, hitem, hindex⟩ := mem_map.mp hi
    constructor
    · intro hmem
      obtain ⟨other, -, hother⟩ := mem_map.mp hmem
      by_cases heq : other.1 = j
      · rw [if_pos heq] at hother
        exact (congrArg Prod.snd hother).symm
      · rw [if_neg heq] at hother
        exact absurd (congrArg Prod.fst hother) heq
    · rintro rfl
      exact mem_map.mpr ⟨item, hitem, if_pos hindex⟩
  · constructor
    · intro hmem
      obtain ⟨other, hother, heq⟩ := mem_map.mp hmem
      by_cases hindex : other.1 = i
      · rw [if_pos hindex] at heq
        exact absurd (congrArg Prod.fst heq).symm hj
      · rw [if_neg hindex] at heq
        exact heq ▸ hother
    · intro hmem
      exact mem_map.mpr ⟨_, hmem, if_neg hj⟩
  · subst hj
    constructor
    · intro hmem
      rcases mem_append.mp hmem with hmem | hmem
      · exact absurd (mem_map.mpr ⟨_, hmem, rfl⟩) hi
      · exact congrArg Prod.snd (mem_singleton.mp hmem)
    · rintro rfl
      exact mem_append_right _ (mem_singleton.mpr rfl)
  · constructor
    · intro hmem
      rcases mem_append.mp hmem with hmem | hmem
      · exact hmem
      · exact absurd (congrArg Prod.fst (mem_singleton.mp hmem)) hj
    · exact mem_append_left _

theorem nodup_complete (indices : List ℕ) (h : (signature.map Prod.fst).Nodup) :
    ((indices.foldl setConstexpr signature).map Prod.fst).Nodup := by
  induction indices generalizing signature with
  | nil => exact h
  | cons i indices ih => exact ih (nodup_setConstexpr h)

theorem mem_complete {indices : List ℕ} {j : ℕ} {ty : String} :
    (j, ty) ∈ indices.foldl setConstexpr signature ↔
      if j ∈ indices then ty = "constexpr" else (j, ty) ∈ signature := by
  induction indices generalizing signature with
  | nil => simp
  | cons i indices ih =>
    rw [foldl_cons, ih]
    by_cases hj : j ∈ indices
    · rw [if_pos hj, if_pos (mem_cons_of_mem _ hj)]
    · rw [if_neg hj, mem_setConstexpr]
      by_cases hi : j = i
      · rw [if_pos hi, if_pos (hi ▸ mem_cons_self)]
      · rw [if_neg hi, if_neg (by simp [hi, hj])]

theorem keys_sortedByIndex {α : Type} {d : List (ℕ × α)} {n : ℕ} (hnodup : (d.map Prod.fst).Nodup)
    (hmem : ∀ i, i ∈ d.map Prod.fst ↔ i < n) : (sortedByIndex d).map Prod.fst = List.range n := by
  have hperm : (d.map Prod.fst).Perm (List.range n) :=
    (perm_ext_iff_of_nodup hnodup nodup_range).mpr fun i => by
      rw [hmem, mem_range]
  have hsorted : (sortedByIndex d).map Prod.fst = sorted (d.map Prod.fst) :=
    map_mergeSort fun _ _ _ _ => rfl
  rw [hsorted, sorted_eq_iff.mpr hperm, sorted]
  refine mergeSort_of_pairwise ?_
  simpa using pairwise_le_range

theorem getElem?_mapM {α β : Type} {g : α → Option β} {l : List α} {r : List β}
    (h : l.mapM g = some r) (i : ℕ) : r[i]? = l[i]?.bind g := by
  induction l generalizing r i with
  | nil =>
    obtain rfl := Option.some.inj h
    rfl
  | cons a l ih =>
    rw [mapM_cons] at h
    obtain ⟨c, hc, h⟩ := Option.bind_eq_some_iff.mp h
    obtain ⟨r', hr', h⟩ := Option.bind_eq_some_iff.mp h
    rw [← Option.some.inj h]
    cases i with
    | zero => exact hc.symm
    | succ i => exact ih hr' i

end Signature

/-! The order of the values. -/

section Values

/-- Inserting the constants of the remaining parameters, in order, leaves each value at
the index of its parameter. -/
theorem inserts_align (rows : List Pair) (o : ℕ) (pre : List (Arg Object))
    (hpre : pre.length = o + 9) :
    ((((rows.zipIdx o).filter fun x => x.1.1.is_constexpr).map fun x => (x.2, x.1.2.1)).foldl
        (fun args item => insert args (item.1 + 9) (.value item.2))
        (pre ++ ((rows.filter fun x => !x.1.is_constexpr).map fun x => .value x.2.2))) =
      pre ++ rows.map fun x => .value (if x.1.is_constexpr then x.2.1 else x.2.2) := by
  induction rows generalizing o pre with
  | nil => rfl
  | cons x rows ih =>
    rw [zipIdx_cons]
    by_cases hx : x.1.is_constexpr
    · have hnext := ih (o + 1) (pre ++ [.value x.2.1]) (by
        rw [length_append, hpre, length_singleton])
      simp only [append_assoc, singleton_append] at hnext
      simp only [filter_cons, hx, Bool.not_true, Bool.false_eq_true, if_true, if_false,
        map_cons, foldl_cons]
      rw [insert, take_left' hpre, drop_left' hpre]
      exact hnext
    · have hnext := ih (o + 1) (pre ++ [.value x.2.2]) (by
        rw [length_append, hpre, length_singleton])
      simp only [append_assoc, singleton_append] at hnext
      simp only [filter_cons, hx, Bool.not_false, if_true, if_false, Bool.false_eq_true,
        map_cons]
      exact hnext

theorem vals_at_indices (ps : List KernelParam) (vals before : List PyValue)
    (hlength : vals.length = ps.length) :
    (((ps.zipIdx before.length).filter fun p => !p.1.is_constexpr).map Prod.snd).filterMap
        (fun i => (before ++ vals)[i]?) =
      ((ps.zip vals).filter fun a => !a.1.is_constexpr).map Prod.snd := by
  induction ps generalizing vals before with
  | nil => rfl
  | cons p ps ih =>
    cases vals with
    | nil => simp at hlength
    | cons v vals =>
      have hnext := ih vals (before ++ [v]) (by simpa using hlength)
      rw [length_append, length_singleton, append_assoc] at hnext
      rw [zipIdx_cons, zip_cons_cons]
      by_cases hp : p.is_constexpr
      · rw [filter_cons_of_neg (by simp [hp]), filter_cons_of_neg (by simp [hp])]
        exact hnext
      · rw [filter_cons_of_pos (by simp [hp]), filter_cons_of_pos (by simp [hp]),
          map_cons, map_cons, filterMap_cons_some (b := v) (by simp)]
        exact congrArg (v :: ·) hnext

theorem non_constexpr_vals_eq {f : JITFunction} {vals : List PyValue} (fast : Bool)
    (hlength : vals.length = f.params.length) : non_constexpr_vals f fast vals =
      ((f.params.zip vals).filter fun a => !a.1.is_constexpr).map Prod.snd := by
  cases fast with
  | false => rfl
  | true => exact vals_at_indices f.params vals [] hlength

end Values

/-! The whole launch. -/

section Launch

variable {f : JITFunction} {b : Bound} {args : List PyValue} {kwargs : Dict PyValue}
  {launcher : CPULauncher} {vals : List PyValue}

/-- What the kernel should receive, one value a parameter: the constant it was compiled
with for a `constexpr`, the value of the call for another. -/
def handed (f : JITFunction) (b : Bound) (vals : List PyValue) : List (Arg Object) :=
  (f.params.zip (b.bound_vals.zip vals)).map fun x =>
    .value (if x.1.is_constexpr then x.2.1 else x.2.2)

def constantIndices (f : JITFunction) (b : Bound) : List ℕ :=
  ((arguments f b).filter fun x => isConstant f b x.1).map Prod.snd

theorem constexpr_inserts (f : JITFunction) (b : Bound) :
    sortedByIndex ((((arguments f b).filter fun x => isConstant f b x.1).map
        fun x => (x.2, x.1.2)).filter fun item => item.1 ∈ constexpr_indices f) =
      ((arguments f b).filter fun x => x.1.1.is_constexpr).map fun x => (x.2, x.1.2) := by
  have hmem : ∀ x ∈ arguments f b, (decide (x.2 ∈ constexpr_indices f) && isConstant f b x.1) =
      x.1.1.is_constexpr := by
    intro x hx
    have hparam := mem_zipIdx_iff_getElem?.mp (mem_params hx)
    have hindex : x.2 ∈ constexpr_indices f ↔ x.1.1.is_constexpr = true := by
      simp only [constexpr_indices, mem_map, mem_filter]
      constructor
      · rintro ⟨y, ⟨hy, hconst⟩, hyx⟩
        have hsame := mem_zipIdx_iff_getElem?.mp hy
        rw [hyx, hparam] at hsame
        rw [Option.some.inj hsame]
        exact hconst
      · intro hconst
        exact ⟨_, ⟨mem_params hx, hconst⟩, rfl⟩
    by_cases hconst : x.1.1.is_constexpr <;> simp [hindex, hconst, isConstant]
  rw [filter_map, filter_filter]
  have hfilter : (arguments f b).filter (fun x =>
      ((fun item => decide (item.1 ∈ constexpr_indices f)) ∘ fun x => (x.2, x.1.2)) x &&
        isConstant f b x.1) = (arguments f b).filter fun x => x.1.1.is_constexpr :=
    filter_congr hmem
  rw [hfilter, sortedByIndex]
  refine mergeSort_of_pairwise ?_
  have hsorted := filter_indices_sorted (fun x => x.1.1.is_constexpr) (f.params.zip b.bound_vals)
  rw [pairwise_map] at hsorted ⊢
  exact hsorted.imp fun h => by simpa using Nat.le_of_lt h

theorem kernelLauncher_eq (hb : BoundBy f args kwargs b) (h : kernelLauncher f b = some launcher) :
    ∃ signature, byIndex f.names (f.signature b) = some signature ∧
      signature.map Prod.fst = non_constexpr_indices f ∧
      _generate_launcher (sortedByIndex ((constantIndices f b).foldl setConstexpr signature)) =
        some launcher.function ∧
      launcher._constant_inserts =
        ((arguments f b).filter fun x => x.1.1.is_constexpr).map fun x => (x.2, x.1.2) := by
  obtain ⟨signature, hsignature, hindices⟩ := byIndex_signature hb
  rw [kernelLauncher, init, byIndex_constants, hsignature] at h
  simp only [bind, Option.bind_some] at h
  obtain ⟨function, hfunction, h⟩ := Option.bind_eq_some_iff.mp h
  refine ⟨signature, hsignature, hindices, ?_, ?_⟩
  · rw [← Option.some.inj h, ← hfunction, constantIndices, map_map]
    rfl
  · rw [← Option.some.inj h, ← constexpr_inserts]

theorem index_covered (hb : BoundBy f args kwargs b) (i : ℕ) :
    i ∈ constantIndices f b ∨ i ∈ non_constexpr_indices f ↔ i < f.params.length := by
  have hlength : (f.params.zip b.bound_vals).length = f.params.length := by
    rw [length_zip, hb.length, min_self]
  simp only [constantIndices, non_constexpr_indices, mem_map, mem_filter]
  constructor
  · rintro (⟨x, ⟨hx, -⟩, rfl⟩ | ⟨x, ⟨hx, -⟩, rfl⟩)
    · exact (List.getElem?_eq_some_iff.mp (mem_zipIdx_iff_getElem?.mp (mem_params hx))).1
    · exact (List.getElem?_eq_some_iff.mp (mem_zipIdx_iff_getElem?.mp hx)).1
  · intro hi
    by_cases hconst : f.params[i].is_constexpr = true
    · have hget := List.getElem?_eq_getElem (hlength.symm ▸ hi)
      refine .inl ⟨(_, i), ⟨mem_zipIdx_iff_getElem?.mpr hget, ?_⟩, rfl⟩
      simp [isConstant, hconst]
    · have hget := List.getElem?_eq_getElem hi
      refine .inr ⟨(_, i), ⟨mem_zipIdx_iff_getElem?.mpr hget, ?_⟩, rfl⟩
      simpa using hconst

theorem complete_indices (hb : BoundBy f args kwargs b) {signature : List (ℕ × String)}
    (hindices : signature.map Prod.fst = non_constexpr_indices f) :
    (sortedByIndex ((constantIndices f b).foldl setConstexpr signature)).map Prod.fst =
      List.range f.params.length := by
  have hnodup : (signature.map Prod.fst).Nodup := by
    rw [hindices]
    exact (filter_indices_sorted _ _).imp Nat.ne_of_lt
  refine keys_sortedByIndex (nodup_complete _ hnodup) fun i => ?_
  rw [← index_covered hb i, ← hindices, mem_map, mem_map]
  constructor
  · rintro ⟨⟨j, ty⟩, hmem, rfl⟩
    rw [mem_complete] at hmem
    split_ifs at hmem with hj
    · exact .inl hj
    · exact .inr ⟨_, hmem, rfl⟩
  · intro hi
    by_cases hj : i ∈ constantIndices f b
    · exact ⟨(i, "constexpr"), mem_complete.mpr (by rw [if_pos hj]), rfl⟩
    · obtain ⟨⟨j, ty⟩, hmem, rfl⟩ := hi.resolve_left hj
      exact ⟨(j, ty), mem_complete.mpr (by rwa [if_neg hj]), rfl⟩

theorem idxOf_param {i : ℕ} {p : KernelParam} (hp : f.params[i]? = some p) :
    f.names.idxOf? p.name = some i :=
  @idxOf_name f (p, i) (mem_zipIdx_iff_getElem?.mpr hp)

theorem constant_name {i : ℕ} {p : KernelParam} (hp : f.params[i]? = some p) :
    i ∈ constantIndices f b ↔ p.name ∈ keys (f.constants b) := by
  rw [constants_eq, keys, map_map, constantIndices, mem_map, mem_map]
  refine exists_congr fun x => and_congr_right fun hx => ?_
  have hx := mem_params (mem_of_mem_filter hx)
  constructor
  · rintro rfl
    have hget := mem_zipIdx_iff_getElem?.mp hx
    rw [hp] at hget
    rw [Option.some.inj hget]
    rfl
  · intro hname
    have hindex := idxOf_name hx
    rw [show x.1.1.name = p.name from hname, idxOf_param hp] at hindex
    exact (Option.some.inj hindex).symm

theorem lookup_of_mem {α : Type} {d : Dict α} (hnodup : (keys d).Nodup) {name : String} {v : α}
    (h : (name, v) ∈ d) : d.lookup name = some v := by
  obtain ⟨before, after, rfl⟩ := append_of_mem h
  refine lookup_eq_some_iff.mpr ⟨before, after, rfl, fun item hitem => ?_⟩
  rw [keys, map_append, nodup_append] at hnodup
  have hne := hnodup.2.2 _ (mem_map_of_mem hitem) name (by simp)
  simpa using hne.symm

theorem nodup_signature (hb : BoundBy f args kwargs b) : (keys (f.signature b)).Nodup := by
  have hnames : ((f.params.filter fun p => !p.is_constexpr).map (·.name)).Nodup :=
    f.names_nodup.sublist (List.filter_sublist.map _)
  rw [keys_signature hb]
  rw [filter_zipIdx, map_map] at hnames
  exact hnames

theorem format_at (hb : BoundBy f args kwargs b) (h : kernelLauncher f b = some launcher) {i : ℕ}
    {p : KernelParam} (hp : f.params[i]? = some p) : launcher.function.format[7 + i]? =
      (if p.name ∈ keys (f.constants b) then some "constexpr"
        else (f.signature b).lookup p.name).bind formatCode := by
  obtain ⟨signature, hsignature, hindices, hfunction, -⟩ := kernelLauncher_eq hb h
  have hcomplete := complete_indices hb hindices
  obtain ⟨codes, hcodes, hfunction⟩ := Option.map_eq_some_iff.mp hfunction
  have hi : i < f.params.length := (List.getElem?_eq_some_iff.mp hp).1
  have hkey := congrArg (·[i]?) hcomplete
  simp only [List.getElem?_map, List.getElem?_range hi] at hkey
  obtain ⟨⟨j, ty⟩, hget, hj⟩ := Option.map_eq_some_iff.mp hkey
  obtain rfl : j = i := hj
  have hmem := (mergeSort_perm _ _).mem_iff.mp (mem_of_getElem? hget)
  rw [mem_complete] at hmem
  have hformat : launcher.function.format = "iiiOOOO".toList ++ codes := by rw [← hfunction]
  rw [hformat, List.getElem?_append_right (by simp), getElem?_mapM hcodes]
  have hsub : 7 + j - "iiiOOOO".toList.length = j := Nat.add_sub_cancel_left 7 j
  rw [hsub, hget]
  by_cases hconst : j ∈ constantIndices f b
  · rw [if_pos hconst] at hmem
    rw [if_pos ((constant_name hp).mp hconst), hmem]
    rfl
  · rw [if_neg hconst] at hmem
    rw [if_neg fun hname => hconst ((constant_name hp).mpr hname)]
    obtain ⟨name, hname, hindex⟩ := mem_byIndex hsignature hmem
    have hsame : name = p.name := by
      obtain ⟨_, heq, -⟩ := List.idxOf?_eq_some_iff.mp hindex
      obtain ⟨_, heq', -⟩ := List.idxOf?_eq_some_iff.mp (idxOf_param hp)
      exact heq.symm.trans heq'
    rw [← hsame, lookup_of_mem (nodup_signature hb) hname]
    rfl

theorem length_format (hb : BoundBy f args kwargs b) (h : kernelLauncher f b = some launcher) :
    launcher.function.format.length = 7 + f.params.length := by
  obtain ⟨signature, -, hindices, hfunction, -⟩ := kernelLauncher_eq hb h
  have hcomplete := congrArg List.length (complete_indices hb hindices)
  obtain ⟨codes, hcodes, hfunction⟩ := Option.map_eq_some_iff.mp hfunction
  rw [length_map, length_range] at hcomplete
  rw [← hfunction, length_append, length_mapM hcodes, hcomplete]
  rfl

theorem arg_list_eq (hb : BoundBy f args kwargs b) (h : kernelLauncher f b = some launcher) :
    launcher.function.arg_list = List.range f.params.length := by
  obtain ⟨signature, -, hindices, hfunction, -⟩ := kernelLauncher_eq hb h
  obtain ⟨codes, hcodes, hfunction⟩ := Option.map_eq_some_iff.mp hfunction
  rw [← hfunction, ← complete_indices hb hindices]

theorem call_eq (hb : BoundBy f args kwargs b) (h : kernelLauncher f b = some launcher)
    (hvals : vals.length = f.params.length) (fast : Bool) (p : Preamble Object) :
    call launcher (p.sent ++ (non_constexpr_vals f fast vals).map .value) =
      some (p.parsed ++ handed f b vals) := by
  obtain ⟨signature, -, -, -, hinserts⟩ := kernelLauncher_eq hb h
  have hlengths : b.bound_vals.length = vals.length := hb.length.trans hvals.symm
  have hrows := inserts_align (f.params.zip (b.bound_vals.zip vals)) 0 p.sent rfl
  obtain ⟨hcompiled, hsent⟩ := map_zip f.params hlengths
  have hargs : ((non_constexpr_vals f fast vals).map .value : List (Arg Object)) =
      ((f.params.zip (b.bound_vals.zip vals)).filter fun x => !x.1.is_constexpr).map
        fun x => .value x.2.2 := by
    rw [non_constexpr_vals_eq fast hvals, ← hsent, filter_map, map_map, map_map]
    rfl
  have hconsts : launcher._constant_inserts =
      ((f.params.zip (b.bound_vals.zip vals)).zipIdx.filter fun x => x.1.1.is_constexpr).map
        fun x => (x.2, x.1.2.1) := by
    rw [hinserts, arguments, ← hcompiled, zipIdx_map, filter_map, map_map]
    rfl
  rw [call, hargs, hconsts, hrows]
  rfl

theorem handed_eq (hb : BoundBy f args kwargs b) (hvals : vals.length = f.params.length)
    (hconst : constexprVals (f.params.zip vals) = b.constexpr_vals) :
    handed f b vals = vals.map (@Arg.value Object) := by
  have hlengths : b.bound_vals.length = vals.length := hb.length.trans hvals.symm
  obtain ⟨hcompiled, hsent⟩ := map_zip f.params hlengths
  rw [hb.constexpr, ← hsent, ← hcompiled] at hconst
  have hagree := constexprVals_eq_iff.mp hconst.symm
  have hvalues : vals = (f.params.zip (b.bound_vals.zip vals)).map fun x => x.2.2 := by
    conv_lhs => rw [← map_snd_zip (le_of_eq hvals : vals.length ≤ f.params.length), ← hsent]
    rw [map_map]
    rfl
  conv_rhs => rw [hvalues, map_map]
  refine map_congr_left fun x hx => ?_
  by_cases hc : x.1.is_constexpr = true
  · rw [if_pos hc, hagree x hx hc]
    rfl
  · rw [if_neg hc]
    rfl

/-- The compiled launcher parses one object for each parameter, at the position the format
has for it, and gets the value of that parameter. -/
theorem launch_aligned (h : f.dynamic_func args kwargs = some b)
    (hlauncher : kernelLauncher f b = some launcher) (hvals : vals.length = f.params.length)
    (fast : Bool) (p : Preamble Object) :
    launcher.function.arg_list = List.range f.params.length ∧
      launcher.function.format.length = 7 + f.params.length ∧
      (∀ i param, f.params[i]? = some param → launcher.function.format[7 + i]? =
        (if param.name ∈ keys (f.constants b) then some "constexpr"
          else (f.signature b).lookup param.name).bind formatCode) ∧
      (∃ received,
        call launcher (p.sent ++ (non_constexpr_vals f fast vals).map .value) = some received ∧
        received.take 7 = p.parsed ∧
        parse launcher.function received =
          some ((List.range f.params.length).zip (handed f b vals))) ∧
      (constexprVals (f.params.zip vals) = b.constexpr_vals →
        handed f b vals = vals.map (@Arg.value Object)) := by
  have hb := dynamic_func_bound h
  refine ⟨arg_list_eq hb hlauncher, length_format hb hlauncher,
    fun i param hparam => format_at hb hlauncher hparam,
    ⟨_, call_eq hb hlauncher hvals fast p, rfl, ?_⟩, handed_eq hb hvals⟩
  have hhanded : (handed f b vals : List (Arg Object)).length = f.params.length := by
    simp [handed, hb.length, hvals]
  have hreceived : (p.parsed ++ handed f b vals).length = 7 + f.params.length := by
    rw [length_append, hhanded]
    rfl
  rw [parse, length_format hb hlauncher, if_pos hreceived, arg_list_eq hb hlauncher]
  rfl

/-- A kernel with a `constexpr` between two numbers. -/
def sampleKernel : JITFunction where
  params := [⟨0, "x", "", none, false, false⟩, ⟨1, "BLOCK", "constexpr", none, false, false⟩,
    ⟨2, "n", "", none, false, false⟩]
  names_nodup := by simp
  nums := rfl

def sampleBound : Bound where
  bound_vals := [.int 7, .int 64, .int 1]
  signature_types := ["i32".toList, "i32".toList]
  specialisations := [['N'], ['1']]
  constexpr_vals := [.int 64]
  excess_kwargs := []

/-- The signature reaches the sort with `BLOCK` after `n`. -/
def sampleLauncher : CPULauncher where
  function := ⟨"iiiOOOOiOO".toList, [0, 1, 2]⟩
  _constant_inserts := [(1, .int 64)]

theorem kernelLauncher_sample : kernelLauncher sampleKernel sampleBound = some sampleLauncher := by
  have hconstants : byIndex sampleKernel.names (sampleKernel.constants sampleBound) =
      some [(1, .int 64), (2, .int 1)] := rfl
  have hsignature : byIndex sampleKernel.names (sampleKernel.signature sampleBound) =
      some [(0, "i32"), (2, "i32")] := rfl
  have hsorted : sortedByIndex [(0, "i32"), (2, "constexpr"), (1, "constexpr")] =
      [(0, "i32"), (1, "constexpr"), (2, "constexpr")] := by
    simp [sortedByIndex, List.mergeSort]
  have hinserts : sortedByIndex [(1, PyValue.int 64)] = [(1, .int 64)] := by
    rw [sortedByIndex, mergeSort_singleton]
  rw [kernelLauncher, init, hconstants, hsignature]
  show ((_generate_launcher (sortedByIndex [(0, "i32"), (2, "constexpr"), (1, "constexpr")])).bind
    fun function => some ⟨function, sortedByIndex [(1, PyValue.int 64)]⟩) = some sampleLauncher
  rw [hsorted, hinserts]
  rfl

/-- A second call of the kernel, with another value for `x`. -/
theorem launch_aligned_sample : ∃ received : List (Arg ℕ),
    call sampleLauncher (Preamble.sent ⟨4, 1, 1, 0, 0, 0, 0, 0, 0⟩ ++
        (non_constexpr_vals sampleKernel true [.int 9, .int 64, .int 1]).map .value) =
      some received ∧
    parse sampleLauncher.function received =
      some [(0, .value (.int 9)), (1, .value (.int 64)), (2, .value (.int 1))] := by
  have hbound : sampleKernel.dynamic_func [.int 7, .int 64, .int 1] [] = some sampleBound := rfl
  obtain ⟨-, -, -, ⟨received, hcall, -, hparse⟩, -⟩ := launch_aligned hbound kernelLauncher_sample
    (rfl : [PyValue.int 9, .int 64, .int 1].length = sampleKernel.params.length) true
    (⟨4, 1, 1, 0, 0, 0, 0, 0, 0⟩ : Preamble ℕ)
  exact ⟨received, hcall, hparse⟩

end Launch

end TritonCpu.LaunchArguments
