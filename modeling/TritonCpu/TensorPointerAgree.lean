import TritonCpu.PointerTensor

/-!
# What a program with block pointers and the rewritten one agree on

A block pointer is described by what is recorded of it: the tensor it points into by
values that stay, its offsets by names that belong to it. Binding values keeps the
agreement, and so does every operation.
-/

set_option autoImplicit false

namespace TritonCpu.TensorPointer

open TritonCpu.Structured List

variable {E : Type}

section Relations

def Val.parent : Val E → Option Parent
  | .blockPtr p => some p.parent
  | _ => none

def RewritedInfo.Known (info : RewritedInfo) (scope : List Value) : Prop :=
  ∀ n ∈ info.base :: info.shape ++ info.strides, ∃ u ∈ scope, n = .old u ∧
    isTensorPointerType u.type = false

/-- The block pointers in scope are recorded. -/
structure Scoped (records : Records) (scope : List Value) : Prop where
  mem : ∀ v info, records.find v = some info → v ∈ scope
  isTensorPointer : ∀ v info, records.find v = some info → isTensorPointerType v.type = true
  offsets : ∀ v info, records.find v = some info →
    info.offsets = (List.range info.length).map (.offset v)
  known : ∀ v info, records.find v = some info → info.Known scope

/-- What is recorded says which tensor a block pointer points into. -/
structure RewritedInfo.DescribesParent (info : RewritedInfo) (env : Name → Val E)
    (parent : Parent) : Prop where
  base : (env info.base).toWord = parent.base
  shape : (info.shape.map fun n => (env n).toWord) = parent.shape
  strides : (info.strides.map fun n => (env n).toWord) = parent.strides
  tensorShape : info.tensorShape = parent.tensorShape

/-- The two programs have done the same, and agree on the values in scope. -/
structure Agree (records : Records) (scope : List Value) (s : SourceState E) (s' : TargetState E) :
    Prop where
  world : s'.world = s.world
  same : ∀ v ∈ scope, isTensorPointerType v.type = false → s'.env (.old v) = s.env v
  described : ∀ v ∈ scope, isTensorPointerType v.type = true → ∃ info p,
    records.find v = some info ∧ s.env v = .blockPtr p ∧ info.Describes s'.env p ∧
      p.parent.tensorShape = v.type.tensorShape

/-- Values that are carried, and what is carried in the rewritten program. -/
inductive Carried : List Ty → List (Val E) → List (Val E) → Prop
  | nil : Carried [] [] []
  | offsets {type : Ty} {types : List Ty} {p : BlockPtr} {ds ds' : List (Val E)}
      (htype : isTensorPointerType type = true) (hshape : p.parent.tensorShape = type.tensorShape)
      (hlength : p.offsets.length = p.parent.shape.length) (rest : Carried types ds ds') :
      Carried (type :: types) (.blockPtr p :: ds) (p.offsets.map (.int 64) ++ ds')
  | same {type : Ty} {types : List Ty} {d : Val E} {ds ds' : List (Val E)}
      (htype : isTensorPointerType type = false) (rest : Carried types ds ds') :
      Carried (type :: types) (d :: ds) (d :: ds')

/-- What is recorded of values that are to be bound. -/
inductive Recorded (scope : List Value) (env : Name → Val E) :
    List Value → List (Option RewritedInfo) → List (Val E) → List (Val E) → Prop
  | nil : Recorded scope env [] [] [] []
  | offsets {v : Value} {vs : List Value} {info : RewritedInfo} {infos : List (Option RewritedInfo)}
      {p : BlockPtr} {ds ds' : List (Val E)} (htype : isTensorPointerType v.type = true)
      (hshape : p.parent.tensorShape = v.type.tensorShape) (hknown : info.Known scope)
      (hinfo : info.DescribesParent env p.parent) (hlength : p.offsets.length = info.length)
      (rest : Recorded scope env vs infos ds ds') :
      Recorded scope env (v :: vs) (some info :: infos) (.blockPtr p :: ds)
        (p.offsets.map (.int 64) ++ ds')
  | same {v : Value} {vs : List Value} {infos : List (Option RewritedInfo)} {d : Val E}
      {ds ds' : List (Val E)} (htype : isTensorPointerType v.type = false)
      (rest : Recorded scope env vs infos ds ds') :
      Recorded scope env (v :: vs) (none :: infos) (d :: ds) (d :: ds')

end Relations

section Describes

variable {info : RewritedInfo} {env env' : Name → Val E} {p : BlockPtr} {scope : List Value}

theorem RewritedInfo.Describes.parent (h : info.Describes env p) :
    info.DescribesParent env p.parent :=
  ⟨h.base, h.shape, h.strides, h.tensorShape⟩

theorem RewritedInfo.Describes.length (h : info.Describes env p) : p.offsets.length = info.length := by
  have hoffsets := congrArg List.length h.offsets
  rw [length_map, length_map, info.length_offsets] at hoffsets
  exact hoffsets.symm

theorem RewritedInfo.DescribesParent.length {parent : Parent} (h : info.DescribesParent env parent) :
    info.length = parent.shape.length := by
  rw [← h.shape, length_map]
  rfl

theorem RewritedInfo.DescribesParent.congr {parent : Parent} (h : info.DescribesParent env parent)
    (hknown : info.Known scope) (henv : ∀ v ∈ scope, env' (.old v) = env (.old v)) :
    info.DescribesParent env' parent := by
  have heq : ∀ n ∈ info.base :: info.shape ++ info.strides, env' n = env n := by
    intro n hn
    obtain ⟨u, hu, rfl, -⟩ := hknown n hn
    exact henv u hu
  constructor
  · rw [heq _ (by simp), h.base]
  · rw [← h.shape]
    apply map_congr_left
    intro n hn
    rw [heq n (by simp [hn])]
  · rw [← h.strides]
    apply map_congr_left
    intro n hn
    rw [heq n (by simp [hn])]
  · exact h.tensorShape

theorem RewritedInfo.Known.mono {scope' : List Value} (h : info.Known scope)
    (hsub : scope ⊆ scope') : info.Known scope' := by
  intro n hn
  obtain ⟨u, hu, heq, htype⟩ := h n hn
  exact ⟨u, hsub hu, heq, htype⟩

end Describes

section Binding

variable {records : Records} {scope : List Value} {s : SourceState E} {s' t' : TargetState E}
  {v : Value}

theorem find_cons_of_ne {u : Value} (h : u ≠ v) (info : RewritedInfo) :
    Records.find ((v, info) :: records) u = records.find u := by
  unfold Records.find
  rw [lookup_cons]
  have hbeq : (u == v) = false := by simpa using h
  rw [hbeq]

theorem find_cons_self (info : RewritedInfo) : Records.find ((v, info) :: records) v = some info := by
  unfold Records.find
  rw [lookup_cons]
  simp

theorem Scoped.cons {info : RewritedInfo} (h : Scoped records scope)
    (htype : isTensorPointerType v.type = true) (hknown : info.Known scope)
    (hoffsets : info.offsets = (List.range info.length).map (.offset v)) :
    Scoped ((v, info) :: records) (v :: scope) := by
  have hcases : ∀ u i, Records.find ((v, info) :: records) u = some i →
      (u = v ∧ i = info) ∨ records.find u = some i := by
    intro u i hfind
    by_cases huv : u = v
    · subst huv
      rw [find_cons_self] at hfind
      exact Or.inl ⟨rfl, (Option.some.inj hfind).symm⟩
    · rw [find_cons_of_ne huv] at hfind
      exact Or.inr hfind
  constructor
  · intro u i hfind
    rcases hcases u i hfind with ⟨rfl, rfl⟩ | hfind
    · exact mem_cons_self
    · exact mem_cons_of_mem _ (h.mem u i hfind)
  · intro u i hfind
    rcases hcases u i hfind with ⟨rfl, rfl⟩ | hfind
    · exact htype
    · exact h.isTensorPointer u i hfind
  · intro u i hfind
    rcases hcases u i hfind with ⟨rfl, rfl⟩ | hfind
    · exact hoffsets
    · exact h.offsets u i hfind
  · intro u i hfind
    rcases hcases u i hfind with ⟨rfl, rfl⟩ | hfind
    · exact hknown.mono fun u hu => mem_cons_of_mem _ hu
    · exact (h.known u i hfind).mono fun u hu => mem_cons_of_mem _ hu

def Reads (scope : List Value) (n : Name) : Prop :=
  (∃ u ∈ scope, n = .old u) ∨ ∃ u ∈ scope, ∃ i, n = .offset u i

theorem Scoped.reads {info : RewritedInfo} (h : Scoped records scope) {u : Value}
    (hfind : records.find u = some info) :
    ∀ n ∈ info.base :: info.shape ++ info.strides ++ info.offsets, Reads scope n := by
  intro n hn
  rcases mem_append.mp hn with hn | hn
  · obtain ⟨w, hw, rfl, -⟩ := h.known u info hfind n hn
    exact Or.inl ⟨w, hw, rfl⟩
  · rw [h.offsets u info hfind] at hn
    obtain ⟨i, -, rfl⟩ := mem_map.mp hn
    exact Or.inr ⟨u, h.mem u info hfind, i, rfl⟩

theorem Agree.congr (h : Agree records scope s s') (hscoped : Scoped records scope)
    {t : SourceState E} (hworld : t'.world = t.world) (henv : ∀ v ∈ scope, t.env v = s.env v)
    (henv' : ∀ n, Reads scope n → t'.env n = s'.env n) : Agree records scope t t' := by
  constructor
  · exact hworld
  · intro v hv htype
    rw [henv v hv, henv' _ (Or.inl ⟨v, hv, rfl⟩), h.same v hv htype]
  · intro v hv htype
    obtain ⟨info, p, hfind, hvalue, hinfo, hshape⟩ := h.described v hv htype
    refine ⟨info, p, hfind, (henv v hv).trans hvalue, ?_, hshape⟩
    have hreads := hscoped.reads hfind
    have hparent := hinfo.parent.congr (hscoped.known v info hfind) fun u hu =>
      henv' _ (Or.inl ⟨u, hu, rfl⟩)
    refine ⟨hparent.base, hparent.shape, hparent.strides, hparent.tensorShape, ?_⟩
    rw [← hinfo.offsets]
    apply map_congr_left
    intro n hn
    exact henv' n (hreads n (mem_append_right _ hn))

theorem Agree.cons_offsets {info : RewritedInfo} {p : BlockPtr} (h : Agree records scope s s')
    (hscoped : Scoped records scope) (hv : v ∉ scope) (htype : isTensorPointerType v.type = true)
    (hshape : p.parent.tensorShape = v.type.tensorShape) (hworld : t'.world = s'.world)
    (henv : ∀ n, Reads scope n → t'.env n = s'.env n) (hinfo : info.Describes t'.env p) :
    Agree ((v, info) :: records) (v :: scope) (s.bind [v] [.blockPtr p]) t' := by
  have hkept : Agree records scope (s.bind [v] [.blockPtr p]) t' := by
    refine h.congr hscoped (hworld.trans h.world) ?_ henv
    intro u hu
    exact bind_env_of_notMem _ _ (by simpa using ne_of_mem_of_not_mem hu hv)
  constructor
  · exact hkept.world
  · intro u hu hu'
    rcases mem_cons.mp hu with rfl | hu
    · rw [htype] at hu'
      cases hu'
    · exact hkept.same u hu hu'
  · intro u hu hu'
    rcases mem_cons.mp hu with rfl | hu
    · refine ⟨info, p, find_cons_self info, ?_, hinfo, hshape⟩
      exact Function.update_self _ _ _
    · obtain ⟨i, q, hfind, hrest⟩ := hkept.described u hu hu'
      refine ⟨i, q, ?_, hrest⟩
      rw [find_cons_of_ne (ne_of_mem_of_not_mem hu hv), hfind]

theorem Agree.cons_same (h : Agree records scope s s') (hscoped : Scoped records scope)
    (hv : v ∉ scope) (htype : isTensorPointerType v.type = false) (d : Val E) :
    Agree records (v :: scope) (s.bind [v] [d]) (s'.bind [.old v] [d]) := by
  have hkept : Agree records scope (s.bind [v] [d]) (s'.bind [.old v] [d]) := by
    refine h.congr hscoped ?_ ?_ ?_
    · simpa using h.world
    · intro u hu
      exact bind_env_of_notMem _ _ (by simpa using ne_of_mem_of_not_mem hu hv)
    · rintro n (⟨u, hu, rfl⟩ | ⟨u, hu, i, rfl⟩)
      · exact bind_env_of_notMem _ _ (by simpa using ne_of_mem_of_not_mem hu hv)
      · exact bind_env_of_notMem _ _ (by simp)
  constructor
  · exact hkept.world
  · intro u hu hu'
    rcases mem_cons.mp hu with rfl | hu
    · have hold : (s.bind [u] [d]).env u = d := Function.update_self _ _ _
      have hnew : (s'.bind [.old u] [d]).env (.old u) = d := Function.update_self _ _ _
      rw [hold, hnew]
    · exact hkept.same u hu hu'
  · intro u hu hu'
    rcases mem_cons.mp hu with rfl | hu
    · rw [htype] at hu'
      cases hu'
    · exact hkept.described u hu hu'

theorem Scoped.mono {scope' : List Value} (h : Scoped records scope) (hsub : scope ⊆ scope') :
    Scoped records scope' :=
  ⟨fun v info hfind => hsub (h.mem v info hfind), h.isTensorPointer, h.offsets,
    fun v info hfind => (h.known v info hfind).mono hsub⟩

theorem Agree.bind {vs : List Value} {infos : List (Option RewritedInfo)} {ds ds' : List (Val E)}
    (hrecorded : Recorded scope s'.env vs infos ds ds') (h : Agree records scope s s')
    (hscoped : Scoped records scope) (hfresh : Fresh scope vs) :
    Scoped (recordOffsets records vs infos).1 (vs ++ scope) ∧
      Agree (recordOffsets records vs infos).1 (vs ++ scope) (s.bind vs ds)
        (s'.bind (recordOffsets records vs infos).2 ds') ∧
      ∀ n, Reads scope n → (s'.bind (recordOffsets records vs infos).2 ds').env n = s'.env n := by
  induction hrecorded with
  | nil => exact ⟨hscoped, h, fun n _ => rfl⟩
  | @offsets v vs info infos p ds ds' htype hshape hknown hinfo hlength rest ih =>
    obtain ⟨hfreshTail, hv'⟩ := hfresh.tail
    obtain ⟨ihScoped, ihAgree, ihEnv⟩ := ih hfreshTail
    have hnames : ((List.range info.length).map (Name.offset v)).length =
        (p.offsets.map (Val.int (E := E) 64)).length := by simp [hlength]
    have hnodupNames : ((List.range info.length).map (Name.offset v)).Nodup :=
      List.nodup_range.map fun i j hij => by simpa using hij
    simp only [recordOffsets]
    rw [bind_append hnames]
    have hframe : ∀ n, Reads (vs ++ scope) n →
        (((s'.bind (recordOffsets records vs infos).2 ds').bind
          ((List.range info.length).map (.offset v)) (p.offsets.map (.int 64))).env n) =
            (s'.bind (recordOffsets records vs infos).2 ds').env n := by
      rintro n (⟨u, hu, rfl⟩ | ⟨u, hu, i, rfl⟩)
      · exact bind_env_of_notMem _ _ (by simp)
      · apply bind_env_of_notMem
        rw [mem_map]
        rintro ⟨j, -, heq⟩
        obtain ⟨rfl, -⟩ := Name.offset.inj heq
        exact hv' hu
    refine ⟨?_, ?_, ?_⟩
    · have hknown' : (info.setOffsets (.offset v)).Known (vs ++ scope) :=
        hknown.mono (subset_append_right _ _)
      exact ihScoped.cons htype hknown' rfl
    · apply ihAgree.cons_offsets ihScoped hv' htype hshape
      · rw [bind_world]
      · exact hframe
      · have hparent : info.DescribesParent ((s'.bind (recordOffsets records vs infos).2 ds').bind
            ((List.range info.length).map (.offset v)) (p.offsets.map (.int 64))).env p.parent := by
          refine hinfo.congr hknown fun u hu => ?_
          rw [hframe _ (Or.inl ⟨u, mem_append_right _ hu, rfl⟩), ihEnv _ (Or.inl ⟨u, hu, rfl⟩)]
        exact ⟨hparent.base, hparent.shape, hparent.strides, hparent.tensorShape,
          bind_map_env hnodupNames hnames⟩
    · intro n hn
      rw [hframe, ihEnv n hn]
      rcases hn with ⟨u, hu, rfl⟩ | ⟨u, hu, i, rfl⟩
      · exact Or.inl ⟨u, mem_append_right _ hu, rfl⟩
      · exact Or.inr ⟨u, mem_append_right _ hu, i, rfl⟩
  | @same v vs infos d ds ds' htype rest ih =>
    obtain ⟨hfreshTail, hv'⟩ := hfresh.tail
    obtain ⟨ihScoped, ihAgree, ihEnv⟩ := ih hfreshTail
    refine ⟨?_, ?_, ?_⟩
    · exact ihScoped.mono fun u hu => mem_cons_of_mem _ hu
    · exact ihAgree.cons_same ihScoped hv' htype d
    · intro n hn
      refine Eq.trans ?_ (ihEnv n hn)
      apply Function.update_of_ne
      rintro rfl
      rcases hn with ⟨u, hu, heq⟩ | ⟨u, hu, i, heq⟩
      · exact hfresh.notMem v mem_cons_self (Name.old.inj heq ▸ hu)
      · cases heq

theorem Agree.bind_same {vs : List Value} (h : Agree records scope s s')
    (hscoped : Scoped records scope) (hfresh : Fresh scope vs)
    (htypes : ∀ v ∈ vs, isTensorPointerType v.type = false) (ds : List (Val E)) :
    Agree records (vs ++ scope) (s.bind vs ds) (s'.bind (vs.map .old) ds) := by
  induction vs generalizing ds with
  | nil => exact h
  | cons v vs ih =>
    obtain ⟨hfreshTail, hv'⟩ := hfresh.tail
    have htail := ih hfreshTail
      (fun u hu => htypes u (mem_cons_of_mem _ hu)) ds.tail
    exact htail.cons_same (hscoped.mono (subset_append_right _ _)) hv'
      (htypes v mem_cons_self) ds.headI

end Binding

section Operations

variable {records records' : Records} {scope : List Value} {s : SourceState E}
  {s' : TargetState E} {el : Elements E}

def runOps (el : Elements E) (ops : List (TargetOp E)) (s : TargetState E) : TargetState E :=
  ops.foldl (fun s op => op.step el s) s

/-- A name that does not belong to a block pointer that is bound. -/
def Other (res : Value) (n : Name) : Prop :=
  (∀ i, n ≠ .offset res i) ∧ ∀ i, n ≠ .i64Offset res i

theorem Reads.other {res : Value} {n : Name} (h : Reads scope n) (hres : res ∉ scope) :
    Other res n := by
  rcases h with ⟨u, hu, rfl⟩ | ⟨u, hu, i, rfl⟩
  · exact ⟨by simp, by simp⟩
  · refine ⟨fun j heq => ?_, by simp⟩
    exact hres ((Name.offset.inj heq).1 ▸ hu)

theorem run_perOffset (el : Elements E) (s' : TargetState E) (res : Value)
    (create : ℕ → Value → List (TargetOp E)) (offset : ℕ → Value → BitVec 64)
    (hcreate : ∀ i v (t : TargetState E), (∀ n, Other res n → t.env n = s'.env n) →
      (runOps el (create i v) t).world = t.world ∧
        (runOps el (create i v) t).env (.offset res i) = .int 64 (offset i v) ∧
        ∀ n, n ≠ .offset res i → n ≠ .i64Offset res i → (runOps el (create i v) t).env n = t.env n)
    (offsets : List Value) :
    (runOps el (perOffset offsets create) s').world = s'.world ∧
      (∀ n, Other res n → (runOps el (perOffset offsets create) s').env n = s'.env n) ∧
      ((List.range offsets.length).map fun i =>
        (runOps el (perOffset offsets create) s').env (.offset res i)) =
          (offsets.mapIdx offset).map (.int 64) := by
  induction offsets using List.reverseRecOn with
  | nil => exact ⟨rfl, fun n _ => rfl, rfl⟩
  | append_singleton l v ih =>
    obtain ⟨ihWorld, ihEnv, ihOffsets⟩ := ih
    have hrun : runOps el (perOffset (l ++ [v]) create) s' =
        runOps el (create l.length v) (runOps el (perOffset l create) s') := by
      simp [runOps, perOffset, mapIdx_concat]
    rw [hrun]
    obtain ⟨hworld, hoffset, henv⟩ := hcreate l.length v _ ihEnv
    generalize runOps el (perOffset l create) s' = t at *
    refine ⟨hworld.trans ihWorld, ?_, ?_⟩
    · intro n hn
      rw [henv n (hn.1 _) (hn.2 _), ihEnv n hn]
    · rw [length_append, length_singleton, range_succ, map_append,
        mapIdx_concat, map_append, ← ihOffsets]
      congr 1
      · apply map_congr_left
        intro i hi
        have hne : i ≠ l.length := (mem_range.mp hi).ne
        exact henv _ (by simpa using hne) (by simp)
      · rw [map_singleton, hoffset, map_singleton]

theorem toWord_int (n : BitVec 64) : (Val.int 64 n : Val E).toWord = n := by
  simp [Val.toWord]

theorem constant_generateOther {pointee : Pointee} {padding : Option Combine.PaddingOption}
    {other : Option Constant} (h : generateOther pointee padding = some other) :
    el.constant other = el.padding pointee padding := by
  cases padding with
  | none =>
    obtain rfl := Option.some.inj h
    rfl
  | some padding =>
    cases padding with
    | zero =>
      obtain rfl := Option.some.inj h
      rfl
    | nan =>
      simp only [generateOther] at h
      split at h
      · cases h
      · obtain rfl := Option.some.inj h
        rfl

theorem Agree.setWorld (h : Agree records scope s s') (w : World E) :
    Agree records scope { s with world := w } { s' with world := w } :=
  ⟨rfl, h.same, h.described⟩

theorem Agree.map_env (h : Agree records scope s s') {vs : List Value} (hvs : vs ⊆ scope)
    (htypes : ∀ v ∈ vs, isTensorPointerType v.type = false) :
    (vs.map .old).map s'.env = vs.map s.env := by
  rw [map_map]
  apply map_congr_left
  intro v hv
  exact h.same v (hvs hv) (htypes v hv)

theorem Agree.toBlockPtr (h : Agree records scope s s') {ptr : Value} (hptr : ptr ∈ scope)
    (htype : isTensorPointerType ptr.type = true) {info : RewritedInfo}
    (hfind : records.find ptr = some info) :
    info.Describes s'.env (s.env ptr).toBlockPtr ∧
      (s.env ptr).toBlockPtr.parent.tensorShape = ptr.type.tensorShape := by
  obtain ⟨info', p, hfind', hvalue, hdescribes, hshape⟩ := h.described ptr hptr htype
  obtain rfl := Option.some.inj (hfind.symm.trans hfind')
  rw [hvalue]
  exact ⟨hdescribes, hshape⟩

theorem rewriteMakeTensorPtrOp_agree {res base : Value} {shape strides offsets : List Value}
    {info : RewritedInfo} {ops : List (TargetOp E)}
    (hop : rewriteMakeTensorPtrOp res base shape strides offsets = some (info, ops))
    (htyped : (SourceOp.makeTensorPtr res base shape strides offsets : SourceOp E).WellTyped)
    (hoperands : base :: shape ++ strides ++ offsets ⊆ scope) (hres : res ∉ scope)
    (hscoped : Scoped records scope) (h : Agree records scope s s') :
    Scoped ((res, info) :: records) (res :: scope) ∧
      Agree ((res, info) :: records) (res :: scope)
        ((SourceOp.makeTensorPtr res base shape strides offsets).step el s) (runOps el ops s') := by
  unfold rewriteMakeTensorPtrOp at hop
  split at hop
  · rename_i hlengths
    obtain ⟨rfl, rfl⟩ := Prod.mk.inj (Option.some.inj hop)
    obtain ⟨hptr, hbaseType, hstatic, hoffsetTypes⟩ := htyped
    have htypes : ∀ v ∈ base :: shape ++ strides ++ offsets, isTensorPointerType v.type = false := by
      intro v hv
      simp only [mem_append, mem_cons] at hv
      rcases hv with ((rfl | hv) | hv) | hv
      · rw [hbaseType]
        rfl
      · rw [hstatic v (mem_append_left _ hv)]
        rfl
      · rw [hstatic v (mem_append_right _ hv)]
        rfl
      · rw [hoffsetTypes v hv]
        rfl
    obtain ⟨hworld, henv, hoffsets⟩ := run_perOffset el s' res
      (fun i offset => [.extsi (.offset res i) (.old offset)])
      (fun _ v => (s'.env (.old v)).toWord) (fun i v t ht => by
        refine ⟨rfl, ?_, ?_⟩
        · show Function.update _ _ _ _ = _
          rw [Function.update_self, headI_cons, ht _ ⟨by simp, by simp⟩]
        · intro n hn _
          exact Function.update_of_ne hn _ _) offsets
    generalize runOps el (perOffset offsets _) s' = t at hworld henv hoffsets
    have hreads : ∀ n, Reads scope n → t.env n = s'.env n := fun n hn => henv n (hn.other hres)
    have hword : ∀ v ∈ base :: shape ++ strides ++ offsets, (t.env (.old v)).toWord = (s.env v).toWord := by
      intro v hv
      have hv' := hoperands hv
      rw [hreads _ (Or.inl ⟨v, hv', rfl⟩), h.same v hv' (htypes v hv)]
    refine ⟨hscoped.cons hptr ?_ ?_, ?_⟩
    · have hnames : Name.old base :: shape.map .old ++ strides.map .old =
          (base :: shape ++ strides).map .old := by simp
      intro n hn
      obtain ⟨u, hu, rfl⟩ := mem_map.mp (hnames ▸ hn)
      have hu' : u ∈ base :: shape ++ strides ++ offsets := mem_append_left _ hu
      exact ⟨u, hoperands hu', rfl, htypes u hu'⟩
    · show _ = (List.range (shape.map Name.old).length).map _
      rw [length_map, ← hlengths.1]
    · apply h.cons_offsets hscoped hres hptr rfl hworld hreads
      constructor
      · exact hword base (by simp)
      · show (shape.map Name.old).map _ = _
        rw [map_map]
        apply map_congr_left
        intro v hv
        exact hword v (by simp [hv])
      · show (strides.map Name.old).map _ = _
        rw [map_map]
        apply map_congr_left
        intro v hv
        exact hword v (by simp [hv])
      · rfl
      · show ((List.range offsets.length).map (Name.offset res)).map t.env = _
        rw [map_map]
        refine hoffsets.trans (congrArg (List.map (Val.int 64)) ?_)
        apply mapIdx_eq_iff.mpr
        intro i
        rw [List.getElem?_map]
        cases hget : offsets[i]? with
        | none => rfl
        | some v =>
          have hv := mem_of_getElem? hget
          have hv' : v ∈ scope := hoperands (by simp [hv])
          simp only [Option.map_some]
          rw [h.same v hv' (htypes v (by simp [hv]))]
  · cases hop

theorem rewriteAdvanceOp_agree {res ptr : Value} {offsets : List Value} {ptrInfo info : RewritedInfo}
    {ops : List (TargetOp E)} (hfind : records.find ptr = some ptrInfo)
    (hop : rewriteAdvanceOp ptrInfo res offsets = some (info, ops))
    (htyped : (SourceOp.advance res ptr offsets : SourceOp E).WellTyped)
    (hoperands : ptr :: offsets ⊆ scope) (hres : res ∉ scope) (hscoped : Scoped records scope)
    (h : Agree records scope s s') :
    Scoped ((res, info) :: records) (res :: scope) ∧
      Agree ((res, info) :: records) (res :: scope) ((SourceOp.advance res ptr offsets).step el s)
        (runOps el ops s') := by
  unfold rewriteAdvanceOp at hop
  split at hop
  · rename_i hlength
    obtain ⟨rfl, rfl⟩ := Prod.mk.inj (Option.some.inj hop)
    obtain ⟨htype, hptrType, hoffsetTypes⟩ := htyped
    obtain ⟨hdescribes, hshape⟩ := h.toBlockPtr (hoperands mem_cons_self)
      (hptrType ▸ htype) hfind
    have hother : ∀ i, Other res (ptrInfo.offset i) := by
      intro i
      apply (hscoped.reads hfind _ ?_).other hres
      rw [RewritedInfo.offset, getD_eq_getElem?_getD]
      cases hget : ptrInfo.offsets[i]? with
      | none => simp
      | some n => simp [mem_of_getElem? hget]
    obtain ⟨hworld, henv, hoffsets⟩ := run_perOffset el s' res
      (fun i offset => [.extsi (.i64Offset res i) (.old offset),
        .addi (.offset res i) (ptrInfo.offset i) (.i64Offset res i)])
      (fun i v => (s'.env (ptrInfo.offset i)).toWord + (s'.env (.old v)).toWord) (fun i v t ht => by
        have hword : (t.env (.old v)).toWord = (s'.env (.old v)).toWord := by
          rw [ht _ ⟨by simp, by simp⟩]
        let t₁ := t.bind [.i64Offset res i] [.int 64 (t.env (.old v)).toWord]
        have hrun : runOps el [.extsi (.i64Offset res i) (.old v),
            .addi (.offset res i) (ptrInfo.offset i) (.i64Offset res i)] t =
            t₁.bind [.offset res i] [.int 64 ((t₁.env (ptrInfo.offset i)).toWord +
              (t₁.env (.i64Offset res i)).toWord)] := rfl
        have hoffset : t₁.env (ptrInfo.offset i) = s'.env (ptrInfo.offset i) := by
          rw [bind_env_of_notMem _ _ (by simpa using (hother i).2 i), ht _ (hother i)]
        have hextended : t₁.env (.i64Offset res i) = .int 64 (t.env (.old v)).toWord :=
          Function.update_self _ _ _
        simp only [hrun]
        refine ⟨rfl, ?_, ?_⟩
        · rw [hoffset, hextended, toWord_int, hword]
          exact Function.update_self _ _ _
        · intro n hn hn'
          rw [bind_env_of_notMem _ _ (by simpa using hn), bind_env_of_notMem _ _ (by simpa using hn')])
      offsets
    generalize runOps el (perOffset offsets _) s' = t at hworld henv hoffsets
    have hreads : ∀ n, Reads scope n → t.env n = s'.env n := fun n hn => henv n (hn.other hres)
    have hknown := hscoped.known ptr ptrInfo hfind
    refine ⟨hscoped.cons htype ?_ rfl, ?_⟩
    · exact hknown
    · apply h.cons_offsets hscoped hres htype ?_ hworld hreads
      · have hparent := hdescribes.parent.congr hknown fun u hu => hreads _ (Or.inl ⟨u, hu, rfl⟩)
        refine ⟨hparent.base, hparent.shape, hparent.strides, hparent.tensorShape, ?_⟩
        show ((List.range ptrInfo.length).map (Name.offset res)).map t.env = _
        rw [hlength, map_map]
        refine hoffsets.trans (congrArg (List.map (Val.int 64)) ?_)
        apply mapIdx_eq_iff.mpr
        intro i
        rw [List.getElem?_zipWith, List.getElem?_map]
        cases hget : offsets[i]? with
        | none => cases (s.env ptr).toBlockPtr.offsets[i]? <;> rfl
        | some v =>
          have hv := mem_of_getElem? hget
          have hi : i < offsets.length := (List.getElem?_eq_some_iff.mp hget).1
          have hi' : i < (s.env ptr).toBlockPtr.offsets.length := by
            rw [hdescribes.length, hlength]
            exact hi
          have hdim : i < ptrInfo.tensorShape.length := by
            rw [ptrInfo.length_tensorShape]
            exact hi.trans_eq hlength.symm
          have hoffset := hdescribes.getD_offset hdim
          have htypeV : isTensorPointerType v.type = false := by
            rw [hoffsetTypes v hv]
            rfl
          rw [getD_eq_getElem _ _ hi'] at hoffset
          simp only [Option.map_some, List.getElem?_eq_getElem hi', hoffset]
          rw [h.same v (hoperands (mem_cons_of_mem _ hv)) htypeV]
      · rw [← hptrType]
        exact hshape
  · cases hop

theorem rewriteOp_agree {op : SourceOp E} {ops : List (TargetOp E)}
    (hop : rewriteOp records op = some (records', ops)) (htyped : op.WellTyped)
    (hoperands : op.operands ⊆ scope) (hfresh : Fresh scope op.results)
    (hscoped : Scoped records scope) (h : Agree records scope s s') :
    Scoped records' (op.results ++ scope) ∧
      Agree records' (op.results ++ scope) (op.step el s) (runOps el ops s') := by
  cases op with
  | makeTensorPtr res base shape strides offsets =>
    obtain ⟨⟨info, created⟩, hrewrite, heq⟩ := Option.bind_eq_some_iff.mp hop
    obtain ⟨rfl, rfl⟩ := Prod.mk.inj (Option.some.inj heq)
    exact rewriteMakeTensorPtrOp_agree hrewrite htyped hoperands (hfresh.notMem res mem_cons_self)
      hscoped h
  | advance res ptr offsets =>
    obtain ⟨ptrInfo, hfind, hop'⟩ := Option.bind_eq_some_iff.mp hop
    obtain ⟨⟨info, created⟩, hrewrite, heq⟩ := Option.bind_eq_some_iff.mp hop'
    obtain ⟨rfl, rfl⟩ := Prod.mk.inj (Option.some.inj heq)
    exact rewriteAdvanceOp_agree hfind hrewrite htyped hoperands
      (hfresh.notMem res mem_cons_self) hscoped h
  | load res ptr boundaryCheck padding cache evict isVolatile =>
    obtain ⟨info, hfind, hop'⟩ := Option.bind_eq_some_iff.mp hop
    obtain ⟨mask, hmask, hop''⟩ := Option.bind_eq_some_iff.mp hop'
    obtain ⟨other, hother, heq⟩ := Option.bind_eq_some_iff.mp hop''
    obtain ⟨rfl, rfl⟩ := Prod.mk.inj (Option.some.inj heq)
    obtain ⟨hptr, hres, hsize⟩ := htyped
    obtain ⟨hdescribes, hshape⟩ := h.toBlockPtr (hoperands mem_cons_self) hptr hfind
    have htouched := hdescribes.touched_eq (hshape ▸ hsize) hmask ptr.type.pointee.bytes
    refine ⟨hscoped.mono (subset_append_right _ _), ?_⟩
    have hbound := (h.setWorld (s.world.access s.world.mem (.load
      ((s.env ptr).toBlockPtr.touched ptr.type.pointee.bytes boundaryCheck) cache evict
        isVolatile))).cons_same hscoped (hfresh.notMem res mem_cons_self)
      (by rw [hres]; rfl) (.tensor (loadElements s.world.mem
        ((s.env ptr).toBlockPtr.touched ptr.type.pointee.bytes boundaryCheck)
        (el.padding ptr.type.pointee padding)))
    simp only [runOps, foldl_cons, foldl_nil, TargetOp.step, SourceOp.step, htouched,
      constant_generateOther hother, h.world]
    exact hbound
  | store ptr value boundaryCheck cache evict =>
    obtain ⟨info, hfind, hop'⟩ := Option.bind_eq_some_iff.mp hop
    obtain ⟨mask, hmask, heq⟩ := Option.bind_eq_some_iff.mp hop'
    obtain ⟨rfl, rfl⟩ := Prod.mk.inj (Option.some.inj heq)
    obtain ⟨hptr, hvalue, hsize⟩ := htyped
    obtain ⟨hdescribes, hshape⟩ := h.toBlockPtr (hoperands mem_cons_self) hptr hfind
    have htouched := hdescribes.touched_eq (hshape ▸ hsize) hmask ptr.type.pointee.bytes
    have hstored : s'.env (.old value) = s.env value :=
      h.same value (hoperands (by simp [SourceOp.operands])) (by rw [hvalue]; rfl)
    refine ⟨hscoped, ?_⟩
    simp only [runOps, foldl_cons, foldl_nil, TargetOp.step, SourceOp.step, htouched,
      hstored, h.world]
    exact h.setWorld _
  | anyOp results operands apply =>
    simp only [rewriteOp] at hop
    split at hop
    · cases hop
    rename_i hnone
    obtain ⟨rfl, rfl⟩ := Prod.mk.inj (Option.some.inj hop)
    have htypes : ∀ v ∈ operands, isTensorPointerType v.type = false := by
      simpa using hnone
    have hmap : (operands.map Name.old).map s'.env = operands.map s.env :=
      h.map_env hoperands htypes
    refine ⟨hscoped.mono (subset_append_right _ _), ?_⟩
    simp only [runOps, foldl_cons, foldl_nil, TargetOp.step, SourceOp.step, hmap, h.world]
    exact (h.setWorld _).bind_same hscoped hfresh htyped _

end Operations

section Carry

variable {records : Records} {scope : List Value} {s : SourceState E} {s' : TargetState E}

theorem expandOperands_old {operands : List Name} {i : ℕ} {v : Value}
    (hget : operands[i]? = some (.old v)) :
    expandOperands records operands i =
      if isTensorPointerType v.type then
        match records.find v with
        | some info => expandOperands records (generateNewOperands operands i info.offsets)
            (i + info.offsets.length)
        | none => none
      else expandOperands records operands (i + 1) := by
  obtain ⟨hlt, hget⟩ := List.getElem?_eq_some_iff.mp hget
  have hstep := expandOperands.eq_def records operands i
  simp only [dif_pos hlt, hget] at hstep
  exact hstep

/-- The operands after those that are done are replaced by offsets, and these are what the
rewritten program carries. -/
theorem expandOperands_carried (h : Agree records scope s s') {vs : List Value} (hvs : vs ⊆ scope)
    {done names : List Name}
    (hexpand : expandOperands records (done ++ vs.map .old) done.length = some names) :
    ∃ news, names = done ++ news ∧ Carried (vs.map Value.type) (vs.map s.env) (news.map s'.env) := by
  induction vs generalizing done with
  | nil =>
    rw [expandOperands, dif_neg (by simp)] at hexpand
    exact ⟨[], (Option.some.inj hexpand).symm, .nil⟩
  | cons v vs ih =>
    have hget : (done ++ (v :: vs).map Name.old)[done.length]? = some (.old v) := by simp
    have hv := hvs mem_cons_self
    have hvs' : vs ⊆ scope := fun u hu => hvs (mem_cons_of_mem _ hu)
    rw [expandOperands_old hget] at hexpand
    split at hexpand
    · rename_i htype
      obtain ⟨info, p, hfind, hvalue, hdescribes, hshape⟩ := h.described v hv htype
      have hnew : generateNewOperands (done ++ (v :: vs).map Name.old) done.length info.offsets =
          (done ++ info.offsets) ++ vs.map .old := by
        simp [generateNewOperands]
      rw [hfind] at hexpand
      dsimp only at hexpand
      rw [hnew, ← length_append] at hexpand
      obtain ⟨news, rfl, hcarried⟩ := ih hvs' hexpand
      refine ⟨info.offsets ++ news, append_assoc _ _ _, ?_⟩
      have hlength : p.offsets.length = p.parent.shape.length := by
        rw [hdescribes.length, hdescribes.parent.length]
      rw [map_append, hdescribes.offsets, map_cons, map_cons, hvalue]
      exact .offsets htype hshape hlength hcarried
    · rename_i htype
      have hdone : done ++ (v :: vs).map Name.old = (done ++ [.old v]) ++ vs.map .old := by simp
      have hlength : done.length + 1 = (done ++ [Name.old v]).length := by simp
      rw [hdone, hlength] at hexpand
      obtain ⟨news, rfl, hcarried⟩ := ih hvs' hexpand
      refine ⟨.old v :: news, by simp, ?_⟩
      have htype' : isTensorPointerType v.type = false := by simpa using htype
      rw [map_cons, map_cons, map_cons, h.same v hv htype']
      exact .same htype' hcarried

theorem Carried.eq_of_same {types : List Ty} {ds ds' : List (Val E)} (h : Carried types ds ds')
    (htypes : ∀ type ∈ types, isTensorPointerType type = false) : ds' = ds := by
  induction h with
  | nil => rfl
  | offsets htype => simp [htypes _ mem_cons_self] at htype
  | same htype rest ih => rw [ih fun type hmem => htypes type (mem_cons_of_mem _ hmem)]

/-- The block pointers among carried values point into the same tensors as others. -/
def KeepsParents : List Value → List (Val E) → List (Val E) → Prop
  | v :: vs, d :: ds, e :: es =>
    (isTensorPointerType v.type = true → d.parent = e.parent) ∧ KeepsParents vs ds es
  | _, _, _ => True

theorem Carried.recorded {env : Name → Val E} {find : Value → Option RewritedInfo}
    {ys vs : List Value} {infos : List (Option RewritedInfo)} {ds ds' : List (Val E)}
    (hcarried : Carried (ys.map Value.type) ds ds') (htypes : ys.map Value.type = vs.map Value.type)
    (hinfos : carriedInfos find ys = some infos) (origin : Value → Val E)
    (horigin : ∀ y ∈ ys, isTensorPointerType y.type = true → ∀ info, find y = some info →
      info.Known scope ∧ ∃ parent, (origin y).parent = some parent ∧ info.DescribesParent env parent)
    (hkeeps : KeepsParents ys ds (ys.map origin)) : Recorded scope env vs infos ds ds' := by
  induction ys generalizing vs infos ds ds' with
  | nil =>
    obtain rfl := map_eq_nil_iff.mp htypes.symm
    obtain rfl := Option.some.inj hinfos
    cases hcarried
    exact .nil
  | cons y ys ih =>
    cases vs with
    | nil => cases htypes
    | cons v vs =>
      obtain ⟨htype, htypes⟩ := List.cons.inj htypes
      have horigin' := fun u (hu : u ∈ ys) => horigin u (mem_cons_of_mem _ hu)
      unfold carriedInfos at hinfos
      cases hcarried with
      | @offsets _ _ p ds ds' hptr hshape hlength rest =>
        rw [if_pos hptr] at hinfos
        obtain ⟨info, hfind, hinfos'⟩ := Option.bind_eq_some_iff.mp hinfos
        obtain ⟨others, hothers, heq⟩ := Option.bind_eq_some_iff.mp hinfos'
        obtain rfl := Option.some.inj heq
        obtain ⟨hparent, hkeeps⟩ := hkeeps
        obtain ⟨hknown, parent, horiginParent, hdescribes⟩ :=
          horigin y mem_cons_self hptr info hfind
        obtain rfl : p.parent = parent := Option.some.inj ((hparent hptr).trans horiginParent)
        refine .offsets (htype ▸ hptr) (htype ▸ hshape) hknown hdescribes ?_
          (ih rest htypes hothers horigin' hkeeps)
        rw [hlength, hdescribes.length]
      | @same _ _ d ds ds' hptr rest =>
        have hnot : ¬ isTensorPointerType y.type = true := by simp [hptr]
        rw [if_neg hnot] at hinfos
        obtain ⟨others, hothers, heq⟩ := Option.bind_eq_some_iff.mp hinfos
        obtain rfl := Option.some.inj heq
        exact .same (htype ▸ hptr) (ih rest htypes hothers horigin' hkeeps.2)

end Carry

end TritonCpu.TensorPointer
