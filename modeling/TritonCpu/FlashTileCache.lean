import Mathlib.Tactic.Ring
import TritonCpu.FlashPack
import TritonCpu.FlashWindow
import TritonCpu.FragmentMemory

/-!
# The cache of packed tiles

One allocation of a thread holds the packed tiles, their tags and the buffers
of a call. Tile `t` is kept in slot `t % ntile`. The tags are cleared when a
call is not for the head and the launch of the last one.
-/

set_option autoImplicit false

namespace TritonCpu.FlashAttention

open FragmentMemory List

/-- What is stored in the allocation; the contents of the other buffers are left
open. -/
inductive Cell where
  | tag (t : ℤ)
  | words (ws : List ℕ)
  | other
  deriving DecidableEq

/-- What the tags refer to, the launch apart. -/
structure CacheKey where
  k : ℤ
  v : ℤ
  k_rs : ℤ
  v_rs : ℤ
  Sk : ℤ
  D : ℕ
  deriving DecidableEq

def FaArgs.cacheKey (a : FaArgs) : CacheKey := ⟨a.k, a.v, a.k_rs, a.v_rs, a.Sk, a.D⟩

/-- `fa_scratch`; its pointers are offsets into the allocation. -/
structure Scratch where
  mem : Memory Cell
  bytes : ℕ
  ntile : ℕ
  key_valid : Bool
  key : CacheKey
  key_epoch : ℕ

/-- `tls_scratch` of a thread that has made no call. -/
def Scratch.zero : Scratch := ⟨fun _ => none, 0, 0, false, ⟨0, 0, 0, 0, 0, 0⟩, 0⟩

def kvCacheBytes : ℕ := 384 * 1024

/-- `ntile` of `get_scratch`. -/
def numTiles (a : FaArgs) : ℕ :=
  let ntile := kvCacheBytes / (lanes * a.D * 2 * 2)
  if ntile < a.chunk_n / lanes + 1 then a.chunk_n / lanes + 1 else ntile

/-- `(sz + 255) & ~(size_t)255` -/
def alignUp (sz : ℕ) : ℕ := (sz + 255) / 256 * 256

def bufferSizes (a : FaArgs) (rows : ℕ) : List ℕ :=
  [numTiles a * lanes * a.D * 2, numTiles a * lanes * a.D * 2, numTiles a * 8,
    a.block_m * a.D * 2, a.block_m * a.chunk_n * 2, a.chunk_n * a.block_m * 4,
    a.D * a.block_m * 4, (rows + a.block_m) * 4, (rows + a.block_m) * 4, a.block_m * 4]

def bufferOffset (a : FaArgs) (rows i : ℕ) : ℕ := (((bufferSizes a rows).take i).map alignUp).sum

/-- The pointers of `fa_scratch`. -/
structure Buffers where
  Kp : ℕ
  Vp : ℕ
  tag : ℕ
  Qp : ℕ
  Pp : ℕ
  ST : ℕ
  OT : ℕ
  m : ℕ
  l : ℕ
  inv : ℕ

def buffers (a : FaArgs) (rows : ℕ) : Buffers where
  Kp := bufferOffset a rows 0
  Vp := bufferOffset a rows 1
  tag := bufferOffset a rows 2
  Qp := bufferOffset a rows 3
  Pp := bufferOffset a rows 4
  ST := bufferOffset a rows 5
  OT := bufferOffset a rows 6
  m := bufferOffset a rows 7
  l := bufferOffset a rows 8
  inv := bufferOffset a rows 9

/-- `for (i = 0; i < ntile; i++) s->tag[i] = -1;` -/
def clearTags (tag ntile : ℕ) (mem : Memory Cell) : Memory Cell :=
  (List.range ntile).foldl (fun mem i => store mem (tag + 8 * i) 8 (.tag (-1))) mem

/-- The reallocation of `get_scratch`; `alloc` is the memory that
`aligned_alloc` returns. -/
def growScratch (alloc : Option (Memory Cell)) (total : ℕ) (s : Scratch) : Option Scratch :=
  if total > s.bytes then
    alloc.map fun mem => { s with mem := mem, bytes := total, key_valid := false }
  else some s

/-- `get_scratch` -/
def getScratch (alloc : Option (Memory Cell)) (a : FaArgs) (rows epoch : ℕ) (s : Scratch) :
    Option Scratch := do
  let s ← growScratch alloc (bufferOffset a rows 10) s
  let s := if s.ntile ≠ numTiles a then { s with key_valid := false } else s
  let s := { s with ntile := numTiles a }
  if !s.key_valid || s.key_epoch ≠ epoch || s.key ≠ a.cacheKey then
    pure { s with
      mem := clearTags (buffers a rows).tag (numTiles a) s.mem
      key_valid := true
      key := a.cacheKey
      key_epoch := epoch }
  else pure s

def kTile (inputs : Inputs) (key : CacheKey) (t : ℕ) : List ℕ :=
  RowSource.packRowsU32 ⟨inputs, key.k, key.k_rs, t * lanes, key.Sk, key.D / 2⟩

def vTile (inputs : Inputs) (key : CacheKey) (t : ℕ) : List ℕ :=
  packV inputs key.v key.v_rs (t * lanes) lanes key.Sk key.D

def tileBytes (D : ℕ) : ℕ := lanes * D * 2

/-- `s.tag + slot` -/
def Buffers.tagAt (b : Buffers) (slot : ℕ) : ℕ := b.tag + 8 * slot

/-- `s.Kp + slot * L * D / 2` -/
def Buffers.kAt (b : Buffers) (D slot : ℕ) : ℕ := b.Kp + 4 * (slot * lanes * D / 2)

/-- `s.Vp + slot * L * D` -/
def Buffers.vAt (b : Buffers) (D slot : ℕ) : ℕ := b.Vp + 2 * (slot * lanes * D)

/-- One tile of `ensure_tiles`. -/
def ensureTile (inputs : Inputs) (a : FaArgs) (b : Buffers) (mem : Memory Cell) (t : ℕ) :
    Memory Cell :=
  let slot := t % numTiles a
  if load mem (b.tagAt slot) 8 = some (.tag t) then mem
  else
    let mem := store mem (b.kAt a.D slot) (tileBytes a.D) (.words (kTile inputs a.cacheKey t))
    let mem := store mem (b.vAt a.D slot) (tileBytes a.D) (.words (vTile inputs a.cacheKey t))
    store mem (b.tagAt slot) 8 (.tag t)

/-- `ensure_tiles` for `n` tiles from `t0` on. -/
def ensureTiles (inputs : Inputs) (a : FaArgs) (b : Buffers) (mem : Memory Cell) (t0 n : ℕ) :
    Memory Cell :=
  (List.range' t0 n).foldl (ensureTile inputs a b) mem

/-- What a task does with the allocation. -/
inductive Action where
  | ensureTiles (t0 t1 : ℕ)
  | write (address size : ℕ)
  | readK (t : ℕ)
  | readV (t : ℕ)

/-- The values of `i` in `for (int i = 0; i < n; i += 2)`. -/
def everyOther (n : ℕ) : List ℕ := (List.range ((n + 1) / 2)).map (2 * ·)

/-- The four tiles of a pair of row tiles and a pair of columns, each 16 vectors
in the transposed buffer at `base`. -/
def writeTiles (base BM rt col : ℕ) (two_r two_c : Bool) : List Action :=
  let tile := fun rt col => (List.range lanes).map fun j =>
    Action.write (base + 4 * ((col * lanes + j) * BM + rt * lanes)) 64
  tile rt col ++ (if two_c then tile rt (col + 1) else []) ++
    (if two_r then tile (rt + 1) col else []) ++
    (if two_r && two_c then tile (rt + 1) (col + 1) else [])

def sGemm (a : FaArgs) (b : Buffers) (t0 nct nrt : ℕ) : List Action :=
  (everyOther nrt).flatMap fun rt => (everyOther nct).flatMap fun ct =>
    [.readK (t0 + ct)] ++ (if ct + 1 < nct then [.readK (t0 + ct + 1)] else []) ++
      writeTiles b.ST a.block_m rt ct (decide (rt + 1 < nrt)) (decide (ct + 1 < nct))

/-- The stores of `softmax` for one row tile; `row` is the row within the call. -/
def softmaxTile (a : FaArgs) (b : Buffers) (r0 c : ℤ) (row nk rt : ℕ) (first : Bool) :
    List Action :=
  let f0 := interiorStart a (r0 + rt * lanes) c nk
  let f1 := interiorStop a (r0 + rt * lanes) c nk
  let maskKey := fun j => Action.write (b.ST + 4 * (rt * lanes + j * a.block_m)) 64
  let nkp := nk / 2
  (inPairs 0 f0).map maskKey ++ (inPairs f1 nk).map maskKey ++
    (List.range ((nkp + 3) / 4)).flatMap (fun i => (List.range 4).map fun j =>
      .write (b.Pp + 2 * (rt * nkp * 2 * lanes + (4 * i) * 2 * lanes + 2 * j * lanes)) 64) ++
    [.write (b.m + 4 * (row + rt * lanes)) 64, .write (b.l + 4 * (row + rt * lanes)) 64] ++
    if first then []
    else (List.range a.D).map fun d => .write (b.OT + 4 * (rt * lanes + d * a.block_m)) 64

def softmax (a : FaArgs) (b : Buffers) (r0 c : ℤ) (row nk nrt : ℕ) (first : Bool) : List Action :=
  (List.range nrt).flatMap fun rt => softmaxTile a b r0 c row nk rt first

def rowInv (b : Buffers) (nrt : ℕ) : List Action :=
  (List.range nrt).map fun rt => .write (b.inv + 4 * (rt * lanes)) 64

def pvGemm (a : FaArgs) (b : Buffers) (t0 nkt nrt : ℕ) (last : Bool) : List Action :=
  let ndt := a.D / lanes
  (everyOther nrt).flatMap fun rt => (everyOther ndt).flatMap fun dt =>
    (List.range nkt).map (fun kt => .readV (t0 + kt)) ++
      if last then []
      else writeTiles b.OT a.block_m rt dt (decide (rt + 1 < nrt)) (decide (dt + 1 < ndt))

def chunkActions (a : FaArgs) (b : Buffers) (r0 lo hi c : ℤ) (row nrt : ℕ) : List Action :=
  let nk := chunkKeys a hi c
  let t0 := (c / lanes).toNat
  let first := decide (c = lo)
  let last := decide (c + nk ≥ hi)
  .ensureTiles t0 (t0 + nk / lanes) ::
    (sGemm a b t0 (nk / lanes) nrt ++ softmax a b r0 c row nk nrt first ++
      (if last then rowInv b nrt else []) ++ pvGemm a b t0 (nk / lanes) nrt last)

/-- The packed query rows, and the start values of the row statistics. -/
def startRows (a : FaArgs) (b : Buffers) (row nrt : ℕ) : List Action :=
  (List.range nrt).flatMap fun rt =>
    [.write (b.Qp + 4 * (rt * (a.D / 2) * lanes)) (4 * (a.D / 2 * lanes)),
      .write (b.m + 4 * (row + rt * lanes)) 64, .write (b.l + 4 * (row + rt * lanes)) 64]

/-- One block of `task`. -/
def blockActions (a : FaArgs) (b : Buffers) (rbeg rend r0 : ℤ) : List Action :=
  let row := (r0 - rbeg).toNat
  let nrt := (blockRows a rend r0 + lanes - 1) / lanes
  startRows a b row nrt ++
    (chunkStarts a rend r0).flatMap fun c =>
      chunkActions a b r0 (blockLo a r0) (blockHi a rend r0) c row nrt

/-- `task`, as far as it uses the allocation. -/
def taskActions (call : Call) (b : Buffers) : List Action :=
  (blockStarts call).flatMap (blockActions call.args b call.rbeg call.rend)

def perform (inputs : Inputs) (a : FaArgs) (b : Buffers) (mem : Memory Cell) : Action → Memory Cell
  | .ensureTiles t0 t1 => ensureTiles inputs a b mem t0 (t1 - t0)
  | .write address size => store mem address size .other
  | .readK _ => mem
  | .readV _ => mem

/-- `head_dim` values that the entry point accepts. -/
def Call.supported (call : Call) : Bool :=
  decide (¬(call.head_dim % lanes ≠ 0 ∨ call.head_dim ≤ 0 ∨ call.head_dim > 256))

/-- A thread, the launch counter and the contents of `K` and `V`. -/
structure Thread where
  scratch : Scratch
  launch_epoch : ℕ
  inputs : Inputs

/-- A launch begins, with inputs that may have been rewritten, or the thread
makes a call. -/
inductive Event where
  | beginLaunch (inputs : Inputs)
  | call (call : Call) (alloc : Option (Memory Cell))

def Call.rows (call : Call) : ℕ := (call.rend - call.rbeg).toNat

def enterCall (th : Thread) (call : Call) (alloc : Option (Memory Cell)) : Option Scratch :=
  getScratch alloc call.args call.rows th.launch_epoch th.scratch

/-- An unsupported head dimension and a failed allocation abort the process. -/
def Thread.step (th : Thread) : Event → Option Thread
  | .beginLaunch inputs => some ⟨th.scratch, (th.launch_epoch + 1) % 2 ^ 64, inputs⟩
  | .call call alloc =>
    if !call.supported then none
    else if !call.hasRows then some th
    else (enterCall th call alloc).map fun s =>
      { th with scratch := { s with
          mem := (taskActions call (buffers call.args call.rows)).foldl
            (perform th.inputs call.args (buffers call.args call.rows)) s.mem } }

def Thread.run (th : Thread) : List Event → Option Thread
  | [] => some th
  | e :: es => (th.step e).bind fun th' => run th' es

/-- The pointers of the cache lie one after the other, before the other buffers. -/
structure CacheLayout (b : Buffers) (ntile D : ℕ) : Prop where
  kp_le : b.Kp + ntile * tileBytes D ≤ b.Vp
  vp_le : b.Vp + ntile * tileBytes D ≤ b.tag
  tag_le : b.tag + 8 * ntile ≤ b.Qp
  others : ∀ p ∈ [b.Qp, b.Pp, b.ST, b.OT, b.m, b.l, b.inv], b.Qp ≤ p
  kAt : ∀ slot, b.kAt D slot = b.Kp + slot * tileBytes D
  vAt : ∀ slot, b.vAt D slot = b.Vp + slot * tileBytes D

/-- A tag that names a tile is the tag of its slot, and the slot holds the tile
of the head. -/
def Coherent (inputs : Inputs) (key : CacheKey) (ntile : ℕ) (b : Buffers) (mem : Memory Cell) :
    Prop :=
  ∀ slot < ntile, ∃ t : ℤ, Holds mem (b.tagAt slot) 8 (.tag t) ∧ ∀ n : ℕ, t = n →
    n % ntile = slot ∧
      Holds mem (b.kAt key.D slot) (tileBytes key.D) (.words (kTile inputs key n)) ∧
      Holds mem (b.vAt key.D slot) (tileBytes key.D) (.words (vTile inputs key n))

def Resident (ntile : ℕ) (b : Buffers) (mem : Memory Cell) (t : ℕ) : Prop :=
  Holds mem (b.tagAt (t % ntile)) 8 (.tag t)

section Layout

theorem le_alignUp (sz : ℕ) : sz ≤ alignUp sz := by
  rw [alignUp]
  omega

theorem cacheLayout (a : FaArgs) (rows : ℕ) (hD : 2 ∣ a.D) :
    CacheLayout (buffers a rows) (numTiles a) a.D := by
  have htile := le_alignUp (numTiles a * lanes * a.D * 2)
  have htag := le_alignUp (numTiles a * 8)
  have hbytes : numTiles a * tileBytes a.D = numTiles a * lanes * a.D * 2 := by
    simp only [tileBytes, Nat.mul_assoc]
  obtain ⟨half, hhalf⟩ := hD
  refine ⟨?_, ?_, ?_, ?_, fun slot => ?_, fun slot => ?_⟩
  · simp [buffers, bufferOffset, bufferSizes, hbytes]
    exact htile
  · simp [buffers, bufferOffset, bufferSizes, hbytes]
    exact htile
  · simp [buffers, bufferOffset, bufferSizes]
    omega
  · simp [buffers, bufferOffset, bufferSizes]
  · have hword : slot * lanes * a.D = 2 * (slot * lanes * half) := by
      rw [hhalf]
      ring
    rw [Buffers.kAt, hword, Nat.mul_div_cancel_left _ (by omega), tileBytes, hhalf]
    ring
  · rw [Buffers.vAt, tileBytes]
    ring

theorem buffers_cache (a a' : FaArgs) (rows rows' : ℕ) (hD : a.D = a'.D)
    (hntile : numTiles a = numTiles a') :
    (buffers a rows).Kp = (buffers a' rows').Kp ∧ (buffers a rows).Vp = (buffers a' rows').Vp ∧
      (buffers a rows).tag = (buffers a' rows').tag := by
  simp [buffers, bufferOffset, bufferSizes, hD, hntile]

theorem slot_apart {i j : ℕ} (h : i ≠ j) (size : ℕ) :
    i * size + size ≤ j * size ∨ j * size + size ≤ i * size := by
  rcases Nat.lt_or_gt_of_ne h with hlt | hlt
  · left
    rw [← Nat.succ_mul]
    exact Nat.mul_le_mul_right size hlt
  · right
    rw [← Nat.succ_mul]
    exact Nat.mul_le_mul_right size hlt

theorem slot_le {i n : ℕ} (h : i < n) (size : ℕ) : i * size + size ≤ n * size := by
  rw [← Nat.succ_mul]
  exact Nat.mul_le_mul_right size h

end Layout

section Tiles

variable {inputs : Inputs} {a : FaArgs} {b : Buffers} {mem : Memory Cell}
  (hb : CacheLayout b (numTiles a) a.D)

include hb

theorem Coherent.store (h : Coherent inputs a.cacheKey (numTiles a) b mem) {address size : ℕ}
    (haddr : b.Qp ≤ address) (v : Cell) :
    Coherent inputs a.cacheKey (numTiles a) b (store mem address size v) := by
  intro slot hslot
  obtain ⟨t, htag, htile⟩ := h slot hslot
  have hend := slot_le hslot (tileBytes a.D)
  have h1 := hb.kp_le
  have h2 := hb.vp_le
  have h3 := hb.tag_le
  refine ⟨t, htag.store (Or.inl (by rw [Buffers.tagAt]; omega)), fun n hn => ?_⟩
  obtain ⟨hmod, hk, hv⟩ := htile n hn
  refine ⟨hmod, hk.store (Or.inl ?_), hv.store (Or.inl ?_)⟩
  · show b.kAt a.D slot + tileBytes a.D ≤ address
    rw [hb.kAt]
    omega
  · show b.vAt a.D slot + tileBytes a.D ≤ address
    rw [hb.vAt]
    omega

theorem Resident.store {t : ℕ} (h : Resident (numTiles a) b mem t) (hpos : 0 < numTiles a)
    {address size : ℕ} (haddr : b.Qp ≤ address) (v : Cell) :
    Resident (numTiles a) b (FragmentMemory.store mem address size v) t := by
  have hslot := Nat.mod_lt t hpos
  have hend := hb.tag_le
  exact Holds.store h (Or.inl (by rw [Buffers.tagAt]; omega))

theorem holds_of_apart {slot slot' : ℕ} (hne : slot' ≠ slot) (hslot : slot < numTiles a)
    (hslot' : slot' < numTiles a) (kw vw : Cell) (tw : Cell) {v : Cell} :
    (Holds mem (b.tagAt slot') 8 v →
      Holds (store (store (store mem (b.kAt a.D slot) (tileBytes a.D) kw) (b.vAt a.D slot)
        (tileBytes a.D) vw) (b.tagAt slot) 8 tw) (b.tagAt slot') 8 v) ∧
    (Holds mem (b.kAt a.D slot') (tileBytes a.D) v →
      Holds (store (store (store mem (b.kAt a.D slot) (tileBytes a.D) kw) (b.vAt a.D slot)
        (tileBytes a.D) vw) (b.tagAt slot) 8 tw) (b.kAt a.D slot') (tileBytes a.D) v) ∧
    (Holds mem (b.vAt a.D slot') (tileBytes a.D) v →
      Holds (store (store (store mem (b.kAt a.D slot) (tileBytes a.D) kw) (b.vAt a.D slot)
        (tileBytes a.D) vw) (b.tagAt slot) 8 tw) (b.vAt a.D slot') (tileBytes a.D) v) := by
  have hend := slot_le hslot (tileBytes a.D)
  have hend' := slot_le hslot' (tileBytes a.D)
  have hapart := slot_apart hne (tileBytes a.D)
  have h1 := hb.kp_le
  have h2 := hb.vp_le
  rw [hb.kAt, hb.kAt, hb.vAt, hb.vAt, Buffers.tagAt, Buffers.tagAt]
  refine ⟨fun h => ?_, fun h => ?_, fun h => ?_⟩
  · exact ((h.store (by omega)).store (by omega)).store (by omega)
  · exact ((h.store (by omega)).store (by omega)).store (by omega)
  · exact ((h.store (by omega)).store (by omega)).store (by omega)

theorem ensureTile_spec (h : Coherent inputs a.cacheKey (numTiles a) b mem)
    (hpos : 0 < numTiles a) (t : ℕ) :
    Coherent inputs a.cacheKey (numTiles a) b (ensureTile inputs a b mem t) ∧
      Resident (numTiles a) b (ensureTile inputs a b mem t) t ∧
      ∀ t', t' % numTiles a ≠ t % numTiles a → Resident (numTiles a) b mem t' →
        Resident (numTiles a) b (ensureTile inputs a b mem t) t' := by
  have hslot := Nat.mod_lt t hpos
  by_cases hhit : load mem (b.tagAt (t % numTiles a)) 8 = some (.tag t)
  · simp only [ensureTile, if_pos hhit]
    exact ⟨h, (load_eq_some_iff (by omega)).mp hhit, fun _ _ hres => hres⟩
  · simp only [ensureTile, if_neg hhit]
    refine ⟨fun slot hs => ?_, holds_store, fun t' hne hres => ?_⟩
    · by_cases hsame : slot = t % numTiles a
      · subst hsame
        refine ⟨t, holds_store, fun n hn => ?_⟩
        obtain rfl : t = n := by exact_mod_cast hn
        have hend := slot_le hslot (tileBytes a.D)
        have h1 := hb.kp_le
        have h2 := hb.vp_le
        refine ⟨rfl, ?_, ?_⟩
        · show Holds _ (b.kAt a.D _) (tileBytes a.D) _
          rw [hb.kAt, hb.vAt, Buffers.tagAt]
          exact (holds_store.store (by omega)).store (by omega)
        · show Holds _ (b.vAt a.D _) (tileBytes a.D) _
          rw [hb.vAt, Buffers.tagAt]
          exact holds_store.store (by omega)
      · obtain ⟨u, htag, htile⟩ := h slot hs
        refine ⟨u, (holds_of_apart hb hsame hslot hs _ _ _).1 htag, fun n hn => ?_⟩
        obtain ⟨hmod, hk, hv⟩ := htile n hn
        exact ⟨hmod, (holds_of_apart hb hsame hslot hs _ _ _).2.1 hk,
          (holds_of_apart hb hsame hslot hs _ _ _).2.2 hv⟩
    · exact (holds_of_apart hb hne hslot (Nat.mod_lt t' hpos) _ _ _).1 hres

theorem ensureTiles_spec (h : Coherent inputs a.cacheKey (numTiles a) b mem)
    {t0 n : ℕ} (hn : n ≤ numTiles a) :
    Coherent inputs a.cacheKey (numTiles a) b (ensureTiles inputs a b mem t0 n) ∧
      ∀ t, t0 ≤ t → t < t0 + n →
        Resident (numTiles a) b (ensureTiles inputs a b mem t0 n) t := by
  induction n with
  | zero => exact ⟨h, fun t _ hlt => by omega⟩
  | succ n ih =>
    obtain ⟨hcoh, hres⟩ := ih (by omega)
    have hstep : ensureTiles inputs a b mem t0 (n + 1) =
        ensureTile inputs a b (ensureTiles inputs a b mem t0 n) (t0 + n) := by
      rw [ensureTiles, List.range'_concat, foldl_append, Nat.one_mul]
      rfl
    obtain ⟨hcoh', hnew, hkeep⟩ := ensureTile_spec hb hcoh (by omega) (t0 + n)
    rw [hstep]
    refine ⟨hcoh', fun t hle hlt => ?_⟩
    by_cases hlast : t = t0 + n
    · rw [hlast]
      exact hnew
    · refine hkeep t (fun hmod => ?_) (hres t hle (by omega))
      -- tiles of one slot are `ntile` apart
      have hdvd : numTiles a ∣ (t0 + n) - t := Nat.dvd_of_mod_eq_zero (Nat.sub_mod_eq_zero_of_mod_eq hmod.symm)
      have hle' := Nat.le_of_dvd (by omega) hdvd
      omega

end Tiles

/-- What a correct cache gives an action: `ensure_tiles` keeps the cache
coherent tile by tile and leaves all its tiles resident, and a tile that is
read is the tile of the head. -/
def Served (inputs : Inputs) (a : FaArgs) (b : Buffers) (mem : Memory Cell) : Action → Prop
  | .ensureTiles t0 t1 =>
    (∀ n ≤ t1 - t0, Coherent inputs a.cacheKey (numTiles a) b (ensureTiles inputs a b mem t0 n)) ∧
      ∀ t, t0 ≤ t → t < t1 →
        Resident (numTiles a) b (ensureTiles inputs a b mem t0 (t1 - t0)) t
  | .write _ _ => True
  | .readK t => Holds mem (b.kAt a.D (t % numTiles a)) (tileBytes a.D)
      (.words (kTile inputs a.cacheKey t))
  | .readV t => Holds mem (b.vAt a.D (t % numTiles a)) (tileBytes a.D)
      (.words (vTile inputs a.cacheKey t))

/-- A write behind the cache, or a read of one of the tiles `[t0, t1)`. -/
def Uses (b : Buffers) (t0 t1 : ℕ) : Action → Prop
  | .ensureTiles _ _ => False
  | .write address _ => b.Qp ≤ address
  | .readK t => t0 ≤ t ∧ t < t1
  | .readV t => t0 ≤ t ∧ t < t1

section Actions

variable (a : FaArgs) {b : Buffers}
  (hb : ∀ p ∈ [b.Qp, b.Pp, b.ST, b.OT, b.m, b.l, b.inv], b.Qp ≤ p) {t0 t1 : ℕ}

theorem uses_writeTiles {base : ℕ} (hbase : b.Qp ≤ base) (BM rt col : ℕ) (two_r two_c : Bool) :
    ∀ act ∈ writeTiles base BM rt col two_r two_c, Uses b t0 t1 act := by
  have htile : ∀ rt col, ∀ act ∈ (List.range lanes).map (fun j =>
      Action.write (base + 4 * ((col * lanes + j) * BM + rt * lanes)) 64), Uses b t0 t1 act := by
    intro rt col act hact
    obtain ⟨j, -, rfl⟩ := mem_map.mp hact
    exact hbase.trans (Nat.le_add_right _ _)
  intro act hact
  simp only [writeTiles, mem_append] at hact
  rcases hact with ((hact | hact) | hact) | hact
  · exact htile _ _ act hact
  · split_ifs at hact
    · exact htile _ _ act hact
    · exact absurd hact not_mem_nil
  · split_ifs at hact
    · exact htile _ _ act hact
    · exact absurd hact not_mem_nil
  · split_ifs at hact
    · exact htile _ _ act hact
    · exact absurd hact not_mem_nil

theorem mem_everyOther {n i : ℕ} (h : i ∈ everyOther n) : i < n := by
  obtain ⟨k, hk, rfl⟩ := mem_map.mp h
  have hlt := mem_range.mp hk
  omega

include hb

theorem uses_sGemm (nct nrt : ℕ) : ∀ act ∈ sGemm a b t0 nct nrt, Uses b t0 (t0 + nct) act := by
  intro act hact
  obtain ⟨rt, -, hact⟩ := mem_flatMap.mp hact
  obtain ⟨ct, hct, hact⟩ := mem_flatMap.mp hact
  have hlt := mem_everyOther hct
  rcases mem_append.mp hact with hact | hact
  · rcases mem_append.mp hact with hact | hact
    · obtain rfl := mem_singleton.mp hact
      exact ⟨by omega, by omega⟩
    · split_ifs at hact with htwo
      · obtain rfl := mem_singleton.mp hact
        exact ⟨by omega, by omega⟩
      · exact absurd hact not_mem_nil
  · exact uses_writeTiles (hb _ (by simp)) _ _ _ _ _ act hact

theorem uses_softmax (r0 c : ℤ) (row nk nrt : ℕ) (first : Bool) :
    ∀ act ∈ softmax a b r0 c row nk nrt first, Uses b t0 t1 act := by
  have hwrite : ∀ {base off size : ℕ}, b.Qp ≤ base → Uses b t0 t1 (.write (base + off) size) :=
    fun hbase => hbase.trans (Nat.le_add_right _ _)
  intro act hact
  obtain ⟨rt, -, hact⟩ := mem_flatMap.mp hact
  simp only [softmaxTile, mem_append, mem_cons, not_mem_nil, or_false] at hact
  rcases hact with (((hact | hact) | hact) | hact) | hact
  · obtain ⟨j, -, rfl⟩ := mem_map.mp hact
    exact hwrite (hb _ (by simp))
  · obtain ⟨j, -, rfl⟩ := mem_map.mp hact
    exact hwrite (hb _ (by simp))
  · obtain ⟨i, -, hact⟩ := mem_flatMap.mp hact
    obtain ⟨j, -, rfl⟩ := mem_map.mp hact
    exact hwrite (hb _ (by simp))
  · rcases hact with rfl | rfl
    · exact hwrite (hb _ (by simp))
    · exact hwrite (hb _ (by simp))
  · split_ifs at hact
    · exact absurd hact not_mem_nil
    · obtain ⟨d, -, rfl⟩ := mem_map.mp hact
      exact hwrite (hb _ (by simp))

theorem uses_rowInv (nrt : ℕ) : ∀ act ∈ rowInv b nrt, Uses b t0 t1 act := by
  intro act hact
  obtain ⟨rt, -, rfl⟩ := mem_map.mp hact
  exact (hb b.inv (by simp)).trans (Nat.le_add_right _ _)

theorem uses_pvGemm (nkt nrt : ℕ) (last : Bool) :
    ∀ act ∈ pvGemm a b t0 nkt nrt last, Uses b t0 (t0 + nkt) act := by
  intro act hact
  obtain ⟨rt, -, hact⟩ := mem_flatMap.mp hact
  obtain ⟨dt, -, hact⟩ := mem_flatMap.mp hact
  rcases mem_append.mp hact with hact | hact
  · obtain ⟨kt, hkt, rfl⟩ := mem_map.mp hact
    have hlt := mem_range.mp hkt
    exact ⟨by omega, by omega⟩
  · split_ifs at hact
    · exact absurd hact not_mem_nil
    · exact uses_writeTiles (hb _ (by simp)) _ _ _ _ _ act hact

theorem uses_startRows (row nrt : ℕ) : ∀ act ∈ startRows a b row nrt, Uses b t0 t1 act := by
  intro act hact
  obtain ⟨rt, -, hact⟩ := mem_flatMap.mp hact
  simp only [mem_cons, not_mem_nil, or_false] at hact
  rcases hact with rfl | rfl | rfl
  · exact (hb b.Qp (by simp)).trans (Nat.le_add_right _ _)
  · exact (hb b.m (by simp)).trans (Nat.le_add_right _ _)
  · exact (hb b.l (by simp)).trans (Nat.le_add_right _ _)

end Actions

/-- The cache is coherent before every action and in the end, and serves every
action. -/
def Runs (inputs : Inputs) (a : FaArgs) (b : Buffers) (mem : Memory Cell) : List Action → Prop
  | [] => Coherent inputs a.cacheKey (numTiles a) b mem
  | act :: acts => Coherent inputs a.cacheKey (numTiles a) b mem ∧ Served inputs a b mem act ∧
      Runs inputs a b (perform inputs a b mem act) acts

section Runs

variable {inputs : Inputs} {a : FaArgs} {b : Buffers} {mem : Memory Cell}

theorem Runs.coherent {acts : List Action} (h : Runs inputs a b mem acts) :
    Coherent inputs a.cacheKey (numTiles a) b (acts.foldl (perform inputs a b) mem) := by
  induction acts generalizing mem with
  | nil => exact h
  | cons act acts ih => exact ih h.2.2

theorem Runs.append {acts rest : List Action} (h : Runs inputs a b mem acts)
    (hrest : Runs inputs a b (acts.foldl (perform inputs a b) mem) rest) :
    Runs inputs a b mem (acts ++ rest) := by
  induction acts generalizing mem with
  | nil => exact hrest
  | cons act acts ih => exact ⟨h.1, h.2.1, ih h.2.2 hrest⟩

theorem Runs.served {done : List Action} {act : Action} {rest : List Action}
    (h : Runs inputs a b mem (done ++ act :: rest)) :
    Coherent inputs a.cacheKey (numTiles a) b (done.foldl (perform inputs a b) mem) ∧
      Served inputs a b (done.foldl (perform inputs a b) mem) act := by
  induction done generalizing mem with
  | nil => exact ⟨h.1, h.2.1⟩
  | cons first done ih => exact ih h.2.2

theorem runs_flatMap {β : Type} {l : List β} {f : β → List Action}
    (hstep : ∀ x ∈ l, ∀ mem, Coherent inputs a.cacheKey (numTiles a) b mem →
      Runs inputs a b mem (f x))
    (h : Coherent inputs a.cacheKey (numTiles a) b mem) : Runs inputs a b mem (l.flatMap f) := by
  induction l generalizing mem with
  | nil => exact h
  | cons x l ih =>
    have hfirst := hstep x mem_cons_self mem h
    rw [flatMap_cons]
    exact hfirst.append (ih (fun y hy => hstep y (mem_cons_of_mem x hy)) hfirst.coherent)

variable (hb : CacheLayout b (numTiles a) a.D) (hpos : 0 < numTiles a)

include hb hpos

theorem runs_uses {t0 t1 : ℕ} {acts : List Action} (huses : ∀ act ∈ acts, Uses b t0 t1 act)
    (h : Coherent inputs a.cacheKey (numTiles a) b mem)
    (hres : ∀ t, t0 ≤ t → t < t1 → Resident (numTiles a) b mem t) :
    Runs inputs a b mem acts ∧ ∀ t, t0 ≤ t → t < t1 →
      Resident (numTiles a) b (acts.foldl (perform inputs a b) mem) t := by
  induction acts generalizing mem with
  | nil => exact ⟨h, hres⟩
  | cons act acts ih =>
    have hact := huses act mem_cons_self
    have hrest := fun act' hact' => huses act' (mem_cons_of_mem act hact')
    have htile : ∀ t, t0 ≤ t ∧ t < t1 →
        Holds mem (b.kAt a.D (t % numTiles a)) (tileBytes a.D) (.words (kTile inputs a.cacheKey t)) ∧
        Holds mem (b.vAt a.D (t % numTiles a)) (tileBytes a.D)
          (.words (vTile inputs a.cacheKey t)) := by
      intro t ht
      obtain ⟨u, htag, hholds⟩ := h _ (Nat.mod_lt t hpos)
      have heq : Cell.tag u = Cell.tag t := htag.eq (hres t ht.1 ht.2) (by omega)
      obtain ⟨-, hk, hv⟩ := hholds t (Cell.tag.inj heq)
      exact ⟨hk, hv⟩
    cases act with
    | ensureTiles u v => exact hact.elim
    | write address size =>
      obtain ⟨hruns, hkept⟩ := ih hrest (h.store hb hact .other)
        fun t hle hlt => (hres t hle hlt).store hb hpos hact .other
      exact ⟨⟨h, trivial, hruns⟩, hkept⟩
    | readK t =>
      obtain ⟨hruns, hkept⟩ := ih hrest h hres
      exact ⟨⟨h, (htile t hact).1, hruns⟩, hkept⟩
    | readV t =>
      obtain ⟨hruns, hkept⟩ := ih hrest h hres
      exact ⟨⟨h, (htile t hact).2, hruns⟩, hkept⟩

theorem runs_chunk (h : Coherent inputs a.cacheKey (numTiles a) b mem) (r0 lo hi c : ℤ)
    (row nrt : ℕ) (hfit : a.chunk_n / lanes ≤ numTiles a) :
    Runs inputs a b mem (chunkActions a b r0 lo hi c row nrt) ∧
      ∀ t, (c / lanes).toNat ≤ t → t < (c / lanes).toNat + chunkKeys a hi c / lanes →
        Resident (numTiles a) b
          ((chunkActions a b r0 lo hi c row nrt).foldl (perform inputs a b) mem) t := by
  have hkeys : chunkKeys a hi c / lanes ≤ numTiles a := by
    refine le_trans (Nat.div_le_div_right ?_) hfit
    rw [chunkKeys]
    split_ifs <;> omega
  have hrest : ∀ act ∈ sGemm a b (c / lanes).toNat (chunkKeys a hi c / lanes) nrt ++
      softmax a b r0 c row (chunkKeys a hi c) nrt (decide (c = lo)) ++
      (if decide (c + chunkKeys a hi c ≥ hi) = true then rowInv b nrt else []) ++
      pvGemm a b (c / lanes).toNat (chunkKeys a hi c / lanes) nrt
        (decide (c + chunkKeys a hi c ≥ hi)),
      Uses b (c / lanes).toNat ((c / lanes).toNat + chunkKeys a hi c / lanes) act := by
    intro act hact
    simp only [mem_append] at hact
    rcases hact with ((hact | hact) | hact) | hact
    · exact uses_sGemm a hb.others _ _ act hact
    · exact uses_softmax a hb.others _ _ _ _ _ _ act hact
    · split_ifs at hact
      · exact uses_rowInv hb.others _ act hact
      · exact absurd hact not_mem_nil
    · exact uses_pvGemm a hb.others _ _ _ act hact
  have hserved : Served inputs a b mem (.ensureTiles (c / lanes).toNat
      ((c / lanes).toNat + chunkKeys a hi c / lanes)) := by
    rw [Served, Nat.add_sub_cancel_left]
    exact ⟨fun n hn => (ensureTiles_spec hb h (hn.trans hkeys)).1,
      (ensureTiles_spec hb h hkeys).2⟩
  have hafter : Coherent inputs a.cacheKey (numTiles a) b (perform inputs a b mem
      (.ensureTiles (c / lanes).toNat ((c / lanes).toNat + chunkKeys a hi c / lanes))) := by
    rw [perform, Nat.add_sub_cancel_left]
    exact (ensureTiles_spec hb h hkeys).1
  obtain ⟨hruns, hkept⟩ := runs_uses hb hpos hrest hafter hserved.2
  exact ⟨⟨h, hserved, hruns⟩, hkept⟩

theorem runs_block (hfit : a.chunk_n / lanes ≤ numTiles a) (rbeg rend r0 : ℤ)
    (h : Coherent inputs a.cacheKey (numTiles a) b mem) :
    Runs inputs a b mem (blockActions a b rbeg rend r0) := by
  have hstart := (@runs_uses inputs a b mem hb hpos 0 0 _
    (uses_startRows a hb.others (r0 - rbeg).toNat ((blockRows a rend r0 + lanes - 1) / lanes)) h
    fun t _ hlt => absurd hlt (by omega)).1
  refine hstart.append (runs_flatMap (fun c _ mem hmem => ?_) hstart.coherent)
  exact (runs_chunk hb hpos hmem _ _ _ _ _ _ hfit).1

end Runs

section GetScratch

theorem numTiles_spec (a : FaArgs) : a.chunk_n / lanes + 1 ≤ numTiles a := by
  rw [numTiles]
  split_ifs <;> omega

theorem coherent_clearTags (inputs : Inputs) (key : CacheKey) (b : Buffers) (n : ℕ)
    (mem : Memory Cell) : Coherent inputs key n b (clearTags b.tag n mem) := by
  have hclear : ∀ k, ∀ slot < k, Holds (clearTags b.tag k mem) (b.tagAt slot) 8 (.tag (-1)) := by
    intro k
    induction k with
    | zero => intro slot hslot; omega
    | succ k ih =>
      intro slot hslot
      rw [clearTags, range_succ, foldl_append]
      by_cases hlast : slot = k
      · rw [hlast]
        exact holds_store
      · exact (ih slot (by omega)).store (Or.inl (by rw [Buffers.tagAt]; omega))
  intro slot hslot
  refine ⟨-1, hclear n slot hslot, fun t ht => ?_⟩
  omega

/-- The cache of a scratch is coherent for the head of its key. -/
structure ScratchOk (inputs : Inputs) (a : FaArgs) (rows : ℕ) (s : Scratch) : Prop where
  key : s.key = a.cacheKey
  ntile : s.ntile = numTiles a
  coherent : Coherent inputs a.cacheKey (numTiles a) (buffers a rows) s.mem

theorem getScratch_spec {inputs : Inputs} {alloc : Option (Memory Cell)} {a : FaArgs}
    {rows epoch : ℕ} {s s' : Scratch} (h : getScratch alloc a rows epoch s = some s')
    (hkept : s.key_valid = true → s.key_epoch = epoch → s.key = a.cacheKey →
      s.ntile = numTiles a → Coherent inputs a.cacheKey (numTiles a) (buffers a rows) s.mem) :
    ScratchOk inputs a rows s' ∧ s'.key_valid = true ∧ s'.key_epoch = epoch := by
  obtain ⟨s₁, hgrow, hrest⟩ := Option.bind_eq_some_iff.mp h
  -- an allocation invalidates the key, otherwise nothing changes
  have hgrown : s₁.key_valid = true → s₁ = s := by
    intro hvalid
    rw [growScratch] at hgrow
    split_ifs at hgrow
    · obtain ⟨mem, -, rfl⟩ := Option.map_eq_some_iff.mp hgrow
      simp at hvalid
    · exact (Option.some.inj hgrow).symm
  by_cases hntile : s₁.ntile = numTiles a
  · simp only [hntile, ne_eq, not_true_eq_false, if_false] at hrest
    by_cases hmiss : (!s₁.key_valid || decide (s₁.key_epoch ≠ epoch) ||
        decide (s₁.key ≠ a.cacheKey)) = true
    · rw [if_pos (by simpa using hmiss)] at hrest
      obtain rfl := Option.some.inj hrest
      exact ⟨⟨rfl, rfl, coherent_clearTags _ _ _ _ _⟩, rfl, rfl⟩
    · rw [if_neg (by simpa using hmiss)] at hrest
      simp only [Bool.or_eq_true, decide_eq_true_eq, not_or, not_not, Bool.not_eq_true',
        Bool.not_eq_false] at hmiss
      obtain ⟨⟨hvalid, hepoch⟩, hkey⟩ := hmiss
      obtain rfl := hgrown hvalid
      obtain rfl := Option.some.inj hrest
      exact ⟨⟨hkey, rfl, hkept hvalid hepoch hkey hntile⟩, hvalid, hepoch⟩
  · simp only [ne_eq, hntile, not_false_eq_true, if_true, Bool.not_false, Bool.true_or] at hrest
    obtain rfl := Option.some.inj hrest
    exact ⟨⟨rfl, rfl, coherent_clearTags _ _ _ _ _⟩, rfl, rfl⟩

theorem getScratch_some (mem : Memory Cell) (a : FaArgs) (rows epoch : ℕ) (s : Scratch) :
    ∃ s', getScratch (some mem) a rows epoch s = some s' ∧ bufferOffset a rows 10 ≤ s'.bytes := by
  have hgrow : ∃ s₁, growScratch (some mem) (bufferOffset a rows 10) s = some s₁ ∧
      bufferOffset a rows 10 ≤ s₁.bytes := by
    rw [growScratch]
    split_ifs with htotal
    · exact ⟨_, rfl, le_rfl⟩
    · exact ⟨s, rfl, by omega⟩
  obtain ⟨s₁, hs₁, hbytes⟩ := hgrow
  simp only [getScratch, hs₁, Option.bind_eq_bind, Option.bind_some]
  split_ifs <;> exact ⟨_, rfl, hbytes⟩

theorem getScratch_hit (alloc : Option (Memory Cell)) {a : FaArgs} {rows epoch : ℕ} {s : Scratch}
    (hepoch : s.key_epoch = epoch) (hbytes : bufferOffset a rows 10 ≤ s.bytes) (hntile : s.ntile = numTiles a)
    (hvalid : s.key_valid = true) (hkey : s.key = a.cacheKey) :
    getScratch alloc a rows epoch s = some s := by
  have hgrow : growScratch alloc (bufferOffset a rows 10) s = some s := by
    rw [growScratch, if_neg (by omega)]
  simp [getScratch, hgrow, hntile, hvalid, hkey, hepoch]
  rw [← hntile, ← hvalid, ← hkey, ← hepoch]

end GetScratch

/-- The launches since the last call that used the cache, if there was one. -/
def gapAfter (gap : Option ℕ) : Event → Option ℕ
  | .beginLaunch _ => gap.map (· + 1)
  | .call call _ => if call.hasRows then some 0 else gap

/-- The launch counter has not come round to its value of the last call. -/
def EpochFresh (gap : Option ℕ) : Event → Prop
  | .beginLaunch _ => True
  | .call call _ => call.hasRows = true → ∀ n, gap = some n → n % 2 ^ 64 = 0 → n = 0

/-- Between two calls of a thread the number of launches is not a positive
multiple of `2 ^ 64`. -/
def EpochsDistinct : Option ℕ → List Event → Prop
  | _, [] => True
  | gap, e :: es => EpochFresh gap e ∧ EpochsDistinct (gapAfter gap e) es

def Thread.start (inputs : Inputs) : Thread := ⟨Scratch.zero, 1, inputs⟩

/-- The cache is coherent for the head and the inputs of the last call. -/
structure ThreadOk (gap : Option ℕ) (cached : Inputs) (th : Thread) : Prop where
  epoch_lt : th.launch_epoch < 2 ^ 64
  cache : th.scratch.key_valid = true → ∃ call : Call, call.supported = true ∧
    ScratchOk cached call.args call.rows th.scratch
  gap : th.scratch.key_valid = true → ∃ n, gap = some n ∧
    th.launch_epoch = (th.scratch.key_epoch + n) % 2 ^ 64 ∧ (n = 0 → th.inputs = cached)

section Threads

variable {inputs : Inputs} {call : Call} {alloc : Option (Memory Cell)} {s : Scratch}

theorem supported_dvd (h : call.supported = true) : 2 ∣ call.args.D := by
  have hchecks := of_decide_eq_true h
  have hdim : call.args.D = call.head_dim.toNat := rfl
  simp only [lanes] at hchecks
  omega

theorem Coherent.congr {key : CacheKey} {ntile : ℕ} {b b' : Buffers} {mem : Memory Cell}
    (hsame : b.Kp = b'.Kp ∧ b.Vp = b'.Vp ∧ b.tag = b'.tag) (h : Coherent inputs key ntile b mem) :
    Coherent inputs key ntile b' mem := by
  obtain ⟨hKp, hVp, htag⟩ := hsame
  intro slot hslot
  obtain ⟨t, hholds, htile⟩ := h slot hslot
  simp only [Buffers.tagAt, Buffers.kAt, Buffers.vAt, hKp, hVp, htag] at hholds htile ⊢
  exact ⟨t, hholds, htile⟩

theorem runs_task (hsup : call.supported = true) (hs : ScratchOk inputs call.args call.rows s) :
    Runs inputs call.args (buffers call.args call.rows) s.mem
      (taskActions call (buffers call.args call.rows)) := by
  have htiles := numTiles_spec call.args
  exact runs_flatMap (fun r0 _ mem hmem => runs_block
    (cacheLayout call.args call.rows (supported_dvd hsup))
    (Nat.lt_of_lt_of_le (Nat.succ_pos _) htiles) (Nat.le_of_succ_le htiles) _ _ r0 hmem) hs.coherent

theorem enterCall_spec {th : Thread} {gap : Option ℕ} {cached : Inputs}
    (hth : ThreadOk gap cached th) (hfresh : EpochFresh gap (.call call alloc))
    (hrows : call.hasRows = true) (h : enterCall th call alloc = some s) :
    ScratchOk th.inputs call.args call.rows s ∧ s.key_valid = true ∧
      s.key_epoch = th.launch_epoch := by
  refine getScratch_spec h fun hvalid hepoch hkey hntile => ?_
  obtain ⟨last, -, hlast⟩ := hth.cache hvalid
  obtain ⟨n, hgap, hlaunches, hinputs⟩ := hth.gap hvalid
  have hzero : n = 0 := by
    apply hfresh hrows n hgap
    have hlt := hth.epoch_lt
    omega
  have hsame : last.args.cacheKey = call.args.cacheKey := hlast.key.symm.trans hkey
  have hD : last.args.D = call.args.D := congrArg CacheKey.D hsame
  have htiles : numTiles last.args = numTiles call.args := hlast.ntile.symm.trans hntile
  have hcoherent := hlast.coherent
  rw [hsame, htiles] at hcoherent
  rw [hinputs hzero]
  exact hcoherent.congr (buffers_cache _ _ _ _ hD htiles)

theorem ThreadOk.step {th th' : Thread} {gap : Option ℕ} {cached : Inputs} {e : Event}
    (hth : ThreadOk gap cached th) (hfresh : EpochFresh gap e) (h : th.step e = some th') :
    ∃ cached', ThreadOk (gapAfter gap e) cached' th' := by
  cases e with
  | beginLaunch inputs =>
    obtain rfl := Option.some.inj h
    refine ⟨cached, Nat.mod_lt _ (Nat.two_pow_pos 64), hth.cache, fun hvalid => ?_⟩
    obtain ⟨n, rfl, hlaunches, -⟩ := hth.gap hvalid
    refine ⟨n + 1, rfl, ?_, fun hzero => absurd hzero (by omega)⟩
    simp only at hlaunches ⊢
    omega
  | call call alloc =>
    rw [Thread.step] at h
    by_cases hsup : call.supported = true
    · by_cases hrows : call.hasRows = true
      · simp only [hsup, hrows, Bool.not_true, Bool.false_eq_true, if_false] at h
        obtain ⟨s, henter, rfl⟩ := Option.map_eq_some_iff.mp h
        obtain ⟨hs, -, hepoch⟩ := enterCall_spec hth hfresh hrows henter
        refine ⟨th.inputs, hth.epoch_lt, fun _ => ?_, fun _ => ?_⟩
        · exact ⟨call, hsup, hs.key, hs.ntile, (runs_task hsup hs).coherent⟩
        · refine ⟨0, by rw [gapAfter, if_pos hrows], ?_, fun _ => rfl⟩
          have hlt := hth.epoch_lt
          simp only [hepoch]
          omega
      · simp only [Bool.not_eq_true] at hrows
        simp only [hsup, hrows, Bool.not_true, Bool.not_false, Bool.false_eq_true, if_false,
          if_true] at h
        obtain rfl := Option.some.inj h
        have hgap : gapAfter gap (.call call alloc) = gap := by simp [gapAfter, hrows]
        rw [hgap]
        exact ⟨cached, hth⟩
    · simp [hsup] at h

theorem ThreadOk.run {th th' : Thread} {gap : Option ℕ} {cached : Inputs} {es : List Event}
    {e : Event} {later : List Event} (hth : ThreadOk gap cached th)
    (hfresh : EpochsDistinct gap (es ++ e :: later)) (h : th.run es = some th') :
    ∃ gap' cached', ThreadOk gap' cached' th' ∧ EpochFresh gap' e := by
  induction es generalizing th gap cached with
  | nil =>
    obtain rfl := Option.some.inj h
    exact ⟨gap, cached, hth, hfresh.1⟩
  | cons e' es ih =>
    obtain ⟨th₁, hstep, hrun⟩ := Option.bind_eq_some_iff.mp h
    obtain ⟨cached', hth'⟩ := hth.step hfresh.1 hstep
    exact ih hth' hfresh.2 hrun

theorem threadOk_start (inputs : Inputs) : ThreadOk none inputs (Thread.start inputs) :=
  ⟨show 1 < 2 ^ 64 by omega, fun hvalid => absurd hvalid (by simp [Thread.start, Scratch.zero]),
    fun hvalid => absurd hvalid (by simp [Thread.start, Scratch.zero])⟩

/-- In every run without a launch counter that comes round, every call works on
a coherent cache throughout, and reads the tiles of its head. -/
theorem tileCache_coherent {before after : List Event} {th : Thread}
    (hepochs : EpochsDistinct none (before ++ .call call alloc :: after))
    (hrun : (Thread.start inputs).run before = some th) (hsup : call.supported = true)
    (hrows : call.hasRows = true) (henter : enterCall th call alloc = some s)
    {done rest : List Action} {act : Action}
    (hact : taskActions call (buffers call.args call.rows) = done ++ act :: rest) :
    Coherent th.inputs call.args.cacheKey (numTiles call.args) (buffers call.args call.rows)
      (done.foldl (perform th.inputs call.args (buffers call.args call.rows)) s.mem) ∧
    Served th.inputs call.args (buffers call.args call.rows)
      (done.foldl (perform th.inputs call.args (buffers call.args call.rows)) s.mem) act := by
  obtain ⟨gap, cached, hth, hfresh⟩ := (threadOk_start inputs).run hepochs hrun
  obtain ⟨hs, -, -⟩ := enterCall_spec hth hfresh hrows henter
  have hruns := runs_task hsup hs
  rw [hact] at hruns
  exact hruns.served

end Threads

def oneTile : Call where
  k := 0
  k_rs := 16
  v := 4096
  v_rs := 16
  row_start := 0
  num_rows := 16
  seqlen_q := 16
  seqlen_k := 16
  window_left := false
  window_right := false
  left_shift := 0
  right_shift := 0
  head_dim := 16

def freshMemory : Memory Cell := fun _ => none

def zeroInputs : Inputs := fun _ => 0

theorem taskActions_oneTile (b : Buffers) : taskActions oneTile b =
    startRows oneTile.args b 0 1 ++ chunkActions oneTile.args b 0 0 16 0 0 1 := by
  have hblocks : blockStarts oneTile = [0] := by decide +kernel
  have hchunks : chunkStarts oneTile.args oneTile.rend 0 = [0] := by decide +kernel
  rw [taskActions, hblocks, flatMap_singleton, blockActions, hchunks, flatMap_singleton]
  rfl

/-- The first call of a thread makes its tile resident. -/
theorem oneTile_resident : ∃ s rest,
    enterCall (Thread.start zeroInputs) oneTile (some freshMemory) = some s ∧
      taskActions oneTile (buffers oneTile.args oneTile.rows) =
        startRows oneTile.args (buffers oneTile.args oneTile.rows) 0 1 ++
          .ensureTiles 0 1 :: rest ∧
      Served zeroInputs oneTile.args (buffers oneTile.args oneTile.rows)
        ((startRows oneTile.args (buffers oneTile.args oneTile.rows) 0 1).foldl
          (perform zeroInputs oneTile.args (buffers oneTile.args oneTile.rows)) s.mem)
        (.ensureTiles 0 1) := by
  obtain ⟨s, hs, -⟩ := getScratch_some freshMemory oneTile.args oneTile.rows 1 Scratch.zero
  have htask := taskActions_oneTile (buffers oneTile.args oneTile.rows)
  exact ⟨s, _, hs, htask,
    (@tileCache_coherent zeroInputs oneTile (some freshMemory) s [] [] _
      ⟨fun _ n hn => absurd hn (by simp), trivial⟩ rfl (by decide) (by decide) hs _ _ _ htask).2⟩

theorem run_launches (th : Thread) (inputs : Inputs) (n : ℕ) (hlt : th.launch_epoch < 2 ^ 64) :
    th.run (List.replicate n (.beginLaunch inputs)) =
      some ⟨th.scratch, (th.launch_epoch + n) % 2 ^ 64, if n = 0 then th.inputs else inputs⟩ := by
  induction n generalizing th with
  | zero =>
    rw [replicate_zero, Thread.run, Nat.add_zero, Nat.mod_eq_of_lt hlt, if_pos rfl]
  | succ n ih =>
    rw [replicate_succ, Thread.run, Thread.step, Option.bind_some,
      ih _ (Nat.mod_lt _ (Nat.two_pow_pos 64)), if_neg (Nat.succ_ne_zero n)]
    simp only [Option.some.injEq, Thread.mk.injEq, true_and]
    constructor
    · omega
    · split_ifs <;> rfl

theorem run_launches_wrap (th : Thread) (inputs : Inputs) (hlt : th.launch_epoch < 2 ^ 64) :
    th.run (List.replicate (2 ^ 64) (.beginLaunch inputs)) =
      some ⟨th.scratch, th.launch_epoch, inputs⟩ := by
  obtain ⟨n, hn⟩ : ∃ n, n = 2 ^ 64 := ⟨_, rfl⟩
  rw [← hn, run_launches th inputs n hlt, if_neg (by omega)]
  simp only [Option.some.injEq, Thread.mk.injEq, true_and, and_true]
  omega

theorem kTile_head (value : ℕ) : (kTile (fun _ => value) oneTile.args.cacheKey 0).head? =
    some (value + 2 ^ 16 * value) := by
  rw [kTile, packRowsU32_eq]
  rfl

/-- After `2 ^ 64` launches the tile of the old inputs passes for the new one. -/
theorem oneTile_stale : ∃ th s,
    (Thread.start fun _ => 0).run (.call oneTile (some freshMemory) ::
      List.replicate (2 ^ 64) (.beginLaunch fun _ => 1)) = some th ∧
    enterCall th oneTile (some freshMemory) = some s ∧
    ¬ Coherent th.inputs oneTile.args.cacheKey (numTiles oneTile.args)
      (buffers oneTile.args oneTile.rows) s.mem := by
  obtain ⟨s, hs, hbytes⟩ := getScratch_some freshMemory oneTile.args oneTile.rows 1 Scratch.zero
  have henter : enterCall (Thread.start fun _ => 0) oneTile (some freshMemory) = some s := hs
  obtain ⟨hok, hvalid, hepoch⟩ := enterCall_spec (threadOk_start fun _ => 0)
    (fun _ n hn => absurd hn (by simp)) (by decide) henter
  have hlayout := cacheLayout oneTile.args oneTile.rows (supported_dvd (by decide))
  have htiles := numTiles_spec oneTile.args
  have hpos : 0 < numTiles oneTile.args := Nat.lt_of_lt_of_le (Nat.succ_pos _) htiles
  have hruns := runs_task (by decide) hok
  -- tile 0 of the zeros is in slot 0 when the first call returns
  obtain ⟨hstart, -⟩ := @runs_uses _ _ _ s.mem hlayout hpos 0 0 _
    (uses_startRows oneTile.args hlayout.others 0 1) hok.coherent
    fun t _ hlt => absurd hlt (by omega)
  have hresident := (runs_chunk hlayout hpos hstart.coherent 0 0 16 0 0 1
    (Nat.le_of_succ_le htiles)).2 0 (by decide) (by decide)
  rw [← foldl_append, ← taskActions_oneTile] at hresident
  have hcoherent := hruns.coherent
  obtain ⟨mem, hmem⟩ : ∃ mem, (taskActions oneTile (buffers oneTile.args oneTile.rows)).foldl
      (perform (Thread.start fun _ => 0).inputs oneTile.args
        (buffers oneTile.args oneTile.rows)) s.mem = mem := ⟨_, rfl⟩
  rw [hmem] at hresident hcoherent
  have hstep : (Thread.start fun _ => 0).step (.call oneTile (some freshMemory)) =
      some ⟨{ s with mem := mem }, 1, fun _ => 0⟩ := by
    have hsup : oneTile.supported = true := by decide
    have hrows : oneTile.hasRows = true := by decide
    simp only [Thread.step, hsup, hrows, henter, Bool.not_true, Bool.false_eq_true, if_false,
      Option.map_some, hmem]
    rfl
  refine ⟨⟨{ s with mem := mem }, 1, fun _ => 1⟩, { s with mem := mem }, ?_, ?_, ?_⟩
  · rw [Thread.run, hstep, Option.bind_some, run_launches_wrap _ _ (by simp)]
  · exact @getScratch_hit (some freshMemory) oneTile.args oneTile.rows 1 { s with mem := mem }
      hepoch hbytes hok.ntile hvalid hok.key
  · intro hfresh
    have hslot : 0 < numTiles oneTile.args := hpos
    obtain ⟨t, htag, htile⟩ := hfresh 0 hslot
    obtain ⟨u, htag', htile'⟩ := hcoherent 0 hslot
    have hmod : 0 % numTiles oneTile.args = 0 := Nat.zero_mod _
    rw [Resident, hmod] at hresident
    have ht : t = (0 : ℕ) := Cell.tag.inj (htag.eq hresident (by omega))
    have hu : u = (0 : ℕ) := Cell.tag.inj (htag'.eq hresident (by omega))
    have hsame := ((htile 0 ht).2.1).eq ((htile' 0 hu).2.1) (by decide)
    have hhead : (kTile (fun _ => 1) oneTile.args.cacheKey 0).head? =
        (kTile (fun _ => 0) oneTile.args.cacheKey 0).head? :=
      congrArg List.head? (Cell.words.inj hsame)
    rw [kTile_head, kTile_head] at hhead
    exact absurd hhead (by decide)

end TritonCpu.FlashAttention
