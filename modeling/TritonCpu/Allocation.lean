import Mathlib
import TritonCpu.Interval

/-!
# Shared-memory placement

`computeOffsets` places the representatives of the sharing groups and the
buffers outside any group: a packing over triples of an offset and a liveness
range, then first-fit colouring of the interference graph until no two placed
buffers interfere. The other members of a group are put at the offset of their
representative afterwards. Sizes and offsets are 64-bit; the `Interval`
constructor asserts its bounds, which stops a sum that wraps.
-/

set_option autoImplicit false

namespace TritonCpu.Allocation

inductive Halt where
  | assertionFailed (text : String)
  | undefinedBehaviour (text : String)
  | unfinished
  deriving DecidableEq, Repr

def sizeTBound : ℕ := 2 ^ 64

/-- A value of type `size_t`. -/
def toSizeT (n : ℕ) : ℕ := n % sizeTBound

def alignTo (value align : ℕ) : ℕ := toSizeT (value + align - 1) / align * align

structure BufferT where
  size : ℕ
  alignment : ℕ
  regionIds : List ℤ
  sharingGroup : ℤ
  live : Interval
  size_lt : size < sizeTBound
  alignment_pow : ∃ k < 64, alignment = 2 ^ k
  live_nonempty : live.start < live.stop

def makeInterval (start stop : ℕ) : Except Halt Interval :=
  if h : start ≤ stop then .ok ⟨start, stop, h⟩ else .error (.assertionFailed "Start <= End")

/-- The regions of two buffers as `buildInterferenceGraph` compares them. -/
def inDifferentRegion (a b : BufferT) : Bool :=
  if a.regionIds.isEmpty && b.regionIds.isEmpty then false
  else if a.regionIds.isEmpty || b.regionIds.isEmpty then true
  else a.regionIds.any fun t1 => b.regionIds.any fun t2 => t1 != t2

abbrev TripleMap := List (ℕ × Interval)

/-- Insertion into a `std::multimap`: after the entries of the same key. -/
def TripleMap.insert (key : ℕ) (range : Interval) : TripleMap → TripleMap
  | [] => [(key, range)]
  | entry :: rest =>
    if key < entry.1 then (key, range) :: entry :: rest
    else entry :: TripleMap.insert key range rest

def fullRange : Interval := ⟨0, sizeTBound - 1, by decide⟩

section Placement

variable {n : ℕ} (buffer : Fin n → BufferT)

abbrev Offsets (n : ℕ) := Fin n → ℕ

def setOffsetAligned (offset : Offsets n) (x : Fin n) (newOffset : ℕ) : Offsets n :=
  Function.update offset x (alignTo newOffset (buffer x).alignment)

/-- The end of a placed buffer, as `offset + size` computes it. -/
def endOf (offset : Offsets n) (x : Fin n) : ℕ := toSizeT (offset x + (buffer x).size)

/-- The buffer can use the triple and no remaining triple meets its liveness. -/
def fitsTriple (range : Interval) (tripleMap : TripleMap) (x : Fin n) : Bool :=
  (buffer x).live.intersects range &&
    tripleMap.all fun val => !val.2.intersects (buffer x).live

def insertIf (c : Prop) [Decidable c] (key start stop : ℕ) (tripleMap : TripleMap) :
    Except Halt TripleMap :=
  if c then do
    let range ← makeInterval start stop
    return TripleMap.insert key range tripleMap
  else return tripleMap

/-- The triples that stand for the erased one after `x` was placed on it. -/
def splitTriple (offset : ℕ) (range xRange : Interval) (top : ℕ) (tripleMap : TripleMap) :
    Except Halt TripleMap := do
  let placed ← makeInterval (max range.start xRange.start) (min range.stop xRange.stop)
  let tripleMap ← insertIf (range.start < xRange.start) offset range.start xRange.stop
    (TripleMap.insert top placed tripleMap)
  insertIf (xRange.stop < range.stop) offset xRange.start range.stop tripleMap

def calculateStartsLoop : ℕ → List (Fin n) → TripleMap → Offsets n → Except Halt (Offsets n)
  | _, [], _, offsets => .ok offsets
  | 0, _ :: _, _, _ => .error .unfinished
  | _ + 1, _ :: _, [], _ => .error (.undefinedBehaviour "*tripleMap.begin() of an empty map")
  | fuel + 1, x :: xs, (offset, range) :: tripleMap, offsets =>
    match (x :: xs).find? (fitsTriple buffer range tripleMap) with
    | none => calculateStartsLoop fuel (x :: xs) tripleMap offsets
    | some y => do
      let offsets := setOffsetAligned buffer offsets y offset
      let tripleMap ← splitTriple offset range (buffer y).live (endOf buffer offsets y) tripleMap
      calculateStartsLoop fuel ((x :: xs).erase y) tripleMap offsets

/-- Every turn erases a triple, and a turn that inserts up to three places a
buffer, so the turns are bounded. -/
def calculateStarts (buffers : List (Fin n)) (offsets : Offsets n) : Except Halt (Offsets n) :=
  calculateStartsLoop buffer (3 * buffers.length + 1) buffers [(0, fullRange)] offsets

abbrev Graph (n : ℕ) := List (Fin n × Fin n)

def Graph.neighbours (interference : Graph n) (x : Fin n) : List (Fin n) :=
  (interference.filter fun edge => edge.1 = x).map Prod.snd

def interferes (offsets : Offsets n) (x y : Fin n) : Except Halt Bool := do
  let xSizeRange ← makeInterval (offsets x) (endOf buffer offsets x)
  let ySizeRange ← makeInterval (offsets y) (endOf buffer offsets y)
  return ((buffer x).live.intersects (buffer y).live && xSizeRange.intersects ySizeRange) ||
    (inDifferentRegion (buffer x) (buffer y) && xSizeRange.intersects ySizeRange)

def interferenceEdges (offsets : Offsets n) : List (Fin n × Fin n) → Except Halt (Graph n)
  | [] => .ok []
  | (x, y) :: rest => do
    let edge ← interferes buffer offsets x y
    let edges ← interferenceEdges offsets rest
    return if edge then (x, y) :: edges else edges

def buildInterferenceGraph (buffers : List (Fin n)) (offsets : Offsets n) :
    Except Halt (Graph n) :=
  interferenceEdges buffer offsets
    ((buffers.product buffers).filter fun pair => pair.1 ≠ pair.2)

/-- First-fit colouring; `-1` marks a buffer without a colour. -/
def colorBuffers (buffers : List (Fin n)) (interference : Graph n) : Fin n → ℤ :=
  buffers.foldl (fun colors x =>
    let taken := (interference.neighbours x).map colors
    let color := (List.range buffers.length).find? fun c => !taken.contains (c : ℤ)
    Function.update colors x (color.getD buffers.length))
    fun x => if buffers.head? = some x then 0 else -1

structure Placed (n : ℕ) where
  offsets : Offsets n
  sharedMemorySize : ℕ

/-- One turn of the final loop of `allocate`. -/
def bump (interference : Graph n) (colors : Fin n → ℤ) (placed : Placed n) (x : Fin n) :
    Placed n :=
  let newOffset := (interference.neighbours x).foldl
    (fun m y => max m (endOf buffer placed.offsets y)) 0
  let offsets := if colors x ≠ 0 then setOffsetAligned buffer placed.offsets x newOffset
    else placed.offsets
  { offsets, sharedMemorySize := max placed.sharedMemorySize (endOf buffer offsets x) }

def allocate (buffers : List (Fin n)) (interference : Graph n) (offsets : Offsets n) :
    Placed n :=
  buffers.foldl (bump buffer interference (colorBuffers buffers interference))
    { offsets, sharedMemorySize := 0 }

/-- The `do … while` loop, with a bound on its turns. -/
def allocateLoop (buffers : List (Fin n)) : ℕ → Graph n → Offsets n → Except Halt (Placed n)
  | 0, _, _ => .error .unfinished
  | fuel + 1, interference, offsets => do
    let placed := allocate buffer buffers interference offsets
    let interference ← buildInterferenceGraph buffer buffers placed.offsets
    if interference = [] then return placed
    else allocateLoop buffers fuel interference placed.offsets

def groupMembers (group : ℤ) : List (Fin n) :=
  (List.finRange n).filter fun x => 0 ≤ group ∧ (buffer x).sharingGroup = group

/-- The first member whose size exceeds the sizes before it and zero; a null
pointer when every member is empty. -/
def sharingIdToRep (group : ℤ) : Option (Fin n) :=
  ((groupMembers buffer group).foldl (fun best x =>
    if (buffer x).size > best.1 then ((buffer x).size, some x) else best) (0, none)).2

def groupIds : List ℤ :=
  (((List.finRange n).map fun x => (buffer x).sharingGroup).filter (0 ≤ ·)).dedup

/-- The buffers that are placed: representatives and those outside any group. -/
def placedBuffers : List (Fin n) :=
  (List.finRange n).filter fun x =>
    (buffer x).sharingGroup < 0 ∨ sharingIdToRep buffer (buffer x).sharingGroup = some x

def setSharing (offsets : Offsets n) (x : Fin n) : Except Halt (Offsets n) :=
  match sharingIdToRep buffer (buffer x).sharingGroup with
  | none => .error (.undefinedBehaviour "rep->offset of a null representative")
  | some rep =>
    .ok (if x ≠ rep then setOffsetAligned buffer offsets x (offsets rep) else offsets)

def computeOffsets (fuel : ℕ) (offsets : Offsets n) : Except Halt (Placed n) := do
  let buffers := placedBuffers buffer
  let offsets ← calculateStarts buffer buffers offsets
  let interference ← buildInterferenceGraph buffer buffers offsets
  let placed ← allocateLoop buffer buffers fuel interference offsets
  let offsets ← ((groupIds buffer).flatMap (groupMembers buffer)).foldlM (setSharing buffer)
    placed.offsets
  return { placed with offsets }

end Placement

end TritonCpu.Allocation
