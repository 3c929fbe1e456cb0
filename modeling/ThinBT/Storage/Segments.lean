import ThinBT.Storage.SegmentWriter
import ThinBT.Util.Machine
import Mathlib.Logic.Function.Basic

namespace ThinBT

-- A region of memory that shows a part of the output file.
structure Mapping where
  addr   : Nat
  size   : Nat
  offset : Nat
  deriving DecidableEq, Repr

namespace Mapping

def Disjoint (m m' : Mapping) : Prop :=
  m.addr + m.size ≤ m'.addr ∨ m'.addr + m'.size ≤ m.addr

-- The addresses from `p` on show the file from `offset` on, for so many bytes.
structure Shows (m : Mapping) (p offset size : Nat) : Prop where
  inside  : m.addr ≤ p
  covered : p + size ≤ m.addr + m.size
  shown   : m.offset + (p - m.addr) = offset

end Mapping

-- `mmap` is assumed to succeed. The operating system chooses an address that is not null, and it does
-- not put a region where there is another one.
structure Mmap where
  place    : List Mapping → Nat → Nat
  pos      : ∀ memory size, 0 < place memory size
  disjoint : ∀ memory size, ∀ m ∈ memory,
    m.addr + m.size ≤ place memory size ∨ place memory size + size ≤ m.addr

-- Behind everything that is mapped.
def Mmap.next : Mmap where
  place memory _          := (memory.map fun m => m.addr + m.size).foldr max 1
  pos memory _            := by
    induction memory
    case nil          => exact Nat.one_pos
    case cons m ms hi => exact Nat.lt_of_lt_of_le hi (Nat.le_max_right ..)
  disjoint memory _ m hm := by
    refine .inl ?_
    induction memory
    case nil           => cases hm
    case cons m' ms hi =>
      cases List.mem_cons.mp hm
      case inl h => exact h ▸ Nat.le_max_left ..
      case inr h => exact Nat.le_trans (hi h) (Nat.le_max_right ..)

structure MappedSeg where
  data : Nat
  size : UInt64
  deriving DecidableEq, Repr

-- The part of a `SegmentWriter` that changes.
structure Segments where
  mappedSegments : UInt32 → Option MappedSeg := fun _ => none
  -- UINT32_MAX
  cachedSegIdx   : UInt32 := 0xffffffff
  -- A pointer to an element of `mapped_segments_`, which is given by the element's key. The elements
  -- of an `unordered_map` stay where they are.
  cachedSeg      : Option UInt32 := none
  memory         : List Mapping := []

namespace Segments

variable (os : Mmap) (w : SegmentWriter)

def mapSegment (s : Segments) (segIdx : UInt32) : Segments :=
  let mapSize := w.mapSize segIdx
  let data := os.place s.memory mapSize.toNat
  { s with
    mappedSegments := Function.update s.mappedSegments segIdx (some ⟨data, mapSize⟩)
    memory         := ⟨data, mapSize.toNat, (segIdx.toUInt64 * w.segmentSize).toNat⟩ :: s.memory }

-- The part of `get_chunk_base` that finds the segment. It is undefined if a null pointer or the end of
-- the map is dereferenced.
def findSegment (s : Segments) (segIdx : UInt32) : Option (MappedSeg × Segments) :=
  if segIdx = s.cachedSegIdx then
    (s.cachedSeg.bind s.mappedSegments).map (·, s)
  else
    let s := if (s.mappedSegments segIdx).isNone then s.mapSegment os w segIdx else s
    (s.mappedSegments segIdx).map fun seg =>
      (seg, { s with cachedSegIdx := segIdx, cachedSeg := some segIdx })

-- `get_chunk_base`, which returns an address or null.
def getChunkBase (s : Segments) (chunkOffset : UInt64) (chunkSize : UInt32) :
    Option (Option Nat × Segments) :=
  if w.fileSize < chunkOffset + chunkSize.toUInt64 then some (none, s)
  else if maxChunkSize < chunkSize.toUInt64 then some (none, s)
  else
    let segIdx := (chunkOffset / w.segmentSize).toUInt32
    if w.segmentCount ≤ segIdx then some (none, s)
    else do
      let (seg, s) ← s.findSegment os w segIdx
      let offsetInSeg := chunkOffset - segIdx.toUInt64 * w.segmentSize
      if seg.size < offsetInSeg + chunkSize.toUInt64 then return (none, s)
      else return (some (seg.data + offsetInSeg.toNat), s)

-- A call of `get_chunk_base`.
def step (s : Segments) (call : UInt64 × UInt32) : Option Segments :=
  (s.getChunkBase os w call.1 call.2).map (·.2)

end Segments
end ThinBT
