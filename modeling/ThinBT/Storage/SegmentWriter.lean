import ThinBT.Util.Bytes
import Mathlib.Data.Nat.Basic

namespace ThinBT

-- MAX_CHUNK_SIZE
def maxChunkSize : UInt64 :=
  1024 * 1024

structure SegmentWriter where
  fileSize     : UInt64
  segmentSize  : UInt64
  segmentCount : UInt32
  deriving DecidableEq, Repr

namespace SegmentWriter

-- The default argument of `open`.
def defaultSegmentSize : UInt64 :=
  64 * 1024 * 1024

-- `open`, where the operating system is assumed to succeed.
def openWriter (fileSize segmentSize : UInt64) : Option SegmentWriter :=
  if fileSize = 0 then none
  else
    let segmentSize := if segmentSize < maxChunkSize then maxChunkSize else segmentSize
    some {
      fileSize     := fileSize
      segmentSize  := segmentSize
      segmentCount := ((fileSize + segmentSize - 1) / segmentSize).toUInt32 }

-- The content of the output file after `open`: an existing file is kept if its size matches.
def preallocate (existing : Option (List UInt8)) (fileSize : UInt64) : List UInt8 :=
  match existing with
  | some file => if file.length = fileSize.toNat then file else .replicate fileSize.toNat 0
  | none      => .replicate fileSize.toNat 0

-- The size of the mapping that `map_segment` makes. Segments are mapped once and stay mapped.
def mapSize (w : SegmentWriter) (segIdx : UInt32) : UInt64 :=
  min (w.segmentSize + maxChunkSize) (w.fileSize - segIdx.toUInt64 * w.segmentSize)

-- The file offset that the address returned by `get_chunk_base` stands for.
def getChunkBase (w : SegmentWriter) (chunkOffset : UInt64) (chunkSize : UInt32) : Option Nat :=
  if w.fileSize < chunkOffset + chunkSize.toUInt64 then none
  else if maxChunkSize < chunkSize.toUInt64 then none
  else
    let segIdx := (chunkOffset / w.segmentSize).toUInt32
    if w.segmentCount ≤ segIdx then none
    else
      let segStart := segIdx.toUInt64 * w.segmentSize
      let offsetInSeg := chunkOffset - segStart
      if w.mapSize segIdx < offsetInSeg + chunkSize.toUInt64 then none
      else some (segStart.toNat + offsetInSeg.toNat)

theorem length_preallocate {n : UInt64} : (preallocate existing n).length = n.toNat := by
  unfold preallocate
  split
  case h_2 => exact List.length_replicate
  case h_1 =>
    split
    case isTrue h => exact h
    case isFalse  => exact List.length_replicate

theorem mapSize_le (w : SegmentWriter) (segIdx : UInt32) :
    w.mapSize segIdx ≤ w.segmentSize + maxChunkSize :=
  Std.min_le_left

-- Neither the sum of offset and size nor the segment index of an accepted chunk has wrapped around.
theorem getChunkBase_spec {n : UInt64} (ho : openWriter n defaultSegmentSize = some w)
    (h : w.getChunkBase off size = some base) :
    base = off.toNat ∧ off.toNat + size.toNat ≤ n.toNat ∧ size.toNat ≤ 1024 * 1024 := by
  have hm : maxChunkSize.toNat = 1048576 := by decide
  have hd : defaultSegmentSize.toNat = 67108864 := by decide
  have hw : w.fileSize = n ∧ w.segmentSize = defaultSegmentSize := by
    unfold openWriter at ho
    split at ho
    case isTrue  => cases ho
    case isFalse => cases ho; exact ⟨rfl, rfl⟩
  have ⟨hf, hs⟩ := hw
  simp only [getChunkBase, hf, hs] at h
  split at h
  case isTrue => cases h
  case isFalse hfit =>
    split at h
    case isTrue => cases h
    case isFalse hsz =>
      split at h
      case isTrue => cases h
      case isFalse hc =>
        split at h
        case isTrue => cases h
        case isFalse hmap =>
          have hb := Option.some.inj h
          simp only [UInt64.not_lt, UInt32.not_le, UInt64.le_iff_toNat_le, UInt32.lt_iff_toNat_lt,
            UInt64.toNat_add, UInt64.toNat_sub, UInt64.toNat_mul, UInt64.toNat_div,
            UInt32.toNat_toUInt64, UInt64.toNat_toUInt32, hm, hd] at hfit hsz hc hmap hb
          have hx := w.mapSize_le (off / defaultSegmentSize).toUInt32
          rw [hs, UInt64.le_iff_toNat_le, UInt64.toNat_add, hm, hd] at hx
          have := off.toNat_lt
          have := size.toNat_lt
          have := w.segmentCount.toNat_lt
          omega

end SegmentWriter
end ThinBT
