import ThinBT.Util.Bytes
import Mathlib.Data.Nat.Basic
import Mathlib.Algebra.Ring.Nat

namespace ThinBT

-- The digests of SHA-256 are the elements of a type `δ`.
structure ChunkEntry (δ : Type) where
  offset : UInt64
  length : UInt32
  sha256 : δ
  deriving DecidableEq, Repr

structure FastCDCConfig where
  minSize : UInt32 := 16 * 1024
  avgSize : UInt32 := 128 * 1024
  maxSize : UInt32 := 1024 * 1024
  deriving DecidableEq, Repr

-- A seed file as `read_tseed` returns it. The header's `chunk_count` is the number of chunks.
structure TSeedFile (δ : Type) where
  fileSize : UInt64
  -- The fields `min_chunk_size`, `avg_chunk_size` and `max_chunk_size` of the header.
  config   : FastCDCConfig
  chunks   : List (ChunkEntry δ)
  countLt  : chunks.length < 2 ^ 32
  deriving DecidableEq

namespace TSeedFile

def chunkCount (seed : TSeedFile δ) : UInt32 :=
  .ofNat seed.chunks.length

theorem toNat_chunkCount {seed : TSeedFile δ} : seed.chunkCount.toNat = seed.chunks.length :=
  UInt32.toNat_ofNat_of_lt' seed.countLt

end TSeedFile

-- The bytes of a file that a chunk entry describes.
def ChunkEntry.bytes (e : ChunkEntry δ) (file : List UInt8) : List UInt8 :=
  file.slice e.offset.toNat e.length.toNat

def ChunkEntry.Disjoint (e f : ChunkEntry δ) : Prop :=
  e.offset.toNat + e.length.toNat ≤ f.offset.toNat ∨ f.offset.toNat + f.length.toNat ≤ e.offset.toNat

instance {e f : ChunkEntry δ} : Decidable (e.Disjoint f) :=
  inferInstanceAs (Decidable (_ ∨ _))

-- The chunks partition the file.
structure TSeedFile.Partitioned (seed : TSeedFile δ) : Prop where
  positive : ∀ e ∈ seed.chunks, 0 < e.length.toNat
  inside   : ∀ e ∈ seed.chunks, e.offset.toNat + e.length.toNat ≤ seed.fileSize.toNat
  disjoint : seed.chunks.Pairwise ChunkEntry.Disjoint
  covers   : ∀ p < seed.fileSize.toNat, ∃ e ∈ seed.chunks,
    e.offset.toNat ≤ p ∧ p < e.offset.toNat + e.length.toNat

end ThinBT
