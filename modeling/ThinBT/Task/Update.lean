import ThinBT.Task.State
import Mathlib.Logic.Function.Basic

namespace ThinBT

-- The loop of `cmd_update` that reuses chunks of the old file.
structure Reuse (δ : Type) where
  files         : Files
  -- `old_chunk_index`, where a key that is not there has no candidates.
  oldChunkIndex : δ → List (UInt64 × UInt32)
  initBf        : List Bool
  matched       : UInt32 := 0
  matchedBytes  : UInt64 := 0

namespace Task

variable {δ : Type} [DecidableEq δ] (sha256 : List UInt8 → δ) (std : StdSort)

def oldIndexOf (oldChunks : List (ChunkEntry δ)) (key : δ) : List (UInt64 × UInt32) :=
  (oldChunks.filter (·.sha256 = key)).map fun c => (c.offset, c.length)

-- The candidate has the wanted length and `clone_range` succeeds. The operating system may refuse to
-- copy, and it does not copy more than there is.
def clonable (clones : UInt64 → Bool) (old : List UInt8) (length : UInt32)
    (cand : UInt64 × UInt32) : Bool :=
  cand.2 = length && clones cand.1 && cand.1.toNat + length.toNat ≤ old.length

-- The candidate that is cloned for a chunk, with the content of the old file.
def cloned (oldPath : String) (clones : Nat → UInt64 → Bool) (s : Reuse δ)
    (x : ChunkEntry δ × Nat) : Option (List UInt8 × (UInt64 × UInt32)) := do
  let old ← s.files oldPath
  let cand ← (s.oldChunkIndex x.1.sha256).find? (clonable (clones x.2) old x.1.length)
  return (old, cand)

-- The body of the loop for the chunk `x.1` with the index `x.2`.
def reuseChunk (oldPath newPath : String) (clones : Nat → UInt64 → Bool) (s : Reuse δ)
    (x : ChunkEntry δ × Nat) : Reuse δ :=
  match cloned oldPath clones s x with
  | none             => s
  | some (old, cand) =>
    let data := old.slice cand.1.toNat x.1.length.toNat
    { files         := Function.update s.files newPath
        ((s.files newPath).map (·.overwrite x.1.offset.toNat data))
      oldChunkIndex := Function.update s.oldChunkIndex x.1.sha256
        ((s.oldChunkIndex x.1.sha256).erase cand)
      initBf        := s.initBf.set x.2 true
      matched       := s.matched + 1
      matchedBytes  := s.matchedBytes + x.1.length.toUInt64 }

-- What `cmd_update` does before the loop. It scans the old file before it opens the new one.
def reuseStart (seed : TSeedFile δ) (newPath : String) (oldSeed : Option (TSeedFile δ))
    (oldPath : String) (files : Files) : Reuse δ where
  files         := Function.update files newPath
    (some (SegmentWriter.preallocate (files newPath) seed.fileSize))
  oldChunkIndex := oldIndexOf (FastCDC.scanFile sha256 (oldSeed.elim {} (·.config)) files oldPath)
  initBf        := seed.chunks.map fun _ => false

-- The chunks over which the loop runs, if there is an old file to scan.
def reuseChunks (seed : TSeedFile δ) (oldPath : String) : List (ChunkEntry δ × Nat) :=
  if oldPath = "" then [] else seed.chunks.zipIdx

def reuse (seed : TSeedFile δ) (newPath : String) (oldSeed : Option (TSeedFile δ))
    (oldPath : String) (files : Files) (clones : Nat → UInt64 → Bool) : Reuse δ :=
  Actions.exec (reuseChunk oldPath newPath clones)
    (reuseStart sha256 seed newPath oldSeed oldPath files) (reuseChunks seed oldPath)

-- `cmd_update`, where `clones` tells whether the operating system copies a range from an offset of the
-- old file for a chunk.
def cmdUpdate (seed : TSeedFile δ) (newPath : String) (oldSeed : Option (TSeedFile δ))
    (oldPath : String) (files : Files) (clones : Nat → UInt64 → Bool)
    (hardwareConcurrency speed : Nat) (order : List Nat) : Option (Task δ) := do
  let w ← SegmentWriter.openWriter seed.fileSize SegmentWriter.defaultSegmentSize
  let assemblers ← initAssemblers w seed.chunks
  let r := reuse sha256 seed newPath oldSeed oldPath files clones
  let file ← r.files newPath
  let σ := Scheduler.start seed.chunkCount speed (sizesOf seed)
  return {
    seed            := seed
    file            := file
    assemblers      := assemblers
    workers         := .replicate (ioThreads hardwareConcurrency) {}
    scheduler       := Scheduler.run std σ ([.randomizePieceOrder order] ++
      (if 0 < r.matched then [.markAllComplete r.initBf] else []) ++
      [.setCancelIssuer, .setNotInterestedIssuer])
    initialBitfield := r.initBf
    bytesDone       := r.matchedBytes
    state           := .downloading }

end Task
end ThinBT
