import ThinBT.Common.Platform
import ThinBT.Seed.TSeed

namespace ThinBT

abbrev Sha256Digest :=
  { bytes : List UInt8 // bytes.length = 32 }

structure TSeedHeader where
  magic        : UInt32
  version      : UInt16
  flags        : UInt16
  chunkCount   : UInt32
  fileSize     : UInt64
  minChunkSize : UInt32
  avgChunkSize : UInt32
  maxChunkSize : UInt32
  fileNameLen  : UInt32
  announceLen  : UInt32
  reserved     : { bytes : List UInt8 // bytes.length = 20 }
  fileSha256   : Sha256Digest
  deriving DecidableEq

namespace TSeedHeader

-- MAGIC
def magicNumber : UInt32 :=
  0x54425344

def toHostEndian (h : TSeedHeader) : TSeedHeader :=
  { h with
    magic        := ntoh32 h.magic
    version      := ntoh16 h.version
    flags        := ntoh16 h.flags
    chunkCount   := ntoh32 h.chunkCount
    fileSize     := ntoh64 h.fileSize
    minChunkSize := ntoh32 h.minChunkSize
    avgChunkSize := ntoh32 h.avgChunkSize
    maxChunkSize := ntoh32 h.maxChunkSize
    fileNameLen  := ntoh32 h.fileNameLen
    announceLen  := ntoh32 h.announceLen }

def toNetworkEndian (h : TSeedHeader) : TSeedHeader :=
  { h with
    magic        := hton32 h.magic
    version      := hton16 h.version
    flags        := hton16 h.flags
    chunkCount   := hton32 h.chunkCount
    fileSize     := hton64 h.fileSize
    minChunkSize := hton32 h.minChunkSize
    avgChunkSize := hton32 h.avgChunkSize
    maxChunkSize := hton32 h.maxChunkSize
    fileNameLen  := hton32 h.fileNameLen
    announceLen  := hton32 h.announceLen }

open Codec in
-- The packed struct in memory.
def image : Codec TSeedHeader :=
  (u32.prod <| u16.prod <| u16.prod <| u32.prod <| u64.prod <| u32.prod <| u32.prod <| u32.prod <|
    u32.prod <| u32.prod <| (raw 20).prod (raw 32)).imap {
      toFun     := fun x => ⟨x.1, x.2.1, x.2.2.1, x.2.2.2.1, x.2.2.2.2.1, x.2.2.2.2.2.1,
        x.2.2.2.2.2.2.1, x.2.2.2.2.2.2.2.1, x.2.2.2.2.2.2.2.2.1, x.2.2.2.2.2.2.2.2.2.1,
        x.2.2.2.2.2.2.2.2.2.2.1, x.2.2.2.2.2.2.2.2.2.2.2⟩
      invFun    := fun h => (h.magic, h.version, h.flags, h.chunkCount, h.fileSize, h.minChunkSize,
        h.avgChunkSize, h.maxChunkSize, h.fileNameLen, h.announceLen, h.reserved, h.fileSha256)
      left_inv  := fun _ => rfl
      right_inv := fun _ => rfl }

end TSeedHeader

namespace ChunkEntry

def toHostEndian (c : ChunkEntry Sha256Digest) : ChunkEntry Sha256Digest :=
  { c with offset := ntoh64 c.offset, length := ntoh32 c.length }

def toNetworkEndian (c : ChunkEntry Sha256Digest) : ChunkEntry Sha256Digest :=
  { c with offset := hton64 c.offset, length := hton32 c.length }

-- The packed struct in memory.
def image : Codec (ChunkEntry Sha256Digest) :=
  (Codec.u64.prod (Codec.u32.prod (Codec.raw 32))).imap {
    toFun     := fun x => ⟨x.1, x.2.1, x.2.2⟩
    invFun    := fun c => (c.offset, c.length, c.sha256)
    left_inv  := fun _ => rfl
    right_inv := fun _ => rfl }

end ChunkEntry

-- All that `read_tseed` returns, where the digests of SHA-1 are the elements of a type `η`.
structure TSeedContents (η : Type) where
  header      : TSeedHeader
  fileName    : List UInt8
  announceUrl : List UInt8
  chunks      : List (ChunkEntry Sha256Digest)
  infoHash    : η
  deriving DecidableEq

-- The part of a seed that the tasks work with.
def TSeedContents.seedFile (t : TSeedContents η) (h : t.chunks.length < 2 ^ 32) :
    TSeedFile Sha256Digest where
  fileSize := t.header.fileSize
  config   := ⟨t.header.minChunkSize, t.header.avgChunkSize, t.header.maxChunkSize⟩
  chunks   := t.chunks
  countLt  := h

-- The bytes that `compute_info_hash` hashes.
def infoHashInput (fileSha256 : Sha256Digest) (chunks : List (ChunkEntry Sha256Digest)) : List UInt8 :=
  fileSha256.val ++ chunks.flatMap fun c =>
    Codec.u64.write (hton64 c.offset) ++ Codec.u32.write (hton32 c.length) ++ c.sha256.val

section Reader

variable {η : Type} (sha1 : List UInt8 → η) (sha256Hex : List UInt8 → String)

def readExact (c : Codec α) (bytes : List UInt8) : Except String (α × List UInt8) :=
  match c.read bytes with
  | none   => .error "Failed to read .tseed: unexpected EOF"
  | some x => .ok x

-- A raw magic number that is right stands for a file in host byte order.
def needsSwap (raw : TSeedHeader) : Bool :=
  raw.magic != TSeedHeader.magicNumber

def checkHeader (header : TSeedHeader) : Except String Unit :=
  if header.magic ≠ TSeedHeader.magicNumber then
    throw ("Invalid .tseed magic number: 0x" ++
      String.ofList ((sha256Hex (Codec.u32.write header.magic)).toList.take 8))
  else if header.version < 1 ∨ 4 < header.version then
    throw ("Unsupported .tseed version: " ++ toString header.version.toNat)
  else return ()

-- Whether the numbers of the file have to be swapped, the header and the rest of the file.
def readHeader (bytes : List UInt8) : Except String (Bool × TSeedHeader × List UInt8) := do
  let raw ← readExact TSeedHeader.image bytes
  let header := if needsSwap raw.1 then raw.1.toHostEndian else raw.1
  checkHeader sha256Hex header
  return (needsSwap raw.1, header, raw.2)

def readChunks (swap : Bool) :
    Nat → List UInt8 → Except String (List (ChunkEntry Sha256Digest) × List UInt8)
  | 0, bytes     => return ([], bytes)
  | n + 1, bytes => do
    let x ← readExact ChunkEntry.image bytes
    let y ← readChunks swap n x.2
    return ((if swap then x.1.toHostEndian else x.1) :: y.1, y.2)

-- `read_tseed` on the contents of a file, with the bytes that it does not consume.
def parseTseed (bytes : List UInt8) : Except String (TSeedContents η × List UInt8) := do
  let h ← readHeader sha256Hex bytes
  let name ← readExact (Codec.raw h.2.1.fileNameLen.toNat) h.2.2
  let url ← readExact (Codec.raw h.2.1.announceLen.toNat) name.2
  let cs ← readChunks h.1 h.2.1.chunkCount.toNat url.2
  return ({
    header      := h.2.1
    fileName    := name.1.val
    announceUrl := url.1.val
    chunks      := cs.1
    infoHash    := sha1 (infoHashInput h.2.1.fileSha256 cs.1) }, cs.2)

def readTseed (files : String → Option (List UInt8)) (path : String) :
    Except String (TSeedContents η) :=
  match files path with
  | none       => .error ("Cannot open .tseed: " ++ path)
  | some bytes => (parseTseed sha1 sha256Hex bytes).map (·.1)

end Reader

section Writer

-- The loop of `write_tseed` over the ends of the chunks.
def totalFileSize (chunks : List (ChunkEntry δ)) : UInt64 :=
  chunks.foldl (fun total c =>
    let chunkEnd := c.offset + c.length.toUInt64
    if total < chunkEnd then chunkEnd else total) 0

-- The header that `write_tseed` builds, in host byte order.
def tseedHeader (fileDigest : Sha256Digest) (fileName announceUrl : List UInt8)
    (chunks : List (ChunkEntry Sha256Digest)) (config : FastCDCConfig) : TSeedHeader where
  magic        := TSeedHeader.magicNumber
  version      := 1
  flags        := 0
  chunkCount   := .ofNat chunks.length
  fileSize     := totalFileSize chunks
  minChunkSize := config.minSize
  avgChunkSize := config.avgSize
  maxChunkSize := config.maxSize
  fileNameLen  := .ofNat fileName.length
  announceLen  := .ofNat announceUrl.length
  reserved     := ⟨.replicate 20 0, rfl⟩
  fileSha256   := fileDigest

-- What `write_tseed` writes, where `fileDigest` is the digest of the source file.
def writeTseed (fileDigest : Sha256Digest) (fileName announceUrl : List UInt8)
    (chunks : List (ChunkEntry Sha256Digest)) (config : FastCDCConfig) : List UInt8 :=
  TSeedHeader.image.write
      (tseedHeader fileDigest fileName announceUrl chunks config).toNetworkEndian ++
    fileName ++ announceUrl ++ chunks.flatMap (ChunkEntry.image.write ·.toNetworkEndian)

end Writer
end ThinBT
