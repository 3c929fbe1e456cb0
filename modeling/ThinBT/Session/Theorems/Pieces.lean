import ThinBT.Task.Theorems.Layout
import ThinBT.Session.PeerSession

namespace ThinBT

section Bytes

variable {δ : Type} {e : ChunkEntry δ} {source file : List UInt8}

-- The last sub-block of a chunk may be shorter than the others.
def ChunkEntry.subLength (e : ChunkEntry δ) (s : Nat) : Nat :=
  min subBlockSize (e.length.toNat - s * subBlockSize)

-- The file and the source have the same bytes in a sub-block of the chunk.
def ChunkEntry.HasSubBlock (e : ChunkEntry δ) (source file : List UInt8) (s : Nat) : Prop :=
  file.slice (e.offset.toNat + s * subBlockSize) (e.subLength s) =
    source.slice (e.offset.toNat + s * subBlockSize) (e.subLength s)

theorem ChunkEntry.bytes_eq_of_hasSubBlock
    (h : ∀ s, s * subBlockSize < e.length.toNat → e.HasSubBlock source file s) :
    e.bytes file = e.bytes source :=
  List.slice_eq_slice_of_blocks (by decide) h

theorem ChunkEntry.hasSubBlock_of_bytes_eq (h : e.bytes file = e.bytes source)
    (hs : s * subBlockSize < e.length.toNat) : e.HasSubBlock source file s := by
  refine List.slice_eq_slice_of_le h (Nat.le_add_right ..) ?_
  rw [subLength]
  omega

-- What a peer sends for a sub-block: as many bytes as its file has there.
structure Measured (source : List UInt8) (e : ChunkEntry δ) (s : Nat) (begin : UInt32)
    (data : List UInt8) : Prop where
  begins : begin.toNat = s * subBlockSize
  inside : s * subBlockSize < e.length.toNat
  length : data.length = min subBlockSize (source.length - (e.offset.toNat + s * subBlockSize))

-- What a peer that has the chunk sends. The bytes that follow the chunk in its file may be wrong.
structure Honest (source : List UInt8) (e : ChunkEntry δ) (s : Nat) (begin : UInt32)
    (data : List UInt8) : Prop extends Measured source e s begin data where
  bytes  : data.take (e.subLength s) =
    source.slice (e.offset.toNat + s * subBlockSize) (e.subLength s)

variable {data : List UInt8}

theorem Measured.length_le (h : Measured source e s begin data) : data.length ≤ subBlockSize :=
  h.length ▸ Nat.min_le_left ..

-- A piece that stays inside of the chunk is the sub-block.
theorem Honest.eq_subBlock (h : Honest source e s begin data)
    (hf : e.offset.toNat + e.length.toNat ≤ source.length)
    (hc : s * subBlockSize + data.length ≤ e.length.toNat) :
    data.length = e.subLength s ∧
      data = source.slice (e.offset.toNat + s * subBlockSize) data.length := by
  have hl : data.length = e.subLength s := by
    have := h.length
    have := h.inside
    rw [ChunkEntry.subLength]
    omega
  refine ⟨hl, ?_⟩
  rw [hl, ← h.bytes, ← hl, List.take_length]

-- Writing the piece stores the sub-block and keeps everything else that is the same already.
theorem Honest.hasSubBlock_overwrite (h : Honest source e s begin data)
    (hl : file.length = source.length) (hf : e.offset.toNat + e.length.toNat ≤ source.length)
    (hc : s * subBlockSize + data.length ≤ e.length.toNat) :
    e.HasSubBlock source (file.overwrite (e.offset.toNat + s * subBlockSize) data) s := by
  have ⟨hn, hd⟩ := h.eq_subBlock hf hc
  rw [ChunkEntry.HasSubBlock, ← hn, List.slice_overwrite_self (by omega)]
  exact hd

theorem Honest.slice_overwrite (h : Honest source e s begin data)
    (hl : file.length = source.length) (hf : e.offset.toNat + e.length.toNat ≤ source.length)
    (hc : s * subBlockSize + data.length ≤ e.length.toNat)
    (hs : file.slice p n = source.slice p n) :
    (file.overwrite (e.offset.toNat + s * subBlockSize) data).slice p n = source.slice p n :=
  List.slice_overwrite_of_part hl (h.eq_subBlock hf hc).right hs

end Bytes

section Requests

variable {δ : Type} {seed : TSeedFile δ} {source file : List UInt8} {sha256 : List UInt8 → δ}
variable {e : ChunkEntry δ}

-- A request is for a sub-block of a chunk.
structure Asks (seed : TSeedFile δ) (e : ChunkEntry δ) (s : Nat) (index begin length : UInt32) :
    Prop where
  chunk  : seed.chunks[index.toNat]? = some e
  begins : begin.toNat = s * subBlockSize
  inside : s * subBlockSize < e.length.toNat
  len    : length.toNat = subBlockSize

-- A read is for a sub-block of a chunk.
structure ReadJob.Reads (seed : TSeedFile δ) (e : ChunkEntry δ) (s : Nat) (j : ReadJob) : Prop where
  chunk  : seed.chunks[j.index.toNat]? = some e
  begins : j.begin.toNat = s * subBlockSize
  inside : s * subBlockSize < e.length.toNat
  off    : j.off.toNat = e.offset.toNat + s * subBlockSize
  len    : j.len.toNat = subBlockSize

theorem asks_ofNat {c : Nat} (he : seed.chunks[c]? = some e)
    (hs : s * subBlockSize < e.length.toNat) :
    Asks seed e s (.ofNat c) (.ofNat (s * subBlockSize)) (.ofNat subBlockSize) where
  chunk  := by
    have hc := Nat.lt_trans (List.getElem?_eq_some_iff.mp he).choose seed.countLt
    rwa [UInt32.toNat_ofNat_of_lt' hc]
  begins := UInt32.toNat_ofNat_of_lt' (Nat.lt_trans hs e.length.toNat_lt)
  inside := hs
  len    := rfl

theorem Asks.reads {p : PeerSession} (h : Asks seed e s index begin length)
    (hs : seed.SeedOf sha256 source)
    (hj : p.handleRequestMsg (seed.chunks.map (·.offset)) index begin length = some j) :
    j.Reads seed e s := by
  have hf := (hs.tiles.describes (List.mem_of_getElem? h.chunk)).fits
  have hn : source.length < 2 ^ 64 := hs.fileSize ▸ seed.fileSize.toNat_lt
  have hlt := h.inside
  have ho : (seed.chunks.map (·.offset)).getD index.toNat (index.toUInt64 * 131072) = e.offset := by
    rw [List.getD_eq_getElem?_getD, List.getElem?_map, h.chunk]
    rfl
  rw [PeerSession.handleRequestMsg_eq_some hj]
  refine ⟨h.chunk, h.begins, h.inside, ?_, h.len⟩
  rw [ho, UInt64.toNat_add, UInt32.toNat_toUInt64, h.begins, Nat.mod_eq_of_lt (by omega)]

theorem ReadJob.Reads.measured {j : ReadJob} (h : j.Reads seed e s) (hl : file.length = source.length) :
    Measured source e s j.begin (j.pread file) where
  begins := h.begins
  inside := h.inside
  length := by rw [ReadJob.pread, List.slice, List.length_take, List.length_drop, h.off, h.len, hl]

theorem ReadJob.Reads.honest {j : ReadJob} (h : j.Reads seed e s) (hl : file.length = source.length)
    (hb : e.bytes file = e.bytes source) : Honest source e s j.begin (j.pread file) where
  toMeasured := h.measured hl
  bytes      := by
    have hm : min (e.subLength s) subBlockSize = e.subLength s := Nat.min_eq_left (Nat.min_le_left ..)
    rw [ReadJob.pread, h.off, h.len, List.slice, List.take_take, hm]
    exact ChunkEntry.hasSubBlock_of_bytes_eq hb h.inside

end Requests

namespace ChunkAssembler

variable {δ : Type} {e : ChunkEntry δ} {a : ChunkAssembler} {source data : List UInt8}

-- The check of `on_piece` does not overflow on pieces of the right size.
theorem Assembles.accepts_iff (ha : a.Assembles e n) (hb : a.base = some b)
    (h : Measured source e s begin data) :
    a.accepts begin (.ofNat data.length) ↔ s * ThinBT.subBlockSize + data.length ≤ e.length.toNat := by
  have hm := (ha.base_eq hb).right.right
  have hl : data.length ≤ 16384 := h.length_le
  have hs := h.inside
  have hn : (UInt32.ofNat data.length).toNat = data.length := UInt32.toNat_ofNat_of_lt' (by
    rw [UInt32.size]
    omega)
  rw [accepts, hb, ha.chunkSize, Option.isSome_some, Bool.true_and, decide_eq_true_iff,
    UInt32.le_iff_toNat_le, UInt32.toNat_add, hn, h.begins, Nat.mod_eq_of_lt (by omega)]

-- The sub-blocks of a chunk are the slots of its assembler.
theorem Assembles.lt_totalSlots_iff (ha : a.Assembles e n) (hm : e.length.toNat ≤ 1024 * 1024) :
    s < a.totalSlots.toNat ↔ s * ThinBT.subBlockSize < e.length.toNat := by
  have hb : (UInt32.ofNat ThinBT.subBlockSize).toNat = 16384 := rfl
  have h1 : (1 : UInt32).toNat = 1 := rfl
  have hs : ThinBT.subBlockSize = 16384 := rfl
  rw [ha.totalSlots, slotCount, UInt32.toNat_div, UInt32.toNat_sub, UInt32.toNat_add, hb, h1, hs]
  omega

theorem Assembles.totalSlots_le_mask (h : a.Assembles e n) :
    a.totalSlots.toNat ≤ 32 * a.completedMask.length := by
  have ht := h.totalSlots_le
  have h31 : (31 : UInt32).toNat = 31 := rfl
  have h32 : (32 : UInt32).toNat = 32 := rfl
  rw [h.maskLength, UInt32.toNat_div, UInt32.toNat_add, h31, h32]
  omega

theorem mark_defined (ha : a.Assembles e n) (hs : a.slot begin < a.totalSlots.toNat) :
    ∃ a' first, a.mark begin = some (a', first) := by
  have hm := ha.totalSlots_le_mask
  rw [mark, if_pos (by omega)]
  exact ⟨_, _, rfl⟩

end ChunkAssembler
end ThinBT
