import ThinBT.Util.Bytes
import ThinBT.Util.Bitset
import ThinBT.Scheduler.State

namespace ThinBT

structure SubBlock where
  begin  : UInt32
  length : UInt32
  deriving DecidableEq, Repr

structure ChunkAssembler where
  -- The offset in the output file that `base_` points to.
  base          : Option Nat
  chunkSize     : UInt32
  subBlockSize  : UInt32
  totalSlots    : UInt32
  completedMask : List (BitVec 32)
  pendingCount  : UInt32
  deriving DecidableEq, Repr

namespace ChunkAssembler

-- `(chunk_size + sub_block_size - 1) / sub_block_size` on `uint32_t`.
def slotCount (chunkSize subBlockSize : UInt32) : UInt32 :=
  (chunkSize + subBlockSize - 1) / subBlockSize

def init (base : Option Nat) (chunkSize subBlockSize : UInt32) : ChunkAssembler where
  base          := base
  chunkSize     := chunkSize
  subBlockSize  := subBlockSize
  totalSlots    := slotCount chunkSize subBlockSize
  completedMask := .replicate ((slotCount chunkSize subBlockSize + 31) / 32).toNat 0
  pendingCount  := slotCount chunkSize subBlockSize

-- The contents of `sub_blocks_`, which `init` fills from the sizes.
def subBlocks (a : ChunkAssembler) : List SubBlock :=
  (List.range a.totalSlots.toNat).map fun i =>
    let begin := .ofNat i * a.subBlockSize
    ⟨begin, min a.subBlockSize (a.chunkSize - begin)⟩

def isComplete (a : ChunkAssembler) : Bool :=
  a.pendingCount = 0

def slot (a : ChunkAssembler) (begin : UInt32) : Nat :=
  (begin / a.subBlockSize).toNat

def received (a : ChunkAssembler) (s : Nat) : Bool :=
  Bitset.bit a.completedMask s

-- The checks that `on_piece` makes before it writes. The sum is computed on `uint32_t`.
def accepts (a : ChunkAssembler) (begin len : UInt32) : Bool :=
  a.base.isSome && begin + len ≤ a.chunkSize

-- `memcpy(base_ + begin, data, len)`, which is undefined outside of the chunk.
def write (a : ChunkAssembler) (begin : UInt32) (data file : List UInt8) : Option (List UInt8) :=
  match a.base with
  | none      => none
  | some base =>
    if begin.toNat + data.length ≤ a.chunkSize.toNat then
      some (file.overwrite (base + begin.toNat) data)
    else none

-- `completed_mask_[word].fetch_or(bit_mask)`, which is undefined outside of the mask, together with
-- the test whether the bit was clear.
def mark (a : ChunkAssembler) (begin : UInt32) : Option (ChunkAssembler × Bool) :=
  if a.slot begin / 32 < a.completedMask.length then
    let oldMask := a.completedMask.getD (a.slot begin / 32) 0
    some ({ a with completedMask := Bitset.setBit a.completedMask (a.slot begin) },
      oldMask &&& Bitset.bitMask 32 (a.slot begin) = 0)
  else none

-- `pending_count_.fetch_sub(1) == 1`
def countDown (a : ChunkAssembler) : ChunkAssembler × Bool :=
  ({ a with pendingCount := a.pendingCount - 1 }, a.pendingCount = 1)

def onPiece (a : ChunkAssembler) (begin : UInt32) (data file : List UInt8) :
    Option (ChunkAssembler × List UInt8 × Bool) :=
  if a.accepts begin (.ofNat data.length) then do
    let file ← a.write begin data file
    let (a, first) ← a.mark begin
    if first then
      let (a, complete) := a.countDown
      return (a, file, complete)
    else return (a, file, false)
  else return (a, file, false)

variable {a a' : ChunkAssembler}

-- The fields that `init` sets and no call of `on_piece` changes.
structure SameFrame (a' a : ChunkAssembler) : Prop where
  base         : a'.base = a.base
  chunkSize    : a'.chunkSize = a.chunkSize
  subBlockSize : a'.subBlockSize = a.subBlockSize
  totalSlots   : a'.totalSlots = a.totalSlots
  maskLength   : a'.completedMask.length = a.completedMask.length

theorem SameFrame.refl : SameFrame a a :=
  ⟨rfl, rfl, rfl, rfl, rfl⟩

theorem SameFrame.trans {a₁ a₂ a₃ : ChunkAssembler} (h₁ : SameFrame a₁ a₂) (h₂ : SameFrame a₂ a₃) :
    SameFrame a₁ a₃ where
  base         := h₁.base.trans h₂.base
  chunkSize    := h₁.chunkSize.trans h₂.chunkSize
  subBlockSize := h₁.subBlockSize.trans h₂.subBlockSize
  totalSlots   := h₁.totalSlots.trans h₂.totalSlots
  maskLength   := h₁.maskLength.trans h₂.maskLength

theorem SameFrame.accepts (h : SameFrame a' a) : a'.accepts begin len = a.accepts begin len := by
  rw [ChunkAssembler.accepts, ChunkAssembler.accepts, h.base, h.chunkSize]

theorem SameFrame.slot (h : SameFrame a' a) : a'.slot begin = a.slot begin := by
  rw [ChunkAssembler.slot, ChunkAssembler.slot, h.subBlockSize]

theorem write_eq_some (h : a.write begin data file = some file') :
    ∃ base, a.base = some base ∧ begin.toNat + data.length ≤ a.chunkSize.toNat ∧
      file' = file.overwrite (base + begin.toNat) data := by
  unfold write at h
  split at h
  case h_1 => cases h
  case h_2 base hb =>
    split at h
    case isTrue hl => exact ⟨base, hb, hl, (Option.some.inj h).symm⟩
    case isFalse   => cases h

-- What `fetch_or` does to an assembler.
structure Marked (a : ChunkAssembler) (s : Nat) (a' : ChunkAssembler) (first : Bool) : Prop where
  frame    : SameFrame a' a
  pending  : a'.pendingCount = a.pendingCount
  received : ∀ t, a'.received t = (t == s || a.received t)
  first    : first = !a.received s
  size     : Bitset.size a'.completedMask =
    Bitset.size a.completedMask + if a.received s then 0 else 1

theorem mark_eq_some (h : a.mark begin = some (a', first)) : Marked a (a.slot begin) a' first := by
  unfold mark at h
  split at h
  case isFalse => cases h
  case isTrue hl =>
    cases h
    have hf : decide (a.completedMask.getD (a.slot begin / 32) 0 &&& Bitset.bitMask 32 (a.slot begin)
        = 0) = !a.received (a.slot begin) := by
      rw [Bool.eq_iff_iff, decide_eq_true_eq, Bitset.and_bitMask_eq_zero_iff, Bool.not_eq_true']
      rfl
    refine ⟨⟨rfl, rfl, rfl, rfl, Bitset.length_setBit⟩, rfl, fun _ => Bitset.bit_setBit hl, hf, ?_⟩
    split
    case isTrue hr =>
      have he : Bitset.bit (Bitset.setBit a.completedMask (a.slot begin)) =
          Bitset.bit a.completedMask := by
        funext t
        rw [Bitset.bit_setBit hl]
        by_cases ht : t = a.slot begin
        case pos => rw [ht, show Bitset.bit a.completedMask (a.slot begin) = true from hr, Bool.or_true]
        case neg => rw [beq_eq_false_iff_ne.mpr ht, Bool.false_or]
      rw [Bitset.size, he, Bitset.length_setBit]
      rfl
    case isFalse hr => exact Bitset.size_setBit hl ((Bool.not_eq_true _).mp hr)

theorem countDown_frame : SameFrame a.countDown.1 a :=
  ⟨rfl, rfl, rfl, rfl, rfl⟩

end ChunkAssembler
end ThinBT
