import ThinBT.Util.Bitset
import ThinBT.Util.Bytes

namespace ThinBT

-- PeerSession::MAX_MSG_SIZE
def maxMsgSize : Nat :=
  65536

-- An address in network byte order.
structure PexPeer where
  ip       : UInt32
  port     : UInt16
  flags    : UInt8
  reserved : UInt8 := 0
  deriving DecidableEq, Repr

-- The messages that peers exchange, as far as sessions decode them.
inductive Msg
  | handshake (speedMbps : Nat)
  | choke
  | unchoke
  | interested
  | notInterested
  | haveChunk (chunkIdx : UInt32)
  | bitfield (bf : List (BitVec 8))
  | request (index begin length : UInt32)
  | piece (index begin : UInt32) (data : List UInt8)
  | cancel (index begin : UInt32)
  | pex (op : UInt8) (peers : List PexPeer)
  deriving DecidableEq, Repr

namespace Bitfield

-- The first chunk is the most significant bit of the first byte.
def position (i : Nat) : Nat :=
  i / 8 * 8 + (7 - i % 8)

-- The loop of `build_bitfield`, which is undefined if it leaves the buffer.
def pack : List Bool → Nat → List (BitVec 8) → Option (List (BitVec 8))
  | [], _, bf      => some bf
  | h :: hs, i, bf =>
    if h then
      if i / 8 < bf.length then pack hs (i + 1) (Bitset.setBit bf (position i)) else none
    else pack hs (i + 1) bf

-- `build_bitfield`, where the number of bytes is computed on `uint32_t`.
def build (bits : List Bool) : Option (List (BitVec 8)) :=
  pack bits 0 (.replicate ((UInt32.ofNat bits.length + 7) / 8).toNat 0)

-- `record_bitfield`
def record (bf : List (BitVec 8)) : List Bool :=
  (List.range (bf.length * 8)).map fun i => Bitset.bit bf (position i)

theorem position_div : position i / 8 = i / 8 := by
  unfold position
  omega

theorem position_inj : position i = position j ↔ i = j := by
  unfold position
  omega

theorem getD_record : (record bf).getD i false = Bitset.bit bf (position i) := by
  rw [record, List.getD_eq_getElem?_getD, List.getElem?_map]
  by_cases hi : i < bf.length * 8
  case pos => rw [List.getElem?_range hi]; rfl
  case neg =>
    have hb : bf.length ≤ position i / 8 := by rw [position_div]; omega
    rw [List.getElem?_eq_none (by simpa using hi), Bitset.bit, List.getD_eq_default _ _ hb]
    simp

theorem getD_cons_sub {bits : List Bool} :
    (decide (k ≤ i) && (b :: bits).getD (i - k) false) =
      ((i == k && b) || (decide (k + 1 ≤ i) && bits.getD (i - (k + 1)) false)) := by
  obtain hi | rfl | hi := Nat.lt_trichotomy i k
  case inl =>
    rw [decide_eq_false (Nat.not_le.mpr hi), decide_eq_false (by omega),
      beq_eq_false_iff_ne.mpr (Nat.ne_of_lt hi)]
    rfl
  case inr.inl => simp [show ¬i + 1 ≤ i by omega]
  case inr.inr =>
    rw [decide_eq_true (Nat.le_of_lt hi), decide_eq_true (show k + 1 ≤ i from hi),
      beq_eq_false_iff_ne.mpr (Nat.ne_of_gt hi), show i - k = (i - (k + 1)) + 1 by omega,
      List.getD_cons_succ]
    rfl

theorem bit_pack (h : pack bits k bf = some bf') :
    Bitset.bit bf' (position i) =
      (Bitset.bit bf (position i) || (decide (k ≤ i) && bits.getD (i - k) false)) := by
  induction bits generalizing k bf
  case nil =>
    cases h
    simp
  case cons b bits hi =>
    simp only [pack] at h
    rw [getD_cons_sub]
    split at h
    case isTrue hb =>
      split at h
      case isFalse => cases h
      case isTrue hl =>
        have hp : (position i == position k) = (i == k) := by
          rw [Bool.eq_iff_iff, beq_iff_eq, beq_iff_eq, position_inj]
        rw [hi h, Bitset.bit_setBit (by rwa [position_div]), hp, hb, Bool.and_true, ← Bool.or_assoc,
          Bool.or_comm (i == k)]
    case isFalse hb => rw [hi h, eq_false_of_ne_true hb, Bool.and_false, Bool.false_or]

-- What is received is what was sent.
theorem getD_record_build (h : build bits = some bf) : (record bf).getD i false = bits.getD i false := by
  rw [getD_record, bit_pack h]
  simp

theorem pack_defined (h : k + bits.length ≤ bf.length * 8) : (pack bits k bf).isSome := by
  induction bits generalizing k bf
  case nil => rfl
  case cons b bits hi =>
    rw [List.length_cons] at h
    simp only [pack]
    split
    case isTrue =>
      rw [if_pos (by omega)]
      exact hi (by rw [Bitset.length_setBit]; omega)
    case isFalse => exact hi (by omega)

theorem toNat_byteCount {bits : List Bool} (h : bits.length + 7 < 2 ^ 32) :
    ((UInt32.ofNat bits.length + 7) / 8).toNat = (bits.length + 7) / 8 := by
  have h7 : (7 : UInt32).toNat = 7 := rfl
  have h8 : (8 : UInt32).toNat = 8 := rfl
  have hn : (UInt32.ofNat bits.length).toNat = bits.length := UInt32.toNat_ofNat_of_lt' (by
    rw [UInt32.size]
    omega)
  rw [UInt32.toNat_div, UInt32.toNat_add, hn, h7, h8, Nat.mod_eq_of_lt h]

theorem build_defined (h : bits.length + 7 < 2 ^ 32) : (build bits).isSome := by
  refine pack_defined ?_
  rw [List.length_replicate, toNat_byteCount h]
  omega

theorem pack_replicate_false : pack (.replicate n false) k bf = some bf := by
  induction n generalizing k
  case zero      => rfl
  case succ n hi => rw [List.replicate_succ, pack, if_neg Bool.false_ne_true, hi]

theorem length_pack (h : pack bits k bf = some bf') : bf'.length = bf.length := by
  induction bits generalizing k bf
  case nil => rw [Option.some.inj h]
  case cons b bits hi =>
    simp only [pack] at h
    split at h
    case isFalse => exact hi h
    case isTrue =>
      split at h
      case isFalse => cases h
      case isTrue  => rw [hi h, Bitset.length_setBit]

theorem length_build (h : build bits = some bf) (hl : bits.length + 7 < 2 ^ 32) :
    bf.length = (bits.length + 7) / 8 := by
  rw [length_pack h, List.length_replicate, toNat_byteCount hl]

-- The number of bytes overflows to zero for so many bits.
theorem build_eq_none (h : 2 ^ 32 ≤ (true :: bits).length + 7) (hl : (true :: bits).length < 2 ^ 32) :
    build (true :: bits) = none := by
  have h7 : (7 : UInt32).toNat = 7 := rfl
  have h8 : (8 : UInt32).toNat = 8 := rfl
  have hz : ((UInt32.ofNat (true :: bits).length + 7) / 8).toNat = 0 := by
    rw [UInt32.toNat_div, UInt32.toNat_add, UInt32.toNat_ofNat_of_lt' hl, h7, h8]
    omega
  rw [build, hz, pack, if_pos rfl]
  exact if_neg (Nat.not_lt_zero _)

-- The bits that are received are those that were sent, and some padding.
theorem record_build (h : build bits = some bf) (hl : bits.length + 7 < 2 ^ 32) :
    ∃ n < 8, record bf = bits ++ .replicate n false ∧ (bits.length + n) % 8 = 0 := by
  have hb := length_build h hl
  have hr : (record bf).length = bf.length * 8 := by rw [record, List.length_map, List.length_range]
  refine ⟨bf.length * 8 - bits.length, by omega, ?_, by omega⟩
  refine List.ext_getElem (by rw [hr, List.length_append, List.length_replicate]; omega) ?_
  intro i hi _
  have he : (record bf).getD i false = bits.getD i false := getD_record_build h
  rw [List.getD_eq_getElem _ _ hi] at he
  rw [he, List.getElem_append]
  split
  case isTrue hlt  => exact List.getD_eq_getElem _ _ hlt
  case isFalse hlt => rw [List.getElem_replicate, List.getD_eq_default _ _ (Nat.le_of_not_lt hlt)]

end Bitfield
end ThinBT
