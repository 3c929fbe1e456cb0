import Mathlib.Data.List.Basic
import Mathlib.Algebra.Ring.Nat
import Mathlib.Logic.Equiv.Prod
import Mathlib.Tactic.Ring

-- The bytes of a number, the least significant byte first.
def leBytes : Nat → Nat → List UInt8
  | 0, _     => []
  | n + 1, x => .ofNat x :: leBytes n (x / 256)

def leNat : List UInt8 → Nat
  | []      => 0
  | b :: bs => b.toNat + 256 * leNat bs

-- The number with the same bytes in reverse order.
def byteSwap (n x : Nat) : Nat :=
  leNat (leBytes n x).reverse

section Bytes

@[simp]
theorem length_leBytes : (leBytes n x).length = n := by
  induction n generalizing x
  case zero      => rfl
  case succ n hi => rw [leBytes, List.length_cons, hi]

theorem leNat_lt : leNat bs < 256 ^ bs.length := by
  induction bs
  case nil => exact Nat.one_pos
  case cons b bs hi =>
    have hb := b.toNat_lt
    rw [leNat, List.length_cons, Nat.pow_succ]
    omega

theorem leNat_lt_of_length (h : bs.length = n) : leNat bs < 256 ^ n :=
  h ▸ leNat_lt

theorem leNat_leBytes (h : x < 256 ^ n) : leNat (leBytes n x) = x := by
  induction n generalizing x
  case zero => exact (Nat.lt_one_iff.mp h).symm
  case succ n hi =>
    have hd : x / 256 < 256 ^ n := Nat.div_lt_of_lt_mul (by rwa [Nat.mul_comm, ← Nat.pow_succ])
    rw [leBytes, leNat, hi hd, UInt8.toNat_ofNat']
    omega

theorem leBytes_leNat (h : bs.length = n) : leBytes n (leNat bs) = bs := by
  induction bs generalizing n
  case nil => rw [← h]; rfl
  case cons b bs hi =>
    have hb := b.toNat_lt
    subst h
    have hd : (b.toNat + 256 * leNat bs) / 256 = leNat bs := by omega
    have hm : UInt8.ofNat (b.toNat + 256 * leNat bs) = b := by
      refine UInt8.toNat_inj.mp ?_
      rw [UInt8.toNat_ofNat']
      omega
    rw [leNat, List.length_cons, leBytes, hd, hi rfl, hm]

theorem byteSwap_lt : byteSwap n x < 256 ^ n :=
  leNat_lt_of_length (by rw [List.length_reverse, length_leBytes])

theorem leBytes_byteSwap : leBytes n (byteSwap n x) = (leBytes n x).reverse :=
  leBytes_leNat (by rw [List.length_reverse, length_leBytes])

theorem byteSwap_byteSwap (h : x < 256 ^ n) : byteSwap n (byteSwap n x) = x := by
  rw [byteSwap, leBytes_byteSwap, List.reverse_reverse, leNat_leBytes h]

end Bytes

-- A value that can be written as bytes, and that is read back from any stream that starts with these
-- bytes. Only what can be written is read.
structure Codec (α : Type) where
  write      : α → List UInt8
  read       : List UInt8 → Option (α × List UInt8)
  read_write : ∀ a rest, read (write a ++ rest) = some (a, rest)
  write_read : ∀ {bytes a rest}, read bytes = some (a, rest) → bytes = write a ++ rest

namespace Codec

variable {α β : Type} {c : Codec α} {d : Codec β}

theorem read_self : c.read (c.write a) = some (a, []) := by
  have h := c.read_write a []
  rwa [List.append_nil] at h

theorem append_inj (h : c.write a ++ l = c.write b ++ m) : a = b ∧ l = m := by
  have ha := c.read_write a l
  rw [h, c.read_write, Option.some.injEq, Prod.mk.injEq] at ha
  exact ⟨ha.left.symm, ha.right.symm⟩

-- A fixed number of bytes.
def raw (n : Nat) : Codec { bytes : List UInt8 // bytes.length = n } where
  write a      := a.val
  read bytes   :=
    if h : n ≤ bytes.length then some (⟨bytes.take n, List.length_take_of_le h⟩, bytes.drop n)
    else none
  read_write a rest := by
    have hl : n ≤ (a.val ++ rest).length := by
      rw [List.length_append, a.property]
      exact Nat.le_add_right ..
    rw [dif_pos hl]
    simp only [List.take_left' a.property, List.drop_left' a.property]
  write_read {bytes a rest} h := by
    split at h
    case isFalse => cases h
    case isTrue =>
      obtain ⟨rfl, rfl⟩ := Prod.mk.inj (Option.some.inj h)
      exact (List.take_append_drop ..).symm

def imap (c : Codec α) (e : α ≃ β) : Codec β where
  write b           := c.write (e.symm b)
  read bytes        := (c.read bytes).map fun x => (e x.1, x.2)
  read_write b rest := by rw [c.read_write, Option.map_some, e.apply_symm_apply]
  write_read h      := by
    obtain ⟨x, hx, he⟩ := Option.map_eq_some_iff.mp h
    obtain ⟨rfl, rfl⟩ := Prod.mk.inj he
    rw [e.symm_apply_apply]
    exact c.write_read hx

def prod (c : Codec α) (d : Codec β) : Codec (α × β) where
  write x           := c.write x.1 ++ d.write x.2
  read bytes        := do
    let x ← c.read bytes
    let y ← d.read x.2
    return ((x.1, y.1), y.2)
  read_write x rest := by
    simp only [List.append_assoc, c.read_write, d.read_write, Option.bind_eq_bind, Option.bind_some]
    rfl
  write_read h      := by
    obtain ⟨y, hy, h⟩ := Option.bind_eq_some_iff.mp h
    obtain ⟨z, hz, h⟩ := Option.bind_eq_some_iff.mp h
    obtain ⟨rfl, rfl⟩ := Prod.mk.inj (Option.some.inj h)
    rw [List.append_assoc, ← d.write_read hz]
    exact c.write_read hy

section Words

-- A machine word of `n` bytes as it lies in the memory of a little-endian host.
def word (n : Nat) : Codec (Fin (256 ^ n)) :=
  (raw n).imap {
    toFun     := fun bytes => ⟨leNat bytes.val, leNat_lt_of_length bytes.property⟩
    invFun    := fun x => ⟨leBytes n x.val, length_leBytes⟩
    left_inv  := fun bytes => Subtype.ext (leBytes_leNat bytes.property)
    right_inv := fun x => Fin.ext (leNat_leBytes x.isLt) }

def u8 : Codec UInt8 :=
  (word 1).imap ⟨fun x => .ofNat x.val, fun x => ⟨x.toNat, x.toNat_lt⟩,
    fun x => Fin.ext (UInt8.toNat_ofNat_of_lt' x.isLt), fun _ => UInt8.ofNat_toNat⟩

def u16 : Codec UInt16 :=
  (word 2).imap ⟨fun x => .ofNat x.val, fun x => ⟨x.toNat, x.toNat_lt⟩,
    fun x => Fin.ext (UInt16.toNat_ofNat_of_lt' x.isLt), fun _ => UInt16.ofNat_toNat⟩

def u32 : Codec UInt32 :=
  (word 4).imap ⟨fun x => .ofNat x.val, fun x => ⟨x.toNat, x.toNat_lt⟩,
    fun x => Fin.ext (UInt32.toNat_ofNat_of_lt' x.isLt), fun _ => UInt32.ofNat_toNat⟩

def u64 : Codec UInt64 :=
  (word 8).imap ⟨fun x => .ofNat x.val, fun x => ⟨x.toNat, x.toNat_lt⟩,
    fun x => Fin.ext (UInt64.toNat_ofNat_of_lt' x.isLt), fun _ => UInt64.ofNat_toNat⟩

end Words

section Sized

-- Values that all take the same number of bytes, and that are read from any such bytes.
structure Sized (c : Codec α) (n : Nat) : Prop where
  length : ∀ a, (c.write a).length = n
  total  : ∀ {bytes}, n ≤ bytes.length → (c.read bytes).isSome

theorem Sized.length_eq (h : c.Sized n) (hr : c.read bytes = some (a, rest)) :
    bytes.length = n + rest.length := by
  rw [c.write_read hr, List.length_append, h.length]

theorem Sized.isSome_iff (h : c.Sized n) : (c.read bytes).isSome ↔ n ≤ bytes.length := by
  refine ⟨fun hr => ?_, h.total⟩
  obtain ⟨x, hx⟩ := Option.isSome_iff_exists.mp hr
  rw [h.length_eq hx]
  exact Nat.le_add_right ..

theorem sized_raw : (raw n).Sized n where
  length a   := a.property
  total hl   := by simp only [raw, dif_pos hl, Option.isSome_some]

theorem Sized.imap {e : α ≃ β} (h : c.Sized n) : (c.imap e).Sized n where
  length b := h.length _
  total hl := by
    rw [Codec.imap, Option.isSome_map]
    exact h.total hl

theorem Sized.prod (h : c.Sized n) (h' : d.Sized m) : (c.prod d).Sized (n + m) where
  length x := by rw [Codec.prod, List.length_append, h.length, h'.length]
  total {bytes} hl := by
    obtain ⟨x, hx⟩ := Option.isSome_iff_exists.mp (h.total (Nat.le_of_add_right_le hl))
    have hn := h.length_eq hx
    obtain ⟨y, hy⟩ := Option.isSome_iff_exists.mp (h'.total (show m ≤ x.2.length by omega))
    simp only [Codec.prod, hx, hy, Option.bind_eq_bind, Option.bind_some]
    rfl

theorem sized_u8 : u8.Sized 1 :=
  sized_raw.imap.imap

theorem sized_u16 : u16.Sized 2 :=
  sized_raw.imap.imap

theorem sized_u32 : u32.Sized 4 :=
  sized_raw.imap.imap

end Sized

section Sequences

-- Reads a given number of values.
def readN (c : Codec α) : Nat → List UInt8 → Option (List α × List UInt8)
  | 0, bytes     => some ([], bytes)
  | n + 1, bytes => do
    let x ← c.read bytes
    let y ← readN c n x.2
    return (x.1 :: y.1, y.2)

theorem readN_flatMap : c.readN as.length (as.flatMap c.write ++ rest) = some (as, rest) := by
  induction as
  case nil => rfl
  case cons a as hi =>
    simp only [List.length_cons, readN, List.flatMap_cons, List.append_assoc, c.read_write, hi,
      Option.bind_eq_bind, Option.bind_some]
    rfl

theorem Sized.readN (h : c.Sized n) (hl : k * n ≤ bytes.length) : (c.readN k bytes).isSome := by
  induction k generalizing bytes
  case zero => rfl
  case succ k hi =>
    rw [Nat.succ_mul] at hl
    obtain ⟨x, hx⟩ := Option.isSome_iff_exists.mp (h.total (Nat.le_of_add_left_le hl))
    have hn := h.length_eq hx
    obtain ⟨y, hy⟩ := Option.isSome_iff_exists.mp (hi (show k * n ≤ x.2.length by omega))
    simp only [Codec.readN, hx, hy, Option.bind_eq_bind, Option.bind_some]
    rfl

-- Values of a fixed size can be told from their bytes.
theorem flatMap_inj {as bs : List α} (hn : 0 < n) (hc : ∀ a, (c.write a).length = n)
    (h : as.flatMap c.write = bs.flatMap c.write) : as = bs := by
  induction as generalizing bs
  case nil =>
    cases bs
    case nil => rfl
    case cons b bs =>
      have hl := congrArg List.length h
      rw [List.flatMap_cons, List.length_append, hc] at hl
      simp at hl
      omega
  case cons a as hi =>
    cases bs
    case nil =>
      have hl := congrArg List.length h
      rw [List.flatMap_cons, List.length_append, hc] at hl
      simp at hl
      omega
    case cons b bs =>
      rw [List.flatMap_cons, List.flatMap_cons] at h
      have ⟨ha, hs⟩ := append_inj h
      rw [ha, hi hs]

end Sequences

end Codec
