import ThinBT.Cdc.Theorems.Chunks
import Mathlib.Data.Nat.Bitwise

namespace ThinBT.FastCDC

variable {δ : Type} {sha256 : List UInt8 → δ} {cfg : FastCDCConfig} {data : List UInt8}

section Mask

theorem maskBits_lt : maskBits cfg < 32 := by
  have hl : Nat.log2 cfg.avgSize.toNat < 32 := by
    by_cases hz : cfg.avgSize.toNat = 0
    case pos => rw [hz]; decide
    case neg => exact (Nat.log2_lt hz).mpr cfg.avgSize.toNat_lt
  simp only [maskBits]
  split <;> omega

theorem nine_le_maskBits (h : 2048 ≤ cfg.avgSize.toNat) : 9 ≤ maskBits cfg := by
  have hl : 11 ≤ Nat.log2 cfg.avgSize.toNat := (Nat.le_log2 (by omega)).mpr h
  simp only [maskBits]
  split <;> omega

theorem testBit_chunkMask : (chunkMask cfg).toNat.testBit i = decide (i < maskBits cfg) := by
  have hk : maskBits cfg < 32 := maskBits_lt
  have hp : 2 ^ maskBits cfg < 2 ^ 32 := Nat.pow_lt_pow_right (by decide) hk
  have hs : (1 <<< UInt32.ofNat (maskBits cfg) : UInt32).toNat = 2 ^ maskBits cfg := by
    rw [UInt32.toNat_shiftLeft, UInt32.toNat_ofNat_of_lt' (by rw [UInt32.size]; omega),
      Nat.mod_eq_of_lt hk, UInt32.toNat_one, Nat.one_shiftLeft, Nat.mod_eq_of_lt hp]
  have h1 : (1 : UInt32) ≤ 1 <<< UInt32.ofNat (maskBits cfg) := by
    rw [UInt32.le_iff_toNat_le, hs]
    exact Nat.one_le_two_pow
  rw [chunkMask, UInt32.toNat_toUInt64, UInt32.toNat_sub_of_le _ _ h1, hs]
  exact Nat.testBit_two_pow_sub_one ..

-- No entry of the generated table is zero in all of its bits 1 to 8.
theorem exists_testBit_gear (byte : UInt8) :
    ∃ i, 1 ≤ i ∧ i ≤ 8 ∧ (gear byte).toNat.testBit i := by
  have table : ∀ n < 256, ∃ i ≤ 8, 1 ≤ i ∧
      (gearNext^[n + 1] 0x9E3779B185EBCA87).toNat.testBit i := by
    decide +kernel
  obtain ⟨i, h8, h1, hb⟩ := table byte.toNat byte.toNat_lt
  exact ⟨i, h1, h8, hb⟩

-- The carry only reaches bit 0, and the other bits of the entry are kept by the disjunction.
theorem gearUpdate_and_chunkMask_ne_zero (h : 9 ≤ maskBits cfg) (byte : UInt8) (fp : UInt64) :
    gearUpdate byte fp &&& chunkMask cfg ≠ 0 := by
  obtain ⟨i, h1, h8, hb⟩ := exists_testBit_gear byte
  have hcarry : (fp >>> 63).toNat.testBit i = false := by
    refine Nat.testBit_lt_two_pow ?_
    have hf := fp.toNat_lt
    have hi : 2 ^ 1 ≤ 2 ^ i := Nat.pow_le_pow_right (by decide) h1
    rw [UInt64.toNat_shiftRight, Nat.shiftRight_eq_div_pow]
    change fp.toNat / 2 ^ 63 < _
    omega
  intro hz
  have hbit := congrArg (·.toNat.testBit i) hz
  have hi : i < maskBits cfg := by omega
  simp only [gearUpdate, UInt64.toNat_and, UInt64.toNat_or, UInt64.toNat_xor, Nat.testBit_and,
    Nat.testBit_or, Nat.testBit_xor, hcarry, hb, testBit_chunkMask, hi] at hbit
  simp at hbit

-- With such a mask the content does not matter.
theorem cuts_gearUpdate (h : 9 ≤ maskBits cfg) (byte : UInt8) (fp : UInt64) :
    cuts cfg (gearUpdate byte fp) pos last = (decide (cfg.maxSize.toNat ≤ pos) || last) := by
  have hm : (gearUpdate byte fp &&& chunkMask cfg == 0) = false :=
    beq_eq_false_iff_ne.mpr (gearUpdate_and_chunkMask_ne_zero h byte fp)
  rw [cuts, hm, Bool.and_false, Bool.false_or]

end Mask

section Chunks

variable {es : List (ChunkEntry δ)}

-- Only the last chunk reaches the end of the data.
theorem Tiles.not_last (h : Tiles sha256 cfg data 0 es) (he : es[k]? = some e)
    (hd : e.stop < data.length) : k + 1 < es.length := by
  obtain ⟨hk, rfl⟩ := List.getElem?_eq_some_iff.mp he
  by_contra hn
  have hsum := h.sum
  have hlast : es = es.take k ++ [es[k]] := by
    rw [← List.take_succ_eq_append_getElem hk, List.take_of_length_le (by omega)]
  rw [hlast, List.map_append, List.sum_append, List.map_singleton, List.sum_singleton] at hsum
  have ho := h.offset he
  rw [ChunkEntry.stop] at hd
  omega

theorem length_eq_maxSize (h : 9 ≤ maskBits cfg) (hx : 1 ≤ cfg.maxSize.toNat)
    (hs : data.length < 2 ^ 64) (he : e ∈ scanBuffer sha256 cfg data) (hd : e.stop < data.length) :
    e.length.toNat = cfg.maxSize.toNat := by
  have ht : Tiles sha256 cfg data 0 (scanBuffer sha256 cfg data) := tiles_scanBuffer hs
  have hle := (ht.length_bounds he).right
  obtain ⟨k, hk⟩ := List.mem_iff_getElem?.mp he
  obtain ⟨byte, fp, hc⟩ := cuts_of_mem_dropLast (length_mem_dropLast hk (ht.not_last hk hd))
  rw [cuts_gearUpdate h, Bool.or_false, decide_eq_true_eq] at hc
  omega

-- The chunks then only depend on the size of the data.
theorem lengths_congr {data' : List UInt8} (h : 9 ≤ maskBits cfg)
    (hl : data.length = data'.length) : lengths cfg data n fp = lengths cfg data' n fp' := by
  induction data generalizing data' n fp fp'
  case nil =>
    obtain rfl := List.length_eq_zero_iff.mp hl.symm
    rfl
  case cons byte rest ih =>
    obtain ⟨byte', rest', rfl⟩ := List.exists_cons_of_length_eq_add_one hl.symm
    have hl' : rest.length = rest'.length := Nat.succ.inj hl
    have he : rest.isEmpty = rest'.isEmpty := by
      rw [Bool.eq_iff_iff, List.isEmpty_iff_length_eq_zero, List.isEmpty_iff_length_eq_zero, hl']
    simp only [lengths, cuts_gearUpdate h, he]
    split
    case isTrue  => rw [ih hl']
    case isFalse => rw [ih hl']

theorem exists_mem_entries {data' : List UInt8} {ns : List Nat}
    (he : e ∈ entries sha256 data start ns) :
    ∃ c ∈ entries sha256 data' start ns, c.offset = e.offset ∧ c.length = e.length := by
  induction ns generalizing start
  case nil => cases he
  case cons n ns hi =>
    cases List.mem_cons.mp he
    case inl he => exact ⟨_, List.mem_cons_self, by rw [he], by rw [he]⟩
    case inr he =>
      obtain ⟨c, hc, hs⟩ := hi he
      exact ⟨c, List.mem_cons_of_mem _ hc, hs⟩

-- In some data the chunk that starts with the given bytes ends after a continuation of them, neither
-- with the data nor by its size.
def ContentCut (sha256 : List UInt8 → δ) (cfg : FastCDCConfig) (bytes : List UInt8) : Prop :=
  ∃ more front back e, (bytes ++ more).length < cfg.maxSize.toNat ∧ back ≠ [] ∧
    (front ++ (bytes ++ more) ++ back).length < 2 ^ 64 ∧
    e ∈ scanBuffer sha256 cfg (front ++ (bytes ++ more) ++ back) ∧
    e.offset.toNat = front.length ∧ e.length.toNat = (bytes ++ more).length

theorem not_contentCut (h : 9 ≤ maskBits cfg) : ¬ContentCut sha256 cfg bytes := by
  rintro ⟨more, front, back, e, hx, hb, hs, he, ho, hl⟩
  have hd : e.stop < (front ++ (bytes ++ more) ++ back).length := by
    have := List.length_pos_iff.mpr hb
    rw [ChunkEntry.stop, ho, hl]
    simp only [List.length_append]
    omega
  have := length_eq_maxSize h (by omega) hs he hd
  omega

-- The fingerprint never matches the default mask.
theorem content_cuts_unreachable (sha256 : List UInt8 → δ) (bytes : List UInt8) :
    ¬ContentCut sha256 {} bytes :=
  not_contentCut (nine_le_maskBits (by decide))

theorem no_content_cut_after_three_bytes : ¬ContentCut id {} [1, 2, 3] :=
  not_contentCut (nine_le_maskBits (by decide))

end Chunks

end ThinBT.FastCDC
