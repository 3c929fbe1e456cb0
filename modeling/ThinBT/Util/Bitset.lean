import Mathlib.Data.List.Basic
import Mathlib.Data.List.Nodup
import Mathlib.Data.List.GetD
import Mathlib.Algebra.Ring.Nat

-- Sets of natural numbers that are stored as the bits of a list of machine words.
namespace Bitset

variable {w : Nat} {ws : List (BitVec w)}

def bitMask (w s : Nat) : BitVec w :=
  1#w <<< (s % w)

def bit (ws : List (BitVec w)) (s : Nat) : Bool :=
  (ws.getD (s / w) 0).getLsbD (s % w)

def setBit (ws : List (BitVec w)) (s : Nat) : List (BitVec w) :=
  ws.modify (s / w) (· ||| bitMask w s)

-- The number of bits that are set.
def size (ws : List (BitVec w)) : Nat :=
  (List.range (w * ws.length)).countP (bit ws)

@[simp]
theorem length_setBit : (setBit ws s).length = ws.length :=
  List.length_modify ..

@[simp]
theorem bit_replicate_zero : bit (.replicate n (0#w)) s = false := by
  simp only [bit, List.getD_eq_getElem?_getD, List.getElem?_replicate]
  split <;> simp

@[simp]
theorem size_replicate_zero : size (.replicate n (0#w)) = 0 := by
  simp [size]

theorem size_le : size ws ≤ w * ws.length := by
  simpa [size] using List.countP_le_length (p := bit ws) (l := List.range (w * ws.length))

-- If only the first `n` bits may be set, they are all that is counted.
theorem size_eq_countP (h : ∀ s, bit ws s → s < n) (hn : n ≤ w * ws.length) :
    size ws = (List.range n).countP (bit ws) := by
  obtain ⟨k, hk⟩ := Nat.exists_eq_add_of_le hn
  rw [size, hk, List.range_add, List.countP_append, List.countP_map, Nat.add_eq_left,
    List.countP_eq_zero]
  intro s _ hs
  have hs : n + s < n := h _ hs
  omega

theorem size_le_of_bit (h : ∀ s, bit ws s → s < n) (hn : n ≤ w * ws.length) : size ws ≤ n := by
  rw [size_eq_countP h hn]
  exact Nat.le_trans List.countP_le_length (Nat.le_of_eq List.length_range)

theorem size_eq_iff (h : ∀ s, bit ws s → s < n) (hn : n ≤ w * ws.length) :
    size ws = n ↔ ∀ s < n, bit ws s := by
  rw [size_eq_countP h hn]
  have hl := List.countP_eq_length (p := bit ws) (l := List.range n)
  rw [List.length_range] at hl
  rw [hl]
  simp only [List.mem_range]

theorem lt_length_of_bit (h : bit ws s) : s / w < ws.length := by
  by_contra hl
  rw [bit, List.getD_eq_getElem?_getD, List.getElem?_eq_none (Nat.not_lt.mp hl)] at h
  simp at h

variable [NeZero w]

theorem getLsbD_bitMask : (bitMask w s).getLsbD (t % w) = decide (t % w = s % w) := by
  have ht := Nat.mod_lt t (Nat.pos_of_neZero w)
  have hw := Nat.pos_of_neZero w
  rw [bitMask, BitVec.getLsbD_shiftLeft, BitVec.getLsbD_one, Bool.eq_iff_iff]
  simp only [Bool.and_eq_true, decide_eq_true_eq, Bool.not_eq_true', decide_eq_false_iff_not]
  omega

theorem and_bitMask_eq_zero_iff :
    ws.getD (s / w) 0 &&& bitMask w s = 0 ↔ bit ws s = false := by
  have hm : bitMask w s = BitVec.twoPow w (s % w) := rfl
  rw [hm, BitVec.and_twoPow, bit]
  split
  case isTrue h =>
    rw [h]
    refine iff_of_false (fun hz => ?_) (by simp)
    have hb := congrArg (·.getLsbD (s % w)) hz
    rw [← hm] at hb
    simp [getLsbD_bitMask] at hb
  case isFalse h => exact iff_of_true rfl (by simpa using h)

theorem bit_setBit (h : s / w < ws.length) : bit (setBit ws s) t = (t == s || bit ws t) := by
  simp only [bit, setBit, List.getD_eq_getElem?_getD, List.getElem?_modify]
  by_cases hw : s / w = t / w
  case pos =>
    rw [← hw, List.getElem?_eq_getElem h]
    have ht : t % w = s % w ↔ t = s := by
      refine ⟨fun he => ?_, fun he => he ▸ rfl⟩
      rw [← Nat.div_add_mod t w, ← Nat.div_add_mod s w, hw, he]
    simp [BitVec.getLsbD_or, getLsbD_bitMask, ht, Bool.or_comm, beq_eq_decide]
  case neg =>
    have hn : t ≠ s := fun he => hw (he ▸ rfl)
    simp [hw, hn]

theorem setBit_eq_self (h : bit ws s) : setBit ws s = ws := by
  refine List.ext_getElem length_setBit fun k hk hk' => BitVec.eq_of_getLsbD_eq fun i hi => ?_
  have hb : bit (setBit ws s) (w * k + i) = bit ws (w * k + i) := by
    rw [bit_setBit (lt_length_of_bit h)]
    by_cases he : w * k + i = s
    case pos => rw [he, h, Bool.or_true]
    case neg => rw [beq_eq_false_iff_ne.mpr he, Bool.false_or]
  have hd : (w * k + i) / w = k := by
    rw [Nat.mul_add_div (Nat.pos_of_neZero w), Nat.div_eq_of_lt hi, Nat.add_zero]
  have hm : (w * k + i) % w = i := by rw [Nat.mul_add_mod, Nat.mod_eq_of_lt hi]
  rwa [bit, bit, hd, hm, List.getD_eq_getElem _ _ hk, List.getD_eq_getElem _ _ hk'] at hb

-- A predicate that starts to hold of one element of a list holds of one more element.
theorem countP_or_beq {l : List Nat} {p : Nat → Bool} (hn : l.Nodup) (hs : s ∈ l) (hp : p s = false) :
    l.countP (fun t => t == s || p t) = l.countP p + 1 := by
  induction l
  case nil => cases hs
  case cons x l hi =>
    have ⟨hx, hn⟩ := List.nodup_cons.mp hn
    rw [List.countP_cons, List.countP_cons]
    cases List.mem_cons.mp hs
    case inl he =>
      subst he
      have hl : l.countP (fun t => t == s || p t) = l.countP p := by
        refine List.countP_congr fun t ht => ?_
        have hne : t ≠ s := fun he => hx (he ▸ ht)
        simp [hne]
      simp [hl, hp]
    case inr hs =>
      have hne : x ≠ s := fun he => hx (he ▸ hs)
      rw [hi hn hs]
      simp only [beq_eq_false_iff_ne.mpr hne, Bool.false_or]
      omega

theorem size_setBit (h : s / w < ws.length) (hb : bit ws s = false) :
    size (setBit ws s) = size ws + 1 := by
  have hs : s ∈ List.range (w * ws.length) := by
    rw [List.mem_range]
    exact Nat.mul_comm _ w ▸ (Nat.div_lt_iff_lt_mul (Nat.pos_of_neZero w)).mp h
  have he : bit (setBit ws s) = fun t => t == s || bit ws t := funext fun _ => bit_setBit h
  rw [size, size, length_setBit, he]
  exact countP_or_beq List.nodup_range hs hb

end Bitset
