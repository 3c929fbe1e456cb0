import Mathlib.Algebra.Ring.Nat
import Mathlib.Data.Nat.ModEq
import Mathlib.Data.Nat.Size

-- Circular buffers. Positions are not reduced: the position `p` belongs to the cell `p % n`.
namespace Ring

variable {α : Type*} {cells : List (Option α)} {items : List α} {head p q n : Nat} {x : α}

theorem mod_ne (h : p < q) (hn : q < p + n) : p % n ≠ q % n := by
  intro he
  have hd : n ∣ q - p := (Nat.modEq_iff_dvd' (Nat.le_of_lt h)).mp he
  have hz := Nat.eq_zero_of_dvd_of_lt hd (by omega)
  omega

-- The successor of an index in a buffer whose size is a power of two.
theorem succ_and_mask (k : Nat) : (p % 2 ^ k + 1) &&& (2 ^ k - 1) = (p + 1) % 2 ^ k := by
  rw [Nat.and_two_pow_sub_one_eq_mod, Nat.mod_add_mod]

-- The items stand in the cells from the position `head` on.
def Window (cells : List (Option α)) (head : Nat) (items : List α) : Prop :=
  ∀ (j : Nat) (x : α), items[j]? = some x → cells[(head + j) % cells.length]? = some (some x)

theorem window_nil : Window cells head [] :=
  fun _ _ h => nomatch h

theorem Window.first (h : Window cells head (x :: items)) :
    cells[head % cells.length]? = some (some x) :=
  h 0 x rfl

theorem Window.tail (h : Window cells head (x :: items)) : Window cells (head + 1) items := by
  intro j y hj
  rw [Nat.add_assoc, Nat.add_comm 1 j]
  exact h (j + 1) y hj

theorem Window.append (h : Window cells head items)
    (hx : cells[(head + items.length) % cells.length]? = some (some x)) :
    Window cells head (items ++ [x]) := by
  intro j y hj
  rcases Nat.lt_trichotomy j items.length with hlt | rfl | hlt
  · exact h j y (by rwa [List.getElem?_append_left hlt] at hj)
  · rw [List.getElem?_concat_length] at hj
    exact Option.some.inj hj ▸ hx
  · rw [List.getElem?_eq_none (by rw [List.length_append]; exact hlt)] at hj
    cases hj

-- A cell after the items may be written.
theorem Window.set (h : Window cells head items) (hl : head + items.length ≤ p)
    (hr : p < head + cells.length) (v : Option α) :
    Window (cells.set (p % cells.length) v) head items := by
  intro j y hj
  have hlt := (List.getElem?_eq_some_iff.mp hj).choose
  rw [List.length_set, List.getElem?_set_ne (mod_ne (by omega) (by omega)).symm]
  exact h j y hj

-- So may the cell before them.
theorem Window.set_before (h : Window cells (head + 1) items) (hl : items.length < cells.length)
    (v : Option α) : Window (cells.set (head % cells.length) v) (head + 1) items := by
  rw [← Nat.add_mod_right head cells.length]
  exact h.set (by omega) (by omega) v

section PowersOfTwo

theorem exists_succ_eq_two_pow (h : ∀ i, n.testBit (i + 1) → n.testBit i) :
    ∃ k, n + 1 = 2 ^ k := by
  refine ⟨n.size, ?_⟩
  have hlow (i) (hi : n.testBit i) (j) (hj : j ≤ i) : n.testBit j := by
    induction hj using Nat.decreasingInduction
    case self => exact hi
    case of_succ j _ hj => exact h j hj
  have he : n = 2 ^ n.size - 1 := by
    refine Nat.eq_of_testBit_eq fun i => ?_
    rw [Nat.testBit_two_pow_sub_one, Bool.eq_iff_iff, decide_eq_true_eq]
    constructor
    · exact fun hi => Nat.lt_size.mpr (Nat.ge_two_pow_of_testBit hi)
    · intro hi
      obtain ⟨k, hk, ht⟩ := Nat.exists_ge_and_testBit_of_ge_two_pow (Nat.lt_size.mp hi)
      exact hlow k ht i hk
  have := Nat.two_pow_pos n.size
  omega

-- Each round doubles the distance over which the bits are spread.
def smear (n s : Nat) : Nat :=
  n ||| n >>> s

theorem testBit_smear {s m : Nat} (h : ∀ i, n.testBit i ↔ ∃ d < s, m.testBit (i + d)) (i : Nat) :
    (smear n s).testBit i ↔ ∃ d < 2 * s, m.testBit (i + d) := by
  rw [smear, Nat.testBit_or, Nat.testBit_shiftRight, Bool.or_eq_true, h, h]
  constructor
  · rintro (⟨d, hd, ht⟩ | ⟨d, hd, ht⟩)
    · exact ⟨d, by omega, ht⟩
    · exact ⟨s + d, by omega, by rwa [← Nat.add_assoc, Nat.add_comm i s]⟩
  · rintro ⟨d, hd, ht⟩
    by_cases hs : d < s
    · exact .inl ⟨d, hs, ht⟩
    · exact .inr ⟨d - s, by omega, by rwa [show s + i + (d - s) = i + d by omega]⟩

-- Six rounds are enough for words of 64 bits.
theorem exists_two_pow_of_smear (hn : n < 2 ^ 64) :
    ∃ k, [1, 2, 4, 8, 16, 32].foldl smear n + 1 = 2 ^ k := by
  have h₁ (i) : n.testBit i ↔ ∃ d < 1, n.testBit (i + d) :=
    ⟨fun h => ⟨0, Nat.one_pos, h⟩, fun ⟨d, hd, h⟩ => by rwa [Nat.lt_one_iff.mp hd] at h⟩
  have h := testBit_smear (testBit_smear (testBit_smear (testBit_smear (testBit_smear
    (testBit_smear h₁)))))
  refine exists_succ_eq_two_pow fun i hi => ?_
  obtain ⟨d, hd, ht⟩ := (h (i + 1)).mp hi
  refine (h i).mpr ⟨d + 1, ?_, by rwa [Nat.add_right_comm] at ht⟩
  refine Nat.lt_of_le_of_ne hd fun he => ?_
  have hlt := Nat.ge_two_pow_of_testBit ht
  have := Nat.pow_le_pow_right Nat.two_pos (show 64 ≤ i + 1 + d by omega)
  omega

end PowersOfTwo

end Ring
