import Mathlib.Data.List.Basic
import Mathlib.Data.List.Nodup
import Mathlib.Order.Basic
import Mathlib.Order.Defs.LinearOrder
import Mathlib.Order.Lattice

-- A set that is enumerated in ascending order, as `std::set` is.
@[ext]
structure SortedSet (α) [LinearOrder α] where
  elems  : List α
  sorted : elems.Pairwise (· < ·)
  deriving DecidableEq, Repr

namespace SortedSet

variable [LinearOrder α]

def insertElem (a : α) : List α → List α
  | []      => [a]
  | b :: bs => if a < b then a :: b :: bs else if a = b then b :: bs else b :: insertElem a bs

theorem mem_insertElem {l : List α} : x ∈ insertElem a l ↔ x = a ∨ x ∈ l := by
  induction l <;> simp only [insertElem, List.mem_singleton, List.not_mem_nil, or_false]
  case cons b bs hi =>
    split
    case isTrue => simp
    case isFalse =>
      split
      case isTrue h  => simp [h]
      case isFalse h =>
        rw [List.mem_cons, hi, List.mem_cons]
        constructor <;> rintro (h | h | h) <;> simp [h]

theorem sorted_insertElem {l : List α} (h : l.Pairwise (· < ·)) :
    (insertElem a l).Pairwise (· < ·) := by
  induction l <;> simp only [insertElem, List.pairwise_singleton]
  case cons b bs hi =>
    have ⟨hb, hs⟩ := List.pairwise_cons.mp h
    split
    case isTrue hl =>
      refine List.pairwise_cons.mpr ⟨?_, h⟩
      intro x hx
      cases List.mem_cons.mp hx
      case inl hx => exact hx ▸ hl
      case inr hx => exact lt_trans hl (hb x hx)
    case isFalse hl =>
      split
      case isTrue => exact h
      case isFalse hn =>
        refine List.pairwise_cons.mpr ⟨?_, hi hs⟩
        intro x hx
        cases mem_insertElem.mp hx
        case inl hx => exact hx ▸ lt_of_le_of_ne (not_lt.mp hl) (Ne.symm hn)
        case inr hx => exact hb x hx

theorem length_insertElem {l : List α} (h : a ∉ l) : (insertElem a l).length = l.length + 1 := by
  induction l <;> simp only [insertElem, List.length_nil, List.length_cons]
  case cons b bs hi =>
    have ⟨hb, hs⟩ := not_or.mp (mt List.mem_cons.mpr h)
    rw [if_neg hb]
    split <;> simp [hi hs]

instance : Membership α (SortedSet α) where
  mem s a := a ∈ s.elems

theorem sorted_nil : ([] : List α).Pairwise (· < ·) :=
  .nil

instance : EmptyCollection (SortedSet α) where
  emptyCollection := ⟨[], sorted_nil⟩

instance (a : α) (s : SortedSet α) : Decidable (a ∈ s) :=
  inferInstanceAs (Decidable (a ∈ s.elems))

def insert (s : SortedSet α) (a : α) : SortedSet α :=
  ⟨insertElem a s.elems, sorted_insertElem s.sorted⟩

def erase (s : SortedSet α) (a : α) : SortedSet α :=
  ⟨s.elems.erase a, s.sorted.sublist List.erase_sublist⟩

def size (s : SortedSet α) : Nat :=
  s.elems.length

-- The element `*begin()` refers to.
def first? (s : SortedSet α) : Option α :=
  s.elems.head?

variable {s : SortedSet α}

@[simp]
theorem not_mem_empty : a ∉ (∅ : SortedSet α) :=
  List.not_mem_nil

theorem nodup (s : SortedSet α) : s.elems.Nodup :=
  s.sorted.imp (fun h => ne_of_lt h)

@[simp]
theorem mem_insert : x ∈ s.insert a ↔ x = a ∨ x ∈ s :=
  mem_insertElem

@[simp]
theorem mem_erase : x ∈ s.erase a ↔ x ≠ a ∧ x ∈ s :=
  s.nodup.mem_erase_iff

theorem size_insert (h : a ∉ s) : (s.insert a).size = s.size + 1 :=
  length_insertElem h

theorem size_erase (h : a ∈ s) : (s.erase a).size + 1 = s.size := by
  have := List.length_pos_of_mem h
  simp only [size, erase, List.length_erase_of_mem h]
  omega

theorem mem_of_first? (h : s.first? = some a) : a ∈ s :=
  List.mem_of_head? h

theorem size_pos_of_mem (h : a ∈ s) : 0 < s.size :=
  List.length_pos_of_mem h

end SortedSet
