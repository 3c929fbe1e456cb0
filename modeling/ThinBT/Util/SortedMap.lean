import Mathlib.Data.List.Basic
import Mathlib.Data.List.Nodup
import Mathlib.Order.Basic
import Mathlib.Order.Defs.LinearOrder
import Mathlib.Order.Lattice
import Mathlib.Algebra.Ring.Nat

-- A map that is enumerated by ascending keys, as `std::map` is.
@[ext]
structure SortedMap (κ) [LinearOrder κ] (ν) where
  entries : List (κ × ν)
  sorted  : (entries.map Prod.fst).Pairwise (· < ·)
  deriving DecidableEq, Repr

namespace SortedMap

variable [LinearOrder κ]

def lookup (k : κ) : List (κ × ν) → Option ν
  | []      => none
  | e :: es => if e.1 = k then some e.2 else lookup k es

def assign (k : κ) (v : ν) : List (κ × ν) → List (κ × ν)
  | []      => [(k, v)]
  | e :: es =>
    if k < e.1 then (k, v) :: e :: es else if k = e.1 then (k, v) :: es else e :: assign k v es

def remove (k : κ) : List (κ × ν) → List (κ × ν)
  | []      => []
  | e :: es => if e.1 = k then es else e :: remove k es

theorem mem_keys_assign {l : List (κ × ν)} :
    x ∈ (assign k v l).map Prod.fst ↔ x = k ∨ x ∈ l.map Prod.fst := by
  induction l <;> simp only [assign, List.map_cons, List.map_nil, List.mem_cons, List.not_mem_nil]
  case cons e es hi =>
    split
    case isTrue => simp
    case isFalse =>
      split
      case isTrue h  => simp [h]
      case isFalse h =>
        rw [List.map_cons, List.mem_cons, hi]
        constructor <;> rintro (h | h | h) <;> simp [h]

theorem remove_sublist {l : List (κ × ν)} : (remove k l).Sublist l := by
  induction l <;> simp only [remove, List.Sublist.refl]
  case cons e es hi =>
    split
    case isTrue  => exact List.sublist_cons_self _ _
    case isFalse => exact hi.cons_cons _

theorem sorted_assign {l : List (κ × ν)} (h : (l.map Prod.fst).Pairwise (· < ·)) :
    ((assign k v l).map Prod.fst).Pairwise (· < ·) := by
  induction l <;> simp only [assign, List.map_cons, List.map_nil, List.pairwise_singleton]
  case cons e es hi =>
    have ⟨he, hs⟩ := List.pairwise_cons.mp h
    split
    case isTrue hl =>
      refine List.pairwise_cons.mpr ⟨?_, h⟩
      intro x hx
      cases List.mem_cons.mp hx
      case inl hx => exact hx ▸ hl
      case inr hx => exact lt_trans hl (he x hx)
    case isFalse hl =>
      split
      case isTrue hk => exact List.pairwise_cons.mpr ⟨hk ▸ he, hs⟩
      case isFalse hn =>
        refine List.pairwise_cons.mpr ⟨?_, hi hs⟩
        intro x hx
        cases mem_keys_assign.mp hx
        case inl hx => exact hx ▸ lt_of_le_of_ne (not_lt.mp hl) (Ne.symm hn)
        case inr hx => exact he x hx

theorem sorted_nil : (([] : List (κ × ν)).map Prod.fst).Pairwise (· < ·) :=
  .nil

instance : EmptyCollection (SortedMap κ ν) where
  emptyCollection := ⟨[], sorted_nil⟩

def find? (m : SortedMap κ ν) (k : κ) : Option ν :=
  lookup k m.entries

-- `m[k] = v`
def upsert (m : SortedMap κ ν) (k : κ) (v : ν) : SortedMap κ ν :=
  ⟨assign k v m.entries, sorted_assign m.sorted⟩

def erase (m : SortedMap κ ν) (k : κ) : SortedMap κ ν :=
  ⟨remove k m.entries, m.sorted.sublist (remove_sublist.map _)⟩

-- The sum of a measure over all values of the map.
def total (m : SortedMap κ ν) (f : ν → Nat) : Nat :=
  (m.entries.map fun e => f e.2).sum

theorem lookup_eq_none {l : List (κ × ν)} : lookup k l = none ↔ k ∉ l.map Prod.fst := by
  induction l <;> simp only [lookup, List.map_nil, List.not_mem_nil, not_false_iff]
  case cons e es hi =>
    split
    case isTrue h  => simp [h]
    case isFalse h => rw [hi, List.map_cons, List.mem_cons, not_or, and_iff_right (Ne.symm h)]

theorem lookup_assign {l : List (κ × ν)} :
    lookup j (assign k v l) = if k = j then some v else lookup j l := by
  induction l <;> simp only [assign, lookup]
  case cons e es hi =>
    split
    case isTrue => simp only [lookup]
    case isFalse =>
      split
      case isTrue h =>
        simp only [lookup, h]
        split <;> rfl
      case isFalse h =>
        simp only [lookup, hi]
        split
        case isTrue hj  => rw [if_neg (hj ▸ h)]
        case isFalse    => rfl

theorem lookup_remove {l : List (κ × ν)} (h : (l.map Prod.fst).Pairwise (· < ·)) :
    lookup j (remove k l) = if k = j then none else lookup j l := by
  induction l <;> simp only [remove, lookup, ite_self]
  case cons e es hi =>
    have ⟨he, hs⟩ := List.pairwise_cons.mp h
    split
    case isTrue hk =>
      split
      case isTrue hj =>
        rw [lookup_eq_none]
        exact fun hm => absurd (he j hm) (hk.trans hj ▸ lt_irrefl _)
      case isFalse hj => rw [if_neg (hk ▸ hj)]
    case isFalse hk =>
      simp only [lookup, hi hs]
      split
      case isTrue he => rw [if_neg (he ▸ Ne.symm hk)]
      case isFalse   => rfl

variable {m : SortedMap κ ν}

@[simp]
theorem find?_upsert : (m.upsert k v).find? j = if k = j then some v else m.find? j :=
  lookup_assign

@[simp]
theorem find?_erase : (m.erase k).find? j = if k = j then none else m.find? j :=
  lookup_remove m.sorted

theorem lookup_eq_some {l : List (κ × ν)} (h : (l.map Prod.fst).Pairwise (· < ·)) :
    lookup k l = some v ↔ (k, v) ∈ l := by
  induction l <;> simp only [lookup, List.not_mem_nil, reduceCtorEq]
  case cons e es hi =>
    have ⟨he, hs⟩ := List.pairwise_cons.mp h
    rw [List.mem_cons]
    split
    case isTrue hk =>
      subst hk
      rw [Option.some.injEq]
      constructor
      case mp  => exact fun hv => .inl (Prod.ext rfl hv.symm)
      case mpr =>
        rintro (hv | hm)
        · exact congrArg Prod.snd hv.symm
        · exact absurd (he _ (List.mem_map_of_mem hm)) (lt_irrefl _)
    case isFalse hk =>
      rw [hi hs]
      exact ⟨.inr, fun h => h.resolve_left fun he => hk (congrArg Prod.fst he).symm⟩

theorem find?_eq_some : m.find? k = some v ↔ (k, v) ∈ m.entries :=
  lookup_eq_some m.sorted

theorem total_assign {f : ν → Nat} {l : List (κ × ν)} (h : (l.map Prod.fst).Pairwise (· < ·)) :
    ((assign k v l).map fun e => f e.2).sum + (lookup k l).elim 0 f =
      (l.map fun e => f e.2).sum + f v := by
  induction l <;> simp only [assign, lookup]
  case nil => simp
  case cons e es hi =>
    have ⟨he, hs⟩ := List.pairwise_cons.mp h
    split
    case isTrue hl =>
      have hn : lookup k es = none := by
        rw [lookup_eq_none]
        exact fun hm => absurd (lt_trans hl (he k hm)) (lt_irrefl _)
      simp only [if_neg (ne_of_gt hl), hn, List.map_cons, List.sum_cons, Option.elim]
      omega
    case isFalse =>
      split
      case isTrue hk =>
        simp only [hk, if_true, List.map_cons, List.sum_cons, Option.elim]
        omega
      case isFalse hk =>
        have := hi hs
        simp only [if_neg (Ne.symm hk), List.map_cons, List.sum_cons]
        omega

theorem total_remove {f : ν → Nat} {l : List (κ × ν)} :
    ((remove k l).map fun e => f e.2).sum + (lookup k l).elim 0 f =
      (l.map fun e => f e.2).sum := by
  induction l <;> simp only [remove, lookup]
  case nil => simp
  case cons e es hi =>
    split
    case isTrue =>
      simp only [List.map_cons, List.sum_cons, Option.elim]
      omega
    case isFalse =>
      simp only [List.map_cons, List.sum_cons]
      omega

theorem total_upsert {f : ν → Nat} :
    (m.upsert k v).total f + (m.find? k).elim 0 f = m.total f + f v :=
  total_assign m.sorted

theorem total_erase {f : ν → Nat} : (m.erase k).total f + (m.find? k).elim 0 f = m.total f :=
  total_remove

end SortedMap
