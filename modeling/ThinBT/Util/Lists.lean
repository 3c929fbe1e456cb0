import Mathlib.Data.List.Basic
import Mathlib.Data.List.Chain
import Mathlib.Data.List.Nodup
import Mathlib.Data.List.Perm.Basic
import Mathlib.Data.List.Induction
import Mathlib.Data.List.Sort
import Mathlib.Algebra.Ring.Nat

namespace List

-- Removes the first occurrence of `a` by overwriting it with the last element of the list:
-- `*it = l.back(); l.pop_back();`
def swapRemove [DecidableEq α] (l : List α) (a : α) : List α :=
  match l.getLast? with
  | none   => l
  | some b => if a ∈ l then (l.set (l.idxOf a) b).dropLast else l

theorem set_idxOf_append [DecidableEq α] {l : List α} (h : a ∈ l) :
    ((l ++ [b]).set ((l ++ [b]).idxOf a) b).dropLast ~ b :: l.erase a := by
  rw [idxOf_append_of_mem h, set_append_left _ _ (idxOf_lt_length_of_mem h), dropLast_concat]
  induction l
  case nil => cases h
  case cons c l hi =>
    by_cases hc : c = a
    case pos => simp [hc]
    case neg =>
      have hm := (mem_cons.mp h).resolve_left (Ne.symm hc)
      rw [idxOf_cons_ne _ hc, set_cons_succ, erase_cons_tail (by simpa using hc)]
      exact ((hi hm).cons c).trans (.swap ..)

theorem swapRemove_perm_erase [DecidableEq α] (l : List α) (a : α) : l.swapRemove a ~ l.erase a := by
  induction l using reverseRecOn
  case nil => exact .refl _
  case append_singleton l b _ =>
    simp only [swapRemove, getLast?_append, getLast?_singleton, Option.some_or]
    by_cases hl : a ∈ l
    case pos =>
      rw [if_pos (mem_append_left _ hl), erase_append_left _ hl]
      exact (set_idxOf_append hl).trans (perm_append_singleton _ _).symm
    case neg =>
      by_cases hb : a = b
      case pos =>
        rw [if_pos (by simp [hb]), erase_append_right _ hl, idxOf_append_of_notMem hl, hb]
        simp
      case neg =>
        have hn : a ∉ l ++ [b] := by simp [hl, hb]
        rw [if_neg hn, erase_of_not_mem hn]

theorem Nodup.swapRemove [DecidableEq α] {l : List α} (h : l.Nodup) : (l.swapRemove a).Nodup :=
  (l.swapRemove_perm_erase a).nodup_iff.mpr (h.erase a)

theorem Nodup.mem_swapRemove [DecidableEq α] {l : List α} (h : l.Nodup) :
    b ∈ l.swapRemove a ↔ b ∈ l ∧ b ≠ a := by
  rw [(l.swapRemove_perm_erase a).mem_iff, h.mem_erase_iff, and_comm]

-- An entry of a table whose rows may differ in length.
def entry (t : List (List α)) (d : α) (i j : Nat) : α :=
  (t.getD i []).getD j d

def setEntry (t : List (List α)) (i j : Nat) (v : α) : List (List α) :=
  t.modify i (·.set j v)

def rowLength (t : List (List α)) (i : Nat) : Nat :=
  (t.getD i []).length

theorem getD_modify {l : List α} :
    (l.modify i f).getD j d = if i = j ∧ j < l.length then f (l.getD j d) else l.getD j d := by
  simp only [getD_eq_getElem?_getD, getElem?_modify]
  by_cases hj : j < l.length
  case pos => by_cases hi : i = j <;> simp [hj, hi]
  case neg => simp [hj]

theorem rowLength_setEntry {t : List (List α)} :
    (t.setEntry i j v).rowLength k = t.rowLength k := by
  simp only [rowLength, setEntry, getD_modify]
  split <;> simp

theorem lt_length_of_lt_rowLength {t : List (List α)} (h : j < t.rowLength i) : i < t.length := by
  by_contra hc
  simp [rowLength, getD_eq_getElem?_getD, getElem?_eq_none (Nat.not_lt.mp hc)] at h

theorem entry_setEntry {t : List (List α)} :
    (t.setEntry i j v).entry d k l =
      if (i = k ∧ j = l) ∧ l < t.rowLength k then v else t.entry d k l := by
  simp only [entry, setEntry, getD_modify]
  by_cases hk : i = k ∧ k < t.length
  case pos =>
    rw [if_pos hk]
    simp only [getD_eq_getElem?_getD, rowLength, getElem?_set, hk.left, true_and]
    by_cases hj : j = l <;> by_cases hl : l < (t[k]?.getD []).length <;> simp [hj, hl]
  case neg =>
    rw [if_neg hk, if_neg]
    rintro ⟨⟨h, -⟩, hl⟩
    exact hk ⟨h, lt_length_of_lt_rowLength hl⟩

theorem rowLength_modify_map {t : List (List α)} :
    (t.modify i (·.map f)).rowLength k = t.rowLength k := by
  simp only [rowLength, getD_modify]
  split <;> simp

theorem entry_modify_map {t : List (List α)} :
    (t.modify i (·.map fun _ => d)).entry d k l = if i = k then d else t.entry d k l := by
  simp only [entry, getD_modify]
  by_cases hi : i = k
  case pos =>
    subst hi
    by_cases hl : i < t.length
    case pos =>
      rw [if_pos ⟨rfl, hl⟩, if_pos rfl, getD_eq_getElem?_getD, getElem?_map]
      cases (t.getD i [])[l]? <;> rfl
    case neg => simp [hl]
  case neg => simp [hi]

theorem entry_clear {t : List (List Bool)} :
    (t.modify i (·.map fun _ => false)).entry false k l = (t.entry false k l && k ≠ i) := by
  rw [entry_modify_map]
  by_cases hi : i = k
  case pos => simp [hi]
  case neg => simp [hi, Ne.symm hi]

theorem entry_of_rowLength_le {t : List (List α)} (h : t.rowLength i ≤ j) : t.entry d i j = d := by
  simp only [entry, getD_eq_getElem?_getD]
  rw [getElem?_eq_none (by simpa [rowLength, getD_eq_getElem?_getD] using h), Option.getD_none]

theorem lt_rowLength_of_entry_ne {t : List (List α)} (h : t.entry d i j ≠ d) : j < t.rowLength i := by
  by_contra hc
  exact h (entry_of_rowLength_le (Nat.not_lt.mp hc))

-- The number of set flags of a row.
def rowCount (t : List (List Bool)) (i : Nat) : Nat :=
  (t.getD i []).count true

theorem count_set_true {l : List Bool} : (l.set j true).count true =
    l.count true + if j < l.length ∧ l.getD j false = false then 1 else 0 := by
  induction l generalizing j
  case nil => rfl
  case cons b l hi =>
    cases j
    case zero   => cases b <;> simp
    case succ j => simp [count_cons, hi, Nat.add_right_comm]

theorem count_set_false {l : List Bool} :
    (l.set j false).count true + (if l.getD j false = true then 1 else 0) = l.count true := by
  induction l generalizing j
  case nil => rfl
  case cons b l hi =>
    cases j
    case zero   => cases b <;> simp
    case succ j => simp [count_cons, ← hi (j := j), Nat.add_right_comm]

theorem rowCount_setEntry_true {t : List (List Bool)} : (t.setEntry i j true).rowCount k =
    t.rowCount k + if i = k ∧ j < t.rowLength k ∧ t.entry false k j = false then 1 else 0 := by
  simp only [rowCount, setEntry, getD_modify]
  by_cases hk : i = k ∧ k < t.length
  case pos =>
    rw [if_pos hk, count_set_true]
    simp only [hk.left, true_and]
    rfl
  case neg =>
    rw [if_neg hk, if_neg fun h => hk ⟨h.left, lt_length_of_lt_rowLength h.right.left⟩, Nat.add_zero]

theorem rowCount_setEntry_false {t : List (List Bool)} :
    (t.setEntry i j false).rowCount k + (if i = k ∧ t.entry false k j = true then 1 else 0) =
      t.rowCount k := by
  simp only [rowCount, setEntry, getD_modify]
  by_cases hk : i = k ∧ k < t.length
  case pos =>
    rw [if_pos hk]
    simp only [hk.left, true_and]
    exact count_set_false
  case neg =>
    have hn : ¬(i = k ∧ t.entry false k j = true) := by
      rintro ⟨rfl, h⟩
      have hj : j < t.rowLength i := lt_rowLength_of_entry_ne (d := false) (by simp [h])
      exact hk ⟨rfl, lt_length_of_lt_rowLength hj⟩
    rw [if_neg hk, if_neg hn, Nat.add_zero]

theorem rowCount_modify_map {t : List (List Bool)} :
    (t.modify i (·.map fun _ => false)).rowCount k = if i = k then 0 else t.rowCount k := by
  simp only [rowCount, getD_modify]
  by_cases hk : i = k
  case pos => by_cases hl : k < t.length <;> simp [hk, hl, count_eq_zero]
  case neg => simp [hk]

theorem rowCount_lt_rowLength {t : List (List Bool)} (h : j < t.rowLength i)
    (he : t.entry false i j = false) : t.rowCount i < t.rowLength i := by
  refine Nat.lt_of_le_of_ne count_le_length fun hc => ?_
  have hm : (t.getD i [])[j] ∈ t.getD i [] := getElem_mem h
  rw [entry, getD_eq_getElem?_getD, getElem?_eq_getElem h, Option.getD_some] at he
  exact Bool.false_ne_true (he.symm.trans (count_eq_length.mp hc _ hm).symm)

-- Replacing an element changes `any` only through that element.
theorem any_set {l : List α} {p : α → Bool} {i : Nat} (h : l[i]? = some x) :
    ∃ r, l.any p = (p x || r) ∧ ∀ y, (l.set i y).any p = (p y || r) := by
  obtain ⟨hi, rfl⟩ := getElem?_eq_some_iff.mp h
  refine ⟨(l.take i).any p || (l.drop (i + 1)).any p, ?_, fun y => ?_⟩
  · conv => lhs; rw [← take_append_drop i l, ← getElem_cons_drop hi]
    rw [any_append, any_cons, Bool.or_left_comm]
  · rw [set_eq_take_append_cons_drop, if_pos hi, any_append, any_cons, Bool.or_left_comm]

theorem any_modify_or {l : List α} {p : α → Bool} {f : α → α} (h : ∀ x, p (f x) = (p x || b))
    (hi : i < l.length) : (l.modify i f).any p = (l.any p || b) := by
  induction l generalizing i
  case nil => cases hi
  case cons x l ih =>
    cases i
    case zero   => simp [h, Bool.or_right_comm]
    case succ i => simp [ih (Nat.lt_of_succ_lt_succ hi), Bool.or_assoc]

theorem countP_set_add {l : List α} {p : α → Bool} {i : Nat} (h : l[i]? = some x) :
    (l.set i y).countP p + (if p x then 1 else 0) = l.countP p + if p y then 1 else 0 := by
  obtain ⟨hi, rfl⟩ := getElem?_eq_some_iff.mp h
  rw [countP_set hi]
  split
  case isTrue hp =>
    have : 0 < l.countP p := countP_pos_iff.mpr ⟨_, getElem_mem hi, hp⟩
    omega
  case isFalse => omega

theorem countP_modify {l : List α} {p : α → Bool} {f : α → α} (h : l[i]? = some x) :
    (l.modify i f).countP p + (p x).toNat = l.countP p + (p (f x)).toNat := by
  induction l generalizing i
  case nil => cases h
  case cons a l hi =>
    cases i
    case zero =>
      obtain rfl := Option.some.inj h
      rw [modify_zero_cons, countP_cons, countP_cons]
      cases p a <;> cases p (f a) <;> rfl
    case succ i =>
      have hi := hi h
      rw [modify_succ_cons, countP_cons, countP_cons]
      omega

theorem countP_mapIdx {l : List α} {p : β → Bool} {q : α → Bool} {f : Nat → α → β}
    (h : ∀ i x, p (f i x) = q x) : (l.mapIdx f).countP p = l.countP q := by
  induction l generalizing f
  case nil         => rfl
  case cons a l hi => rw [mapIdx_cons, countP_cons, countP_cons, h, hi fun i => h (i + 1)]

theorem set_eq_self {l : List α} {i : Nat} (h : l[i]? = some a) : l.set i a = l := by
  obtain ⟨hi, rfl⟩ := getElem?_eq_some_iff.mp h
  exact set_getElem_self hi

theorem modify_concat_length {l : List α} : (l ++ [a]).modify l.length f = l ++ [f a] := by
  induction l
  case nil         => rfl
  case cons b l hi => exact congrArg (b :: ·) hi

section Stable

theorem Nodup.pairwise_idxOf [DecidableEq α] {l : List α} (h : l.Nodup) :
    l.Pairwise fun a b => l.idxOf a < l.idxOf b := by
  refine pairwise_iff_getElem.mpr fun i j hi hj hij => ?_
  rwa [h.idxOf_getElem, h.idxOf_getElem]

variable {r S : α → α → Prop} [DecidableRel r] [Std.Total r] [IsTrans α r]

-- Insertion sort is stable: what holds of the elements in their given order still holds of those
-- that the sort does not tell apart.
theorem pairwise_orderedInsert {l : List α} (h : l.Pairwise fun a b => r a b ∧ (r b a → S a b))
    (ha : ∀ b ∈ l, S a b) :
    (l.orderedInsert r a).Pairwise fun a b => r a b ∧ (r b a → S a b) := by
  induction l
  case nil => exact pairwise_singleton ..
  case cons b l hi =>
    obtain ⟨hb, hl⟩ := pairwise_cons.mp h
    by_cases hr : r a b
    case pos =>
      rw [orderedInsert_cons_of_le _ _ hr]
      refine pairwise_cons.mpr ⟨fun c hc => ⟨?_, fun _ => ha c hc⟩, h⟩
      cases mem_cons.mp hc
      case inl hc => exact hc ▸ hr
      case inr hc => exact IsTrans.trans _ _ _ hr (hb c hc).left
    case neg =>
      rw [orderedInsert_of_not_le _ _ hr]
      refine pairwise_cons.mpr ⟨fun c hc => ?_, hi hl fun c hc => ha c (mem_cons_of_mem _ hc)⟩
      cases (mem_orderedInsert ..).mp hc
      case inl hc => exact hc ▸ ⟨(Std.Total.total a b).resolve_left hr, fun h => absurd h hr⟩
      case inr hc => exact hb c hc

theorem pairwise_insertionSort_of_pairwise {l : List α} (h : l.Pairwise S) :
    (l.insertionSort r).Pairwise fun a b => r a b ∧ (r b a → S a b) := by
  induction l
  case nil => exact .nil
  case cons a l hi =>
    obtain ⟨ha, hl⟩ := pairwise_cons.mp h
    exact pairwise_orderedInsert (hi hl) fun b hb => ha b ((mem_insertionSort r).mp hb)

end Stable

section Filter

variable {key : α → κ} {p : α → Bool} {f : α → α}

theorem map_filter_modify {l : List α} (hp : ∀ a, p (f a) = p a) (hk : ∀ a, key (f a) = key a) :
    ((l.modify i f).filter p).map key = (l.filter p).map key := by
  induction l generalizing i
  case nil         => cases i <;> rfl
  case cons a l hi =>
    cases i
    case zero   => by_cases ha : p a <;> simp [hp, hk, ha]
    case succ i => by_cases ha : p a <;> simp [hi, ha]

-- Changing an element such that it is not kept takes away its key.
theorem map_filter_modify_of_neg [DecidableEq κ] {l : List α} (hn : (l.map key).Nodup)
    (hx : l[i]? = some x) (hp : p (f x) = false) :
    ((l.modify i f).filter p).map key = ((l.filter p).map key).filter (· ≠ key x) := by
  induction l generalizing i
  case nil         => cases hx
  case cons a l hi =>
    obtain ⟨ha, hl⟩ := nodup_cons.mp hn
    cases i
    case zero =>
      obtain rfl := Option.some.inj hx
      -- No other element has the key.
      have hs : ((l.filter p).map key).filter (· ≠ key a) = (l.filter p).map key := by
        refine filter_eq_self.mpr fun k hk => decide_eq_true ?_
        rintro rfl
        exact ha ((filter_sublist.map key).mem hk)
      by_cases hb : p a
      case pos => simpa [hp, hb] using hs.symm
      case neg => simpa [hp, hb] using hs.symm
    case succ i =>
      have hne : key a ≠ key x := fun he => ha (he ▸ mem_map.mpr ⟨x, mem_of_getElem? hx, rfl⟩)
      have hi := hi hl hx
      by_cases hb : p a
      case pos => simpa [hb, hne] using hi
      case neg => simpa [hb] using hi

-- Dropping the elements with the key of one of them drops only that one.
theorem countP_filter_key [DecidableEq κ] {l : List α} (hn : (l.map key).Nodup)
    (h : l.find? (key · = k) = some x) :
    (l.filter (key · ≠ k)).countP p + (p x).toNat = l.countP p := by
  induction l
  case nil => cases h
  case cons a l hi =>
    obtain ⟨ha, hl⟩ := nodup_cons.mp hn
    by_cases hk : key a = k
    case pos =>
      obtain rfl : a = x := by simpa [hk] using h
      have hs : l.filter (key · ≠ k) = l := by
        refine filter_eq_self.mpr fun y hy => decide_eq_true fun he => ha ?_
        exact mem_map.mpr ⟨y, hy, he.trans hk.symm⟩
      rw [filter_cons_of_neg (by simpa using hk), hs, countP_cons]
      cases p a <;> rfl
    case neg =>
      rw [find?_cons_of_neg (by simpa using hk)] at h
      have hi := hi hl h
      rw [filter_cons_of_pos (by simpa using hk), countP_cons, countP_cons]
      omega

-- Fewer elements are kept if more of them are marked.
theorem filter_zip_sublist {bs bs' : List Bool} {l : List α}
    (h : Forall₂ (fun b b' => b' = false → b = false) bs bs') :
    ((bs'.zip l).filter (!·.1)).map (·.2) <+ ((bs.zip l).filter (!·.1)).map (·.2) := by
  induction h generalizing l
  case nil => exact Sublist.refl _
  case cons b b' bs bs' hb _ hi =>
    cases l
    case nil => exact Sublist.refl _
    case cons a l =>
      cases b'
      case true =>
        refine hi.trans ?_
        cases b
        case true  => exact Sublist.refl _
        case false => exact sublist_cons_self ..
      case false =>
        obtain rfl := hb rfl
        exact hi.cons_cons a

end Filter

section Upsert

variable [DecidableEq κ] {key : α → κ}

-- Replaces the first element with the same key, or appends the new one.
def upsert (key : α → κ) (l : List α) (a : α) : List α :=
  match l with
  | []     => [a]
  | b :: l => if key b = key a then a :: l else b :: upsert key l a

theorem map_upsert {l : List α} : (l.upsert key a).map key =
    if key a ∈ l.map key then l.map key else l.map key ++ [key a] := by
  induction l
  case nil => simp [upsert]
  case cons b l hi =>
    by_cases hb : key b = key a
    case pos => simp [upsert, hb]
    case neg =>
      have hm : key a ∈ key b :: l.map key ↔ key a ∈ l.map key := by
        rw [mem_cons, or_iff_right (Ne.symm hb)]
      rw [upsert, if_neg hb, map_cons, hi, map_cons]
      simp only [hm]
      split <;> rfl

theorem nodup_map_upsert {l : List α} (h : (l.map key).Nodup) : ((l.upsert key a).map key).Nodup := by
  rw [map_upsert]
  split
  case isTrue     => exact h
  case isFalse hn => exact concat_eq_append ▸ h.concat hn

theorem mem_upsert {l : List α} (h : (l.map key).Nodup) :
    x ∈ l.upsert key a ↔ x = a ∨ x ∈ l ∧ key x ≠ key a := by
  induction l
  case nil => simp [upsert]
  case cons b l hi =>
    obtain ⟨hb, hn⟩ := nodup_cons.mp h
    by_cases he : key b = key a
    case pos =>
      -- No other element has the key.
      have hl (hx : x ∈ l) : key x ≠ key a := fun hk => hb (mem_map.mpr ⟨x, hx, hk.trans he.symm⟩)
      rw [upsert, if_pos he, mem_cons, mem_cons]
      refine or_congr_right ⟨fun hx => ⟨.inr hx, hl hx⟩, ?_⟩
      rintro ⟨rfl | hx, hk⟩
      case inl => exact absurd he hk
      case inr => exact hx
    case neg =>
      rw [upsert, if_neg he, mem_cons, mem_cons, hi hn, or_left_comm, or_and_right]
      refine or_congr_right (or_congr_left ⟨fun hx => ⟨hx, hx ▸ he⟩, And.left⟩)

end Upsert

-- A sum that is accumulated modulo `2 ^ 64`.
theorem foldl_add_eq_ofNat {f : α → UInt64} {l : List α} {n : UInt64} :
    l.foldl (fun n x => n + f x) n = n + .ofNat (l.map fun x => (f x).toNat).sum := by
  induction l generalizing n
  case nil => simp
  case cons x l hi =>
    rw [foldl_cons, hi, map_cons, sum_cons, UInt64.ofNat_add, UInt64.ofNat_toNat, UInt64.add_assoc]

theorem mapM_eq_some_of_forall {f : α → Option β} {g : α → β} {l : List α}
    (h : ∀ a ∈ l, f a = some (g a)) : l.mapM f = some (l.map g) := by
  induction l
  case nil => rfl
  case cons a l hi =>
    obtain ⟨ha, hl⟩ := forall_mem_cons.mp h
    rw [mapM_cons, ha, hi hl]
    rfl

section Prefixes

variable {l u v : List α}

-- A prefix that reaches behind the first part.
theorem exists_of_prefix_append (h : u <+: l ++ v) (hl : l.length ≤ u.length) :
    ∃ t, u = l ++ t ∧ t <+: v := by
  obtain ⟨t, rfl⟩ := prefix_of_prefix_length_le (prefix_append l v) h hl
  exact ⟨t, rfl, (prefix_append_right_inj l).mp h⟩

theorem take_eq_of_prefix (h : u <+: l) (hn : n ≤ u.length) : u.take n = l.take n := by
  obtain ⟨t, rfl⟩ := h
  rw [take_append_of_le_length hn]

end Prefixes
-- The last element of a chain only has to be related to.
theorem IsChain.imp_concat {R S : α → α → Prop} {l : List α} (h : (l ++ [z]).IsChain R)
    (hi : ∀ a ∈ l, ∀ c, R a c → S a c) : (l ++ [z]).IsChain S := by
  induction l
  case nil => exact .singleton _
  case cons a l ih =>
    obtain ⟨ha, hl⟩ := forall_mem_cons.mp hi
    cases l
    case nil => exact isChain_pair.mpr (ha z (isChain_pair.mp h))
    case cons b l =>
      obtain ⟨hab, h⟩ := isChain_cons_cons.mp h
      exact isChain_cons_cons.mpr ⟨ha b hab, ih h hl⟩

end List
