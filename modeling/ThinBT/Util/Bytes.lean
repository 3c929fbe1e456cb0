import Mathlib.Data.List.Basic
import Mathlib.Data.List.GetD

-- Reading and overwriting a range of a list, as `memcpy` and `pread` do with memory and files.
namespace List

variable {l m d : List α}

def slice (l : List α) (off len : Nat) : List α :=
  (l.drop off).take len

-- Overwrites the elements from position `off` on. The list keeps its length.
def overwrite (l : List α) (off : Nat) (d : List α) : List α :=
  l.mapIdx fun k x => if off ≤ k ∧ k < off + d.length then d.getD (k - off) x else x

theorem getElem?_slice : (l.slice off len)[k]? = if k < len then l[off + k]? else none := by
  rw [slice, getElem?_take, getElem?_drop]

theorem slice_succ (h : l[off + len]? = some x) : l.slice off (len + 1) = l.slice off len ++ [x] := by
  rw [slice, take_add_one, getElem?_drop, h, slice, Option.toList_some]

theorem slice_eq_slice_iff :
    l.slice off len = m.slice off len ↔ ∀ k, off ≤ k → k < off + len → l[k]? = m[k]? := by
  constructor
  case mp =>
    intro h k hk hl
    have hs := congrArg (·[k - off]?) h
    simp only [getElem?_slice, if_pos (show k - off < len by omega)] at hs
    rwa [Nat.add_sub_cancel' hk] at hs
  case mpr =>
    intro h
    apply ext_getElem?
    intro k
    simp only [getElem?_slice]
    split
    case isTrue hk => exact h (off + k) (Nat.le_add_right ..) (by omega)
    case isFalse   => rfl

theorem slice_set (h : ¬(off ≤ i ∧ i < off + len)) :
    (l.set i x).slice off len = l.slice off len := by
  rw [slice_eq_slice_iff]
  intro k hk hl
  exact getElem?_set_ne (by omega)

theorem length_slice (h : off + len ≤ l.length) : (l.slice off len).length = len := by
  simp only [slice, length_take, length_drop]
  omega

@[simp]
theorem length_overwrite : (l.overwrite off d).length = l.length :=
  length_mapIdx ..

theorem getElem?_overwrite_of_mem (hk : off ≤ k) (hd : k < off + d.length) (hl : k < l.length) :
    (l.overwrite off d)[k]? = d[k - off]? := by
  have hd' : k - off < d.length := by omega
  rw [overwrite, getElem?_mapIdx, getElem?_eq_getElem hl, getElem?_eq_getElem hd', Option.map_some,
    if_pos ⟨hk, hd⟩, getD_eq_getElem _ _ hd']

theorem getElem?_overwrite_of_not_mem (h : ¬(off ≤ k ∧ k < off + d.length)) :
    (l.overwrite off d)[k]? = l[k]? := by
  simp only [overwrite, getElem?_mapIdx, if_neg h, Option.map_id_fun', id]

@[simp]
theorem overwrite_nil : l.overwrite off [] = l := by
  refine ext_getElem? fun k => getElem?_overwrite_of_not_mem ?_
  rw [length_nil]
  omega

theorem overwrite_concat :
    l.overwrite off (d ++ [x]) = (l.overwrite off d).set (off + d.length) x := by
  refine ext_getElem? fun k => ?_
  rw [getElem?_set, length_overwrite]
  split
  case isTrue he =>
    subst he
    split
    case isTrue hl =>
      rw [getElem?_overwrite_of_mem (by omega) (by simp) hl, Nat.add_sub_cancel_left,
        getElem?_concat_length]
    case isFalse hl => rw [getElem?_eq_none (by simpa using hl)]
  case isFalse hne =>
    have hk : off ≤ k ∧ k < off + (d ++ [x]).length ↔ off ≤ k ∧ k < off + d.length := by
      rw [length_append, length_singleton]
      omega
    simp only [overwrite, getElem?_mapIdx, hk]
    refine congrArg (Option.map · _) (funext fun y => ite_congr rfl (fun hk => ?_) fun _ => rfl)
    rw [getD_append _ _ _ _ (by omega)]

-- Between the positions `lo` and `hi` of `l`, overwriting from `off` on with `d` changes nothing.
def MatchesOn (l : List α) (off : Nat) (d : List α) (lo hi : Nat) : Prop :=
  ∀ k < hi, lo ≤ k ∧ off ≤ k ∧ k < off + d.length → l[k]? = d[k - off]?

instance [DecidableEq α] : Decidable (l.MatchesOn off d lo hi) :=
  inferInstanceAs (Decidable (∀ k < hi, lo ≤ k ∧ off ≤ k ∧ k < off + d.length → l[k]? = d[k - off]?))

theorem MatchesOn.slice_overwrite (h : l.MatchesOn off d p (p + n)) :
    (l.overwrite off d).slice p n = l.slice p n := by
  rw [slice_eq_slice_iff]
  intro k hp hn
  by_cases hk : off ≤ k ∧ k < off + d.length
  case neg => exact getElem?_overwrite_of_not_mem hk
  case pos =>
    have he := h k hn ⟨hp, hk⟩
    have hl : k < l.length := by
      have hd : k - off < d.length := by omega
      rw [getElem?_eq_getElem hd] at he
      exact (getElem?_eq_some_iff.mp he).choose
    rw [getElem?_overwrite_of_mem hk.left hk.right hl, he]

theorem slice_overwrite_self (h : off + d.length ≤ l.length) :
    (l.overwrite off d).slice off d.length = d := by
  apply ext_getElem?
  intro k
  rw [getElem?_slice]
  split
  case isTrue hk =>
    rw [getElem?_overwrite_of_mem (by omega) (by omega) (by omega), Nat.add_sub_cancel_left]
  case isFalse hk => rw [getElem?_eq_none (by omega)]

theorem overwrite_eq_self_iff (h : off + d.length ≤ l.length) :
    l.overwrite off d = l ↔ l.slice off d.length = d := by
  constructor
  · intro he
    conv_lhs => rw [← he]
    exact slice_overwrite_self h
  · intro hs
    apply ext_getElem?
    intro k
    by_cases hk : off ≤ k ∧ k < off + d.length
    case neg => exact getElem?_overwrite_of_not_mem hk
    case pos =>
      have hd : d[k - off]? = l[k]? := by
        rw [← hs, getElem?_slice, if_pos (by omega), Nat.add_sub_cancel' hk.left]
      rw [getElem?_overwrite_of_mem hk.left hk.right (by omega), hd]

theorem slice_eq_slice_of_le (h : l.slice p n = m.slice p n) (hp : p ≤ q) (hn : q + k ≤ p + n) :
    l.slice q k = m.slice q k := by
  rw [slice_eq_slice_iff] at h ⊢
  intro i hq hk
  exact h i (by omega) (by omega)

-- Two lists that have the same blocks of size `b`, the last of which may be shorter.
theorem slice_eq_slice_of_blocks (hb : 0 < b)
    (h : ∀ s, s * b < n → l.slice (p + s * b) (min b (n - s * b)) =
      m.slice (p + s * b) (min b (n - s * b))) :
    l.slice p n = m.slice p n := by
  rw [slice_eq_slice_iff]
  intro i hp hn
  have hd := Nat.div_add_mod' (i - p) b
  have hr := Nat.mod_lt (i - p) hb
  have hs : (i - p) / b * b < n := by omega
  exact slice_eq_slice_iff.mp (h _ hs) i (by omega) (by omega)

-- Writing parts of `m` into `l` keeps what `l` has in common with `m`.
theorem slice_overwrite_of_part (hl : l.length = m.length) (hd : d = m.slice off d.length)
    (h : l.slice p n = m.slice p n) : (l.overwrite off d).slice p n = m.slice p n := by
  rw [slice_eq_slice_iff] at h ⊢
  intro k hp hn
  by_cases hk : off ≤ k ∧ k < off + d.length ∧ k < l.length
  case pos =>
    have ⟨ho, hd', hl'⟩ := hk
    rw [getElem?_overwrite_of_mem ho hd' hl', hd, getElem?_slice, if_pos (by omega),
      Nat.add_sub_cancel' ho]
  case neg =>
    by_cases hl' : k < l.length
    case pos => rw [getElem?_overwrite_of_not_mem (by omega), h k hp hn]
    case neg => rw [getElem?_eq_none (by simpa using hl'), getElem?_eq_none (by omega)]

end List
