import ThinBT.Util.Bytes
import Mathlib.Data.List.Basic
import Mathlib.Data.List.Infix
import Mathlib.Data.List.TakeWhile

-- Searching in strings over an alphabet, by positions as `std::string` does it.
namespace Strings

variable {α : Type} [DecidableEq α] {pat s t v : List α} {q : α}

-- The position of the first occurrence.
def find (pat : List α) : List α → Option Nat
  | []     => if pat = [] then some 0 else none
  | a :: s => if pat <+: a :: s then some 0 else (find pat s).map (· + 1)

-- The position of the first occurrence that does not start before `pos`.
def findFrom (pat s : List α) (pos : Nat) : Option Nat :=
  if pos ≤ s.length then (find pat (s.drop pos)).map (pos + ·) else none

-- The text between the first occurrence of `pat` and the next `q`, and the position behind it.
def between (pat : List α) (q : α) (s : List α) : Option (List α × Nat) := do
  let i ← find pat s
  let e ← findFrom [q] s (i + pat.length)
  return (s.slice (i + pat.length) (e - (i + pat.length)), e + 1)

theorem find_eq_some_iff :
    find pat s = some i ↔ i ≤ s.length ∧ pat <+: s.drop i ∧ ∀ j < i, ¬pat <+: s.drop j := by
  induction s generalizing i
  case nil =>
    rw [find]
    by_cases hp : pat = []
    case pos =>
      rw [if_pos hp, Option.some.injEq]
      constructor
      · rintro rfl
        exact ⟨Nat.le_refl _, hp ▸ List.nil_prefix, fun j hj => absurd hj (Nat.not_lt_zero j)⟩
      · exact fun h => (Nat.le_zero.mp h.left).symm
    case neg =>
      rw [if_neg hp]
      refine iff_of_false (by simp) fun h => hp ?_
      simpa using h.right.left
  case cons a s hi =>
    rw [find]
    by_cases hp : pat <+: a :: s
    case pos =>
      rw [if_pos hp, Option.some.injEq]
      constructor
      · rintro rfl
        exact ⟨Nat.zero_le _, hp, fun j hj => absurd hj (Nat.not_lt_zero j)⟩
      · intro h
        by_contra hn
        exact h.right.right 0 (Nat.pos_of_ne_zero (Ne.symm hn)) hp
    case neg =>
      rw [if_neg hp]
      cases i
      case zero =>
        refine iff_of_false (by simp) fun h => hp h.right.left
      case succ i =>
        rw [Option.map_eq_some_iff]
        simp only [Nat.add_right_cancel_iff, exists_eq_right, hi, List.length_cons,
          Nat.add_le_add_iff_right, List.drop_succ_cons]
        refine and_congr_right fun _ => and_congr_right fun _ => ⟨fun h j hj => ?_, fun h j hj => ?_⟩
        · cases j
          case zero   => exact hp
          case succ j => exact h j (Nat.lt_of_succ_lt_succ hj)
        · exact h (j + 1) (Nat.succ_lt_succ hj)

theorem find_eq_none_iff : find pat s = none ↔ ∀ j ≤ s.length, ¬pat <+: s.drop j := by
  induction s
  case nil =>
    rw [find]
    by_cases hp : pat = [] <;> simp [hp]
  case cons a s hi =>
    rw [find]
    by_cases hp : pat <+: a :: s
    case pos =>
      rw [if_pos hp]
      exact iff_of_false (by simp) fun h => h 0 (Nat.zero_le _) hp
    case neg =>
      rw [if_neg hp, Option.map_eq_none_iff, hi]
      constructor
      · intro h j hj
        cases j
        case zero   => exact hp
        case succ j => exact h j (Nat.le_of_succ_le_succ hj)
      · exact fun h j hj => h (j + 1) (Nat.succ_le_succ hj)

theorem find_cons (h : ¬pat <+: a :: s) : find pat (a :: s) = (find pat s).map (· + 1) :=
  if_neg h

theorem find_append_self : find pat (pat ++ s) = some 0 := by
  rw [find_eq_some_iff]
  exact ⟨Nat.zero_le _, List.prefix_append .., fun j hj => absurd hj (Nat.not_lt_zero j)⟩

-- In a part from the start on, only the occurrences are found that lie in it.
theorem find_take (hp : pat ≠ []) :
    find pat (s.take n) = (find pat s).filter fun i => i + pat.length ≤ n := by
  have hl := List.length_pos_iff.mpr hp
  have occurs {j : Nat} : pat <+: (s.take n).drop j ↔ pat <+: s.drop j ∧ j + pat.length ≤ n := by
    rw [List.drop_take, List.prefix_take_iff]
    refine and_congr_right fun _ => ?_
    omega
  cases hf : find pat s
  case none =>
    rw [Option.filter_none, find_eq_none_iff]
    rw [find_eq_none_iff] at hf
    intro j hj hpre
    exact hf j (hj.trans (List.length_take_le' ..)) (occurs.mp hpre).left
  case some i =>
    obtain ⟨hi, hpre, hfirst⟩ := find_eq_some_iff.mp hf
    by_cases hn : i + pat.length ≤ n
    case pos =>
      rw [Option.filter_some, if_pos (decide_eq_true hn), find_eq_some_iff, List.length_take]
      exact ⟨by omega, occurs.mpr ⟨hpre, hn⟩, fun j hj h => hfirst j hj (occurs.mp h).left⟩
    case neg =>
      rw [Option.filter_some, if_neg (by simpa using hn), find_eq_none_iff]
      intro j _ h
      obtain ⟨h, hj⟩ := occurs.mp h
      exact hfirst j (by omega) h

theorem find_singleton_iff :
    find [q] s = some i ↔ ∃ v rest, s = v ++ q :: rest ∧ q ∉ v ∧ v.length = i := by
  induction s generalizing i
  case nil => simp [find]
  case cons a s hi =>
    by_cases hq : q = a
    case pos =>
      subst hq
      rw [find, if_pos (by simp), Option.some.injEq]
      constructor
      · rintro rfl
        exact ⟨[], s, rfl, List.not_mem_nil, rfl⟩
      · rintro ⟨v, rest, he, hv, rfl⟩
        cases v
        case nil => rfl
        case cons b v =>
          obtain ⟨rfl, _⟩ := List.cons.inj he
          exact absurd List.mem_cons_self hv
    case neg =>
      rw [find_cons (by simpa using hq), Option.map_eq_some_iff]
      constructor
      · rintro ⟨j, hj, rfl⟩
        obtain ⟨v, rest, rfl, hv, rfl⟩ := hi.mp hj
        exact ⟨a :: v, rest, rfl, by simp [hq, hv], rfl⟩
      · rintro ⟨v, rest, he, hv, rfl⟩
        cases v
        case nil => exact absurd (List.cons.inj he).left.symm hq
        case cons b v =>
          obtain ⟨rfl, rfl⟩ := List.cons.inj he
          exact ⟨v.length, hi.mpr ⟨v, rest, rfl, fun h => hv (List.mem_cons_of_mem _ h), rfl⟩, rfl⟩

theorem findFrom_singleton_iff : findFrom [q] s pos = some e ↔
    ∃ v rest, s.drop pos = v ++ q :: rest ∧ q ∉ v ∧ pos + v.length = e := by
  rw [findFrom]
  by_cases hp : pos ≤ s.length
  case pos =>
    rw [if_pos hp, Option.map_eq_some_iff]
    simp only [find_singleton_iff]
    constructor
    · rintro ⟨_, ⟨v, rest, hd, hv, rfl⟩, rfl⟩
      exact ⟨v, rest, hd, hv, rfl⟩
    · rintro ⟨v, rest, hd, hv, rfl⟩
      exact ⟨_, ⟨v, rest, hd, hv, rfl⟩, rfl⟩
  case neg =>
    rw [if_neg hp]
    refine iff_of_false (by simp) ?_
    rintro ⟨v, rest, hd, -⟩
    rw [List.drop_of_length_le (by omega)] at hd
    simp at hd

-- The text before the first occurrence and behind it.
theorem find_split_iff : find pat s = some i ↔
    ∃ t r, t ++ (pat ++ r) = s ∧ t.length = i ∧ ∀ j < t.length, ¬pat <+: s.drop j := by
  rw [find_eq_some_iff]
  constructor
  · rintro ⟨hi, ⟨r, hr⟩, hfirst⟩
    refine ⟨s.take i, r, by rw [hr, List.take_append_drop], List.length_take_of_le hi, ?_⟩
    rwa [List.length_take_of_le hi]
  · rintro ⟨t, r, rfl, rfl, hfirst⟩
    refine ⟨?_, ?_, hfirst⟩
    · rw [List.length_append]
      exact Nat.le_add_right ..
    · rw [List.drop_left]
      exact List.prefix_append ..

theorem between_eq_some_iff : between pat q s = some (v, e) ↔
    ∃ i rest, find pat s = some i ∧ s.drop (i + pat.length) = v ++ q :: rest ∧ q ∉ v ∧
      i + pat.length + v.length + 1 = e := by
  simp only [between, Option.bind_eq_bind, Option.bind_eq_some_iff, findFrom_singleton_iff]
  refine exists_congr fun i => ?_
  have hs {w rest : List α} (hd : s.drop (i + pat.length) = w ++ q :: rest) :
      s.slice (i + pat.length) (i + pat.length + w.length - (i + pat.length)) = w := by
    rw [List.slice, hd, Nat.add_sub_cancel_left, List.take_left]
  constructor
  · rintro ⟨hf, _, ⟨w, rest, hd, hw, rfl⟩, he⟩
    obtain ⟨rfl, rfl⟩ := Prod.mk.inj (Option.some.inj he)
    rw [hs hd]
    exact ⟨rest, hf, hd, hw, rfl⟩
  · rintro ⟨rest, hf, hd, hv, rfl⟩
    refine ⟨hf, _, ⟨v, rest, hd, hv, rfl⟩, ?_⟩
    rw [hs hd]
    rfl

theorem between_take (hp : pat ≠ []) :
    between pat q (s.take n) = (between pat q s).filter fun x => x.2 ≤ n := by
  refine Option.ext fun x => ?_
  obtain ⟨v, e⟩ := x
  rw [Option.filter_eq_some_iff, between_eq_some_iff, between_eq_some_iff, decide_eq_true_eq]
  simp only [find_take hp, Option.filter_eq_some_iff, decide_eq_true_eq, List.drop_take]
  constructor
  · rintro ⟨i, rest, ⟨hf, hi⟩, hd, hv, rfl⟩
    have hl := congrArg List.length hd
    rw [List.length_take, List.length_append, List.length_cons] at hl
    refine ⟨⟨i, rest ++ (s.drop (i + pat.length)).drop (n - (i + pat.length)), hf, ?_, hv, rfl⟩,
      by omega⟩
    rw [← List.cons_append, ← List.append_assoc, ← hd, List.take_append_drop]
  · rintro ⟨⟨i, rest, hf, hd, hv, rfl⟩, he⟩
    obtain ⟨m, hm⟩ : ∃ m, n - (i + pat.length) = v.length + (m + 1) :=
      ⟨n - (i + pat.length + v.length + 1), by omega⟩
    refine ⟨i, rest.take m, ⟨hf, by omega⟩, ?_, hv, rfl⟩
    rw [hd, hm, List.take_length_add_append, List.take_succ_cons]

-- The text is cut where the delimiters are.
theorem exists_of_between (h : between pat q s = some (v, e)) : ∃ t rest,
    t ++ (pat ++ (v ++ q :: rest)) = s ∧ (∀ j < t.length, ¬pat <+: s.drop j) ∧
      t.length + pat.length + v.length + 1 = e := by
  obtain ⟨_, rest, hf, hd, -, rfl⟩ := between_eq_some_iff.mp h
  obtain ⟨t, r, rfl, rfl, hfirst⟩ := find_split_iff.mp hf
  rw [← List.drop_drop, List.drop_left, List.drop_left] at hd
  exact ⟨t, rest, by rw [hd], hfirst, rfl⟩

-- A part from the start on has the text with its delimiters exactly if the text ends in it.
theorem infix_take_iff (h : between pat q s = some (v, e)) :
    pat ++ v ++ [q] <:+: s.take n ↔ e ≤ n := by
  obtain ⟨b, rest, hs, hfirst, rfl⟩ := exists_of_between h
  constructor
  · rintro ⟨t, u, ht⟩
    have hl := congrArg List.length ht
    simp only [List.length_append, List.length_take, List.length_singleton] at hl
    have hj : b.length ≤ t.length := by
      by_contra hj
      refine hfirst t.length (by omega) ?_
      have hd : (s.take n).drop t.length = pat ++ (v ++ [q] ++ u) := by
        rw [← ht]
        simp
      rw [← List.take_append_drop n s, List.drop_append_of_le_length (by rw [List.length_take]; omega),
        hd, List.append_assoc]
      exact List.prefix_append ..
    omega
  · intro hn
    have hc : s = b ++ (pat ++ v ++ [q]) ++ rest := by
      rw [← hs]
      simp
    have hl : (b ++ (pat ++ v ++ [q])).length = b.length + pat.length + v.length + 1 := by
      simp only [List.length_append, List.length_singleton]
      omega
    refine List.IsInfix.trans ?_ (List.take_prefix_take_left hn).isInfix
    rw [hc, ← hl, List.take_left]
    exact (List.suffix_append ..).isInfix

theorem between_cons (h : ¬pat <+: a :: s) :
    between pat q (a :: s) = (between pat q s).map fun x => (x.1, x.2 + 1) := by
  refine Option.ext fun x => ?_
  obtain ⟨v, e⟩ := x
  rw [between_eq_some_iff, find_cons h, Option.map_eq_some_iff]
  constructor
  · rintro ⟨i, rest, hf, hd, hv, rfl⟩
    obtain ⟨j, hj, rfl⟩ := Option.map_eq_some_iff.mp hf
    rw [Nat.add_right_comm, List.drop_succ_cons] at hd
    exact ⟨_, between_eq_some_iff.mpr ⟨j, rest, hj, hd, hv, rfl⟩, by simp; omega⟩
  · rintro ⟨⟨w, k⟩, hb, he⟩
    obtain ⟨rfl, rfl⟩ := Prod.mk.inj he
    obtain ⟨j, rest, hj, hd, hv, rfl⟩ := between_eq_some_iff.mp hb
    refine ⟨j + 1, rest, by rw [hj, Option.map_some], ?_, hv, by dsimp only; omega⟩
    rwa [Nat.add_right_comm, List.drop_succ_cons]

theorem between_append_self (hv : q ∉ v) :
    between pat q (pat ++ (v ++ q :: s)) = some (v, pat.length + v.length + 1) := by
  refine between_eq_some_iff.mpr ⟨0, s, find_append_self, ?_, hv, by omega⟩
  rw [Nat.zero_add, List.drop_left]

theorem between_append (h : ∀ a ∈ t, pat.head? ≠ some a) (hp : pat ≠ []) :
    between pat q (t ++ s) = (between pat q s).map fun x => (x.1, x.2 + t.length) := by
  induction t
  case nil => simp
  case cons a t hi =>
    obtain ⟨ha, ht⟩ := List.forall_mem_cons.mp h
    have hn : ¬pat <+: a :: (t ++ s) := by
      cases pat
      case nil => exact absurd rfl hp
      case cons b pat =>
        rw [List.cons_prefix_cons]
        exact fun hb => ha (congrArg some hb.left)
    rw [List.cons_append, between_cons hn, hi ht, Option.map_map]
    rfl

section Intercalate

variable {ts : List (List α)}

omit [DecidableEq α] in
theorem forall_mem_intercalate {P : α → Prop} (hq : P q) (ht : ∀ t ∈ ts, ∀ a ∈ t, P a) :
    ∀ a ∈ [q].intercalate ts, P a := by
  induction ts
  case nil => exact List.forall_mem_nil _
  case cons t ts hi =>
    obtain ⟨ha, hts⟩ := List.forall_mem_cons.mp ht
    cases ts
    case nil => simpa [List.intercalate] using ha
    case cons t' ts =>
      rw [List.intercalate_cons_cons]
      simp only [List.mem_append, List.mem_singleton]
      rintro a ((hm | rfl) | hm)
      · exact ha a hm
      · exact hq
      · exact hi hts a hm

omit [DecidableEq α] in
theorem mem_intercalate (h : 1 < ts.length) : q ∈ [q].intercalate ts := by
  obtain _ | ⟨t, _ | ⟨t', ts⟩⟩ := ts
  case cons.cons => simp [List.intercalate_cons_cons]
  all_goals simp at h

omit [DecidableEq α] in
theorem intercalate_ne_nil (h : ts ≠ []) (ht : ∀ t ∈ ts, t ≠ []) : [q].intercalate ts ≠ [] := by
  obtain _ | ⟨t, _ | ⟨t', ts⟩⟩ := ts
  case nil       => exact absurd rfl h
  case cons.nil  => simpa [List.intercalate] using ht
  case cons.cons => simp [List.intercalate_cons_cons]

end Intercalate

section Spans

variable {p : α → Bool} {r : List α}

-- The longest part from the start on whose elements all have a property, and what follows it.
structure Span (p : α → Bool) (s v r : List α) : Prop where
  split : v ++ r = s
  all   : ∀ a ∈ v, p a
  stop  : ∀ a ∈ r.head?, ¬p a

omit [DecidableEq α] in
theorem span_iff : Span p s v r ↔ s.takeWhile p = v ∧ s.dropWhile p = r := by
  constructor
  · rintro ⟨rfl, hv, hr⟩
    have hr : r.takeWhile p = [] ∧ r.dropWhile p = r := by
      cases r
      case nil      => exact ⟨rfl, rfl⟩
      case cons a r => exact ⟨List.takeWhile_cons_of_neg (hr a rfl), List.dropWhile_cons_of_neg (hr a rfl)⟩
    rw [List.takeWhile_append_of_pos hv, List.dropWhile_append_of_pos hv, hr.left, hr.right]
    exact ⟨List.append_nil v, rfl⟩
  · rintro ⟨rfl, rfl⟩
    refine ⟨List.takeWhile_append_dropWhile, fun _ => List.mem_takeWhile_imp, fun a ha => ?_⟩
    have hs := List.head?_dropWhile_not p s
    rw [Option.mem_def.mp ha] at hs
    exact Bool.eq_false_iff.mp hs

omit [DecidableEq α] in
theorem span (p : α → Bool) (s : List α) : Span p s (s.takeWhile p) (s.dropWhile p) :=
  span_iff.mpr ⟨rfl, rfl⟩

theorem find_singleton_cons :
    find [q] (a :: s) = if a = q then some 0 else (find [q] s).map (· + 1) := by
  rw [find]
  refine if_congr ?_ rfl rfl
  simp [List.cons_prefix_cons, eq_comm]

-- The first of two delimiters ends the longest part without them.
theorem min_find_singleton {q' : α} :
    min ((find [q] s).getD s.length) ((find [q'] s).getD s.length) =
      (s.takeWhile fun a => a ≠ q && a ≠ q').length := by
  induction s
  case nil => rfl
  case cons a s hi =>
    by_cases hq : a = q
    case pos => simp [find_singleton_cons, hq]
    case neg =>
      by_cases hq' : a = q'
      case pos => simp [find_singleton_cons, hq']
      case neg =>
        have getD_succ {o : Option Nat} : (o.map (· + 1)).getD (s.length + 1) = o.getD s.length + 1 := by
          cases o <;> rfl
        rw [find_singleton_cons, if_neg hq, find_singleton_cons, if_neg hq', List.length_cons, getD_succ,
          getD_succ, Nat.add_min_add_right, hi, List.takeWhile_cons_of_pos (by simp [hq, hq']),
          List.length_cons]

end Spans

section Tokens

variable {c : α} {key k : List α} {ts : List (List α)}

-- The tokens, each behind a `q`.
def quoted (q : α) (ts : List (List α)) : List α :=
  ts.flatMap (q :: ·)

-- What stands before the value of a key.
def keyPattern (q c : α) (key : List α) : List α :=
  q :: (key ++ [q, c, q])

omit [DecidableEq α] in
theorem keyPattern_ne_nil : keyPattern q c key ≠ [] :=
  List.cons_ne_nil _ _

-- The token behind the first key and the position behind the `q` that ends it.
def lookup (c : α) (key : List α) : List (List α) → Option (List α × Nat)
  | k :: m :: v :: w :: ts =>
    if k = key ∧ m = [c] then some (v, k.length + v.length + 5)
    else (lookup c key (m :: v :: w :: ts)).map fun x => (x.1, x.2 + (k.length + 1))
  | _                      => none

-- A token that is not the key before its value is passed over.
theorem map_lookup_cons (h : ¬(k = key ∧ ts.head? = some [c])) :
    (lookup c key (k :: ts)).map (·.1) = (lookup c key ts).map (·.1) := by
  obtain _ | ⟨m, _ | ⟨v, _ | ⟨w, ts⟩⟩⟩ := ts
  case cons.cons.cons =>
    rw [lookup, if_neg fun hk => h ⟨hk.left, congrArg some hk.right⟩, Option.map_map]
    rfl
  all_goals rfl

omit [DecidableEq α] in
theorem append_cons_prefix_iff (hk : q ∉ key) (ht : q ∉ k) :
    key ++ q :: r <+: k ++ q :: r' ↔ key = k ∧ r <+: r' := by
  induction key generalizing k
  case nil =>
    cases k
    case nil      => simp [List.cons_prefix_cons]
    case cons b k => simp [List.cons_prefix_cons, List.ne_of_not_mem_cons ht]
  case cons a key hi =>
    cases k
    case nil =>
      simp [List.cons_prefix_cons, Ne.symm (List.ne_of_not_mem_cons hk)]
    case cons b k =>
      rw [List.cons_append, List.cons_append, List.cons_prefix_cons,
        hi (List.not_mem_of_not_mem_cons hk) (List.not_mem_of_not_mem_cons ht), List.cons.injEq, and_assoc]

theorem count_quoted (h : ∀ t ∈ ts, q ∉ t) : (quoted q ts).count q = ts.length := by
  induction ts
  case nil => rfl
  case cons t ts hi =>
    obtain ⟨ht, hts⟩ := List.forall_mem_cons.mp h
    have hi := hi hts
    rw [quoted] at hi ⊢
    rw [List.flatMap_cons, List.cons_append, List.count_cons_self, List.count_append, hi,
      List.count_eq_zero.mpr ht, List.length_cons, Nat.zero_add]

theorem count_of_between (h : between pat q s = some x) : pat.count q + 1 ≤ s.count q := by
  obtain ⟨t, rest, hs, -⟩ := exists_of_between h
  rw [← hs]
  simp only [List.count_append, List.count_cons_self]
  omega

-- The value of a key in a text is found among its tokens.
theorem between_quoted (hk : q ∉ key) (hc : c ≠ q) (ht : ∀ t ∈ ts, q ∉ t) :
    between (keyPattern q c key) q (quoted q ts) = lookup c key ts := by
  fun_induction lookup c key ts
  case case1 k m v w ts h =>
    obtain ⟨rfl, rfl⟩ := h
    have hv : q ∉ v := ht v (by simp)
    have hs : quoted q (k :: [c] :: v :: w :: ts) =
        keyPattern q c k ++ (v ++ q :: (w ++ quoted q ts)) := by
      simp [quoted, keyPattern]
    rw [hs, between_append_self hv, keyPattern]
    simp only [List.length_cons, List.length_append, List.length_nil]
    congr 2
    omega
  case case2 k m v w ts h hi =>
    obtain ⟨hq, hts⟩ := List.forall_mem_cons.mp ht
    have hm : q ∉ m := hts m (by simp)
    have hn : ¬keyPattern q c key <+: q :: (k ++ quoted q (m :: v :: w :: ts)) := by
      intro hp
      have hp : key ++ q :: [c, q] <+: k ++ q :: (m ++ quoted q (v :: w :: ts)) :=
        (List.cons_prefix_cons.mp hp).right
      obtain ⟨rfl, hr⟩ := (append_cons_prefix_iff hk hq).mp hp
      have hr : [c] ++ q :: [] <+: m ++ q :: (v ++ quoted q (w :: ts)) := hr
      obtain ⟨rfl, _⟩ := (append_cons_prefix_iff (by simpa using Ne.symm hc) hm).mp hr
      exact h ⟨rfl, rfl⟩
    have hs : ∀ a ∈ k, (keyPattern q c key).head? ≠ some a := by
      rintro a ha he
      obtain rfl := Option.some.inj he
      exact hq ha
    change between _ _ (q :: (k ++ quoted q (m :: v :: w :: ts))) = _
    rw [between_cons hn, between_append hs keyPattern_ne_nil, hi hts, Option.map_map]
    rfl
  case case3 ts hn =>
    -- The pattern and the end of the value need four tokens.
    refine Option.eq_none_iff_forall_ne_some.mpr fun x hx => ?_
    have hl := count_of_between hx
    have h3 : 3 ≤ (keyPattern q c key).count q := by
      simp only [keyPattern, List.count_cons_self, List.count_append, List.count_cons_of_ne hc]
      omega
    rw [count_quoted ht] at hl
    obtain _ | ⟨k, _ | ⟨m, _ | ⟨v, _ | ⟨w, ts⟩⟩⟩⟩ := ts
    case cons.cons.cons.cons => exact hn k m v w ts rfl
    all_goals
      simp only [List.length_cons, List.length_nil] at hl
      omega

omit [DecidableEq α] in
-- The first token that is the key.
theorem not_prefix_quoted {us : List (List α)} (hk : q ∉ key) (ht : ∀ t ∈ ts, q ∉ t)
    (hn : key ∉ ts) (hu : us ≠ []) (hj : j < (quoted q ts).length) :
    ¬q :: (key ++ [q]) <+: (quoted q ts ++ quoted q us).drop j := by
  induction ts generalizing j
  case nil => exact absurd hj (Nat.not_lt_zero j)
  case cons t ts hi =>
    obtain ⟨hq, hts⟩ := List.forall_mem_cons.mp ht
    obtain ⟨hkt, hkts⟩ := not_or.mp (List.mem_cons.not.mp hn)
    have hs : quoted q (t :: ts) ++ quoted q us = q :: (t ++ (quoted q ts ++ quoted q us)) := by
      simp [quoted]
    rw [hs]
    -- Another token follows, which starts with a quote.
    obtain ⟨r, hr⟩ : ∃ r, quoted q ts ++ quoted q us = q :: r := by
      obtain ⟨u, us, rfl⟩ := List.exists_cons_of_ne_nil hu
      cases ts
      case nil  => exact ⟨_, rfl⟩
      case cons => exact ⟨_, rfl⟩
    cases j
    case zero =>
      rw [List.drop_zero, List.cons_prefix_cons, hr]
      exact fun h => hkt ((append_cons_prefix_iff hk hq).mp h.right).left
    case succ j =>
      rw [List.drop_succ_cons]
      by_cases hlt : j < t.length
      case pos =>
        rw [List.drop_append_of_le_length hlt.le, List.drop_eq_getElem_cons hlt, List.cons_append,
          List.cons_prefix_cons]
        exact fun h => hq (h.left ▸ List.getElem_mem hlt)
      case neg =>
        have hle := Nat.le_of_not_lt hlt
        have hl : (quoted q (t :: ts)).length = t.length + 1 + (quoted q ts).length := by
          simp only [quoted, List.flatMap_cons, List.length_append, List.length_cons]
        rw [show j = t.length + (j - t.length) by omega, ← List.drop_drop, List.drop_left]
        exact hi hts hkts (by omega)

end Tokens

end Strings
