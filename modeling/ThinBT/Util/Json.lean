import ThinBT.Util.Strings
import Mathlib.Algebra.Ring.Int.Defs
import Mathlib.Algebra.Ring.Nat

-- Values of JSON and their texts as bytes. Numbers that are no integers of 64 bits are kept as texts.
inductive Json
  | null
  | bool (b : Bool)
  | int (n : Int)
  | real (text : List UInt8)
  | str (s : List UInt8)
  | arr (vs : List Json)
  | obj (ms : List (List UInt8 × Json))

namespace Json

-- The first member of a name.
def get (key : List UInt8) : Json → Option Json
  | .obj ms => (ms.find? (·.1 = key)).map (·.2)
  | _       => none

theorem get_obj_cons : (Json.obj ((k, v) :: ms)).get key =
    if k = key then some v else (Json.obj ms).get key := by
  rw [get, List.find?_cons]
  by_cases h : k = key
  case pos => simp [h]
  case neg => simp [h, get]

section Texts

def digits (n : Nat) : List UInt8 :=
  (Nat.toDigits 10 n).map fun c => c.val.toUInt8

def isDigit (b : UInt8) : Bool :=
  48 ≤ b && b ≤ 57

def isBlank (b : UInt8) : Bool :=
  b = 32 || b = 9 || b = 10 || b = 13

-- Strings that stand for themselves.
def PlainText (s : List UInt8) : Prop :=
  ∀ b ∈ s, 32 ≤ b ∧ b < 127 ∧ b ≠ 34 ∧ b ≠ 92

instance {s : List UInt8} : Decidable (PlainText s) :=
  inferInstanceAs (Decidable (∀ b ∈ s, 32 ≤ b ∧ b < 127 ∧ b ≠ 34 ∧ b ≠ 92))

-- The shortest text. What follows the first element of an array and the first member of an object
-- ends with the bracket.
mutual

def compact : Json → List UInt8
  | .null             => [110, 117, 108, 108]
  | .bool true        => [116, 114, 117, 101]
  | .bool false       => [102, 97, 108, 115, 101]
  | .int (.ofNat n)   => digits n
  | .int (.negSucc n) => 45 :: digits (n + 1)
  | .real text        => text
  | .str s            => 34 :: (s ++ [34])
  | .arr []           => [91, 93]
  | .arr (v :: vs)    => 91 :: (compact v ++ elements vs)
  | .obj []           => [123, 125]
  | .obj (m :: ms)    => 123 :: 34 :: (m.1 ++ 34 :: 58 :: (compact m.2 ++ members ms))

def elements : List Json → List UInt8
  | []      => [93]
  | v :: vs => 44 :: (compact v ++ elements vs)

def members : List (List UInt8 × Json) → List UInt8
  | []      => [125]
  | m :: ms => 44 :: 34 :: (m.1 ++ 34 :: 58 :: (compact m.2 ++ members ms))

end

-- All strings are plain, and all numbers are integers of 64 bits.
mutual

def Plain : Json → Prop
  | .null | .bool _ => True
  | .int n          => -2 ^ 63 ≤ n ∧ n < 2 ^ 64
  | .real _         => False
  | .str s          => PlainText s
  | .arr vs         => PlainElements vs
  | .obj ms         => PlainMembers ms

def PlainElements : List Json → Prop
  | []      => True
  | v :: vs => Plain v ∧ PlainElements vs

def PlainMembers : List (List UInt8 × Json) → Prop
  | []      => True
  | m :: ms => PlainText m.1 ∧ Plain m.2 ∧ PlainMembers ms

end

theorem plainElements_iff {vs : List Json} : PlainElements vs ↔ ∀ v ∈ vs, v.Plain := by
  induction vs
  case nil          => simp [PlainElements]
  case cons v vs hi => simp [PlainElements, hi]

theorem elements_eq {vs : List Json} :
    elements vs = vs.flatMap (fun v => 44 :: compact v) ++ [93] := by
  induction vs
  case nil          => rfl
  case cons v vs hi => simp [elements, hi]

-- Elements are separated by commas.
theorem compact_arr {vs : List Json} :
    compact (.arr vs) = 91 :: ([44].intercalate (vs.map compact) ++ [93]) := by
  obtain _ | ⟨v, vs⟩ := vs
  case nil => rfl
  case cons =>
    rw [compact, elements_eq]
    induction vs generalizing v
    case nil => simp [List.intercalate]
    case cons w vs hi =>
      have hi := List.cons.inj (hi w)
      rw [List.map_cons, List.map_cons, List.intercalate_cons_cons, List.flatMap_cons, ← List.map_cons,
        List.append_assoc, List.append_assoc, ← hi.right]
      simp

theorem isDigit_digits : ∀ b ∈ digits n, isDigit b := by
  intro b hb
  obtain ⟨c, hc, rfl⟩ := List.mem_map.mp hb
  have hd := Nat.isDigit_of_mem_toDigits (by decide) (by decide) hc
  simp only [Char.isDigit, Bool.and_eq_true, decide_eq_true_eq, UInt32.le_iff_toNat_le] at hd
  have hn : c.val.toUInt8.toNat = c.val.toNat := by
    rw [UInt32.toNat_toUInt8]
    exact Nat.mod_eq_of_lt (hd.right.trans_lt (by decide))
  simp only [isDigit, Bool.and_eq_true, decide_eq_true_eq, UInt8.le_iff_toNat_le, hn]
  exact hd

theorem le_of_mem_digits : ∀ b ∈ digits n, 32 ≤ b := by
  intro b hb
  have hd := isDigit_digits b hb
  rw [isDigit, Bool.and_eq_true, decide_eq_true_eq] at hd
  exact UInt8.le_trans (by decide) hd.left

theorem PlainText.le {s : List UInt8} (h : PlainText s) : ∀ b ∈ s, 32 ≤ b :=
  fun b hb => (h b hb).left

-- Texts of plain values have no control characters.
mutual

theorem le_of_mem_compact : (v : Json) → v.Plain → ∀ b ∈ v.compact, 32 ≤ b
  | .null, _ | .bool true, _ | .bool false, _ | .arr [], _ | .obj [], _ => by
    simp only [compact]
    decide +kernel
  | .int (.ofNat _), _ => le_of_mem_digits
  | .int (.negSucc _), _ => List.forall_mem_cons.mpr ⟨by decide, le_of_mem_digits⟩
  | .real _, hp => hp.elim
  | .str s, hp => by
    have hs : PlainText s := hp
    simp only [compact, List.forall_mem_cons, List.forall_mem_append]
    exact ⟨by decide, hs.le, by decide +kernel⟩
  | .arr (v :: vs), hp => by
    have hv := le_of_mem_compact v hp.left
    have hvs := le_of_mem_elements vs hp.right
    simp only [compact, List.forall_mem_cons, List.forall_mem_append]
    exact ⟨by decide, hv, hvs⟩
  | .obj (m :: ms), hp => by
    have hv := le_of_mem_compact m.2 hp.right.left
    have hms := le_of_mem_members ms hp.right.right
    simp only [compact, List.forall_mem_cons, List.forall_mem_append]
    exact ⟨by decide, by decide, hp.left.le, by decide, by decide, hv, hms⟩

theorem le_of_mem_elements : (vs : List Json) → PlainElements vs → ∀ b ∈ elements vs, 32 ≤ b
  | [], _ => by
    simp only [elements]
    decide +kernel
  | v :: vs, hp => by
    have hv := le_of_mem_compact v hp.left
    have hvs := le_of_mem_elements vs hp.right
    simp only [elements, List.forall_mem_cons, List.forall_mem_append]
    exact ⟨by decide, hv, hvs⟩

theorem le_of_mem_members : (ms : List (List UInt8 × Json)) → PlainMembers ms →
    ∀ b ∈ members ms, 32 ≤ b
  | [], _ => by
    simp only [members]
    decide +kernel
  | m :: ms, hp => by
    have hv := le_of_mem_compact m.2 hp.right.left
    have hms := le_of_mem_members ms hp.right.right
    simp only [members, List.forall_mem_cons, List.forall_mem_append]
    exact ⟨by decide, by decide, hp.left.le, by decide, by decide, hv, hms⟩

end

end Texts

-- A program that reads JSON, such as a library. Texts may be followed by white space.
structure Reader where
  read         : List UInt8 → Option Json
  read_compact : ∀ {v ws}, v.Plain → (∀ b ∈ ws, isBlank b) → read (v.compact ++ ws) = some v

section Parser

def ofDigits (ds : List UInt8) : Nat :=
  ds.foldl (fun v d => 10 * v + (d.toNat - 48)) 0

def parseNat (s : List UInt8) : Option (Nat × List UInt8) :=
  if s.takeWhile isDigit = [] then none
  else some (ofDigits (s.takeWhile isDigit), s.dropWhile isDigit)

-- What stands before the next quote, and what stands behind it.
def parseString (s : List UInt8) : Option (List UInt8 × List UInt8) :=
  if s.dropWhile (· ≠ 34) = [] then none
  else some (s.takeWhile (· ≠ 34), (s.dropWhile (· ≠ 34)).tail)

def parseLiteral (t : List UInt8) (v : Json) (s : List UInt8) : Option (Json × List UInt8) :=
  if t <+: s then some (v, s.drop t.length) else none

-- A parser of compact texts. Each call is for a part of the text.
mutual

def parseValue : Nat → List UInt8 → Option (Json × List UInt8)
  | n + 1, b :: s =>
    if b = 110 then parseLiteral [117, 108, 108] .null s
    else if b = 116 then parseLiteral [114, 117, 101] (.bool true) s
    else if b = 102 then parseLiteral [97, 108, 115, 101] (.bool false) s
    else if b = 34 then (parseString s).map fun x => (.str x.1, x.2)
    else if b = 45 then (parseNat s).map fun x => (.int (-x.1), x.2)
    else if b = 91 then
      if s.head? = some 93 then some (.arr [], s.tail)
      else do
        let (v, s) ← parseValue n s
        let (vs, s) ← parseElements n s
        return (.arr (v :: vs), s)
    else if b = 123 then
      if s.head? = some 125 then some (.obj [], s.tail)
      else do
        let (m, s) ← parseMember n s
        let (ms, s) ← parseMembers n s
        return (.obj (m :: ms), s)
    else (parseNat (b :: s)).map fun x => (.int x.1, x.2)
  | _, _ => none

def parseElements : Nat → List UInt8 → Option (List Json × List UInt8)
  | n + 1, b :: s =>
    if b = 93 then some ([], s)
    else do
      let (v, s) ← parseValue n s
      let (vs, s) ← parseElements n s
      return (v :: vs, s)
  | _, _ => none

def parseMember : Nat → List UInt8 → Option ((List UInt8 × Json) × List UInt8)
  | n + 1, b :: s =>
    if b = 34 then do
      let (key, s) ← parseString s
      let (v, s) ← parseValue n s.tail
      return ((key, v), s)
    else none
  | _, _ => none

def parseMembers : Nat → List UInt8 → Option (List (List UInt8 × Json) × List UInt8)
  | n + 1, b :: s =>
    if b = 125 then some ([], s)
    else do
      let (m, s) ← parseMember n s
      let (ms, s) ← parseMembers n s
      return (m :: ms, s)
  | _, _ => none

end

-- What follows a number.
def Stops (s : List UInt8) : Prop :=
  ∀ b ∈ s.head?, ¬isDigit b

theorem digits_ne_nil : digits n ≠ [] := by
  simp [digits]

theorem ofDigits_digits : ofDigits (digits n) = n := by
  have hn : Nat.ofDigitChars 10 (Nat.toDigits 10 n) 0 = n :=
    Nat.ofDigitChars_toDigits (by decide) (by decide)
  rw [ofDigits, digits, List.foldl_map]
  refine Eq.trans (List.foldl_ext _ _ _ fun v c hc => ?_) hn
  have hd := Nat.isDigit_of_mem_toDigits (by decide) (by decide) hc
  simp only [Char.isDigit, Bool.and_eq_true, decide_eq_true_eq, UInt32.le_iff_toNat_le] at hd
  rw [UInt32.toNat_toUInt8, Nat.mod_eq_of_lt (hd.right.trans_lt (by decide))]
  rfl

theorem parseNat_digits (h : Stops s) : parseNat (digits n ++ s) = some (n, s) := by
  have hs : Strings.Span isDigit (digits n ++ s) (digits n) s := ⟨rfl, isDigit_digits, h⟩
  obtain ⟨ht, hd⟩ := Strings.span_iff.mp hs
  rw [parseNat, ht, hd, if_neg digits_ne_nil, ofDigits_digits]

theorem parseString_append {t : List UInt8} (h : PlainText t) :
    parseString (t ++ 34 :: s) = some (t, s) := by
  have hs : Strings.Span (· ≠ 34) (t ++ 34 :: s) t (34 :: s) :=
    ⟨rfl, fun b hb => decide_eq_true (h b hb).right.right.left, by simp⟩
  obtain ⟨ht, hd⟩ := Strings.span_iff.mp hs
  rw [parseString, ht, hd]
  rfl

theorem parseLiteral_append {t : List UInt8} : parseLiteral t v (t ++ s) = some (v, s) := by
  rw [parseLiteral, if_pos (List.prefix_append ..), List.drop_left]

-- The first byte of a value is not the one that ends an array.
theorem head?_compact {v : Json} (h : v.Plain) :
    ∃ b t, v.compact = b :: t ∧ b ≠ 93 := by
  cases v
  case real => exact h.elim
  case bool b => cases b <;> exact ⟨_, _, rfl, by decide⟩
  case arr vs => cases vs <;> exact ⟨_, _, rfl, by decide⟩
  case obj ms => cases ms <;> exact ⟨_, _, rfl, by decide⟩
  case int n =>
    cases n
    case negSucc => exact ⟨_, _, rfl, by decide⟩
    case ofNat n =>
      obtain ⟨b, t, hb⟩ := List.exists_cons_of_ne_nil (digits_ne_nil (n := n))
      refine ⟨b, t, hb, ?_⟩
      rintro rfl
      exact absurd (isDigit_digits (n := n) 93 (hb ▸ List.mem_cons_self)) (by decide)
  all_goals exact ⟨_, _, rfl, by decide⟩

theorem stops_elements {vs : List Json} : Stops (elements vs ++ s) := by
  cases vs <;> simp [Stops, elements, isDigit]

theorem stops_members {ms : List (List UInt8 × Json)} : Stops (members ms ++ s) := by
  cases ms <;> simp [Stops, members, isDigit]

theorem exists_pred {t : List UInt8} (h : (b :: t).length ≤ n) : ∃ m, n = m + 1 ∧ t.length ≤ m := by
  rw [List.length_cons] at h
  exact ⟨n - 1, by omega, by omega⟩

theorem parseValue_digits (hn : (digits k).length ≤ n) (hs : Stops s) :
    parseValue n (digits k ++ s) = some (.int k, s) := by
  obtain ⟨b, t, hb⟩ := List.exists_cons_of_ne_nil (digits_ne_nil (n := k))
  have hd : isDigit b := isDigit_digits b (hb ▸ List.mem_cons_self)
  obtain ⟨n, rfl, _⟩ := exists_pred (hb ▸ hn)
  have hne : ∀ x : UInt8, isDigit x = false → b ≠ x := by
    rintro _ hx rfl
    exact Bool.false_ne_true (hx.symm.trans hd)
  have hp : parseNat (b :: (t ++ s)) = some (k, s) := by
    rw [← List.cons_append, ← hb]
    exact parseNat_digits hs
  rw [hb, List.cons_append, parseValue, if_neg (hne 110 rfl), if_neg (hne 116 rfl),
    if_neg (hne 102 rfl), if_neg (hne 34 rfl), if_neg (hne 45 rfl), if_neg (hne 91 rfl),
    if_neg (hne 123 rfl), hp]
  rfl

-- The text of a value is a bound for the calls.
mutual

theorem parseValue_compact : (v : Json) → v.Plain → v.compact.length ≤ n → Stops s →
    parseValue n (v.compact ++ s) = some (v, s)
  | .null, _, hn, _ => by
    obtain ⟨n, rfl, _⟩ := exists_pred hn
    exact parseLiteral_append (t := [117, 108, 108])
  | .bool true, _, hn, _ => by
    obtain ⟨n, rfl, _⟩ := exists_pred hn
    exact parseLiteral_append (t := [114, 117, 101])
  | .bool false, _, hn, _ => by
    obtain ⟨n, rfl, _⟩ := exists_pred hn
    exact parseLiteral_append (t := [97, 108, 115, 101])
  | .int (.ofNat k), _, hn, hs => parseValue_digits hn hs
  | .int (.negSucc k), _, hn, hs => by
    obtain ⟨n, rfl, _⟩ := exists_pred hn
    simp only [compact, List.cons_append, parseValue, parseNat_digits hs]
    rfl
  | .real _, hp, _, _ => hp.elim
  | .str t, hp, hn, _ => by
    obtain ⟨n, rfl, _⟩ := exists_pred hn
    have ht : PlainText t := hp
    simp only [compact, List.cons_append, List.append_assoc, List.nil_append, parseValue,
      parseString_append ht]
    rfl
  | .arr [], _, hn, _ => by
    obtain ⟨n, rfl, _⟩ := exists_pred hn
    rfl
  | .arr (v :: vs), hp, hn, hs => by
    obtain ⟨n, rfl, hl⟩ := exists_pred hn
    rw [List.length_append] at hl
    have hv := parseValue_compact (n := n) (s := elements vs ++ s) v hp.left (by omega) stops_elements
    have hvs := parseElements_elements (n := n) (s := s) vs hp.right (by omega)
    obtain ⟨b, t, hb, hne⟩ := head?_compact hp.left
    have hh : (v.compact ++ (elements vs ++ s)).head? ≠ some 93 := by simp [hb, hne]
    simp only [compact, List.cons_append, List.append_assoc, parseValue, if_neg hh, hv, hvs,
      Option.bind_eq_bind, Option.bind_some]
    rfl
  | .obj [], _, hn, _ => by
    obtain ⟨n, rfl, _⟩ := exists_pred hn
    rfl
  | .obj (m :: ms), hp, hn, hs => by
    obtain ⟨n, rfl, hl⟩ := exists_pred hn
    simp only [List.length_append, List.length_cons] at hl
    have hm := parseMember_append (n := n) (s := members ms ++ s) m.1 m.2 hp.left hp.right.left
      (by simp only [List.length_append, List.length_cons]; omega) stops_members
    have hms := parseMembers_members (n := n) (s := s) ms hp.right.right (by omega)
    simp only [compact, List.cons_append, List.append_assoc, parseValue, hm, hms,
      Option.bind_eq_bind, Option.bind_some]
    rfl

theorem parseElements_elements : (vs : List Json) → PlainElements vs → (elements vs).length ≤ n →
    parseElements n (elements vs ++ s) = some (vs, s)
  | [], _, hn => by
    obtain ⟨n, rfl, _⟩ := exists_pred hn
    rfl
  | v :: vs, hp, hn => by
    obtain ⟨n, rfl, hl⟩ := exists_pred hn
    rw [List.length_append] at hl
    have hv := parseValue_compact (n := n) (s := elements vs ++ s) v hp.left (by omega) stops_elements
    have hvs := parseElements_elements (n := n) (s := s) vs hp.right (by omega)
    simp only [elements, List.cons_append, List.append_assoc, parseElements, hv, hvs,
      Option.bind_eq_bind, Option.bind_some]
    rfl

theorem parseMember_append : (key : List UInt8) → (v : Json) → PlainText key → v.Plain →
    (34 :: (key ++ 34 :: 58 :: v.compact)).length ≤ n → Stops s →
    parseMember n (34 :: (key ++ 34 :: 58 :: (v.compact ++ s))) = some ((key, v), s)
  | key, v, hk, hp, hn, hs => by
    obtain ⟨n, rfl, hl⟩ := exists_pred hn
    simp only [List.length_append, List.length_cons] at hl
    have hv := parseValue_compact (n := n) (s := s) v hp (by omega) hs
    simp only [parseMember, parseString_append hk, Option.bind_eq_bind, Option.bind_some, List.tail_cons, hv]
    rfl

theorem parseMembers_members : (ms : List (List UInt8 × Json)) → PlainMembers ms →
    (members ms).length ≤ n → parseMembers n (members ms ++ s) = some (ms, s)
  | [], _, hn => by
    obtain ⟨n, rfl, _⟩ := exists_pred hn
    rfl
  | m :: ms, hp, hn => by
    obtain ⟨n, rfl, hl⟩ := exists_pred hn
    simp only [List.length_append, List.length_cons] at hl
    have hm := parseMember_append (n := n) (s := members ms ++ s) m.1 m.2 hp.left hp.right.left
      (by simp only [List.length_append, List.length_cons]; omega) stops_members
    have hms := parseMembers_members (n := n) (s := s) ms hp.right.right (by omega)
    simp only [members, List.cons_append, List.append_assoc, parseMembers, hm, hms,
      Option.bind_eq_bind, Option.bind_some]
    rfl

end

end Parser

-- One such reader: it reads compact texts only.
def Reader.strict : Reader where
  read s :=
    match parseValue s.length s with
    | some (v, ws) => if ws.all isBlank then some v else none
    | none         => none
  read_compact {v ws} hp hw := by
    have hs : Stops ws := by
      intro b hb
      have hb : b = 32 ∨ b = 9 ∨ b = 10 ∨ b = 13 := by
        simpa [isBlank, or_assoc] using hw b (List.mem_of_mem_head? hb)
      obtain rfl | rfl | rfl | rfl := hb <;> decide
    have hl : v.compact.length ≤ (v.compact ++ ws).length := by
      rw [List.length_append]
      exact Nat.le_add_right ..
    rw [parseValue_compact v hp hl hs]
    exact if_pos (List.all_eq_true.mpr hw)

end Json
