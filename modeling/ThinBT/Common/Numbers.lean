import ThinBT.Util.Strings
import Mathlib.Algebra.Ring.Nat

-- The conversions of the C library from decimal text, in the "C" locale.
namespace ThinBT.Numbers

open Strings

def isSpace (b : UInt8) : Bool :=
  b = 32 || 9 ≤ b && b ≤ 13

def isDigit (b : UInt8) : Bool :=
  48 ≤ b && b ≤ 57

def isSign (b : UInt8) : Bool :=
  b = 43 || b = 45

def value (digits : List UInt8) : Nat :=
  digits.foldl (fun v d => 10 * v + (d.toNat - 48)) 0

def unsigned (s : List UInt8) : List UInt8 :=
  if s.head?.any isSign then s.tail else s

-- Whether there is a minus and the value of the digits, unless there are none.
def scan (s : List UInt8) : Option (Bool × Nat) :=
  let s := s.dropWhile isSpace
  let digits := (unsigned s).takeWhile isDigit
  if digits = [] then none else some (s.head? = some 45, value digits)

-- `strtol`, where `none` stands for an end pointer that has not moved.
def strtol (s : List UInt8) : Option Int :=
  (scan s).map fun (minus, v) =>
    if minus then max (-(2 ^ 63 : Nat)) (-v) else min ((2 ^ 63 : Nat) - 1) v

-- `std::stoull`, where `none` stands for an exception.
def stoull (s : List UInt8) : Option UInt64 :=
  match scan s with
  | none            => none
  | some (minus, v) => if v < 2 ^ 64 then some (if minus then 0 - .ofNat v else .ofNat v) else none

-- A text that starts with a number, cut into its parts.
@[ext]
structure Numeral where
  blanks        : List UInt8
  sign          : List UInt8
  digits        : List UInt8
  rest          : List UInt8
  blanks_space  : ∀ b ∈ blanks, isSpace b
  sign_mem      : sign ∈ [[], [43], [45]]
  digits_ne_nil : digits ≠ []
  digits_digit  : ∀ b ∈ digits, isDigit b
  rest_stop     : ∀ b ∈ rest.head?, ¬isDigit b

theorem not_isSign_of_isDigit (h : isDigit b) : ¬isSign b := by
  simp only [isDigit, isSign, Bool.and_eq_true, Bool.or_eq_true, decide_eq_true_eq] at *
  rintro (rfl | rfl)
  all_goals exact absurd h (by decide)

theorem not_isSpace_of_isDigit (h : isDigit b) : ¬isSpace b := by
  simp only [isDigit, isSpace, Bool.and_eq_true, Bool.or_eq_true, decide_eq_true_eq] at *
  rintro (rfl | hb)
  · exact absurd h (by decide)
  · exact absurd (UInt8.le_trans h.left hb.right) (by decide)

namespace Numeral

def text (t : Numeral) : List UInt8 :=
  t.blanks ++ (t.sign ++ (t.digits ++ t.rest))

def minus (t : Numeral) : Bool :=
  t.sign = [45]

theorem digits_span (t : Numeral) : Span isDigit (t.digits ++ t.rest) t.digits t.rest :=
  ⟨rfl, t.digits_digit, t.rest_stop⟩

theorem head?_digits (t : Numeral) : ∃ b, (t.digits ++ t.rest).head? = some b ∧ isDigit b := by
  obtain ⟨b, digits, hd⟩ := List.exists_cons_of_ne_nil t.digits_ne_nil
  exact ⟨b, by rw [hd]; rfl, t.digits_digit b (hd ▸ List.mem_cons_self)⟩

theorem sign_cases (t : Numeral) : t.sign = [] ∨ t.sign = [43] ∨ t.sign = [45] := by
  simpa using t.sign_mem

theorem blanks_span (t : Numeral) :
    Span isSpace t.text t.blanks (t.sign ++ (t.digits ++ t.rest)) := by
  refine ⟨rfl, t.blanks_space, fun b hb => ?_⟩
  obtain hs | hs | hs := t.sign_cases
  all_goals rw [hs] at hb
  case inl =>
    obtain ⟨d, hd, hdigit⟩ := t.head?_digits
    obtain rfl : d = b := Option.some.inj (hd.symm.trans hb)
    exact not_isSpace_of_isDigit hdigit
  all_goals
    obtain rfl := Option.some.inj hb
    decide

theorem unsigned_sign (t : Numeral) :
    unsigned (t.sign ++ (t.digits ++ t.rest)) = t.digits ++ t.rest := by
  obtain hs | hs | hs := t.sign_cases
  all_goals rw [hs, unsigned]
  case inl =>
    obtain ⟨d, hd, hdigit⟩ := t.head?_digits
    rw [List.nil_append, hd, Option.any_some, if_neg (not_isSign_of_isDigit hdigit)]
  all_goals rfl

theorem head?_sign (t : Numeral) :
    decide ((t.sign ++ (t.digits ++ t.rest)).head? = some 45) = t.minus := by
  rw [minus]
  obtain hs | hs | hs := t.sign_cases
  all_goals rw [hs]
  case inl =>
    obtain ⟨d, hd, hdigit⟩ := t.head?_digits
    rw [List.nil_append, hd]
    refine decide_eq_decide.mpr (iff_of_false (fun he => ?_) (by simp))
    obtain rfl := Option.some.inj he
    exact absurd hdigit (by decide)
  all_goals rfl

theorem text_injective {t t' : Numeral} (h : t.text = t'.text) : t = t' := by
  obtain ⟨hb, hs⟩ := span_iff.mp t.blanks_span
  obtain ⟨hb', hs'⟩ := span_iff.mp t'.blanks_span
  rw [h] at hb hs
  have hsign : t.sign ++ (t.digits ++ t.rest) = t'.sign ++ (t'.digits ++ t'.rest) := hs.symm.trans hs'
  have hdigits : t.digits ++ t.rest = t'.digits ++ t'.rest := by
    rw [← t.unsigned_sign, hsign, t'.unsigned_sign]
  obtain ⟨hd, hr⟩ := span_iff.mp t.digits_span
  obtain ⟨hd', hr'⟩ := span_iff.mp t'.digits_span
  rw [hdigits] at hd hr
  rw [hdigits] at hsign
  exact Numeral.ext (hb.symm.trans hb') (List.append_cancel_right hsign) (hd.symm.trans hd')
    (hr.symm.trans hr')

theorem scan_text (t : Numeral) : scan t.text = some (t.minus, value t.digits) := by
  have hs := (span_iff.mp t.blanks_span).right
  have hd := (span_iff.mp t.digits_span).left
  rw [scan]
  simp only [hs, t.unsigned_sign, hd, if_neg t.digits_ne_nil, t.head?_sign]

end Numeral

theorem exists_sign (s : List UInt8) :
    ∃ sign, sign ∈ [[], [43], [45]] ∧ sign ++ unsigned s = s := by
  cases s
  case nil => exact ⟨[], List.mem_cons_self, rfl⟩
  case cons b s =>
    rw [unsigned, List.head?_cons, Option.any_some]
    by_cases hb : isSign b
    case pos =>
      rw [if_pos hb]
      refine ⟨[b], ?_, rfl⟩
      simpa [isSign] using hb
    case neg =>
      rw [if_neg hb]
      exact ⟨[], List.mem_cons_self, rfl⟩

-- A text with a number can be cut.
theorem exists_numeral (h : scan s = some x) : ∃ t : Numeral, t.text = s := by
  have hb := span isSpace s
  obtain ⟨sign, hm, hs⟩ := exists_sign (s.dropWhile isSpace)
  have hd := span isDigit (unsigned (s.dropWhile isSpace))
  have hn : (unsigned (s.dropWhile isSpace)).takeWhile isDigit ≠ [] := by
    intro hn
    rw [scan] at h
    simp only [if_pos hn] at h
    cases h
  refine ⟨⟨_, sign, _, _, hb.all, hm, hn, hd.all, hd.stop⟩, ?_⟩
  rw [Numeral.text, hd.split, hs, hb.split]

theorem scan_eq_some_iff :
    scan s = some (minus, v) ↔ ∃ t : Numeral, t.text = s ∧ t.minus = minus ∧ value t.digits = v := by
  constructor
  · intro h
    obtain ⟨t, rfl⟩ := exists_numeral h
    obtain ⟨hm, hv⟩ := Prod.mk.inj (Option.some.inj (t.scan_text.symm.trans h))
    exact ⟨t, rfl, hm, hv⟩
  · rintro ⟨t, rfl, rfl, rfl⟩
    exact t.scan_text

-- A number that is not clamped.
theorem strtol_eq_some_iff {n : Nat} (hp : 0 < n) (hn : n + 1 < 2 ^ 63) : strtol s = some (n : Int) ↔
    ∃ t : Numeral, t.text = s ∧ t.sign ≠ [45] ∧ value t.digits = n := by
  rw [strtol, Option.map_eq_some_iff]
  constructor
  · rintro ⟨⟨minus, v⟩, hs, hv⟩
    obtain ⟨t, ht, rfl, rfl⟩ := scan_eq_some_iff.mp hs
    dsimp only at hv
    refine ⟨t, ht, ?_⟩
    cases hm : t.minus
    case true =>
      rw [hm, if_pos rfl] at hv
      omega
    case false =>
      rw [hm, if_neg Bool.false_ne_true] at hv
      exact ⟨of_decide_eq_false hm, by omega⟩
  · rintro ⟨t, rfl, hm, rfl⟩
    refine ⟨_, t.scan_text, ?_⟩
    rw [Numeral.minus, decide_eq_false hm]
    simp only [if_neg Bool.false_ne_true]
    omega

theorem isSome_stoull_iff :
    (stoull s).isSome ↔ ∃ t : Numeral, t.text = s ∧ value t.digits < 2 ^ 64 := by
  constructor
  · intro h
    rw [stoull] at h
    split at h
    case h_1 => cases h
    case h_2 minus v hs =>
      obtain ⟨t, ht, -, hv⟩ := scan_eq_some_iff.mp hs
      refine ⟨t, ht, ?_⟩
      by_contra hn
      rw [if_neg (hv ▸ hn)] at h
      cases h
  · rintro ⟨t, rfl, hv⟩
    simp only [stoull, t.scan_text, if_pos hv, Option.isSome_some]

end ThinBT.Numbers
