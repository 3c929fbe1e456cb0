import ThinBT.Common.TrackerUrl

namespace ThinBT.TrackerUrl

open Cli Strings Numbers

section Literals

def isHex (b : UInt8) : Bool :=
  isDigit b || 65 ≤ b && b ≤ 70 || 97 ≤ b && b ≤ 102

-- A decimal number of 8 bits without leading zeros.
structure Octet (s : List UInt8) : Prop where
  ne_nil : s ≠ []
  digit  : ∀ b ∈ s, isDigit b
  le     : value s ≤ 255
  zero   : s.head? = some 48 → s = [48]

def Ipv4 (s : List UInt8) : Prop :=
  ∃ octets : List (List UInt8),
    octets.length = 4 ∧ (∀ o ∈ octets, Octet o) ∧ [46].intercalate octets = s

-- A hexadecimal number of 16 bits.
structure Piece (s : List UInt8) : Prop where
  ne_nil : s ≠ []
  hex    : ∀ b ∈ s, isHex b
  le     : s.length ≤ 4

def Pieces (n : Nat) (s : List UInt8) : Prop :=
  ∃ pieces : List (List UInt8),
    pieces.length = n ∧ (∀ p ∈ pieces, Piece p) ∧ [58].intercalate pieces = s

-- The last two pieces may be written as an IPv4 address.
def LastPieces (n : Nat) (s : List UInt8) : Prop :=
  Pieces n s ∨ ∃ (pieces : List (List UInt8)) (ip : List UInt8),
    pieces.length + 2 = n ∧ (∀ p ∈ pieces, Piece p) ∧ Ipv4 ip ∧ [58].intercalate (pieces ++ [ip]) = s

-- Two colons stand for one or more pieces that are zero.
def Ipv6 (s : List UInt8) : Prop :=
  LastPieces 8 s ∨ ∃ m n l r, Pieces m l ∧ LastPieces n r ∧ m + n < 8 ∧ l ++ 58 :: 58 :: r = s

-- The bytes of an address.
def isAddress (b : UInt8) : Bool :=
  isHex b || b = 46 || b = 58

theorem isAddress_of_isHex (h : isHex b) : isAddress b := by
  rw [isAddress, h]
  rfl

theorem isAddress_of_isDigit (h : isDigit b) : isAddress b :=
  isAddress_of_isHex (by rw [isHex, h]; rfl)

theorem Ipv4.digit_or_dot {s : List UInt8} (h : Ipv4 s) : ∀ b ∈ s, isDigit b ∨ b = 46 := by
  obtain ⟨octets, -, ho, rfl⟩ := h
  exact forall_mem_intercalate (.inr rfl) fun o hm b hb => .inl ((ho o hm).digit b hb)

theorem Ipv4.ne_nil {s : List UInt8} (h : Ipv4 s) : s ≠ [] := by
  obtain ⟨octets, hn, ho, rfl⟩ := h
  refine intercalate_ne_nil (fun he => ?_) fun o hm => (ho o hm).ne_nil
  rw [he] at hn
  cases hn

theorem Ipv4.isAddress {s : List UInt8} (h : Ipv4 s) : ∀ b ∈ s, TrackerUrl.isAddress b := by
  intro b hb
  obtain hd | rfl := h.digit_or_dot b hb
  · exact isAddress_of_isDigit hd
  · rfl

theorem Pieces.isAddress {s : List UInt8} (h : Pieces n s) : ∀ b ∈ s, TrackerUrl.isAddress b := by
  obtain ⟨pieces, -, hp, rfl⟩ := h
  exact forall_mem_intercalate rfl fun p hm b hb => isAddress_of_isHex ((hp p hm).hex b hb)

theorem LastPieces.isAddress {s : List UInt8} (h : LastPieces n s) :
    ∀ b ∈ s, TrackerUrl.isAddress b := by
  obtain h | ⟨pieces, ip, -, hp, hip, rfl⟩ := h
  case inl => exact h.isAddress
  case inr =>
    refine forall_mem_intercalate rfl fun p hm b hb => ?_
    obtain hm | hm := List.mem_append.mp hm
    · exact isAddress_of_isHex ((hp p hm).hex b hb)
    · exact hip.isAddress b (List.mem_singleton.mp hm ▸ hb)

theorem Ipv6.isAddress {s : List UInt8} (h : Ipv6 s) : ∀ b ∈ s, TrackerUrl.isAddress b := by
  obtain h | ⟨m, n, l, r, hl, hr, -, rfl⟩ := h
  case inl => exact h.isAddress
  case inr =>
    simp only [List.mem_append, List.mem_cons]
    rintro b (hb | rfl | rfl | hb)
    · exact hl.isAddress b hb
    · rfl
    · rfl
    · exact hr.isAddress b hb

theorem Ipv6.colon_mem {s : List UInt8} (h : Ipv6 s) : 58 ∈ s := by
  obtain (⟨pieces, hn, -, rfl⟩ | ⟨pieces, ip, hn, -, -, rfl⟩) | ⟨m, n, l, r, -, -, -, rfl⟩ := h
  · exact mem_intercalate (by omega)
  · exact mem_intercalate (by rw [List.length_append, List.length_singleton]; omega)
  · simp

theorem Ipv4.colon_not_mem {s : List UInt8} (h : Ipv4 s) : 58 ∉ s := by
  intro hm
  obtain hd | hd := h.digit_or_dot 58 hm
  all_goals exact absurd hd (by decide)

theorem not_isAddress {s : List UInt8} (h : ∀ b ∈ s, isAddress b) :
    0 ∉ s ∧ 47 ∉ s ∧ 93 ∉ s ∧ s.head? ≠ some 91 := by
  refine ⟨fun hm => ?_, fun hm => ?_, fun hm => ?_, fun hh => ?_⟩
  · exact absurd (h 0 hm) (by decide)
  · exact absurd (h 47 hm) (by decide)
  · exact absurd (h 93 hm) (by decide)
  · exact absurd (h 91 (List.mem_of_head? hh)) (by decide)

end Literals

-- The documented form.
def Documented (url : List UInt8) (u : TrackerUrl) : Prop :=
  ∃ host digits rest, scheme ++ (host ++ 58 :: (digits ++ rest)) = url ∧
    ((host = u.host ∧ u.host ≠ [] ∧ 58 ∉ u.host ∧ 47 ∉ u.host) ∨
      (host = 91 :: (u.host ++ [93]) ∧ Ipv6 u.host)) ∧
    (∀ b ∈ digits, isDigit b) ∧ value digits = u.port.toNat ∧ 1 ≤ u.port ∧
    ∀ b ∈ rest.head?, b = 47

section Parts

-- A host in the text that the parser finds there.
def HostForm (text host : List UInt8) : Prop :=
  (text = host ∧ host ≠ [] ∧ 58 ∉ host ∧ 47 ∉ host ∧ host.head? ≠ some 91) ∨
    (text = 91 :: (host ++ [93]) ∧ 93 ∉ host)

variable {host p r : List UInt8} {port : UInt16}

theorem parseHost_bracket_iff :
    parseHost (91 :: p) = some (host, r) ↔ host ++ 93 :: r = p ∧ 93 ∉ host := by
  rw [parseHost, if_pos List.head?_cons, List.tail_cons, Option.map_eq_some_iff]
  simp only [find_singleton_iff]
  constructor
  · rintro ⟨_, ⟨v, rest, rfl, hv, rfl⟩, he⟩
    simp only [List.take_left, ← List.drop_drop, List.drop_left, List.drop_one, List.tail_cons,
      Prod.mk.injEq] at he
    obtain ⟨rfl, rfl⟩ := he
    exact ⟨rfl, hv⟩
  · rintro ⟨rfl, hh⟩
    refine ⟨host.length, ⟨host, r, rfl, hh, rfl⟩, ?_⟩
    simp only [List.take_left, ← List.drop_drop, List.drop_left, List.drop_one, List.tail_cons]

theorem parseHost_plain_iff (hp : p.head? ≠ some 91) : parseHost p = some (host, r) ↔
    Span (fun b => b ≠ 58 && b ≠ 47) p host r ∧ host ≠ [] := by
  have hs := span (fun b : UInt8 => b ≠ 58 && b ≠ 47) p
  rw [span_iff, parseHost, if_neg hp]
  simp only [min_find_singleton, List.length_eq_zero_iff]
  generalize p.takeWhile _ = v, p.dropWhile _ = w at hs ⊢
  rw [← hs.split, List.take_left, List.drop_left]
  by_cases hv : v = []
  case pos => simp +contextual [hv, eq_comm]
  case neg =>
    rw [if_neg hv, Option.some.injEq, Prod.mk.injEq, iff_self_and]
    rintro ⟨rfl, -⟩
    exact hv

theorem parseHost_eq_some_iff :
    parseHost p = some (host, 58 :: r) ↔ ∃ text, text ++ 58 :: r = p ∧ HostForm text host := by
  by_cases hp : p.head? = some 91
  case pos =>
    obtain ⟨p, rfl⟩ := List.head?_eq_some_iff.mp hp
    rw [parseHost_bracket_iff]
    constructor
    · rintro ⟨rfl, hh⟩
      exact ⟨91 :: (host ++ [93]), by simp, .inr ⟨rfl, hh⟩⟩
    · rintro ⟨text, ht, ⟨rfl, hn, -, -, hh⟩ | ⟨rfl, hh⟩⟩
      case inl =>
        obtain ⟨b, host, rfl⟩ := List.exists_cons_of_ne_nil hn
        exact absurd (congrArg some (List.cons.inj ht).left) hh
      case inr => exact ⟨by simpa using ht, hh⟩
  case neg =>
    rw [parseHost_plain_iff hp]
    constructor
    · rintro ⟨⟨rfl, hall, -⟩, hn⟩
      simp only [Bool.and_eq_true, decide_eq_true_eq] at hall
      refine ⟨host, rfl, .inl ⟨rfl, hn, fun h => (hall _ h).left rfl, fun h => (hall _ h).right rfl, ?_⟩⟩
      rwa [List.head?_append_of_ne_nil _ hn] at hp
    · rintro ⟨text, rfl, ⟨rfl, hn, hc, hs, -⟩ | ⟨rfl, -⟩⟩
      case inl =>
        refine ⟨⟨rfl, fun b hb => ?_, by simp⟩, hn⟩
        rw [Bool.and_eq_true, decide_eq_true_eq, decide_eq_true_eq]
        exact ⟨ne_of_mem_of_not_mem hb hc, ne_of_mem_of_not_mem hb hs⟩
      case inr => exact absurd rfl hp

theorem parsePort_eq_some_iff : parsePort p = some port ↔
    ∃ t : Numeral, 58 :: t.text = p ∧ t.sign ≠ [45] ∧ value t.digits = port.toNat ∧ 1 ≤ port := by
  rw [parsePort, UInt16.le_iff_toNat_le]
  constructor
  · intro h
    split at h
    case isFalse => cases h
    case isTrue hp =>
      obtain ⟨p, rfl⟩ := List.head?_eq_some_iff.mp hp
      obtain ⟨i, hi, hr⟩ := Option.bind_eq_some_iff.mp h
      split at hr
      case isTrue => cases hr
      case isFalse hb =>
        simp only [Bool.or_eq_true, decide_eq_true_eq] at hb
        obtain rfl := Option.some.inj hr
        lift i to Nat using by omega
        obtain ⟨t, rfl, hs, rfl⟩ := (strtol_eq_some_iff (by omega) (by omega)).mp hi
        have hv : (UInt16.ofNat (value t.digits : Int).toNat).toNat = value t.digits :=
          UInt16.toNat_ofNat_of_lt' (by change _ < 65536; omega)
        exact ⟨t, rfl, hs, hv.symm, by rw [hv, UInt16.toNat_one]; omega⟩
  · rintro ⟨t, rfl, hs, hv, hp⟩
    rw [UInt16.toNat_one] at hp
    have hlt := port.toNat_lt
    have hi : strtol t.text = some (port.toNat : Int) :=
      (strtol_eq_some_iff (by omega) (by omega)).mpr ⟨t, rfl, hs, hv⟩
    rw [if_pos List.head?_cons, List.tail_cons, hi, Option.bind_some, if_neg, Int.toNat_natCast,
      UInt16.ofNat_toNat]
    simp only [Bool.or_eq_true, decide_eq_true_eq]
    omega

end Parts

-- A URL that is accepted, cut into its parts.
structure Accepted where
  hostText  : List UInt8
  url       : TrackerUrl
  number    : Numeral
  host_form : HostForm hostText url.host
  sign_ne   : number.sign ≠ [45]
  port_eq   : value number.digits = url.port.toNat
  port_pos  : 1 ≤ url.port

namespace Accepted

def text (a : Accepted) : List UInt8 :=
  scheme ++ (a.hostText ++ 58 :: a.number.text)

-- The parts that the documented form does not have.
def Lenient (a : Accepted) : Prop :=
  a.number.blanks ≠ [] ∨ a.number.sign ≠ [] ∨ (∃ b ∈ a.number.rest.head?, b ≠ 47) ∨
    (a.hostText ≠ a.url.host ∧ ¬Ipv6 a.url.host)

theorem parseHost_text (a : Accepted) :
    parseHost (a.hostText ++ 58 :: a.number.text) = some (a.url.host, 58 :: a.number.text) :=
  parseHost_eq_some_iff.mpr ⟨a.hostText, rfl, a.host_form⟩

theorem text_injective {a a' : Accepted} (h : a.text = a'.text) :
    a.hostText = a'.hostText ∧ a.url.host = a'.url.host ∧ a.number = a'.number := by
  have ht := List.append_cancel_left h
  have hp := a.parseHost_text
  rw [ht, a'.parseHost_text] at hp
  obtain ⟨hh, hn⟩ := Prod.mk.inj (Option.some.inj hp)
  rw [hn] at ht
  exact ⟨List.append_cancel_right ht, hh.symm, Numeral.text_injective (List.cons.inj hn).right.symm⟩

theorem documented (a : Accepted) (h : ¬a.Lenient) : Documented a.text a.url := by
  simp only [Lenient, not_or, not_exists, not_and, not_not] at h
  obtain ⟨hb, hs, hr, hh⟩ := h
  refine ⟨a.hostText, a.number.digits, a.number.rest, ?_, ?_, a.number.digits_digit, a.port_eq,
    a.port_pos, hr⟩
  · rw [text, Numeral.text, hb, hs, List.nil_append, List.nil_append]
  · obtain ⟨ht, hn, hc, hs, -⟩ | ⟨ht, hc⟩ := a.host_form
    · exact .inl ⟨ht, hn, hc, hs⟩
    · refine .inr ⟨ht, hh fun he => ?_⟩
      have hl := congrArg List.length (he.symm.trans ht)
      simp only [List.length_cons, List.length_append, List.length_nil] at hl
      omega

-- The text behind a bracket is not the text with it.
theorem eq_of_shift {host r r' : List UInt8} (h : host ++ x :: r = y :: (host ++ r')) : x = y := by
  induction host generalizing y
  case nil => exact (List.cons.inj h).left
  case cons z host hi =>
    obtain ⟨rfl, ht⟩ := List.cons.inj h
    exact hi ht

-- No host that is found starts with a bracket and is as documented.
theorem head?_ne (a : Accepted) (h : Documented a.text a.url) : a.url.host.head? ≠ some 91 := by
  intro hh
  obtain ⟨host, digits, rest, ht, ⟨rfl, -⟩ | ⟨-, hip⟩, -⟩ := h
  case inr => exact (not_isAddress hip.isAddress).right.right.right hh
  case inl =>
    obtain ⟨-, -, -, -, hn⟩ | ⟨hb, -⟩ := a.host_form
    case inl => exact hn hh
    case inr =>
      rw [text, hb] at ht
      have ht := List.append_cancel_left ht
      rw [List.cons_append, List.append_assoc] at ht
      exact absurd (eq_of_shift ht) (by decide)

end Accepted

section Grammar

variable {url : List UInt8} {u : TrackerUrl}

theorem Documented.exists_accepted (h : Documented url u) (hh : u.host.head? ≠ some 91) :
    ∃ a : Accepted, a.text = url ∧ a.url = u ∧ ¬a.Lenient := by
  obtain ⟨host, digits, rest, rfl, hf, hd, hv, hp, hr⟩ := h
  have hn : digits ≠ [] := by
    rintro rfl
    rw [UInt16.le_iff_toNat_le, ← hv] at hp
    exact absurd hp (by decide)
  have hs : ∀ b ∈ rest.head?, ¬isDigit b := by
    intro b hb
    rw [hr b hb]
    decide
  have hform : HostForm host u.host := by
    obtain ⟨ht, hne, hc, hs⟩ | ⟨ht, hip⟩ := hf
    · exact .inl ⟨ht, hne, hc, hs, hh⟩
    · exact .inr ⟨ht, (not_isAddress hip.isAddress).right.right.left⟩
  let number : Numeral := ⟨[], [], digits, rest, by simp, by simp, hn, hd, hs⟩
  refine ⟨⟨host, u, number, hform, by simp [number], hv, hp⟩, rfl, rfl, ?_⟩
  rintro (hb | hb | ⟨b, hb, hne⟩ | ⟨ht, hip⟩)
  · exact hb rfl
  · exact hb rfl
  · exact hne (hr b hb)
  · obtain ⟨he, -⟩ | ⟨-, hi⟩ := hf
    · exact ht he
    · exact hip hi

theorem Accepted.not_documented (a : Accepted) (h : a.Lenient) : ¬Documented a.text a.url := by
  intro hd
  obtain ⟨a', ht, -, hs⟩ := hd.exists_accepted (a.head?_ne hd)
  obtain ⟨hhost, hurl, hnum⟩ := text_injective ht
  rw [Lenient, hhost, hurl, hnum] at hs
  exact hs h

theorem takeWhile_ne_zero (h : 0 ∉ url) : url.takeWhile (· ≠ 0) = url := by
  rw [List.takeWhile_eq_self_iff]
  exact fun b hb => decide_eq_true (ne_of_mem_of_not_mem hb h)

theorem parseTrackerUrl_eq_some_iff (h : 0 ∉ url) :
    parseTrackerUrl url = some u ↔ ∃ a : Accepted, a.text = url ∧ a.url = u := by
  rw [parseTrackerUrl]
  constructor
  · intro hp
    split at hp
    case isFalse => cases hp
    case isTrue hs =>
      obtain ⟨p, rfl⟩ := hs
      rw [List.drop_left, takeWhile_ne_zero fun hm => h (List.mem_append_right _ hm)] at hp
      simp only [Option.bind_eq_bind, Option.bind_eq_some_iff] at hp
      obtain ⟨⟨host, r⟩, hh, port, hport, hu⟩ := hp
      obtain rfl := Option.some.inj hu
      obtain ⟨t, rfl, hs, hv, hpos⟩ := parsePort_eq_some_iff.mp hport
      obtain ⟨text, rfl, hform⟩ := parseHost_eq_some_iff.mp hh
      exact ⟨⟨text, _, t, hform, hs, hv, hpos⟩, rfl, rfl⟩
  · rintro ⟨a, rfl, rfl⟩
    have hport : parsePort (58 :: a.number.text) = some a.url.port :=
      parsePort_eq_some_iff.mpr ⟨a.number, rfl, a.sign_ne, a.port_eq, a.port_pos⟩
    rw [Accepted.text] at h ⊢
    rw [if_pos (List.prefix_append ..), List.drop_left,
      takeWhile_ne_zero fun hm => h (List.mem_append_right _ hm), a.parseHost_text]
    simp only [Option.bind_eq_bind, Option.bind_some, hport]
    rfl

-- The parser accepts more than the documented form.
def LenientlyAccepted (url : List UInt8) : Prop :=
  ∃ a : Accepted, a.text = url ∧ a.Lenient

-- The documented host starts with a bracket that the parser takes for that of an IPv6 address.
def OpensBracket (url : List UInt8) : Prop :=
  ∃ u, Documented url u ∧ u.host.head? = some 91

theorem parses_documented_iff (h : 0 ∉ url) : (∀ u, parseTrackerUrl url = some u ↔ Documented url u) ↔
    ¬LenientlyAccepted url ∧ ¬OpensBracket url := by
  simp only [parseTrackerUrl_eq_some_iff h]
  constructor
  · intro hd
    constructor
    · rintro ⟨a, rfl, hl⟩
      exact a.not_documented hl ((hd a.url).mp ⟨a, rfl, rfl⟩)
    · rintro ⟨u, hu, hh⟩
      obtain ⟨a, rfl, rfl⟩ := (hd u).mpr hu
      exact a.head?_ne hu hh
  · rintro ⟨hl, hb⟩ u
    constructor
    · rintro ⟨a, rfl, rfl⟩
      exact a.documented fun ha => hl ⟨a, rfl, ha⟩
    · intro hu
      obtain ⟨a, ht, he, -⟩ := hu.exists_accepted fun hh => hb ⟨u, hu, hh⟩
      exact ⟨a, ht, he⟩

end Grammar

section Builder

theorem utf8_append (s t : String) : utf8 (s ++ t) = utf8 s ++ utf8 t := by
  change (s ++ t).toByteArray.data.toList = _
  rw [String.toByteArray_append, ByteArray.data_append, Array.toList_append]
  rfl

theorem utf8_eq_flatMap (s : String) : utf8 s = s.toList.flatMap String.utf8EncodeChar := by
  have h : utf8 s = (String.ofList s.toList).toByteArray.data.toList := by
    rw [String.ofList_toList]
    rfl
  rw [h, String.toByteArray_ofList, List.utf8Encode, List.data_toByteArray]

theorem digit_of_mem_toDigits (h : c ∈ Nat.toDigits 10 n) : 48 ≤ c.toNat ∧ c.toNat ≤ 57 := by
  have hd := Nat.isDigit_of_mem_toDigits (by decide) (by decide) h
  simpa [Char.isDigit, UInt32.le_iff_toNat_le] using hd

theorem toNat_byte_digit (h : c ∈ Nat.toDigits 10 n) : c.val.toUInt8.toNat = c.toNat := by
  rw [UInt32.toNat_toUInt8]
  exact Nat.mod_eq_of_lt ((digit_of_mem_toDigits h).right.trans_lt (by decide))

theorem utf8_toString (n : Nat) :
    utf8 (toString n) = (Nat.toDigits 10 n).map fun c => c.val.toUInt8 := by
  have hl : (toString n).toList = Nat.toDigits 10 n := Nat.toList_repr
  rw [utf8_eq_flatMap, hl, List.map_eq_flatMap]
  refine List.flatMap_congr fun c hc => String.utf8EncodeChar_eq_singleton ?_
  rw [Char.utf8Size_eq_one_iff, UInt32.le_iff_toNat_le]
  exact (digit_of_mem_toDigits hc).right.trans (by decide)

theorem value_utf8_toString (n : Nat) : value (utf8 (toString n)) = n := by
  have hn : Nat.ofDigitChars 10 (Nat.toDigits 10 n) 0 = n :=
    Nat.ofDigitChars_toDigits (by decide) (by decide)
  rw [utf8_toString, value, List.foldl_map]
  refine Eq.trans (List.foldl_ext _ _ _ fun v c hc => ?_) hn
  rw [toNat_byte_digit hc]
  rfl

theorem isDigit_utf8_toString (n : Nat) : ∀ b ∈ utf8 (toString n), isDigit b := by
  rw [utf8_toString]
  intro b hb
  obtain ⟨c, hc, rfl⟩ := List.mem_map.mp hb
  obtain ⟨hl, hu⟩ := digit_of_mem_toDigits hc
  rw [isDigit, Bool.and_eq_true, decide_eq_true_eq, decide_eq_true_eq, UInt8.le_iff_toNat_le,
    UInt8.le_iff_toNat_le, toNat_byte_digit hc]
  exact ⟨hl, hu⟩

variable {url : List UInt8} {o : MakeOptions} {localIp : String}

theorem utf8_announceUrl : utf8 (o.announceUrl localIp) = scheme ++ (utf8 (o.localIp localIp) ++
    58 :: (utf8 (toString o.trackerPort.toNat) ++ utf8 "/announce")) := by
  simp only [MakeOptions.announceUrl, utf8_append, scheme, List.append_assoc]
  rfl

theorem zero_not_mem_announceUrl (h : ∀ b ∈ utf8 (o.localIp localIp), isAddress b) :
    0 ∉ utf8 (o.announceUrl localIp) := by
  rw [utf8_announceUrl]
  simp only [List.mem_append, List.mem_cons, not_or]
  refine ⟨by decide, (not_isAddress h).left, by decide, fun hm => ?_, by decide⟩
  exact absurd (isDigit_utf8_toString _ _ hm) (by decide)

-- The builder sets no brackets.
theorem announceUrl_parses_iff (hip : Ipv4 (utf8 (o.localIp localIp)) ∨ Ipv6 (utf8 (o.localIp localIp)))
    (hp : 1 ≤ o.trackerPort) :
    parseTrackerUrl (utf8 (o.announceUrl localIp)) = some ⟨utf8 (o.localIp localIp), o.trackerPort⟩ ↔
      Ipv4 (utf8 (o.localIp localIp)) := by
  have ha : ∀ b ∈ utf8 (o.localIp localIp), isAddress b := hip.elim Ipv4.isAddress Ipv6.isAddress
  obtain ⟨-, hs, -, hb⟩ := not_isAddress ha
  rw [parseTrackerUrl_eq_some_iff (zero_not_mem_announceUrl ha)]
  constructor
  · rintro ⟨a, ht, hu⟩
    refine hip.resolve_right fun h6 => ?_
    obtain ⟨-, -, hc, -⟩ | ⟨he, -⟩ := a.host_form
    · rw [hu] at hc
      exact hc h6.colon_mem
    · rw [utf8_announceUrl, Accepted.text, he] at ht
      have ht := congrArg List.head? (List.append_cancel_left ht)
      rw [List.head?_append_of_ne_nil _ (List.ne_nil_of_mem h6.colon_mem)] at ht
      exact hb ht.symm
  · intro h4
    have hd : Documented (utf8 (o.announceUrl localIp)) ⟨utf8 (o.localIp localIp), o.trackerPort⟩ := by
      rw [utf8_announceUrl]
      refine ⟨_, _, _, rfl, .inl ⟨rfl, h4.ne_nil, h4.colon_not_mem, hs⟩, isDigit_utf8_toString _,
        value_utf8_toString _, hp, ?_⟩
      rintro b ⟨⟩
      rfl
    obtain ⟨a, ht, hu, -⟩ := hd.exists_accepted hb
    exact ⟨a, ht, hu⟩

theorem tracker_url_iff (h : 0 ∉ url)
    (hip : Ipv4 (utf8 (o.localIp localIp)) ∨ Ipv6 (utf8 (o.localIp localIp))) (hp : 1 ≤ o.trackerPort) :
    ((∀ u, parseTrackerUrl url = some u ↔ Documented url u) ↔
      ¬LenientlyAccepted url ∧ ¬OpensBracket url) ∧
    (parseTrackerUrl (utf8 (o.announceUrl localIp)) =
        some ⟨utf8 (o.localIp localIp), o.trackerPort⟩ ↔ Ipv4 (utf8 (o.localIp localIp))) :=
  ⟨parses_documented_iff h, announceUrl_parses_iff hip hp⟩

theorem ipv4_url_taken_back :
    Ipv4 (utf8 "192.168.1.10") ∧
    parseTrackerUrl (utf8 (MakeOptions.announceUrl { filePath := "a" } "192.168.1.10")) =
      some ⟨utf8 "192.168.1.10", 8080⟩ := by
  have hs : ∀ s ∈ ["192", "168", "1", "10"].map utf8, s ≠ [] ∧ (∀ b ∈ s, isDigit b) ∧ value s ≤ 255 ∧
      (s.head? = some 48 → s = [48]) := by decide +kernel
  have octet : ∀ s ∈ ["192", "168", "1", "10"].map utf8, Octet s := by
    intro s hm
    obtain ⟨hn, hd, hl, hz⟩ := hs s hm
    exact ⟨hn, hd, hl, hz⟩
  have hip : Ipv4 (utf8 "192.168.1.10") := ⟨_, rfl, octet, by decide⟩
  have h : 0 ∉ utf8 "thinbt://192.168.1.10:8080/announce" := by decide
  exact ⟨hip, (tracker_url_iff (o := { filePath := "a" }) h (.inl hip) (by decide)).right.mpr hip⟩

def signedPort : Accepted where
  hostText  := utf8 "h"
  url       := ⟨utf8 "h", 80⟩
  number    := ⟨[], [43], [56, 48], [], by simp, by simp, by simp, by simp [isDigit], by simp⟩
  host_form := .inl (by decide)
  sign_ne   := by simp
  port_eq   := by decide
  port_pos  := by decide

-- A sign before the port is accepted, and the colons of an IPv6 address end the host.
theorem sign_accepted_ipv6_refused :
    parseTrackerUrl (utf8 "thinbt://h:+80") = some ⟨utf8 "h", 80⟩ ∧
    ¬Documented (utf8 "thinbt://h:+80") ⟨utf8 "h", 80⟩ ∧
    parseTrackerUrl (utf8 (MakeOptions.announceUrl { filePath := "a" } "2001:db8::1")) = none :=
  ⟨by decide, signedPort.not_documented (.inr (.inl (by simp [signedPort]))), by decide +kernel⟩

end Builder

end ThinBT.TrackerUrl
