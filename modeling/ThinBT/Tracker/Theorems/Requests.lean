import ThinBT.Tracker.Acceptor

namespace ThinBT.TrackerAcceptor

open Cli Strings Numbers

-- The digits and minus signs behind the blanks behind the first colon behind the first occurrence of
-- a key.
def NumberAt (line : List UInt8) (key : String) (num : List UInt8) : Prop :=
  ∃ before between blanks rest,
    before ++ (search key ++ (between ++ 58 :: (blanks ++ (num ++ rest)))) = line ∧
    (∀ j < before.length, ¬search key <+: line.drop j) ∧ 58 ∉ between ∧
    Span isBlank (blanks ++ (num ++ rest)) blanks (num ++ rest) ∧
    Span isNumeric (num ++ rest) num rest

-- The text starts with a number that fits into 64 bits.
def Convertible (num : List UInt8) : Prop :=
  ∃ t : Numeral, t.text = num ∧ value t.digits < 2 ^ 64

-- The request is answered with the error if it has no info hash, and otherwise announced and answered
-- with the other peers.
def Answered (std : FlagSort) (server : TrackerServer) (now : Int) (remote : Option String)
    (line : List UInt8) : Prop :=
  (jsonExtractString line "info_hash" = [] ∧
    handleClient std server now remote line = some (server, missingInfoHash)) ∨
  (jsonExtractString line "info_hash" ≠ [] ∧ ∃ port speedMbps server' peers,
    server.announce std now (ofBytes (jsonExtractString line "info_hash")) (remote.getD "") port
      speedMbps = (server', peers) ∧
    handleClient std server now remote line = some (server', response peers (remote.getD "") port))

theorem colon_eq_some_iff : colon line key = some c ↔ ∃ before between rest,
    before ++ (search key ++ (between ++ 58 :: rest)) = line ∧
    (∀ j < before.length, ¬search key <+: line.drop j) ∧ 58 ∉ between ∧
    before.length + (search key).length + between.length = c := by
  simp only [colon, Option.bind_eq_bind, Option.bind_eq_some_iff, find_split_iff,
    findFrom_singleton_iff]
  constructor
  · rintro ⟨_, ⟨before, r, rfl, rfl, hfirst⟩, between, rest, hd, hb, rfl⟩
    rw [← List.drop_drop, List.drop_left, List.drop_left] at hd
    subst hd
    exact ⟨before, between, rest, rfl, hfirst, hb, rfl⟩
  · rintro ⟨before, between, rest, rfl, hfirst, hb, rfl⟩
    refine ⟨_, ⟨before, _, rfl, rfl, hfirst⟩, between, rest, ?_, hb, rfl⟩
    rw [← List.drop_drop, List.drop_left, List.drop_left]

theorem drop_colon {before between rest : List UInt8} :
    (before ++ (search key ++ (between ++ 58 :: rest))).drop
      (before.length + (search key).length + between.length + 1) = rest := by
  simp only [← List.drop_drop, List.drop_left, List.drop_one, List.tail_cons]

theorem numberText_eq_some_iff : numberText line key = some num ↔ NumberAt line key num := by
  simp only [numberText, Option.map_eq_some_iff, colon_eq_some_iff]
  constructor
  · rintro ⟨_, ⟨before, between, r, rfl, hfirst, hb, rfl⟩, rfl⟩
    rw [drop_colon]
    have hs := span isBlank r
    have hn := span isNumeric (r.dropWhile isBlank)
    refine ⟨before, between, r.takeWhile isBlank, (r.dropWhile isBlank).dropWhile isNumeric, ?_,
      hfirst, hb, ?_, ?_⟩
    · rw [hn.split, hs.split]
    · rwa [hn.split, hs.split]
    · rwa [hn.split]
  · rintro ⟨before, between, blanks, rest, rfl, hfirst, hb, hs, hn⟩
    refine ⟨_, ⟨before, between, _, rfl, hfirst, hb, rfl⟩, ?_⟩
    rw [drop_colon, (span_iff.mp hs).right, (span_iff.mp hn).left]

theorem isSome_jsonExtractInt_iff : (jsonExtractInt line key).isSome ↔
    ∀ num, NumberAt line key num → num = [] ∨ Convertible num := by
  simp only [← numberText_eq_some_iff, Convertible, ← isSome_stoull_iff]
  rw [jsonExtractInt]
  cases numberText line key
  case none     => simp
  case some num =>
    by_cases hn : num = [] <;> simp [hn]

theorem answered_of_extracted (hp : jsonExtractInt line "port" = some port)
    (hs : jsonExtractInt line "speed_mbps" = some speed) : Answered std server now remote line := by
  by_cases hi : jsonExtractString line "info_hash" = []
  case pos =>
    refine .inl ⟨hi, ?_⟩
    simp only [handleClient, hp, hs, hi, Option.bind_eq_bind, Option.bind_some, if_pos,
      Option.pure_def]
  case neg =>
    refine .inr ⟨hi, port.toUInt16, speed.toUInt32, _, _, Prod.mk.eta.symm, ?_⟩
    simp only [handleClient, hp, hs, hi, Option.bind_eq_bind, Option.bind_some, if_false,
      Option.pure_def]

theorem extracted_of_handleClient (h : handleClient std server now remote line = some x) :
    (jsonExtractInt line "port").isSome ∧ (jsonExtractInt line "speed_mbps").isSome := by
  simp only [handleClient, Option.bind_eq_bind, Option.bind_eq_some_iff] at h
  obtain ⟨port, hp, speed, hs, -⟩ := h
  rw [hp, hs]
  exact ⟨rfl, rfl⟩

theorem request_answered_iff : Answered std server now remote line ↔
    ∀ key ∈ ["port", "speed_mbps"], ∀ num, NumberAt line key num → num = [] ∨ Convertible num := by
  simp only [← isSome_jsonExtractInt_iff]
  rw [List.forall_mem_cons, List.forall_mem_singleton]
  constructor
  · rintro (⟨-, h⟩ | ⟨-, _, _, _, _, -, h⟩)
    all_goals exact extracted_of_handleClient h
  · rintro ⟨hp, hs⟩
    obtain ⟨port, hp⟩ := Option.isSome_iff_exists.mp hp
    obtain ⟨speed, hs⟩ := Option.isSome_iff_exists.mp hs
    exact answered_of_extracted hp hs

-- A minus alone and a number of more than 64 bits.
theorem number_not_convertible :
    (∀ request ∈ ["\x7b\"port\":-\x7d\n", "\x7b\"port\":18446744073709551616\x7d\n"],
      (handleClient .stable {} 0 (some "10.0.0.2") (utf8 request)).isNone) ∧
    ¬Answered .stable {} 0 (some "10.0.0.2") (utf8 "\x7b\"port\":-\x7d\n") := by
  have h : ∀ request ∈ ["\x7b\"port\":-\x7d\n", "\x7b\"port\":18446744073709551616\x7d\n"],
      (handleClient .stable {} 0 (some "10.0.0.2") (utf8 request)).isNone := by
    decide +kernel
  refine ⟨h, ?_⟩
  rintro (⟨-, ha⟩ | ⟨-, _, _, _, _, -, ha⟩)
  all_goals
    have hn := h _ List.mem_cons_self
    rw [ha] at hn
    cases hn

end ThinBT.TrackerAcceptor
