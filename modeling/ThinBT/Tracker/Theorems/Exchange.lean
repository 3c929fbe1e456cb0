import ThinBT.Common.Theorems.TrackerUrl
import ThinBT.Tracker.Exchange
import ThinBT.Tracker.Theorems.Membership
import ThinBT.Tracker.Theorems.Requests

namespace ThinBT

open Cli Strings Numbers
open TrackerUrl (utf8_append utf8_eq_flatMap utf8_toString value_utf8_toString isDigit_utf8_toString)

section Texts

theorem utf8_ofList {cs : List Char} (h : ∀ c ∈ cs, c.toNat < 128) :
    utf8 (.ofList cs) = cs.map fun c => c.val.toUInt8 := by
  rw [utf8_eq_flatMap, String.toList_ofList, List.map_eq_flatMap]
  refine List.flatMap_congr fun c hc => String.utf8EncodeChar_eq_singleton ?_
  rw [Char.utf8Size_eq_one_iff, UInt32.le_iff_toNat_le]
  exact Nat.le_of_lt_succ (h c hc)

theorem utf8_injective {s t : String} (h : utf8 s = utf8 t) : s = t := by
  refine String.toByteArray_inj.mp ?_
  exact ByteArray.ext (Array.toList_inj.mp h)

theorem toNat_ofNat_byte (b : UInt8) : (Char.ofNat b.toNat).toNat = b.toNat := by
  have hb : b.toNat.isValidChar := .inl (b.toNat_lt.trans (by decide))
  exact congrArg Char.toNat (dif_pos hb)

theorem ofBytes_injective {s t : List UInt8}
    (h : TrackerAcceptor.ofBytes s = TrackerAcceptor.ofBytes t) : s = t := by
  refine List.map_injective_iff.mpr (fun a b hab => ?_) (String.ofList_injective h)
  have hn := congrArg Char.toNat hab
  rw [toNat_ofNat_byte, toNat_ofNat_byte] at hn
  exact UInt8.toNat_inj.mp hn

theorem digitChar_inj : ∀ a < 16, ∀ b < 16, Nat.digitChar a = Nat.digitChar b → a = b := by
  decide

theorem digitChar_plain : ∀ a < 16, (Nat.digitChar a).toNat < 127 ∧ 48 ≤ (Nat.digitChar a).toNat ∧
    (Nat.digitChar a).toNat ≠ 92 := by
  decide

theorem hexText_injective {s t : List UInt8} (h : hexText s = hexText t) : s = t := by
  replace h := String.ofList_injective h
  induction s generalizing t
  case nil =>
    cases t
    case nil  => rfl
    case cons => cases h
  case cons a s hi =>
    cases t
    case nil => cases h
    case cons b t =>
      obtain ⟨hd, h⟩ := List.cons.inj h
      obtain ⟨hm, h⟩ := List.cons.inj h
      have ha := a.toNat_lt
      have hb := b.toNat_lt
      have hd := digitChar_inj _ (by omega) _ (by omega) hd
      have hm := digitChar_inj _ (by omega) _ (by omega) hm
      rw [UInt8.toNat_inj.mp (show a.toNat = b.toNat by omega), hi h]

theorem digit_hexText {s : List UInt8}
    (h : c ∈ s.flatMap fun b => [Nat.digitChar (b.toNat / 16), Nat.digitChar (b.toNat % 16)]) :
    c.toNat < 127 ∧ 48 ≤ c.toNat ∧ c.toNat ≠ 92 := by
  obtain ⟨b, _, hc⟩ := List.mem_flatMap.mp h
  have hb := b.toNat_lt
  obtain rfl | rfl : c = _ ∨ c = _ := by simpa using hc
  all_goals exact digitChar_plain _ (by omega)

-- The digits of a digest stand for themselves.
theorem plainText_hexText {s : List UInt8} : Json.PlainText (utf8 (hexText s)) := by
  rw [hexText, utf8_ofList fun c hc => (digit_hexText hc).left.trans (by decide)]
  intro b hb
  obtain ⟨c, hm, rfl⟩ := List.mem_map.mp hb
  obtain ⟨h₁, h₂, h₃⟩ := digit_hexText hm
  have hn : c.val.toUInt8.toNat = c.toNat := by
    rw [UInt32.toNat_toUInt8]
    exact Nat.mod_eq_of_lt (h₁.trans (by decide))
  simp only [UInt8.le_iff_toNat_le, UInt8.lt_iff_toNat_lt, ne_eq, ← UInt8.toNat_inj, hn, UInt8.reduceToNat]
  omega

theorem plainText_ntoa (inet : Inet) (ip : UInt32) : Json.PlainText (utf8 (inet.ntoa ip)) := by
  intro b hb
  obtain hd | rfl := inet.ntoa_mem ip b hb
  case inr => decide
  case inl =>
    rw [isDigit, Bool.and_eq_true, decide_eq_true_eq, decide_eq_true_eq, UInt8.le_iff_toNat_le,
      UInt8.le_iff_toNat_le] at hd
    simp only [UInt8.le_iff_toNat_le, UInt8.lt_iff_toNat_lt, ne_eq, ← UInt8.toNat_inj,
      UInt8.reduceToNat] at hd ⊢
    omega

theorem readLine_eq {s : List UInt8} (h : 10 ∉ s) : readLine (s ++ [10]) = some (s ++ [10]) := by
  have hf : find [10] (s ++ [10]) = some s.length := find_singleton_iff.mpr ⟨s, [], rfl, h, rfl⟩
  rw [readLine, hf, Option.map_some, List.take_of_length_le (by simp)]

end Texts

namespace TrackerAcceptor

variable {t v : List UInt8} {key : String}

-- A key that is followed by a colon, in a text that is cut at its quotes.
theorem colon_quoted (ts us : List (List UInt8)) (hk : 34 ∉ utf8 key) (ht : 34 ∉ t) (hts : ∀ t ∈ ts, 34 ∉ t)
    (hn : utf8 key ∉ ts) :
    ∃ c, colon (t ++ quoted 34 (ts ++ utf8 key :: (58 :: v) :: us)) key = some c ∧
      (t ++ quoted 34 (ts ++ utf8 key :: (58 :: v) :: us)).drop (c + 1) = v ++ quoted 34 us := by
  have hq : t ++ quoted 34 (ts ++ utf8 key :: (58 :: v) :: us) =
      t ++ (quoted 34 ts ++ quoted 34 (utf8 key :: (58 :: v) :: us)) := by
    rw [quoted, List.flatMap_append]
    rfl
  have hs : t ++ (quoted 34 ts ++ quoted 34 (utf8 key :: (58 :: v) :: us)) =
      (t ++ quoted 34 ts) ++ (search key ++ ([] ++ 58 :: (v ++ quoted 34 us))) := by
    simp [quoted, search]
  refine ⟨_, colon_eq_some_iff.mpr ⟨t ++ quoted 34 ts, [], v ++ quoted 34 us, (hq.trans hs).symm,
    fun j hj => ?_, List.not_mem_nil, rfl⟩, ?_⟩
  · rw [hq]
    by_cases hlt : j < t.length
    case pos =>
      rw [List.drop_append_of_le_length hlt.le, List.drop_eq_getElem_cons hlt, List.cons_append,
        search, List.cons_prefix_cons]
      exact fun h => ht (h.left ▸ List.getElem_mem hlt)
    case neg =>
      rw [List.length_append] at hj
      rw [show j = t.length + (j - t.length) by omega, ← List.drop_drop, List.drop_left]
      exact not_prefix_quoted hk hts hn (List.cons_ne_nil _ _) (by omega)
  · rw [hq, hs]
    exact drop_colon

theorem jsonExtractString_quoted (ts us : List (List UInt8)) (hk : 34 ∉ utf8 key) (ht : 34 ∉ t)
    (hts : ∀ t ∈ ts, 34 ∉ t) (hn : utf8 key ∉ ts) (hv : 34 ∉ v) (hu : us ≠ []) :
    jsonExtractString (t ++ quoted 34 (ts ++ utf8 key :: [58] :: v :: us)) key = v := by
  obtain ⟨c, hc, hd⟩ := colon_quoted (v := []) ts (v :: us) hk ht hts hn
  obtain ⟨u, us, rfl⟩ := List.exists_cons_of_ne_nil hu
  generalize t ++ quoted 34 (ts ++ utf8 key :: [58] :: v :: u :: us) = line at hc hd ⊢
  have hd : line.drop (c + 1) = 34 :: (v ++ 34 :: (u ++ quoted 34 us)) := by
    rw [hd]
    simp [quoted]
  have hd' : line.drop (c + 1 + 1) = v ++ 34 :: (u ++ quoted 34 us) := by
    rw [← List.drop_drop, hd, List.drop_one, List.tail_cons]
  have hvs : findFrom [34] line (c + 1) = some (c + 1) :=
    findFrom_singleton_iff.mpr ⟨[], _, hd, List.not_mem_nil, rfl⟩
  have hve : findFrom [34] line (c + 1 + 1) = some (c + 1 + 1 + v.length) :=
    findFrom_singleton_iff.mpr ⟨v, _, hd', hv, rfl⟩
  simp only [jsonExtractString, hc, hvs, hve, Option.bind_eq_bind, Option.bind_some, Option.pure_def,
    Option.getD_some, List.slice, hd']
  rw [show c + 1 + 1 + v.length - (c + 1) - 1 = v.length by omega, List.take_left]

theorem utf8_toString_ne_nil (n : Nat) : utf8 (toString n) ≠ [] := by
  rw [utf8_toString]
  simp

theorem stoull_toString {n : Nat} (h : n < 2 ^ 64) : stoull (utf8 (toString n)) = some (.ofNat n) := by
  let t : Numeral := {
    blanks        := []
    sign          := []
    digits        := utf8 (toString n)
    rest          := []
    blanks_space  := by simp
    sign_mem      := by simp
    digits_ne_nil := utf8_toString_ne_nil n
    digits_digit  := isDigit_utf8_toString n
    rest_stop     := by simp }
  have hs : scan (utf8 (toString n)) = some (false, n) := by
    have hs := t.scan_text
    rw [Numeral.text, value_utf8_toString] at hs
    simpa [t, Numeral.minus] using hs
  rw [stoull, hs]
  exact if_pos h

theorem isNumeric_of_isDigit (h : isDigit b) : isNumeric b :=
  Bool.or_eq_true_iff.mpr (.inl h)

theorem not_isBlank_of_isDigit (h : isDigit b) : ¬isBlank b := by
  intro hb
  obtain rfl | rfl : b = 32 ∨ b = 9 := by simpa [isBlank] using hb
  all_goals exact absurd h (by decide)

theorem jsonExtractInt_quoted {n : Nat} {rest : List UInt8} (ts us : List (List UInt8))
    (hk : 34 ∉ utf8 key) (ht : 34 ∉ t) (hts : ∀ t ∈ ts, 34 ∉ t) (hn : utf8 key ∉ ts) (hv : n < 2 ^ 64)
    (hr : ∀ b ∈ (rest ++ quoted 34 us).head?, ¬isNumeric b) :
    jsonExtractInt (t ++ quoted 34 (ts ++ utf8 key :: (58 :: (utf8 (toString n) ++ rest)) :: us)) key =
      some (.ofNat n) := by
  obtain ⟨c, hc, hd⟩ := colon_quoted (v := utf8 (toString n) ++ rest) ts us hk ht hts hn
  have hs : Span isBlank (utf8 (toString n) ++ (rest ++ quoted 34 us)) []
      (utf8 (toString n) ++ (rest ++ quoted 34 us)) := by
    refine ⟨rfl, List.forall_mem_nil _, fun b hb => ?_⟩
    rw [List.head?_append_of_ne_nil _ (utf8_toString_ne_nil n)] at hb
    exact not_isBlank_of_isDigit (isDigit_utf8_toString n b (List.mem_of_mem_head? hb))
  have hnum : Span isNumeric (utf8 (toString n) ++ (rest ++ quoted 34 us)) (utf8 (toString n))
      (rest ++ quoted 34 us) :=
    ⟨rfl, fun b hb => isNumeric_of_isDigit (isDigit_utf8_toString n b hb), hr⟩
  have htext : numberText (t ++ quoted 34 (ts ++ utf8 key ::
      (58 :: (utf8 (toString n) ++ rest)) :: us)) key = some (utf8 (toString n)) := by
    rw [numberText, hc, Option.map_some, hd, List.append_assoc, (span_iff.mp hs).right,
      (span_iff.mp hnum).left]
  rw [jsonExtractInt, htext]
  exact (if_neg (utf8_toString_ne_nil n)).trans (stoull_toString hv)

end TrackerAcceptor

namespace TrackerClient

-- The request, cut at its quotes.
def tokens (infoHashHex : String) (p2pPort : UInt16) (speedMbps : UInt32) : List (List UInt8) := [
  utf8 "op", [58], utf8 "announce", [44], utf8 "info_hash", [58], utf8 infoHashHex, [44],
  utf8 "port", 58 :: (utf8 (toString p2pPort.toNat) ++ [44]),
  utf8 "speed_mbps", 58 :: (utf8 (toString speedMbps.toNat) ++ [125, 10])
]

theorem utf8_request {infoHashHex : String} : utf8 (request infoHashHex port speed) =
    [123] ++ quoted 34 (tokens infoHashHex port speed) := by
  have h₁ : utf8 "\x7b\"op\":\"announce\",\"info_hash\":\"" = [123] ++ quoted 34 [utf8 "op", [58],
      utf8 "announce", [44], utf8 "info_hash", [58], []] := by decide +kernel
  have h₂ : utf8 "\",\"port\":" = quoted 34 [[44], utf8 "port", [58]] := by decide +kernel
  have h₃ : utf8 ",\"speed_mbps\":" = [44] ++ quoted 34 [utf8 "speed_mbps", [58]] := by
    decide +kernel
  have h₄ : utf8 "\x7d\n" = [125, 10] := by decide +kernel
  unfold request
  simp only [utf8_append, h₁, h₂, h₃, h₄, quoted, tokens, List.flatMap_cons, List.flatMap_nil,
    List.append_nil, List.append_assoc, List.cons_append, List.nil_append]

variable {d : Sha1Digest} {port : UInt16} {speed : UInt32}

theorem length_utf8_sha1Hex : (utf8 (sha1Hex d)).length = 40 := by
  have hl : (d.val.flatMap fun b =>
      [Nat.digitChar (b.toNat / 16), Nat.digitChar (b.toNat % 16)]).length = 40 := by
    simp [d.property]
  rw [sha1Hex, hexText, utf8_ofList fun c hc => (digit_hexText hc).left.trans (by decide),
    List.length_map, hl]

theorem quote_not_mem_number {n : Nat} {rest : List UInt8} (h : 34 ∉ rest) :
    34 ∉ 58 :: (utf8 (toString n) ++ rest) := by
  simp only [List.mem_cons, List.mem_append, not_or]
  exact ⟨by decide, fun hm => absurd (isDigit_utf8_toString n 34 hm) (by decide), h⟩

theorem quote_not_mem_tokens : ∀ t ∈ tokens (sha1Hex d) port speed, 34 ∉ t := by
  have hd : 34 ∉ utf8 (sha1Hex d) := fun h => (plainText_hexText 34 h).right.right.left rfl
  rw [tokens]
  simp only [List.forall_mem_cons]
  refine ⟨by decide +kernel, by decide, by decide +kernel, by decide, by decide +kernel, by decide, hd,
    by decide, by decide +kernel, quote_not_mem_number (by decide), by decide +kernel,
    quote_not_mem_number (by decide), List.forall_mem_nil _⟩

-- The tracker finds in the request what the client has written there.
theorem extract_request (d : Sha1Digest) (port : UInt16) (speed : UInt32) :
    TrackerAcceptor.jsonExtractString (utf8 (request (sha1Hex d) port speed)) "info_hash" =
        utf8 (sha1Hex d) ∧
      TrackerAcceptor.jsonExtractInt (utf8 (request (sha1Hex d) port speed)) "port" =
        some (.ofNat port.toNat) ∧
      TrackerAcceptor.jsonExtractInt (utf8 (request (sha1Hex d) port speed)) "speed_mbps" =
        some (.ofNat speed.toNat) := by
  have hq : ∀ t ∈ tokens (sha1Hex d) port speed, 34 ∉ t := quote_not_mem_tokens
  have ne_hex {key : List UInt8} (hk : key.length ≠ 40) : key ≠ utf8 (sha1Hex d) := by
    rintro rfl
    exact hk length_utf8_sha1Hex
  rw [utf8_request]
  refine ⟨?_, ?_, ?_⟩
  · refine TrackerAcceptor.jsonExtractString_quoted ((tokens (sha1Hex d) port speed).take 4)
      ((tokens (sha1Hex d) port speed).drop 7) (by decide +kernel) (by decide)
      (fun t ht => hq t (List.mem_of_mem_take ht)) ?_ (hq _ (by simp [tokens])) (List.cons_ne_nil _ _)
    show utf8 "info_hash" ∉ [utf8 "op", [58], utf8 "announce", [44]]
    decide +kernel
  · refine TrackerAcceptor.jsonExtractInt_quoted ((tokens (sha1Hex d) port speed).take 8)
      ((tokens (sha1Hex d) port speed).drop 10) (by decide +kernel) (by decide)
      (fun t ht => hq t (List.mem_of_mem_take ht)) ?_ (port.toNat_lt.trans (by decide))
      (by simp [TrackerAcceptor.isNumeric, isDigit])
    simp only [tokens, List.take_succ_cons, List.take_zero, List.mem_cons, List.not_mem_nil, or_false,
      not_or]
    exact ⟨by decide +kernel, by decide +kernel, by decide +kernel, by decide +kernel,
      by decide +kernel, by decide +kernel, ne_hex (by decide +kernel), by decide +kernel⟩
  · refine TrackerAcceptor.jsonExtractInt_quoted ((tokens (sha1Hex d) port speed).take 10)
      ((tokens (sha1Hex d) port speed).drop 12) (by decide +kernel) (by decide)
      (fun t ht => hq t (List.mem_of_mem_take ht)) ?_ (speed.toNat_lt.trans (by decide))
      (by simp [TrackerAcceptor.isNumeric, isDigit])
    have hhead : (utf8 "speed_mbps").head? ≠ some 58 := by decide +kernel
    simp only [tokens, List.take_succ_cons, List.take_zero, List.mem_cons, List.not_mem_nil, or_false,
      not_or]
    exact ⟨by decide +kernel, by decide +kernel, by decide +kernel, by decide +kernel,
      by decide +kernel, by decide +kernel, ne_hex (by decide +kernel), by decide +kernel,
      by decide +kernel, fun h => hhead (congrArg List.head? h)⟩

-- The request as a value.
def requestJson (infoHashHex : String) (p2pPort : UInt16) (speedMbps : UInt32) : Json :=
  .obj [(utf8 "op", .str (utf8 "announce")), (utf8 "info_hash", .str (utf8 infoHashHex)),
    (utf8 "port", .int p2pPort.toNat), (utf8 "speed_mbps", .int speedMbps.toNat)]

theorem utf8_request_eq_compact {infoHashHex : String} : utf8 (request infoHashHex port speed) =
    (requestJson infoHashHex port speed).compact ++ [10] := by
  have hn (n : Nat) : Json.digits n = utf8 (toString n) := (utf8_toString n).symm
  rw [utf8_request]
  simp only [quoted, tokens, requestJson, Json.compact, Json.members, hn, List.flatMap_cons,
    List.flatMap_nil, List.append_nil, List.append_assoc, List.cons_append, List.nil_append]

theorem readLine_request :
    readLine (utf8 (request (sha1Hex d) port speed)) = some (utf8 (request (sha1Hex d) port speed)) := by
  have hp : (requestJson (sha1Hex d) port speed).Plain := by
    have hport := port.toNat_lt
    have hspeed := speed.toNat_lt
    simp only [requestJson, Json.Plain, Json.PlainMembers, and_true]
    exact ⟨by decide +kernel, by decide +kernel, by decide +kernel, plainText_hexText,
      by decide +kernel, by omega, by decide +kernel, by omega⟩
  rw [utf8_request_eq_compact]
  exact readLine_eq fun h => absurd (Json.le_of_mem_compact _ hp 10 h) (by decide)

end TrackerClient

namespace TrackerAcceptor

-- The swarm of a seed on the tracker.
def key (d : Sha1Digest) : String :=
  ofBytes (utf8 (sha1Hex d))

theorem handleClient_request {d : Sha1Digest} {port : UInt16} {speed : UInt32} :
    handleClient std server now (some ip) (utf8 (TrackerClient.request (sha1Hex d) port speed)) =
      some ((server.announce std now (key d) ip port speed).1,
        response (server.announce std now (key d) ip port speed).2 ip port) := by
  obtain ⟨hd, hp, hs⟩ := TrackerClient.extract_request d port speed
  have hne : utf8 (sha1Hex d) ≠ [] := by
    intro h
    have hl := TrackerClient.length_utf8_sha1Hex (d := d)
    rw [h] at hl
    cases hl
  have hport : (UInt64.ofNat port.toNat).toUInt16 = port := by simp
  have hspeed : (UInt64.ofNat speed.toNat).toUInt32 = speed := by simp
  simp only [handleClient, hd, hp, hs, Option.bind_eq_bind, Option.bind_some, if_neg hne, hport, hspeed,
    Option.getD_some]
  rfl

section Responses

variable {peers : List TrackerPeerEntry} {inet : Inet}

def entryJson (p : TrackerPeerEntry) : Json :=
  .obj [(utf8 "ip", .str (utf8 p.ip)), (utf8 "port", .int p.port.toNat),
    (utf8 "flags", .int p.flags.toNat)]

def responseJson (peers : List TrackerPeerEntry) : Json :=
  .obj [(utf8 "interval", .int 30), (utf8 "peers", .arr (peers.map entryJson))]

theorem utf8_intercalate {ss : List String} :
    utf8 (",".intercalate ss) = [44].intercalate (ss.map utf8) := by
  obtain _ | ⟨s, ss⟩ := ss
  case nil => rfl
  case cons =>
    induction ss generalizing s
    case nil => simp [List.intercalate]
    case cons t ss hi =>
      rw [String.intercalate_cons_cons, utf8_append, utf8_append, hi]
      simp only [List.map_cons, List.intercalate_cons_cons]
      rfl

theorem utf8_entry {p : TrackerPeerEntry} : utf8 (entry p) = (entryJson p).compact := by
  have hn (n : Nat) : Json.digits n = utf8 (toString n) := (utf8_toString n).symm
  have h₁ : utf8 "\x7b\"ip\":\"" = 123 :: 34 :: (utf8 "ip" ++ [34, 58, 34]) := by decide +kernel
  have h₂ : utf8 "\",\"port\":" = 34 :: 44 :: 34 :: (utf8 "port" ++ [34, 58]) := by decide +kernel
  have h₃ : utf8 ",\"flags\":" = 44 :: 34 :: (utf8 "flags" ++ [34, 58]) := by decide +kernel
  have h₄ : utf8 "\x7d" = [125] := by decide +kernel
  unfold entry
  simp only [utf8_append, h₁, h₂, h₃, h₄, entryJson, Json.compact, Json.members, hn, List.append_assoc,
    List.cons_append, List.nil_append]

theorem utf8_response {ip : String} {port : UInt16}
    (h : ∀ p ∈ peers, p.endpoint ≠ (ip, port)) :
    utf8 (response peers ip port) = (responseJson peers).compact ++ [10] := by
  have hf : (peers.filter fun p => !(p.ip = ip && p.port = port)) = peers := by
    refine List.filter_eq_self.mpr fun p hp => ?_
    simpa using TrackerServer.endpoint_ne_iff.mp (h p hp)
  have h₁ : utf8 "\x7b\"interval\":30,\"peers\":[" = 123 :: 34 :: (utf8 "interval" ++ 34 :: 58 ::
      ((Json.int 30).compact ++ 44 :: 34 :: (utf8 "peers" ++ [34, 58, 91]))) := by decide +kernel
  have h₂ : utf8 "]\x7d\n" = [93, 125, 10] := by decide +kernel
  have hm : (peers.map entry).map utf8 = (peers.map entryJson).map Json.compact := by
    rw [List.map_map, List.map_map]
    exact List.map_congr_left fun p _ => utf8_entry
  unfold response
  rw [hf, utf8_append, utf8_append, h₁, h₂, utf8_intercalate, hm, responseJson, Json.compact, Json.members,
    Json.members, Json.compact_arr]
  simp only [List.append_assoc, List.cons_append, List.nil_append]

theorem plain_responseJson (h : ∀ p ∈ peers, Json.PlainText (utf8 p.ip)) :
    (responseJson peers).Plain := by
  have hp : Json.PlainElements (peers.map entryJson) := by
    refine Json.plainElements_iff.mpr fun v hv => ?_
    obtain ⟨p, hm, rfl⟩ := List.mem_map.mp hv
    have hport := p.port.toNat_lt
    have hflags := p.flags.toNat_lt
    simp only [entryJson, Json.Plain, Json.PlainMembers, and_true]
    exact ⟨by decide +kernel, h p hm, by decide +kernel, by omega, by decide +kernel, by omega⟩
  simp only [responseJson, Json.Plain, Json.PlainMembers, and_true]
  exact ⟨by decide +kernel, by decide, by decide +kernel, hp⟩

theorem readLine_response {ip : String} {port : UInt16} (h : ∀ p ∈ peers, p.endpoint ≠ (ip, port))
    (hp : ∀ p ∈ peers, Json.PlainText (utf8 p.ip)) :
    readLine (utf8 (response peers ip port)) = some ((responseJson peers).compact ++ [10]) := by
  rw [utf8_response h]
  refine readLine_eq fun hm => ?_
  exact absurd (Json.le_of_mem_compact _ (plain_responseJson hp) 10 hm) (by decide)

end Responses
end TrackerAcceptor

namespace TrackerClient

open TrackerAcceptor (entryJson responseJson plain_responseJson)

variable {peers : List TrackerPeerEntry} {inet : Inet} {reader : Json.Reader}

-- An entry of the tracker as the client has it.
def peerOf (inet : Inet) (p : TrackerPeerEntry) : PexPeer :=
  ⟨inet.addr (utf8 p.ip), hton16 p.port, p.flags, 0⟩

theorem getUint_natCast (n : Nat) : getUint (.int n) = .ofNat n := by
  have hm : ((n : Int) % 2 ^ 64).toNat = n % 2 ^ 64 := by omega
  refine UInt64.toNat_inj.mp ?_
  rw [getUint, UInt64.ofInt, hm]
  simp

theorem parsePeer_entryJson {p : TrackerPeerEntry} (h : Json.PlainText (utf8 p.ip)) :
    parsePeer inet (entryJson p) = some (some (peerOf inet p)) := by
  have hi : (entryJson p).get (utf8 "ip") = some (.str (utf8 p.ip)) := by
    rw [entryJson, Json.get_obj_cons, if_pos rfl]
  have hp : (entryJson p).get (utf8 "port") = some (.int p.port.toNat) := by
    rw [entryJson, Json.get_obj_cons, if_neg (by decide +kernel), Json.get_obj_cons, if_pos rfl]
  have hf : (entryJson p).get (utf8 "flags") = some (.int p.flags.toNat) := by
    rw [entryJson, Json.get_obj_cons, if_neg (by decide +kernel), Json.get_obj_cons,
      if_neg (by decide +kernel), Json.get_obj_cons, if_pos rfl]
  have hz : (utf8 p.ip).takeWhile (· ≠ 0) = utf8 p.ip := by
    refine List.takeWhile_eq_self_iff.mpr fun b hb => decide_eq_true ?_
    rintro rfl
    exact absurd (h 0 hb).left (by decide)
  have hport : (UInt64.ofNat p.port.toNat).toUInt16 = p.port := by simp
  have hflags : (UInt64.ofNat p.flags.toNat).toUInt8 = p.flags := by simp
  simp only [parsePeer, hi, hp, hf, hz, getUint_natCast, Option.elim_some, hport, hflags]
  rfl

-- The client reads the entries that the tracker has sent.
theorem parse_response (h : ∀ p ∈ peers, Json.PlainText (utf8 p.ip)) :
    parseTrackerResponse reader inet ((responseJson peers).compact ++ [10]) =
      some (peers.map (peerOf inet)) := by
  have hr : reader.read ((responseJson peers).compact ++ [10]) = some (responseJson peers) :=
    reader.read_compact (plain_responseJson h) (by decide +kernel)
  have he : (responseJson peers).get (utf8 "error") = none := by
    rw [responseJson, Json.get_obj_cons, if_neg (by decide +kernel), Json.get_obj_cons,
      if_neg (by decide +kernel)]
    rfl
  have hp : (responseJson peers).get (utf8 "peers") = some (.arr (peers.map entryJson)) := by
    rw [responseJson, Json.get_obj_cons, if_neg (by decide +kernel), Json.get_obj_cons, if_pos rfl]
  have hm : (peers.map entryJson).mapM (parsePeer inet) =
      some ((peers.map entryJson).map fun v => (parsePeer inet v).getD none) := by
    refine List.mapM_eq_some_of_forall fun v hv => ?_
    obtain ⟨p, hmem, rfl⟩ := List.mem_map.mp hv
    rw [parsePeer_entryJson (h p hmem), Option.getD_some]
  simp only [parseTrackerResponse, hr, he, hp, hm, Option.isSome_none, Option.map_some, Bool.false_eq_true,
    if_false, List.map_map, List.filterMap_map, Option.some.injEq]
  rw [← List.filterMap_eq_map]
  refine List.filterMap_congr fun p hmem => ?_
  simp only [Function.comp_apply, parsePeer_entryJson (h p hmem), Option.getD_some, id_eq]

end TrackerClient

namespace Exchange

open TrackerServer (Holds Current Keeps flagsOf)
open TrackerAcceptor (key)

variable {reader : Json.Reader} {inet : Inet} {std : FlagSort} {server : TrackerServer}
variable {calls : List (Int × Op)} {a b : Announce}

theorem key_injective {d e : Sha1Digest} (h : key d = key e) : d = e :=
  Subtype.ext (hexText_injective (utf8_injective (ofBytes_injective h)))

theorem ntoa_injective {ip ip' : UInt32} (h : inet.ntoa ip = inet.ntoa ip') : ip = ip' := by
  rw [← inet.addr_ntoa ip, h, inet.addr_ntoa]

-- The call of the tracker that a step makes.
def call (inet : Inet) : Int × Op → Int × TrackerServer.Op
  | (now, .announce a)              =>
    (now, .announce (key a.infoHash) (inet.ntoa a.ip) a.port a.speedMbps)
  | (now, .cleanupStale timeoutSec) => (now, .cleanupStale timeoutSec)

-- The call neither announces the endpoint again nor finds its announce, which was made at a time, stale.
def Spares (t : Int) (a : Announce) : Int × Op → Prop
  | (_, .announce b)                => ¬(b.infoHash = a.infoHash ∧ b.ip = a.ip ∧ b.port = a.port)
  | (now, .cleanupStale timeoutSec) => ¬timeoutSec.toNat < (now - t).tdiv 1000000000

-- The announce is the latest one of its endpoint, and it has not become stale.
def Listed (calls : List (Int × Op)) (a : Announce) : Prop :=
  ∃ before t after, calls = before ++ (t, .announce a) :: after ∧ ∀ x ∈ after, Spares t a x

-- The client is told to connect to the others that have announced the same seed, to each once and to
-- those with gigabit first.
structure Told (inet : Inet) (calls : List (Int × Op)) (a : Announce)
    (cs : List (String × UInt16 × UInt8)) : Prop where
  mem          : ∀ c, c ∈ cs ↔ ∃ b, Listed calls b ∧ b.infoHash = a.infoHash ∧
    (b.ip, b.port) ≠ (a.ip, a.port) ∧ c = (inet.ntoa b.ip, b.port, flagsOf b.speedMbps)
  once         : (cs.map fun c => (c.1, c.2.1)).Nodup
  gigabitFirst : cs.Pairwise fun c d => d.2.2 &&& 0x02 ≠ 0 → c.2.2 &&& 0x02 ≠ 0

def entryOf (inet : Inet) (t : Int) (a : Announce) : TrackerPeerEntry :=
  ⟨inet.ntoa a.ip, a.port, flagsOf a.speedMbps, t⟩

theorem endpoint_ne_iff : (entryOf inet t b).endpoint ≠ (inet.ntoa a.ip, a.port) ↔
    (b.ip, b.port) ≠ (a.ip, a.port) := by
  simp only [TrackerPeerEntry.endpoint, entryOf, ne_eq, Prod.mk.injEq]
  exact not_congr (and_congr_left fun _ => ⟨ntoa_injective, congrArg inet.ntoa⟩)

theorem keeps_iff : Keeps (key a.infoHash) (entryOf inet t a) (call inet x) ↔ Spares t a x := by
  obtain ⟨now, op⟩ := x
  cases op
  case cleanupStale => exact decide_eq_false_iff_not
  case announce b =>
    simp only [call, Keeps, Spares, TrackerPeerEntry.endpoint, entryOf, Prod.mk.injEq]
    refine not_congr (and_congr ⟨key_injective, congrArg key⟩ (and_congr_left fun _ => ?_))
    exact ⟨ntoa_injective, congrArg inet.ntoa⟩

-- The entries of the tracker are the announces that are listed.
theorem current_iff {hash : String} {p : TrackerPeerEntry} : Current hash p (calls.map (call inet)) ↔
    ∃ a t, key a.infoHash = hash ∧ p = entryOf inet t a ∧ ∃ before after,
      calls = before ++ (t, .announce a) :: after ∧ ∀ x ∈ after, Spares t a x := by
  constructor
  · rintro ⟨before', after', speed, he, hf, hk⟩
    obtain ⟨before, rest, rfl, rfl, hrest⟩ := List.map_eq_append_iff.mp he
    obtain ⟨⟨t, op⟩, after, rfl, hx, rfl⟩ := List.map_eq_cons_iff.mp hrest
    cases op
    case cleanupStale => cases (Prod.mk.inj hx).right
    case announce a =>
      obtain ⟨ht, hop⟩ := Prod.mk.inj hx
      injection hop with hh hip hport hspeed
      have hp : p = entryOf inet t a := by
        rw [entryOf, hip, hport, hspeed, ← hf, ht]
      refine ⟨a, t, hh, hp, before, after, rfl, fun x hx => ?_⟩
      have hkx := hk _ (List.mem_map_of_mem hx)
      rw [hp, ← hh] at hkx
      exact keeps_iff.mp hkx
  · rintro ⟨a, t, rfl, rfl, before, after, rfl, hs⟩
    refine ⟨before.map (call inet), after.map (call inet), a.speedMbps, ?_, rfl, fun x hx => ?_⟩
    · rw [List.map_append, List.map_cons]
      rfl
    · obtain ⟨y, hy, rfl⟩ := List.mem_map.mp hx
      exact keeps_iff.mpr (hs y hy)

theorem plainText_of_mem (h : Holds (calls.map (call inet)) server) {hash : String}
    {p : TrackerPeerEntry} (hp : p ∈ server.swarms hash) : Json.PlainText (utf8 p.ip) := by
  obtain ⟨a, _, _, rfl, _⟩ := current_iff.mp ((h.mem hash p).mp hp)
  exact plainText_ntoa inet a.ip

-- The texts that are exchanged carry the entries of the tracker to the client.
theorem announce_eq (h : Holds (calls.map (call inet)) server) :
    announce reader inet std server now a = some
      ((server.announce std now (key a.infoHash) (inet.ntoa a.ip) a.port a.speedMbps).1,
        (server.announce std now (key a.infoHash) (inet.ntoa a.ip) a.port a.speedMbps).2.map
          (TrackerClient.peerOf inet)) := by
  have hm : server.Answers (key a.infoHash) (inet.ntoa a.ip) a.port (server.announce std now
      (key a.infoHash) (inet.ntoa a.ip) a.port a.speedMbps).2 := h.answers
  have hplain : ∀ p ∈ (server.announce std now (key a.infoHash) (inet.ntoa a.ip) a.port
      a.speedMbps).2, Json.PlainText (utf8 p.ip) :=
    fun p hp => plainText_of_mem h ((hm.mem p).mp hp).left
  have hr := TrackerAcceptor.readLine_response (fun p hp => ((hm.mem p).mp hp).right) hplain
  have hc : TrackerAcceptor.handleClient std server now (some (inet.ntoa a.ip))
      (utf8 (TrackerClient.request (sha1Hex a.infoHash) a.port a.speedMbps)) = some (_, _) :=
    TrackerAcceptor.handleClient_request
  simp only [announce, TrackerClient.readLine_request, hc, hr, TrackerClient.parse_response hplain,
    Option.bind_eq_bind, Option.bind_some]
  rfl

theorem run_eq {before : List (Int × Op)} (h : Holds (before.map (call inet)) server) :
    Machine.run (step reader inet std) server calls =
      some (Actions.exec (TrackerServer.next std) server (calls.map (call inet))) := by
  induction calls generalizing server before
  case nil => rfl
  case cons x calls hi =>
    obtain ⟨now, op⟩ := x
    have hn : step reader inet std server (now, op) =
        some (TrackerServer.next std server (call inet (now, op))) ∧
        Holds ((before ++ [(now, op)]).map (call inet))
          (TrackerServer.next std server (call inet (now, op))) := by
      rw [List.map_append]
      cases op
      case announce a => exact ⟨by rw [step]; simp only [announce_eq h]; rfl, h.announce⟩
      case cleanupStale => exact ⟨rfl, h.cleanupStale⟩
    rw [Machine.run, hn.left, Option.bind_some, hi hn.right]
    rfl

theorem told_of_answers (h : Holds (calls.map (call inet)) server)
    (ha : server.Answers (key a.infoHash) (inet.ntoa a.ip) a.port result) :
    Told inet calls a (TrackerClient.onPeers inet (result.map (TrackerClient.peerOf inet))) := by
  have he : TrackerClient.onPeers inet (result.map (TrackerClient.peerOf inet)) =
      result.map fun p => (p.ip, p.port, p.flags) := by
    rw [TrackerClient.onPeers, List.map_map]
    refine List.map_congr_left fun p hp => ?_
    obtain ⟨b, _, _, rfl, _⟩ := current_iff.mp ((h.mem _ p).mp ((ha.mem p).mp hp).left)
    simp [TrackerClient.peerOf, entryOf, inet.addr_ntoa]
  rw [he]
  refine ⟨fun c => ?_, ?_, ?_⟩
  · simp only [List.mem_map, ha.mem, h.mem]
    constructor
    · rintro ⟨p, ⟨hp, hne⟩, rfl⟩
      obtain ⟨b, t, hb, rfl, before, after, hl⟩ := current_iff.mp hp
      exact ⟨b, ⟨before, t, after, hl⟩, key_injective hb, endpoint_ne_iff.mp hne, rfl⟩
    · rintro ⟨b, ⟨before, t, after, hl⟩, hb, hne, rfl⟩
      have hp : Current (key a.infoHash) (entryOf inet t b) (calls.map (call inet)) :=
        current_iff.mpr ⟨b, t, congrArg key hb, rfl, before, after, hl⟩
      exact ⟨entryOf inet t b, ⟨hp, endpoint_ne_iff.mpr hne⟩, rfl⟩
  · rw [List.map_map]
    exact ha.once
  · exact List.pairwise_map.mpr (ha.gigabitFirst.imp fun h => by simpa [TrackerPeerEntry.gigabit] using h)

-- The tracker and its clients exchange texts. In every sequence of announces and cleanups, a client is
-- told exactly those that have announced the same seed and are not stale.
theorem clients_are_told (reader : Json.Reader) (inet : Inet) (std : FlagSort)
    (calls : List (Int × Op)) :
    ∃ server, Machine.run (step reader inet std) {} calls = some server ∧
      ∀ now a, ∃ server' peers, announce reader inet std server now a = some (server', peers) ∧
        Told inet calls a (TrackerClient.onPeers inet peers) := by
  have h₀ : Holds (List.map (call inet) []) (TrackerServer.run std []) := TrackerServer.holds_run
  have hr : Machine.run (step reader inet std) {} calls =
      some (TrackerServer.run std (calls.map (call inet))) := run_eq h₀
  refine ⟨_, hr, fun now a => ?_⟩
  have hh : Holds (calls.map (call inet)) (TrackerServer.run std (calls.map (call inet))) :=
    TrackerServer.holds_run
  exact ⟨_, _, announce_eq hh, told_of_answers hh hh.answers⟩

-- The second client is told about the first one, which has gigabit.
example :
    let first : Announce := ⟨⟨.replicate 20 0xab, rfl⟩, 0x0100000a, 16889, 1000⟩
    let second : Announce := { first with ip := 0x0200000a, speedMbps := 100 }
    (((Machine.run (step .strict .dotted .stable) {} [(0, .announce first)]).bind fun server =>
      announce .strict .dotted .stable server 1 second).map fun x =>
        TrackerClient.onPeers .dotted x.2) = some [("10.0.0.1", 16889, 2)] := by
  decide +kernel

end Exchange
end ThinBT
