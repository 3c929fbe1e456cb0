import ThinBT.Common.Theorems.TrackerUrl

namespace ThinBT

open Cli Numbers Strings

-- IPv4 addresses in network byte order and their texts: `ntoa` is the text that sockets and
-- `inet_ntoa` give, and `addr` stands for `inet_addr`.
structure Inet where
  ntoa      : UInt32 → String
  addr      : List UInt8 → UInt32
  addr_ntoa : ∀ ip, addr (utf8 (ntoa ip)) = ip
  ntoa_mem  : ∀ ip, ∀ b ∈ utf8 (ntoa ip), isDigit b ∨ b = 46

namespace Inet

open TrackerUrl (utf8_append value_utf8_toString isDigit_utf8_toString)

-- The first byte of an address in memory is the last one of the number.
def octet (ip : UInt32) (k : Nat) : Nat :=
  ip.toNat / 256 ^ k % 256

-- The number before the next dot, and what stands behind it.
def readOctet (s : List UInt8) : Nat × List UInt8 :=
  (value (s.takeWhile isDigit), (s.dropWhile isDigit).tail)

theorem readOctet_append {r : List UInt8} (h : ∀ b ∈ r.head?, b = 46) :
    readOctet (utf8 (toString n) ++ r) = (n, r.tail) := by
  have hs : Span isDigit (utf8 (toString n) ++ r) (utf8 (toString n)) r := by
    refine ⟨rfl, isDigit_utf8_toString n, fun b hb => ?_⟩
    rw [h b hb]
    decide
  obtain ⟨ht, hd⟩ := span_iff.mp hs
  rw [readOctet, ht, hd, value_utf8_toString]

def readAddress (s : List UInt8) : Nat :=
  let a := readOctet s
  let b := readOctet a.2
  let c := readOctet b.2
  let d := readOctet c.2
  a.1 + 256 * (b.1 + 256 * (c.1 + 256 * d.1))

def dottedText (ip : UInt32) : String :=
  toString (octet ip 0) ++ "." ++ toString (octet ip 1) ++ "." ++ toString (octet ip 2) ++ "." ++
    toString (octet ip 3)

theorem utf8_dottedText {ip : UInt32} : utf8 (dottedText ip) = utf8 (toString (octet ip 0)) ++ 46 ::
    (utf8 (toString (octet ip 1)) ++ 46 :: (utf8 (toString (octet ip 2)) ++ 46 ::
      (utf8 (toString (octet ip 3)) ++ []))) := by
  have hd : utf8 "." = [46] := by decide +kernel
  unfold dottedText
  simp only [utf8_append, hd, List.append_assoc, List.cons_append, List.nil_append, List.append_nil]

theorem readAddress_dottedText {ip : UInt32} : readAddress (utf8 (dottedText ip)) = ip.toNat := by
  have hlt := ip.toNat_lt
  rw [utf8_dottedText, readAddress]
  simp only [readOctet_append (r := 46 :: _) (by simp), List.tail_cons, readOctet_append (r := []) (by simp)]
  simp only [octet]
  omega

-- Addresses as four decimal numbers.
def dotted : Inet where
  ntoa         := dottedText
  addr s       := .ofNat (readAddress s)
  addr_ntoa ip := by rw [readAddress_dottedText, UInt32.ofNat_toNat]
  ntoa_mem ip  := by
    have hn (n : Nat) (b : UInt8) (hb : b ∈ utf8 (toString n)) : isDigit b ∨ b = 46 :=
      .inl (isDigit_utf8_toString n b hb)
    rw [utf8_dottedText]
    simp only [List.forall_mem_append, List.forall_mem_cons]
    exact ⟨hn _, .inr trivial, hn _, .inr trivial, hn _, .inr trivial, hn _, List.forall_mem_nil _⟩

end Inet
end ThinBT
