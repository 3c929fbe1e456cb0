import ThinBT.Util.Codec

namespace ThinBT

section ByteOrder

-- The conversions between host and network byte order on a little-endian host.
def hton16 (v : UInt16) : UInt16 :=
  .ofNat (byteSwap 2 v.toNat)

def hton32 (v : UInt32) : UInt32 :=
  .ofNat (byteSwap 4 v.toNat)

def hton64 (v : UInt64) : UInt64 :=
  .ofNat (byteSwap 8 v.toNat)

def ntoh16 (v : UInt16) : UInt16 :=
  .ofNat (byteSwap 2 v.toNat)

def ntoh32 (v : UInt32) : UInt32 :=
  .ofNat (byteSwap 4 v.toNat)

def ntoh64 (v : UInt64) : UInt64 :=
  .ofNat (byteSwap 8 v.toNat)

@[simp]
theorem ntoh16_hton16 : ntoh16 (hton16 v) = v := by
  have hs : (UInt16.ofNat (byteSwap 2 v.toNat)).toNat = byteSwap 2 v.toNat :=
    UInt16.toNat_ofNat_of_lt' byteSwap_lt
  rw [ntoh16, hton16, hs, byteSwap_byteSwap v.toNat_lt, UInt16.ofNat_toNat]

@[simp]
theorem ntoh32_hton32 : ntoh32 (hton32 v) = v := by
  have hs : (UInt32.ofNat (byteSwap 4 v.toNat)).toNat = byteSwap 4 v.toNat :=
    UInt32.toNat_ofNat_of_lt' byteSwap_lt
  rw [ntoh32, hton32, hs, byteSwap_byteSwap v.toNat_lt, UInt32.ofNat_toNat]

@[simp]
theorem ntoh64_hton64 : ntoh64 (hton64 v) = v := by
  have hs : (UInt64.ofNat (byteSwap 8 v.toNat)).toNat = byteSwap 8 v.toNat :=
    UInt64.toNat_ofNat_of_lt' byteSwap_lt
  rw [ntoh64, hton64, hs, byteSwap_byteSwap v.toNat_lt, UInt64.ofNat_toNat]

-- Both directions reverse the bytes.
@[simp]
theorem hton16_ntoh16 : hton16 (ntoh16 v) = v :=
  ntoh16_hton16

@[simp]
theorem hton32_ntoh32 : hton32 (ntoh32 v) = v :=
  ntoh32_hton32

@[simp]
theorem hton64_ntoh64 : hton64 (ntoh64 v) = v :=
  ntoh64_hton64

end ByteOrder

end ThinBT
