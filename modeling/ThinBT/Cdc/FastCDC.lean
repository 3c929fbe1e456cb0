import ThinBT.Seed.TSeed
import Mathlib.Logic.Function.Iterate

namespace ThinBT

-- The contents of the files by their paths.
abbrev Files :=
  String → Option (List UInt8)

namespace FastCDC

-- The table `GEAR` is generated by iterating this function.
def gearNext (seed : UInt64) : UInt64 :=
  (seed ^^^ (seed >>> 12)) * 0x2545F4914F6CDD1D

def gear (byte : UInt8) : UInt64 :=
  gearNext^[byte.toNat + 1] 0x9E3779B185EBCA87

def gearUpdate (byte : UInt8) (fp : UInt64) : UInt64 :=
  (fp <<< 1) ||| ((fp >>> 63) ^^^ gear byte)

-- `init_scan_state`: the loop counts how often `avg_size` can be halved.
def maskBits (cfg : FastCDCConfig) : Nat :=
  let bits := Nat.log2 cfg.avgSize.toNat
  if 1 < bits then bits - 2 else bits

def chunkMask (cfg : FastCDCConfig) : UInt64 :=
  ((1 <<< UInt32.ofNat (maskBits cfg)) - 1 : UInt32).toUInt64

-- The condition under which `fastcdc_scan_buffer` ends a chunk after its `pos`-th byte.
def cuts (cfg : FastCDCConfig) (fp : UInt64) (pos : Nat) (last : Bool) : Bool :=
  (cfg.minSize.toNat ≤ pos && fp &&& chunkMask cfg == 0) || cfg.maxSize.toNat ≤ pos || last

section Scan

variable {δ : Type} (sha256 : List UInt8 → δ) (cfg : FastCDCConfig) (data : List UInt8)

-- The loop of `fastcdc_scan_buffer` over the bytes from position `i` on.
def scanLoop : List UInt8 → (i offsetStart : Nat) → (fingerprint : UInt64) → List (ChunkEntry δ)
  | [], _, _, _                              => []
  | byte :: rest, i, offsetStart, fingerprint =>
    let fp := gearUpdate byte fingerprint
    let pos := i - offsetStart + 1
    if cuts cfg fp pos (i = data.length - 1) then
      let chunkLen := if i = data.length - 1 then data.length - offsetStart else pos
      { offset := .ofNat offsetStart
        length := .ofNat chunkLen
        sha256 := sha256 (data.slice offsetStart chunkLen) } :: scanLoop rest (i + 1) (i + 1) 0
    else scanLoop rest (i + 1) offsetStart fp

def scanBuffer : List (ChunkEntry δ) :=
  scanLoop sha256 cfg data data 0 0 0

-- `fastcdc_scan_file`, which returns no chunks if it cannot open the file.
def scanFile (files : Files) (path : String) : List (ChunkEntry δ) :=
  (files path).elim [] (scanBuffer sha256 cfg)

end Scan

variable {δ : Type} {sha256 : List UInt8 → δ} {cfg : FastCDCConfig} {data : List UInt8}

-- The entries describe consecutive pieces of the data, from an offset up to its end.
inductive Tiles (sha256 : List UInt8 → δ) (cfg : FastCDCConfig) (data : List UInt8) :
    Nat → List (ChunkEntry δ) → Prop
  | nil : Tiles sha256 cfg data data.length []
  | cons {e : ChunkEntry δ} :
    e.offset.toNat = start → 0 < e.length.toNat → e.length.toNat ≤ max 1 cfg.maxSize.toNat →
    e.sha256 = sha256 (e.bytes data) →
    Tiles sha256 cfg data (start + e.length.toNat) es →
    Tiles sha256 cfg data start (e :: es)

-- A chunk that is not cut yet is shorter than the maximal size, so that it is never truncated to
-- 32 bits.
theorem tiles_scanLoop (hs : data.length < 2 ^ 64) (hr : rest = data.drop i) (hi : start ≤ i)
    (hl : i ≤ data.length) (ho : i = start ∨ (i < data.length ∧ i - start < cfg.maxSize.toNat)) :
    Tiles sha256 cfg data start (scanLoop sha256 cfg data rest i start fp) := by
  induction rest generalizing i start fp
  case nil =>
    have hd : data.length ≤ i := List.drop_eq_nil_iff.mp hr.symm
    obtain rfl : start = data.length := by omega
    exact .nil
  case cons byte rest ih =>
    have hlt : i < data.length := by
      rw [← Nat.not_le, ← List.drop_eq_nil_iff, ← hr]
      exact List.cons_ne_nil _ _
    have hr' : rest = data.drop (i + 1) := by
      rw [← List.tail_drop, ← hr, List.tail_cons]
    have hm : cfg.maxSize.toNat < 2 ^ 32 := cfg.maxSize.toNat_lt
    simp only [scanLoop]
    split
    case isTrue =>
      have hc : (if i = data.length - 1 then data.length - start else i - start + 1) =
          i - start + 1 := by
        split <;> omega
      have hn : (UInt32.ofNat (i - start + 1)).toNat = i - start + 1 :=
        UInt32.toNat_ofNat_of_lt' (by rw [UInt32.size]; omega)
      have hf : (UInt64.ofNat start).toNat = start :=
        UInt64.toNat_ofNat_of_lt' (by rw [UInt64.size]; omega)
      rw [hc]
      refine .cons hf ?_ ?_ ?_ ?_
      · rw [hn]; omega
      · rw [hn]; omega
      · simp only [ChunkEntry.bytes, hf, hn]
      · have hi' : start + (i - start + 1) = i + 1 := by omega
        rw [hn, hi']
        exact ih hr' (Nat.le_refl _) hlt (.inl rfl)
    case isFalse hc =>
      simp only [cuts, Bool.or_eq_true, decide_eq_true_eq, not_or] at hc
      exact ih hr' (by omega) hlt (.inr (by omega))

theorem tiles_scanBuffer (hs : data.length < 2 ^ 64) :
    Tiles sha256 cfg data 0 (scanBuffer sha256 cfg data) :=
  tiles_scanLoop hs rfl (Nat.le_refl _) (Nat.zero_le _) (.inl rfl)

-- What an entry says about the data.
structure Describes (sha256 : List UInt8 → δ) (data : List UInt8) (e : ChunkEntry δ) : Prop where
  fits : e.offset.toNat + e.length.toNat ≤ data.length
  hash : e.sha256 = sha256 (e.bytes data)

theorem Tiles.le (h : Tiles sha256 cfg data start es) : start ≤ data.length := by
  induction h
  case nil                  => exact Nat.le_refl _
  case cons _ _ _ _ _ hi    => omega

theorem Tiles.describes (h : Tiles sha256 cfg data start es) (he : e ∈ es) :
    Describes sha256 data e := by
  induction h
  case nil => cases he
  case cons ho _ _ hh ht hi =>
    cases List.mem_cons.mp he
    case inl he => exact he ▸ ⟨ho ▸ ht.le, hh⟩
    case inr he => exact hi he

theorem Tiles.length_bounds (h : Tiles sha256 cfg data start es) (he : e ∈ es) :
    0 < e.length.toNat ∧ e.length.toNat ≤ max 1 cfg.maxSize.toNat := by
  induction h
  case nil => cases he
  case cons _ hp hm _ _ hi =>
    cases List.mem_cons.mp he
    case inl he => exact he ▸ ⟨hp, hm⟩
    case inr he => exact hi he

-- There are enough chunks to cover the data.
theorem Tiles.length_le (h : Tiles sha256 cfg data start es) :
    data.length ≤ start + es.length * max 1 cfg.maxSize.toNat := by
  induction h
  case nil => exact Nat.le_add_right ..
  case cons _ hm _ _ hi =>
    rw [List.length_cons, Nat.succ_mul]
    omega

-- The last chunk ends with the data.
theorem Tiles.foldr_max (h : Tiles sha256 cfg data start es) :
    max start ((es.map fun e => e.offset.toNat + e.length.toNat).foldr max 0) = data.length := by
  induction h
  case nil => simp
  case cons ho hp _ _ _ hi =>
    rw [List.map_cons, List.foldr_cons, ho]
    omega

end FastCDC

-- A seed file that was made for the source.
structure TSeedFile.SeedOf (sha256 : List UInt8 → δ) (source : List UInt8) (seed : TSeedFile δ) :
    Prop where
  fileSize : seed.fileSize.toNat = source.length
  chunks   : seed.chunks = FastCDC.scanBuffer sha256 seed.config source

-- No other bytes have the digest of a chunk.
def TSeedFile.CollisionFree (sha256 : List UInt8 → δ) (source : List UInt8) (seed : TSeedFile δ) :
    Prop :=
  ∀ e ∈ seed.chunks, ∀ bytes, bytes.length = e.length.toNat →
    sha256 bytes = sha256 (e.bytes source) → bytes = e.bytes source

variable {δ : Type} {sha256 : List UInt8 → δ} {source : List UInt8} {seed : TSeedFile δ}

theorem TSeedFile.SeedOf.tiles (h : seed.SeedOf sha256 source) :
    FastCDC.Tiles sha256 seed.config source 0 seed.chunks := by
  rw [h.chunks]
  exact FastCDC.tiles_scanBuffer (h.fileSize ▸ seed.fileSize.toNat_lt)

end ThinBT
