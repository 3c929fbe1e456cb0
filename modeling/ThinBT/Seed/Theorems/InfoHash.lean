import ThinBT.Seed.Theorems.RoundTrip
import ThinBT.Common.Theorems.TrackerUrl

namespace ThinBT

section Input

theorem length_image {c : ChunkEntry Sha256Digest} : (ChunkEntry.image.write c).length = 44 := by
  change (leBytes 8 _ ++ (leBytes 4 _ ++ c.sha256.val)).length = 44
  simp [c.sha256.property]

theorem infoHashInput_eq {chunks : List (ChunkEntry Sha256Digest)} :
    infoHashInput d chunks =
      d.val ++ (chunks.map (·.toNetworkEndian)).flatMap ChunkEntry.image.write := by
  rw [infoHashInput, List.flatMap_map]
  simp only [List.append_assoc]
  rfl

-- The bytes that are hashed determine the digest of the file and the chunks.
theorem infoHashInput_inj {cs ds : List (ChunkEntry Sha256Digest)} :
    infoHashInput d cs = infoHashInput e ds ↔ d = e ∧ cs = ds := by
  constructor
  case mpr =>
    rintro ⟨rfl, rfl⟩
    rfl
  case mp =>
    intro h
    rw [infoHashInput_eq, infoHashInput_eq] at h
    have ⟨hd, hc⟩ := List.append_inj h (d.property.trans e.property.symm)
    refine ⟨Subtype.ext hd, ?_⟩
    have hm := Codec.flatMap_inj (by decide) (fun _ => length_image) hc
    have hr : Function.RightInverse ChunkEntry.toNetworkEndian ChunkEntry.toHostEndian :=
      fun _ => ChunkEntry.toHostEndian_toNetworkEndian
    exact List.map_injective_iff.mpr hr.injective hm

end Input

section Make

open Cli

variable {η : Type} {sha1 : List UInt8 → η} {sha256 : List UInt8 → Sha256Digest}
variable {sha256Hex : List UInt8 → String} {files : Files} {o : MakeOptions}

-- The seed that `cli_make` writes for a file.
def Cli.MakeOptions.seed (o : MakeOptions) (sha256 : List UInt8 → Sha256Digest) (ip : String)
    (bytes : List UInt8) : List UInt8 :=
  writeTseed (sha256 bytes) (utf8 (baseName o.filePath)) (utf8 (o.announceUrl ip))
    (FastCDC.scanBuffer sha256 {} bytes) {}

theorem make_eq (hip : o.localIp ip ≠ "") (hf : files o.filePath = some bytes)
    (hc : FastCDC.scanBuffer sha256 {} bytes ≠ []) :
    make sha1 sha256 ip files o = .ok ({
      seedPath   := o.seedPath
      infoHash   := sha1 (infoHashInput
        (sha256 (if o.filePath = o.seedPath then o.seed sha256 ip bytes else bytes))
        (FastCDC.scanBuffer sha256 {} bytes))
      chunkCount := .ofNat (FastCDC.scanBuffer sha256 {} bytes).length
      fileSize   := totalFileSize (FastCDC.scanBuffer sha256 {} bytes) },
      files.write o.seedPath (o.seed sha256 ip bytes)) := by
  have hs : FastCDC.scanFile sha256 {} files o.filePath = FastCDC.scanBuffer sha256 {} bytes := by
    rw [FastCDC.scanFile, hf]
    rfl
  have hd : sha256File sha256 files o.filePath = .ok (sha256 bytes) := by
    rw [sha256File, hf]
  have hw : sha256File sha256 (files.write o.seedPath (o.seed sha256 ip bytes)) o.filePath =
      .ok (sha256 (if o.filePath = o.seedPath then o.seed sha256 ip bytes else bytes)) := by
    by_cases hp : o.filePath = o.seedPath
    case pos => simp [sha256File, Files.write, hp]
    case neg => simp [sha256File, Files.write, hp, hf]
  rw [make, if_neg hip]
  simp only [hs, if_neg hc]
  rw [hd]
  change (sha256File sha256 (files.write o.seedPath (o.seed sha256 ip bytes)) o.filePath >>= _) = _
  rw [hw]
  rfl

theorem make_eq_ok (h : make sha1 sha256 ip files o = .ok x) :
    ∃ bytes, o.localIp ip ≠ "" ∧ files o.filePath = some bytes ∧
      FastCDC.scanBuffer sha256 {} bytes ≠ [] := by
  unfold make at h
  split at h
  case isTrue => cases h
  case isFalse hip =>
    simp only at h
    split at h
    case isTrue => cases h
    case isFalse hc =>
      unfold FastCDC.scanFile at hc
      cases hf : files o.filePath
      case none =>
        rw [hf] at hc
        exact absurd rfl hc
      case some bytes =>
        rw [hf] at hc
        exact ⟨bytes, hip, rfl, hc⟩

-- The header only stores the lengths modulo `2 ^ 32`, so that a reader may cut what follows elsewhere.
theorem parse_writeTseed {chunks cs : List (ChunkEntry Sha256Digest)}
    (hn : fileName'.length = fileName.length % 2 ^ 32)
    (hu : announceUrl'.length = announceUrl.length % 2 ^ 32) (hc : cs.length = chunks.length % 2 ^ 32)
    (hb : fileName ++ (announceUrl ++ chunks.flatMap (ChunkEntry.image.write ·.toNetworkEndian)) =
      fileName' ++ (announceUrl' ++
        (cs.flatMap (ChunkEntry.image.write ·.toNetworkEndian) ++ rest))) :
    ∃ t, parseTseed sha1 sha256Hex (writeTseed digest fileName announceUrl chunks config) =
        .ok (t, rest) ∧ t.infoHash = sha1 (infoHashInput digest cs) := by
  refine ⟨{
      header      := tseedHeader digest fileName announceUrl chunks config
      fileName    := fileName'
      announceUrl := announceUrl'
      chunks      := cs
      infoHash    := sha1 (infoHashInput digest cs) },
    parseTseed_eq_ok.mpr ⟨⟨rfl, show (1 : UInt16) ≤ 1 ∧ (1 : UInt16) ≤ 4 by decide,
      hn.trans UInt32.toNat_ofNat'.symm, hu.trans UInt32.toNat_ofNat'.symm,
      hc.trans UInt32.toNat_ofNat'.symm, rfl⟩, true, ?_⟩, rfl⟩
  simp only [TSeedContents.layout, if_true, writeTseed, List.append_assoc, hb]

theorem readTseed_write {cs : List (ChunkEntry Sha256Digest)}
    (hn : fileName.length = (utf8 (baseName o.filePath)).length % 2 ^ 32)
    (hu : announceUrl.length = (utf8 (o.announceUrl ip)).length % 2 ^ 32)
    (hc : cs.length = (FastCDC.scanBuffer sha256 {} bytes).length % 2 ^ 32)
    (hb : utf8 (baseName o.filePath) ++ (utf8 (o.announceUrl ip) ++
        (FastCDC.scanBuffer sha256 {} bytes).flatMap (ChunkEntry.image.write ·.toNetworkEndian)) =
      fileName ++ (announceUrl ++
        (cs.flatMap (ChunkEntry.image.write ·.toNetworkEndian) ++ rest))) :
    ∃ t, readTseed sha1 sha256Hex (files.write o.seedPath (o.seed sha256 ip bytes)) o.seedPath =
        .ok t ∧ t.infoHash = sha1 (infoHashInput (sha256 bytes) cs) := by
  have ⟨t, h, hi⟩ : ∃ t, parseTseed sha1 sha256Hex (o.seed sha256 ip bytes) = .ok (t, rest) ∧ _ :=
    parse_writeTseed hn hu hc hb
  refine ⟨t, ?_, hi⟩
  rw [readTseed, Files.write, if_pos rfl]
  simp only [MakeOptions.seed] at h ⊢
  rw [h]
  rfl

theorem readTseed_make (hn : (utf8 (baseName o.filePath)).length < 2 ^ 32)
    (hu : (utf8 (o.announceUrl ip)).length < 2 ^ 32) :
    ∃ t, readTseed sha1 sha256Hex (files.write o.seedPath (o.seed sha256 ip bytes)) o.seedPath =
        .ok t ∧
      t.infoHash = sha1 (infoHashInput (sha256 bytes) ((FastCDC.scanBuffer sha256 {} bytes).take
        ((FastCDC.scanBuffer sha256 {} bytes).length % 2 ^ 32))) :=
  readTseed_write (Nat.mod_eq_of_lt hn).symm (Nat.mod_eq_of_lt hu).symm
    (List.length_take_of_le (Nat.mod_le ..)) (by rw [← List.flatMap_append, List.take_append_drop])

-- Two seeds are hashed alike only if they have the same contents, and the command line tool prints the
-- hash of the seed that it writes.
theorem info_hash_identifies_content (sha1 : List UInt8 → η) (sha256 : List UInt8 → Sha256Digest)
    (sha256Hex : List UInt8 → String) :
    (∀ bytes bytes' (t t' : TSeedContents η) rest rest',
      parseTseed sha1 sha256Hex bytes = .ok (t, rest) →
      parseTseed sha1 sha256Hex bytes' = .ok (t', rest') →
      t.infoHash = sha1 (infoHashInput t.header.fileSha256 t.chunks) ∧
      (infoHashInput t.header.fileSha256 t.chunks = infoHashInput t'.header.fileSha256 t'.chunks ↔
        t.header.fileSha256 = t'.header.fileSha256 ∧ t.chunks = t'.chunks)) ∧
    ∀ ip (files : Files) o (r : MakeResponse η) files',
      make sha1 sha256 ip files o = .ok (r, files') → o.filePath ≠ o.seedPath →
      (FastCDC.scanFile sha256 {} files o.filePath).length < 2 ^ 32 →
      (utf8 (baseName o.filePath)).length < 2 ^ 32 → (utf8 (o.announceUrl ip)).length < 2 ^ 32 →
      ∃ t, readTseed sha1 sha256Hex files' r.seedPath = .ok t ∧ t.infoHash = r.infoHash := by
  constructor
  case left =>
    intro bytes bytes' t t' rest rest' h _
    exact ⟨(parseTseed_eq_ok.mp h).left.infoHash, infoHashInput_inj⟩
  case right =>
    intro ip files o r files' h hp hc hn hu
    have ⟨bytes, hip, hf, hb⟩ := make_eq_ok h
    rw [FastCDC.scanFile, hf, Option.elim_some] at hc
    rw [make_eq hip hf hb, if_neg hp] at h
    obtain ⟨rfl, rfl⟩ := Prod.mk.inj (Except.ok.inj h)
    have ⟨t, ht, hi⟩ : ∃ t, readTseed sha1 sha256Hex
        (files.write o.seedPath (o.seed sha256 ip bytes)) o.seedPath = .ok t ∧ _ :=
      readTseed_make hn hu
    refine ⟨t, ht, ?_⟩
    rw [hi, Nat.mod_eq_of_lt hc, List.take_length]

-- The file that `cli_make` writes is read as a seed of its source.
theorem seedOf_written {source : List UInt8} (hs : source.length < 2 ^ 64)
    (hc : (FastCDC.scanBuffer sha256 config source).length < 2 ^ 32) :
    ((TSeedContents.written sha1 (sha256 source) fileName announceUrl
      (FastCDC.scanBuffer sha256 config source) config).seedFile hc).SeedOf sha256 source := by
  have ht : FastCDC.Tiles sha256 config source 0 (FastCDC.scanBuffer sha256 config source) :=
    FastCDC.tiles_scanBuffer hs
  refine ⟨?_, rfl⟩
  have ho (c) (hc : c ∈ FastCDC.scanBuffer sha256 config source) :
      c.offset.toNat + c.length.toNat < 2 ^ 64 :=
    Nat.lt_of_le_of_lt (ht.describes hc).fits hs
  exact (toNat_totalFileSize ho).trans (by simpa using ht.foldr_max)

-- A digest that only depends on the length.
def lengthDigest (bytes : List UInt8) : Sha256Digest :=
  ⟨.replicate 32 (.ofNat bytes.length), List.length_replicate⟩

def singleFile (path : String) (bytes : List UInt8) : Files :=
  fun p => if p = path then some bytes else none

theorem note_info_hash :
    ∃ r files' t,
      make id lengthDigest "h" (singleFile "f" [5]) { filePath := "f" } = .ok (r, files') ∧
      readTseed id (fun _ => "") files' r.seedPath = .ok t ∧ t.infoHash = r.infoHash := by
  have h : make id lengthDigest "h" (singleFile "f" [5]) { filePath := "f" } = .ok _ :=
    make_eq (by decide) rfl (by decide +kernel)
  have ⟨t, ht, hi⟩ := (info_hash_identifies_content id lengthDigest fun _ => "").right _ _ _ _ _ h
    (by decide +kernel) (by decide +kernel) (by decide +kernel) (by decide +kernel)
  exact ⟨_, _, t, h, ht, hi⟩

theorem length_scanBuffer_zeros (sha256 : List UInt8 → Sha256Digest) :
    2 ^ 32 ≤ (FastCDC.scanBuffer sha256 {} (.replicate (2 ^ 52) 0)).length := by
  have hl : (List.replicate (2 ^ 52) (0 : UInt8)).length = 2 ^ 52 := List.length_replicate
  have ht : FastCDC.Tiles sha256 {} (.replicate (2 ^ 52) 0) 0
      (FastCDC.scanBuffer sha256 {} (.replicate (2 ^ 52) 0)) :=
    FastCDC.tiles_scanBuffer (by rw [hl]; decide)
  have h := ht.length_le
  have hm : max 1 (FastCDCConfig.maxSize {}).toNat = 2 ^ 20 := by decide
  rw [hl, hm] at h
  omega

section Long

-- A text of so many letters, which are read as a number like any other bytes.
def letters (n : Nat) : String :=
  .ofList (.replicate n 'f')

theorem utf8_letters : utf8 (letters n) = .replicate n 102 := by
  rw [TrackerUrl.utf8_eq_flatMap, letters, String.toList_ofList, List.flatMap_replicate]
  exact List.flatten_replicate_singleton

theorem baseName_letters : baseName (letters n) = letters n := by
  rw [baseName, letters, String.toList_ofList, List.reverse_replicate, List.takeWhile_replicate,
    if_pos (by decide), List.reverse_replicate]

theorem length_letters : (letters n).length = n := by
  rw [letters, String.length_ofList, List.length_replicate]

-- The chunk that is read out of such a text.
def lettersChunk : ChunkEntry Sha256Digest :=
  ⟨0x6666666666666666, 0x66666666, .replicate 32 102, List.length_replicate⟩

theorem image_lettersChunk :
    [lettersChunk].flatMap (ChunkEntry.image.write ·.toNetworkEndian) = .replicate 44 102 := by
  decide +kernel

theorem replicate_eq_append (h : m + 44 ≤ n) :
    List.replicate n (102 : UInt8) = .replicate m 102 ++ (.replicate 44 102 ++
      .replicate (n - (m + 44)) 102) := by
  rw [List.replicate_append_replicate, List.replicate_append_replicate]
  congr 1
  omega

theorem make_prints_other_of_cut (o : MakeOptions) (fileName announceUrl : List UInt8)
    (hp : o.filePath ≠ o.seedPath) (hip : o.localIp "h" ≠ "")
    (hn : fileName.length = (utf8 (baseName o.filePath)).length % 2 ^ 32)
    (hu : announceUrl.length = (utf8 (o.announceUrl "h")).length % 2 ^ 32)
    (hb : ∀ images, ∃ rest, utf8 (baseName o.filePath) ++ (utf8 (o.announceUrl "h") ++ images) =
      fileName ++ (announceUrl ++ (.replicate 44 102 ++ rest))) :
    ∃ r files' t,
      make id lengthDigest "h" (singleFile o.filePath [5]) o = .ok (r, files') ∧
      readTseed id (fun _ => "") files' r.seedPath = .ok t ∧ t.infoHash ≠ r.infoHash := by
  have h : make id lengthDigest "h" (singleFile o.filePath [5]) o = .ok _ :=
    make_eq hip (if_pos rfl) (by decide +kernel)
  have ⟨rest, hb⟩ := hb ((FastCDC.scanBuffer lengthDigest {} [5]).flatMap
    (ChunkEntry.image.write ·.toNetworkEndian))
  have ⟨t, ht, hi⟩ : ∃ t, readTseed id (fun _ => "")
      ((singleFile o.filePath [5]).write o.seedPath (o.seed lengthDigest "h" [5])) o.seedPath = .ok t ∧
      t.infoHash = infoHashInput (lengthDigest [5]) [lettersChunk] :=
    readTseed_write hn hu (by decide +kernel) (by rw [hb, image_lettersChunk])
  refine ⟨_, _, t, h, ht, fun he => ?_⟩
  rw [hi, if_neg hp] at he
  exact absurd (infoHashInput_inj.mp he).right (by decide +kernel)

theorem long_name_prints_other (h : n % 2 ^ 32 = 0) (hl : 68 ≤ n) :
    ∃ r files' t,
      make id lengthDigest "h" (singleFile (letters n) [5]) { filePath := letters n } =
        .ok (r, files') ∧
      readTseed id (fun _ => "") files' r.seedPath = .ok t ∧ t.infoHash ≠ r.infoHash := by
  have hb : utf8 (baseName (letters n)) = .replicate n 102 := by rw [baseName_letters, utf8_letters]
  have hu : (utf8 (MakeOptions.announceUrl { filePath := letters n } "h")).length = 24 :=
    show (utf8 (MakeOptions.announceUrl { filePath := "" } "h")).length = 24 by decide +kernel
  refine make_prints_other_of_cut { filePath := letters n } [] (.replicate 24 102) (fun he => ?_)
    (show "h" ≠ "" by decide) ?_ ?_
    fun images => ⟨.replicate (n - 68) 102 ++
      (utf8 (MakeOptions.announceUrl { filePath := letters n } "h") ++ images), ?_⟩
  · have hl := congrArg String.length (show letters n = letters n ++ ".tseed" from he)
    rw [String.length_append, show ".tseed".length = 6 from rfl] at hl
    omega
  · rw [hb, List.length_replicate, h]
    rfl
  · rw [hu, List.length_replicate]
    rfl
  · rw [hb, replicate_eq_append (m := 24) hl]
    simp only [List.append_assoc, List.nil_append]

theorem long_address_prints_other (h : n % 2 ^ 32 = 0) (hl : 58 ≤ n) :
    ∃ r files' t,
      make id lengthDigest "h" (singleFile "f" [5]) { filePath := "f", announceIp := letters n } =
        .ok (r, files') ∧
      readTseed id (fun _ => "") files' r.seedPath = .ok t ∧ t.infoHash ≠ r.infoHash := by
  have hne {t : String} (ht : t.length < 58) : letters n ≠ t := by
    rintro rfl
    rw [length_letters] at ht
    omega
  have hip : MakeOptions.localIp { filePath := "f", announceIp := letters n } "h" = letters n :=
    if_neg (hne (by decide))
  have hu : utf8 (MakeOptions.announceUrl { filePath := "f", announceIp := letters n } "h") =
      utf8 "thinbt://" ++ (.replicate n 102 ++ utf8 ":8080/announce") := by
    have ht : 58 :: (utf8 (toString 8080) ++ utf8 "/announce") = utf8 ":8080/announce" := by
      decide +kernel
    rw [TrackerUrl.utf8_announceUrl, hip, utf8_letters, ← ht]
    rfl
  refine make_prints_other_of_cut { filePath := "f", announceIp := letters n } [102]
    (utf8 "thinbt://" ++ .replicate 14 102)
    (show "f" ≠ "f" ++ ".tseed" by decide) (hip.symm ▸ hne (t := "") (by decide))
    (show [102].length = (utf8 (baseName "f")).length % 2 ^ 32 by decide +kernel) ?_
    fun images => ⟨.replicate (n - 58) 102 ++ (utf8 ":8080/announce" ++ images), ?_⟩
  · have h₁ : (utf8 "thinbt://").length = 9 := by decide +kernel
    have h₂ : (utf8 ":8080/announce").length = 14 := by decide +kernel
    rw [hu]
    simp only [List.length_append, List.length_replicate, h₁, h₂]
    omega
  · have hf : utf8 (baseName "f") = [102] := by decide +kernel
    rw [hu, hf, replicate_eq_append (m := 14) hl]
    simp only [List.append_assoc]

end Long

-- The seed overwrites the file before it is hashed again, or it has more chunks than its header can
-- tell, or its name or the announced address are too long, so that chunks are read out of them.
theorem make_prints_other_info_hash :
    (∃ r files' t,
      make id lengthDigest "h" (singleFile "f" [5]) { filePath := "f", outputPath := "f" } =
        .ok (r, files') ∧
      readTseed id (fun _ => "") files' r.seedPath = .ok t ∧ t.infoHash ≠ r.infoHash) ∧
    (∃ r files' t,
      make id lengthDigest "h" (singleFile "f" (.replicate (2 ^ 52) 0)) { filePath := "f" } =
        .ok (r, files') ∧
      readTseed id (fun _ => "") files' r.seedPath = .ok t ∧ t.infoHash ≠ r.infoHash) ∧
    (∃ r files' t,
      make id lengthDigest "h" (singleFile (letters (2 ^ 32)) [5]) { filePath := letters (2 ^ 32) } =
        .ok (r, files') ∧
      readTseed id (fun _ => "") files' r.seedPath = .ok t ∧ t.infoHash ≠ r.infoHash) ∧
    ∃ r files' t,
      make id lengthDigest "h" (singleFile "f" [5]) { filePath := "f", announceIp := letters (2 ^ 32) } =
        .ok (r, files') ∧
      readTseed id (fun _ => "") files' r.seedPath = .ok t ∧ t.infoHash ≠ r.infoHash := by
  refine ⟨?overwritten, ?chunks, ?name, ?address⟩
  case overwritten =>
    let o : MakeOptions := { filePath := "f", outputPath := "f" }
    have h : make id lengthDigest "h" (singleFile "f" [5]) o = .ok _ :=
      make_eq (by decide) rfl (by decide +kernel)
    have ⟨t, ht, hi⟩ : ∃ t, readTseed id (fun _ => "")
        ((singleFile "f" [5]).write o.seedPath (o.seed lengthDigest "h" [5])) o.seedPath = .ok t ∧ _ :=
      readTseed_make (by decide +kernel) (by decide +kernel)
    refine ⟨_, _, t, h, ht, ?_⟩
    rw [hi]
    decide +kernel
  case chunks =>
    let o : MakeOptions := { filePath := "f" }
    have hlen := length_scanBuffer_zeros lengthDigest
    have h : make id lengthDigest "h" (singleFile "f" (.replicate (2 ^ 52) 0)) o = .ok _ :=
      make_eq (by decide) rfl (by
        intro he
        rw [he] at hlen
        exact absurd hlen (by decide))
    have ⟨t, ht, hi⟩ : ∃ t, readTseed id (fun _ => "") ((singleFile "f" (.replicate (2 ^ 52) 0)).write
        o.seedPath (o.seed lengthDigest "h" (.replicate (2 ^ 52) 0))) o.seedPath = .ok t ∧ _ :=
      readTseed_make (by decide +kernel) (by decide +kernel)
    refine ⟨_, _, t, h, ht, fun he => ?_⟩
    rw [hi, if_neg (by decide +kernel)] at he
    have hc := congrArg List.length (infoHashInput_inj.mp he).right
    rw [List.length_take] at hc
    have hm := Nat.mod_lt (FastCDC.scanBuffer lengthDigest {} (.replicate (2 ^ 52) 0)).length
      (show 0 < 2 ^ 32 by decide)
    omega
  case name    => exact long_name_prints_other (n := 2 ^ 32) rfl (by decide)
  case address => exact long_address_prints_other (n := 2 ^ 32) rfl (by decide)

end Make
end ThinBT
