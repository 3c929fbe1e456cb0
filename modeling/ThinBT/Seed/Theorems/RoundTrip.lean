import ThinBT.Seed.Format

namespace ThinBT

variable {η : Type} {sha1 : List UInt8 → η} {sha256Hex : List UInt8 → String}

section ByteOrder

@[simp]
theorem TSeedHeader.toHostEndian_toNetworkEndian {h : TSeedHeader} :
    h.toNetworkEndian.toHostEndian = h := by
  simp [toNetworkEndian, toHostEndian]

@[simp]
theorem TSeedHeader.toNetworkEndian_toHostEndian {h : TSeedHeader} :
    h.toHostEndian.toNetworkEndian = h := by
  simp [toNetworkEndian, toHostEndian]

@[simp]
theorem ChunkEntry.toHostEndian_toNetworkEndian {c : ChunkEntry Sha256Digest} :
    c.toNetworkEndian.toHostEndian = c := by
  simp [toNetworkEndian, toHostEndian]

@[simp]
theorem ChunkEntry.toNetworkEndian_toHostEndian {c : ChunkEntry Sha256Digest} :
    c.toHostEndian.toNetworkEndian = c := by
  simp [toNetworkEndian, toHostEndian]

end ByteOrder

namespace TSeedContents

-- The file for a seed in network byte order, or in host byte order as older versions wrote it.
def layout (network : Bool) (t : TSeedContents η) : List UInt8 :=
  TSeedHeader.image.write (if network then t.header.toNetworkEndian else t.header) ++ t.fileName ++
    t.announceUrl ++
    t.chunks.flatMap fun c => ChunkEntry.image.write (if network then c.toNetworkEndian else c)

-- What `read_tseed` guarantees.
structure WellFormed (sha1 : List UInt8 → η) (t : TSeedContents η) : Prop where
  magic       : t.header.magic = TSeedHeader.magicNumber
  version     : 1 ≤ t.header.version ∧ t.header.version ≤ 4
  fileName    : t.fileName.length = t.header.fileNameLen.toNat
  announceUrl : t.announceUrl.length = t.header.announceLen.toNat
  chunks      : t.chunks.length = t.header.chunkCount.toNat
  infoHash    : t.infoHash = sha1 (infoHashInput t.header.fileSha256 t.chunks)

end TSeedContents

section Reader

theorem bind_eq_ok {x : Except ε α} {f : α → Except ε β} :
    x >>= f = .ok b ↔ ∃ a, x = .ok a ∧ f a = .ok b := by
  cases x
  case error => simp [Bind.bind, Except.bind]
  case ok    => simp [Bind.bind, Except.bind]

theorem readExact_eq_ok {c : Codec α} :
    readExact c bytes = .ok (a, rest) ↔ bytes = c.write a ++ rest := by
  unfold readExact
  constructor
  case mp =>
    intro h
    split at h
    case h_1      => cases h
    case h_2 x hx => exact c.write_read (hx.trans (congrArg some (Except.ok.inj h)))
  case mpr =>
    rintro rfl
    rw [c.read_write]

theorem checkHeader_eq_ok {h : TSeedHeader} :
    checkHeader sha256Hex h = .ok () ↔
      h.magic = TSeedHeader.magicNumber ∧ 1 ≤ h.version ∧ h.version ≤ 4 := by
  unfold checkHeader
  split
  case isTrue hm => simp [hm, throw, throwThe, MonadExceptOf.throw]
  case isFalse hm =>
    rw [not_not] at hm
    split
    case isTrue hv =>
      refine iff_of_false (by simp [throw, throwThe, MonadExceptOf.throw]) fun h => ?_
      cases hv
      case inl hv => exact absurd h.right.left (UInt16.not_le.mpr hv)
      case inr hv => exact absurd h.right.right (UInt16.not_le.mpr hv)
    case isFalse hv =>
      rw [not_or, UInt16.not_lt, UInt16.not_lt] at hv
      exact iff_of_true rfl ⟨hm, hv⟩

-- The magic number tells the byte order.
theorem readHeader_eq_ok {network : Bool} :
    readHeader sha256Hex bytes = .ok (network, h, rest) ↔
      (h.magic = TSeedHeader.magicNumber ∧ 1 ≤ h.version ∧ h.version ≤ 4) ∧
      bytes = TSeedHeader.image.write (if network then h.toNetworkEndian else h) ++ rest := by
  simp only [readHeader, bind_eq_ok]
  constructor
  case mp =>
    rintro ⟨⟨raw, bytes⟩, hx, _, hc, hr⟩
    obtain ⟨rfl, rfl, rfl⟩ : _ ∧ _ ∧ _ := by simpa [pure, Except.pure] using hr
    refine ⟨checkHeader_eq_ok.mp hc, ?_⟩
    rw [readExact_eq_ok.mp hx]
    cases needsSwap raw
    case false => rfl
    case true  => simp
  case mpr =>
    rintro ⟨hc, rfl⟩
    refine ⟨_, readExact_eq_ok.mpr rfl, (), ?_⟩
    cases network
    case false =>
      have hs : needsSwap h = false := by simp [needsSwap, hc.left]
      simp only [Bool.false_eq_true, if_false, hs]
      exact ⟨checkHeader_eq_ok.mpr hc, rfl⟩
    case true =>
      have hs : needsSwap h.toNetworkEndian = true := by
        have hm : hton32 TSeedHeader.magicNumber ≠ TSeedHeader.magicNumber := by decide
        simp [needsSwap, TSeedHeader.toNetworkEndian, hc.left, hm]
      simp only [if_true, hs, TSeedHeader.toHostEndian_toNetworkEndian]
      exact ⟨checkHeader_eq_ok.mpr hc, rfl⟩

theorem readChunks_eq_ok {network : Bool} {n : Nat} :
    readChunks network n bytes = .ok (cs, rest) ↔ cs.length = n ∧
      bytes = (cs.flatMap fun c =>
        ChunkEntry.image.write (if network then c.toNetworkEndian else c)) ++ rest := by
  induction n generalizing bytes cs
  case zero =>
    simp only [readChunks, List.length_eq_zero_iff]
    constructor
    case mp =>
      intro h
      obtain ⟨rfl, rfl⟩ := Prod.mk.inj (Except.ok.inj h)
      exact ⟨rfl, rfl⟩
    case mpr =>
      rintro ⟨rfl, rfl⟩
      rfl
  case succ n hi =>
    simp only [readChunks, bind_eq_ok]
    constructor
    case mp =>
      rintro ⟨⟨raw, bytes'⟩, hx, ⟨cs', rest'⟩, hy, hr⟩
      obtain ⟨rfl, rfl⟩ := Prod.mk.inj (Except.ok.inj hr)
      have ⟨hl, hb⟩ := hi.mp hy
      simp only at hl hb ⊢
      rw [readExact_eq_ok.mp hx, hb, List.flatMap_cons, List.append_assoc, List.length_cons, hl]
      cases network
      case false => exact ⟨rfl, rfl⟩
      case true  => simp
    case mpr =>
      rintro ⟨hl, rfl⟩
      obtain ⟨c, cs', rfl⟩ := List.exists_cons_of_length_eq_add_one hl
      refine ⟨_, readExact_eq_ok.mpr (by rw [List.flatMap_cons, List.append_assoc]), (cs', rest),
        hi.mpr ⟨Nat.succ.inj hl, rfl⟩, ?_⟩
      cases network
      case false => rfl
      case true  => simp [pure, Except.pure]

-- What `read_tseed` accepts.
theorem parseTseed_eq_ok {t : TSeedContents η} : parseTseed sha1 sha256Hex bytes = .ok (t, rest) ↔
    t.WellFormed sha1 ∧ ∃ network, bytes = t.layout network ++ rest := by
  simp only [parseTseed, bind_eq_ok, TSeedContents.layout]
  constructor
  case mp =>
    rintro ⟨⟨network, h, b₁⟩, hh, ⟨name, b₂⟩, hn, ⟨url, b₃⟩, hu, ⟨cs, b₄⟩, hc, hr⟩
    obtain ⟨rfl, rfl⟩ := Prod.mk.inj (Except.ok.inj hr)
    have ⟨hv, hb⟩ := readHeader_eq_ok.mp hh
    have ⟨hl, hb'⟩ := readChunks_eq_ok.mp hc
    refine ⟨⟨hv.left, hv.right, name.property, url.property, hl, rfl⟩, network, ?_⟩
    have hn : b₁ = name.val ++ b₂ := readExact_eq_ok.mp hn
    have hu : b₂ = url.val ++ b₃ := readExact_eq_ok.mp hu
    simp only at hb' ⊢
    rw [hb, hn, hu, hb']
    simp only [List.append_assoc]
  case mpr =>
    rintro ⟨hw, network, rfl⟩
    refine ⟨_, readHeader_eq_ok.mpr ⟨⟨hw.magic, hw.version⟩, by simp only [List.append_assoc]; rfl⟩,
      (⟨t.fileName, hw.fileName⟩, _), readExact_eq_ok.mpr rfl,
      (⟨t.announceUrl, hw.announceUrl⟩, _), readExact_eq_ok.mpr rfl,
      (t.chunks, rest), readChunks_eq_ok.mpr ⟨hw.chunks, rfl⟩, ?_⟩
    simp only [← hw.infoHash]
    rfl

end Reader

section Writer

theorem toNat_totalFileSize_foldl {chunks : List (ChunkEntry δ)} {total : UInt64}
    (h : ∀ c ∈ chunks, c.offset.toNat + c.length.toNat < 2 ^ 64) :
    (chunks.foldl (fun total c =>
      let chunkEnd := c.offset + c.length.toUInt64
      if total < chunkEnd then chunkEnd else total) total).toNat =
      max total.toNat ((chunks.map fun c => c.offset.toNat + c.length.toNat).foldr max 0) := by
  induction chunks generalizing total
  case nil => simp
  case cons c chunks hi =>
    have hc := h c List.mem_cons_self
    have he : (c.offset + c.length.toUInt64).toNat = c.offset.toNat + c.length.toNat := by
      rw [UInt64.toNat_add, UInt32.toNat_toUInt64, Nat.mod_eq_of_lt hc]
    rw [List.foldl_cons, hi fun d hd => h d (List.mem_cons_of_mem _ hd), List.map_cons,
      List.foldr_cons, ← Nat.max_assoc]
    congr 1
    simp only
    split
    case isTrue ht  => rw [UInt64.lt_iff_toNat_lt, he] at ht; omega
    case isFalse ht => rw [UInt64.lt_iff_toNat_lt, he] at ht; omega

theorem toNat_totalFileSize {chunks : List (ChunkEntry δ)}
    (h : ∀ c ∈ chunks, c.offset.toNat + c.length.toNat < 2 ^ 64) :
    (totalFileSize chunks).toNat =
      (chunks.map fun c => c.offset.toNat + c.length.toNat).foldr max 0 := by
  rw [totalFileSize, toNat_totalFileSize_foldl h]
  exact Nat.zero_max _

variable {fileName announceUrl : List UInt8} {chunks : List (ChunkEntry Sha256Digest)}

-- The seed that `write_tseed` stores.
def TSeedContents.written (sha1 : List UInt8 → η) (fileDigest : Sha256Digest)
    (fileName announceUrl : List UInt8) (chunks : List (ChunkEntry Sha256Digest))
    (config : FastCDCConfig) : TSeedContents η where
  header      := tseedHeader fileDigest fileName announceUrl chunks config
  fileName    := fileName
  announceUrl := announceUrl
  chunks      := chunks
  infoHash    := sha1 (infoHashInput fileDigest chunks)

theorem wellFormed_written (hn : fileName.length < 2 ^ 32) (hu : announceUrl.length < 2 ^ 32)
    (hc : chunks.length < 2 ^ 32) :
    (TSeedContents.written sha1 digest fileName announceUrl chunks config).WellFormed sha1 where
  magic       := rfl
  version     := show (1 : UInt16) ≤ 1 ∧ (1 : UInt16) ≤ 4 by decide
  fileName    := (UInt32.toNat_ofNat_of_lt' hn).symm
  announceUrl := (UInt32.toNat_ofNat_of_lt' hu).symm
  chunks      := (UInt32.toNat_ofNat_of_lt' hc).symm
  infoHash    := rfl

theorem TSeedContents.WellFormed.parse {t : TSeedContents η} (h : t.WellFormed sha1)
    (network : Bool) :
    parseTseed sha1 sha256Hex (t.layout network) = .ok (t, []) :=
  parseTseed_eq_ok.mpr ⟨h, network, (List.append_nil _).symm⟩

-- A file is read in network byte order only if it is laid out so.
theorem layout_of_needsSwap {t : TSeedContents η} (h : parseTseed sha1 sha256Hex bytes = .ok (t, rest))
    (hr : TSeedHeader.image.read bytes = some raw) (hs : needsSwap raw.1) :
    bytes = t.layout true ++ rest := by
  obtain ⟨hw, network, rfl⟩ := parseTseed_eq_ok.mp h
  cases network
  case true => rfl
  case false =>
    simp only [TSeedContents.layout, List.append_assoc, TSeedHeader.image.read_write] at hr
    rw [← Option.some.inj hr] at hs
    simp [needsSwap, hw.magic] at hs

-- Seeds survive being written and read, in both byte orders.
theorem tseed_round_trip (sha1 : List UInt8 → η) (sha256Hex : List UInt8 → String)
    (digest : Sha256Digest) (fileName announceUrl : List UInt8)
    (chunks : List (ChunkEntry Sha256Digest)) (config : FastCDCConfig)
    (hn : fileName.length < 2 ^ 32) (hu : announceUrl.length < 2 ^ 32)
    (hc : chunks.length < 2 ^ 32)
    (ho : ∀ c ∈ chunks, c.offset.toNat + c.length.toNat < 2 ^ 64) :
    (∃ t : TSeedContents η,
      parseTseed sha1 sha256Hex (writeTseed digest fileName announceUrl chunks config) = .ok (t, []) ∧
      parseTseed sha1 sha256Hex (t.layout false) = .ok (t, []) ∧
      t.fileName = fileName ∧ t.announceUrl = announceUrl ∧ t.chunks = chunks ∧
      t.header.minChunkSize = config.minSize ∧ t.header.avgChunkSize = config.avgSize ∧
      t.header.maxChunkSize = config.maxSize ∧ t.header.fileSha256 = digest ∧
      t.header.version = 1 ∧
      t.header.fileSize.toNat =
        (chunks.map fun c => c.offset.toNat + c.length.toNat).foldr max 0) ∧
    ∀ bytes (t : TSeedContents η) rest raw,
      parseTseed sha1 sha256Hex bytes = .ok (t, rest) → TSeedHeader.image.read bytes = some raw →
      needsSwap raw.1 → bytes = t.layout true ++ rest := by
  have hw : (TSeedContents.written sha1 digest fileName announceUrl chunks config).WellFormed sha1 :=
    wellFormed_written hn hu hc
  refine ⟨⟨_, hw.parse true, hw.parse false, rfl, rfl, rfl, rfl, rfl, rfl, rfl, rfl,
    toNat_totalFileSize ho⟩, ?_⟩
  intro bytes t rest raw h hr hs
  exact layout_of_needsSwap h hr hs

-- A seed for a file of three bytes.
theorem small_seed_round_trip :
    ∃ t : TSeedContents (List UInt8),
      parseTseed id (fun _ => "") (writeTseed ⟨.replicate 32 7, rfl⟩ [97] [98, 99]
        [⟨0, 3, ⟨.replicate 32 9, rfl⟩⟩] {}) = .ok (t, []) ∧
      t.header.fileSize.toNat = 3 := by
  have ⟨⟨t, ht, _, _, _, _, _, _, _, _, _, hs⟩, _⟩ :=
    tseed_round_trip id (fun _ => "") ⟨.replicate 32 7, rfl⟩ [97] [98, 99]
      [⟨0, 3, ⟨.replicate 32 9, rfl⟩⟩] {} (by decide) (by decide) (by decide) (by decide)
  exact ⟨t, ht, hs⟩

end Writer
end ThinBT
