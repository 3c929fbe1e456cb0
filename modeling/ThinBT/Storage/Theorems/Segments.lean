import ThinBT.Storage.Segments
import Mathlib.Algebra.Ring.Nat

namespace ThinBT

namespace SegmentWriter

variable {w : SegmentWriter} {n off : UInt64} {size : UInt32}

-- The segment in which a chunk starts.
def segIdx (w : SegmentWriter) (off : UInt64) : UInt32 :=
  (off / w.segmentSize).toUInt32

def offsetInSeg (w : SegmentWriter) (off : UInt64) : UInt64 :=
  off - (w.segIdx off).toUInt64 * w.segmentSize

-- The checks of `get_chunk_base` before it looks for the segment.
def Passes (w : SegmentWriter) (off : UInt64) (size : UInt32) : Prop :=
  ¬w.fileSize < off + size.toUInt64 ∧ ¬maxChunkSize < size.toUInt64 ∧ ¬w.segmentCount ≤ w.segIdx off

theorem openWriter_default (ho : openWriter n defaultSegmentSize = some w) (hn : n.toNat ≤ 2 ^ 57) :
    w.fileSize = n ∧ w.segmentSize = defaultSegmentSize ∧ 0 < n.toNat ∧
      w.segmentCount.toNat = (n.toNat + 67108863) / 67108864 := by
  have hd : defaultSegmentSize.toNat = 67108864 := by decide
  unfold openWriter at ho
  split at ho
  case isTrue => cases ho
  case isFalse hz =>
    have hz : n.toNat ≠ 0 := fun h => hz (UInt64.toNat_inj.mp h)
    cases ho
    refine ⟨rfl, rfl, Nat.pos_of_ne_zero hz, ?_⟩
    change (((n + defaultSegmentSize - 1) / defaultSegmentSize).toUInt32).toNat = _
    rw [UInt64.toNat_toUInt32, UInt64.toNat_div, UInt64.toNat_sub, UInt64.toNat_add, hd,
      UInt64.toNat_one]
    omega

theorem passes_toNat (ho : openWriter n defaultSegmentSize = some w) (hn : n.toNat ≤ 2 ^ 57) :
    w.Passes off size ↔ (off.toNat + size.toNat) % 2 ^ 64 ≤ n.toNat ∧ size.toNat ≤ 1048576 ∧
      off.toNat / 67108864 % 2 ^ 32 < (n.toNat + 67108863) / 67108864 := by
  have hm : maxChunkSize.toNat = 1048576 := by decide
  have hd : defaultSegmentSize.toNat = 67108864 := by decide
  obtain ⟨hf, hg, -, hc⟩ := openWriter_default ho hn
  rw [Passes, segIdx, hf, hg, UInt64.not_lt, UInt64.not_lt, UInt32.not_le, UInt64.le_iff_toNat_le,
    UInt64.le_iff_toNat_le, UInt32.lt_iff_toNat_lt, hc, UInt64.toNat_add, UInt64.toNat_toUInt32,
    UInt64.toNat_div, UInt32.toNat_toUInt64, hm, hd]

-- A sum that wraps around belongs to the last of all segments, which a file of this size does not
-- have.
theorem Passes.fits (ho : openWriter n defaultSegmentSize = some w) (hn : n.toNat ≤ 2 ^ 57)
    (h : w.Passes off size) : size.toNat ≤ 1024 * 1024 ∧ off.toNat + size.toNat ≤ n.toNat := by
  have := off.toNat_lt
  obtain ⟨h₁, h₂, h₃⟩ := (passes_toNat ho hn).mp h
  omega

theorem passes_iff (ho : openWriter n defaultSegmentSize = some w) (hn : n.toNat ≤ 2 ^ 57)
    (hs : 1 ≤ size.toNat) :
    w.Passes off size ↔ size.toNat ≤ 1024 * 1024 ∧ off.toNat + size.toNat ≤ n.toNat := by
  refine ⟨Passes.fits ho hn, fun ⟨hm, hl⟩ => (passes_toNat ho hn).mpr ?_⟩
  omega

theorem toNat_min {a b : UInt64} : (min a b).toNat = min a.toNat b.toNat := by
  change (if a ≤ b then a else b).toNat = _
  split
  case isTrue h  => exact (Nat.min_eq_left (UInt64.le_iff_toNat_le.mp h)).symm
  case isFalse h => exact (Nat.min_eq_right (Nat.le_of_lt (UInt64.lt_iff_toNat_lt.mp
    (UInt64.not_le.mp h)))).symm

-- Where an accepted chunk lies in its segment. The guard behind the segment covers a chunk that
-- crosses its end.
structure Located (w : SegmentWriter) (off : UInt64) (size : UInt32) : Prop where
  offset : ((w.segIdx off).toUInt64 * w.segmentSize).toNat + (w.offsetInSeg off).toNat = off.toNat
  fits   : (w.offsetInSeg off).toNat + size.toNat ≤ (w.mapSize (w.segIdx off)).toNat
  sum    : (w.offsetInSeg off + size.toUInt64).toNat = (w.offsetInSeg off).toNat + size.toNat

theorem located (ho : openWriter n defaultSegmentSize = some w) (hn : n.toNat ≤ 2 ^ 57)
    (h : w.Passes off size) : w.Located off size := by
  obtain ⟨hs, hl⟩ := h.fits ho hn
  have hm : maxChunkSize.toNat = 1048576 := by decide
  have hd : defaultSegmentSize.toNat = 67108864 := by decide
  obtain ⟨hf, hg, hp, -⟩ := openWriter_default ho hn
  have hi : ((w.segIdx off).toUInt64 * w.segmentSize).toNat = off.toNat / 67108864 * 67108864 := by
    rw [segIdx, hg, UInt64.toNat_mul, UInt32.toNat_toUInt64, UInt64.toNat_toUInt32, UInt64.toNat_div,
      hd]
    omega
  have hx : (w.offsetInSeg off).toNat = off.toNat % 67108864 := by
    rw [offsetInSeg, UInt64.toNat_sub, hi]
    omega
  have hz : (w.mapSize (w.segIdx off)).toNat =
      min 68157440 (n.toNat - off.toNat / 67108864 * 67108864) := by
    rw [mapSize, toNat_min, hf, UInt64.toNat_sub, hi, hg, UInt64.toNat_add, hm, hd]
    omega
  refine ⟨by rw [hi, hx]; omega, by rw [hx, hz]; omega, ?_⟩
  rw [UInt64.toNat_add, hx, UInt32.toNat_toUInt64]
  omega

-- The address that stands for a chunk's offset, without the mappings.
theorem isSome_getChunkBase_iff (ho : openWriter n defaultSegmentSize = some w)
    (hn : n.toNat ≤ 2 ^ 57) (hs : 1 ≤ size.toNat) :
    (w.getChunkBase off size).isSome ↔ w.Passes off size := by
  constructor
  · intro h
    obtain ⟨base, hb⟩ := Option.isSome_iff_exists.mp h
    obtain ⟨_, hl, hm⟩ := getChunkBase_spec ho hb
    exact (passes_iff ho hn hs).mpr ⟨hm, hl⟩
  · intro h
    have hx := located ho hn h
    obtain ⟨h₁, h₂, h₃⟩ := h
    have h₄ : ¬w.mapSize (w.segIdx off) < w.offsetInSeg off + size.toUInt64 := by
      rw [UInt64.not_lt, UInt64.le_iff_toNat_le, hx.sum]
      exact hx.fits
    rw [getChunkBase, if_neg h₁, if_neg h₂]
    change Option.isSome (if w.segmentCount ≤ w.segIdx off then none else _)
    rw [if_neg h₃]
    change Option.isSome (if w.mapSize (w.segIdx off) < w.offsetInSeg off + size.toUInt64 then none
      else some _)
    rw [if_neg h₄, Option.isSome_some]

end SegmentWriter

namespace Segments

variable {os : Mmap} {w : SegmentWriter} {s s' : Segments} {i : UInt32}

-- The region that is mapped for a segment.
def region (w : SegmentWriter) (i : UInt32) (seg : MappedSeg) : Mapping :=
  ⟨seg.data, seg.size.toNat, (i.toUInt64 * w.segmentSize).toNat⟩

theorem addr_region {seg : MappedSeg} : (region w i seg).addr = seg.data :=
  rfl

theorem size_region {seg : MappedSeg} : (region w i seg).size = seg.size.toNat :=
  rfl

theorem offset_region {seg : MappedSeg} :
    (region w i seg).offset = (i.toUInt64 * w.segmentSize).toNat :=
  rfl

structure Mapped (w : SegmentWriter) (s : Segments) : Prop where
  cached   : s.cachedSegIdx < w.segmentCount →
    s.cachedSeg = some s.cachedSegIdx ∧ (s.mappedSegments s.cachedSegIdx).isSome
  mapped   : ∀ {i seg}, s.mappedSegments i = some seg →
    seg.size = w.mapSize i ∧ region w i seg ∈ s.memory
  disjoint : s.memory.Pairwise Mapping.Disjoint
  nonnull  : ∀ m ∈ s.memory, 0 < m.addr

-- Nothing is unmapped or mapped again.
structure Grows (s s' : Segments) : Prop where
  mapped : ∀ {i seg}, s.mappedSegments i = some seg → s'.mappedSegments i = some seg
  memory : s.memory ⊆ s'.memory

theorem Grows.refl : Grows s s :=
  ⟨id, fun _ => id⟩

theorem Grows.trans (h : Grows s t) (h' : Grows t s') : Grows s s' :=
  ⟨fun hm => h'.mapped (h.mapped hm), fun _ hm => h'.memory (h.memory hm)⟩

theorem mapped_empty : Mapped w {} := by
  refine ⟨fun h => ?_, fun h => (by cases h), .nil, List.forall_mem_nil _⟩
  have := w.segmentCount.toNat_lt
  rw [UInt32.lt_iff_toNat_lt] at h
  change 4294967295 < _ at h
  omega

theorem mappedSegments_mapSegment : (s.mapSegment os w i).mappedSegments =
    Function.update s.mappedSegments i
      (some ⟨os.place s.memory (w.mapSize i).toNat, w.mapSize i⟩) :=
  rfl

theorem memory_mapSegment : (s.mapSegment os w i).memory =
    region w i ⟨os.place s.memory (w.mapSize i).toNat, w.mapSize i⟩ :: s.memory :=
  rfl

theorem cachedSegIdx_mapSegment : (s.mapSegment os w i).cachedSegIdx = s.cachedSegIdx :=
  rfl

theorem Mapped.mapSegment (h : Mapped w s) : Mapped w (s.mapSegment os w i) := by
  refine ⟨fun hc => ?_, fun {j seg} hj => ?_, ?_, ?_⟩
  · obtain ⟨hp, hm⟩ := h.cached hc
    refine ⟨hp, ?_⟩
    rw [mappedSegments_mapSegment, cachedSegIdx_mapSegment]
    by_cases hi : s.cachedSegIdx = i
    case pos => rw [hi, Function.update_self, Option.isSome_some]
    case neg => rwa [Function.update_of_ne hi]
  · rw [mappedSegments_mapSegment] at hj
    rw [memory_mapSegment]
    by_cases hi : j = i
    case pos =>
      subst hi
      rw [Function.update_self] at hj
      obtain rfl := Option.some.inj hj
      exact ⟨rfl, List.mem_cons_self⟩
    case neg =>
      rw [Function.update_of_ne hi] at hj
      obtain ⟨hz, hm⟩ := h.mapped hj
      exact ⟨hz, List.mem_cons_of_mem _ hm⟩
  · rw [memory_mapSegment]
    refine List.pairwise_cons.mpr ⟨fun m hm => ?_, h.disjoint⟩
    rw [Mapping.Disjoint, addr_region, size_region]
    exact (os.disjoint _ _ m hm).symm
  · rw [memory_mapSegment]
    exact List.forall_mem_cons.mpr ⟨os.pos .., h.nonnull⟩

theorem grows_mapSegment (h : s.mappedSegments i = none) : Grows s (s.mapSegment os w i) := by
  refine ⟨fun {j seg} hj => ?_, fun _ => List.mem_cons_of_mem _⟩
  have hi : j ≠ i := by
    rintro rfl
    rw [h] at hj
    cases hj
  exact (Function.update_of_ne hi ..).trans hj

variable (os) in
-- The segment is found in the cache, in the map or by mapping it.
theorem findSegment_spec (h : Mapped w s) (hi : i < w.segmentCount) :
    ∃ seg s', s.findSegment os w i = some (seg, s') ∧ s'.mappedSegments i = some seg ∧
      Mapped w s' ∧ Grows s s' := by
  rw [findSegment]
  split
  case isTrue hc =>
    subst hc
    obtain ⟨hp, hm⟩ := h.cached hi
    obtain ⟨seg, hs⟩ := Option.isSome_iff_exists.mp hm
    refine ⟨seg, s, ?_, hs, h, .refl⟩
    rw [hp, Option.bind_some, hs, Option.map_some]
  case isFalse =>
    have looked {t : Segments} (ht : Mapped w t) (hg : Grows s t) {seg : MappedSeg}
        (hs : t.mappedSegments i = some seg) : ∃ seg s', (t.mappedSegments i).map (fun seg =>
          (seg, { t with cachedSegIdx := i, cachedSeg := some i })) = some (seg, s') ∧
          s'.mappedSegments i = some seg ∧ Mapped w s' ∧ Grows s s' := by
      refine ⟨seg, { t with cachedSegIdx := i, cachedSeg := some i }, ?_, hs, ?_, hg.mapped, hg.memory⟩
      · rw [hs, Option.map_some]
      · exact ⟨fun _ => ⟨rfl, Option.isSome_of_eq_some hs⟩, ht.mapped, ht.disjoint, ht.nonnull⟩
    cases hs : s.mappedSegments i
    case some seg => exact looked h .refl hs
    case none     => exact looked h.mapSegment (grows_mapSegment hs) (Function.update_self ..)

-- What a call does. It agrees with the computation without mappings.
structure Served (os : Mmap) (w : SegmentWriter) (s : Segments) (off : UInt64) (size : UInt32)
    (p : Option Nat) (s' : Segments) : Prop where
  result : s.getChunkBase os w off size = some (p, s')
  isSome : p.isSome ↔ w.Passes off size
  shows  : ∀ a ∈ p, 0 < a ∧ ∃ m ∈ s'.memory, m.Shows a off.toNat size.toNat
  mapped : Mapped w s'
  grows  : Grows s s'

theorem getChunkBase_of_not_passes (h : ¬w.Passes off size) :
    s.getChunkBase os w off size = some (none, s) := by
  rw [getChunkBase]
  split
  case isTrue => rfl
  case isFalse h₁ =>
    split
    case isTrue => rfl
    case isFalse h₂ => exact if_pos (not_not.mp fun h₃ => h ⟨h₁, h₂, h₃⟩)

theorem getChunkBase_of_passes (h : w.Passes off size)
    (hf : s.findSegment os w (w.segIdx off) = some (seg, s')) :
    s.getChunkBase os w off size =
      some (if seg.size < w.offsetInSeg off + size.toUInt64 then none
        else some (seg.data + (w.offsetInSeg off).toNat), s') := by
  obtain ⟨h₁, h₂, h₃⟩ := h
  rw [getChunkBase, if_neg h₁, if_neg h₂]
  change (if w.segmentCount ≤ w.segIdx off then _ else (s.findSegment os w (w.segIdx off)).bind _) = _
  rw [if_neg h₃, hf, Option.bind_some]
  change (if seg.size < w.offsetInSeg off + size.toUInt64 then _ else _) = _
  split <;> rfl

variable {n off : UInt64} {size : UInt32}

variable (os off size) in
theorem served (ho : SegmentWriter.openWriter n SegmentWriter.defaultSegmentSize = some w)
    (hn : n.toNat ≤ 2 ^ 57) (h : Mapped w s) : ∃ p s', Served os w s off size p s' := by
  by_cases hp : w.Passes off size
  case neg =>
    exact ⟨none, s, getChunkBase_of_not_passes hp, by simpa using hp, by simp, h, .refl⟩
  case pos =>
    have hx := SegmentWriter.located ho hn hp
    obtain ⟨seg, s', hf, hi, hm, hg⟩ := findSegment_spec os h (UInt32.not_le.mp hp.right.right)
    obtain ⟨hz, hr⟩ := hm.mapped hi
    have hc : ¬seg.size < w.offsetInSeg off + size.toUInt64 := by
      rw [hz, UInt64.not_lt, UInt64.le_iff_toNat_le, hx.sum]
      exact hx.fits
    have hb := getChunkBase_of_passes hp hf
    rw [if_neg hc] at hb
    refine ⟨_, s', hb, iff_of_true rfl hp, ?_, hm, hg⟩
    rintro a ⟨⟩
    refine ⟨Nat.add_pos_left (hm.nonnull _ hr) _, _, hr, Nat.le_add_right .., ?_, ?_⟩
    · rw [addr_region, size_region, hz, Nat.add_assoc]
      exact Nat.add_le_add_left hx.fits _
    · rw [addr_region, offset_region, Nat.add_sub_cancel_left, hx.offset]

variable (os) in
-- All calls of a run are defined.
theorem run_mapped (ho : SegmentWriter.openWriter n SegmentWriter.defaultSegmentSize = some w)
    (hn : n.toNat ≤ 2 ^ 57) (h : Mapped w s) (calls : List (UInt64 × UInt32)) :
    ∃ s', Machine.run (step os w) s calls = some s' ∧ Mapped w s' ∧ Grows s s' := by
  induction calls generalizing s
  case nil => exact ⟨s, rfl, h, .refl⟩
  case cons c cs hi =>
    obtain ⟨p, t, ht⟩ := served os c.1 c.2 ho hn h
    obtain ⟨s', hr, hm, hg⟩ := hi ht.mapped
    refine ⟨s', Machine.run_cons.mpr ⟨t, ?_, hr⟩, hm, ht.grows.trans hg⟩
    rw [step, ht.result, Option.map_some]

-- The tasks may compute with file offsets: the mappings accept the same chunks.
theorem getChunkBase_refines
    (ho : SegmentWriter.openWriter n SegmentWriter.defaultSegmentSize = some w)
    (hn : n.toNat ≤ 2 ^ 57) (hs : 1 ≤ size.toNat) (h : Mapped w s) :
    ∃ p s', s.getChunkBase os w off size = some (p, s') ∧
      p.isSome = (w.getChunkBase off size).isSome := by
  obtain ⟨p, s', hp⟩ := served os off size ho hn h
  refine ⟨p, s', hp.result, Bool.eq_iff_iff.mpr ?_⟩
  rw [hp.isSome, SegmentWriter.isSome_getChunkBase_iff ho hn hs]

-- Whatever was mapped before, a chunk is accepted exactly if it is small enough and lies in the file.
-- One mapping then shows all its bytes, and this mapping stays.
theorem getChunkBase_iff (os : Mmap) (off : UInt64) (size : UInt32)
    (ho : SegmentWriter.openWriter n SegmentWriter.defaultSegmentSize = some w)
    (hn : n.toNat ≤ 2 ^ 57) (hs : 1 ≤ size.toNat) (before : List (UInt64 × UInt32)) :
    ∃ s p s', Machine.run (step os w) {} before = some s ∧
      s.getChunkBase os w off size = some (p, s') ∧
      (p.isSome ↔ size.toNat ≤ 1024 * 1024 ∧ off.toNat + size.toNat ≤ n.toNat) ∧
      ∀ a ∈ p, 0 < a ∧ ∃ m ∈ s'.memory, m.Shows a off.toNat size.toNat ∧
        ∀ after, ∃ s'', Machine.run (step os w) s' after = some s'' ∧ m ∈ s''.memory ∧
          s''.memory.Pairwise Mapping.Disjoint := by
  obtain ⟨s, hr, hm, -⟩ := run_mapped os ho hn mapped_empty before
  obtain ⟨p, s', hp⟩ := served os off size ho hn hm
  refine ⟨s, p, s', hr, hp.result, ?_, fun a ha => ?_⟩
  · rw [hp.isSome, SegmentWriter.passes_iff ho hn hs]
  · obtain ⟨hz, m, hm, hw⟩ := hp.shows a ha
    refine ⟨hz, m, hm, hw, fun after => ?_⟩
    obtain ⟨s'', hr', hm', hg⟩ := run_mapped os ho hn hp.mapped after
    exact ⟨s'', hr', hg.memory hm, hm'.disjoint⟩

-- A file of 100 MiB.
def twoSegments : SegmentWriter where
  fileSize     := 104857600
  segmentSize  := 67108864
  segmentCount := 2

-- The chunk crosses the boundary between the segments.
theorem crossing_chunk_shown :
    ∃ s p s', Machine.run (step .next twoSegments) {} [(70000000, 8), (0, 8)] = some s ∧
      s.getChunkBase .next twoSegments 67108860 8 = some (p, s') ∧ p.isSome ∧
      ∀ a ∈ p, ∃ m ∈ s'.memory, m.Shows a 67108860 8 := by
  have ho : SegmentWriter.openWriter 104857600 SegmentWriter.defaultSegmentSize =
    some twoSegments := by decide
  obtain ⟨s, p, s', hr, hp, hi, hm⟩ := getChunkBase_iff .next 67108860 8 ho (by decide)
    (by decide) [(70000000, 8), (0, 8)]
  refine ⟨s, p, s', hr, hp, hi.mpr (by decide), fun a ha => ?_⟩
  obtain ⟨-, m, hm, hs, -⟩ := hm a ha
  exact ⟨m, hm, hs⟩

end Segments

end ThinBT
