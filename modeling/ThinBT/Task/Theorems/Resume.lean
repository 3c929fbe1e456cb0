import ThinBT.Task.Theorems.Start
import ThinBT.Cdc.Theorems.ContentCuts
import ThinBT.Cdc.Theorems.CutPoints
import Mathlib.Data.Nat.Find

namespace ThinBT

namespace TSeedFile

section Definitions

variable {δ : Type} (sha256 : List UInt8 → δ) (seed : TSeedFile δ) (file : List UInt8)

-- A chunk that the file has.
def Good (e : ChunkEntry δ) : Prop :=
  e ∈ seed.chunks ∧ sha256 (e.bytes file) = e.sha256

-- From `a` up to the good chunk `e` there is no good chunk, and `a` is the start of the file or the end
-- of a good chunk.
structure Gap (a : Nat) (e : ChunkEntry δ) : Prop where
  good  : seed.Good sha256 file e
  le    : a ≤ e.offset.toNat
  start : a = 0 ∨ ∃ f, seed.Good sha256 file f ∧ f.stop = a
  empty : ∀ f, seed.Good sha256 file f → f.stop ≤ a ∨ e.offset.toNat ≤ f.offset.toNat

-- The scan of what fills a gap has a boundary where the next good chunk starts.
def Resynchronizes : Prop :=
  ∀ a e, seed.Gap sha256 file a e →
    FastCDC.CutPoint seed.config (file.drop a) (e.offset.toNat - a)

-- A scan that starts with a good chunk cuts it off.
def CutsOff : Prop :=
  ∀ e, seed.Good sha256 file e →
    FastCDC.firstCut seed.config (file.drop e.offset.toNat) = some e.length.toNat

end Definitions

variable {δ : Type} {sha256 : List UInt8 → δ} {seed : TSeedFile δ} {file source : List UInt8}
variable {e f : ChunkEntry δ}

instance : Std.Symm (ChunkEntry.Disjoint (δ := δ)) :=
  ⟨fun _ _ h => h.symm⟩

theorem Partitioned.eq_or_disjoint (h : seed.Partitioned) (he : e ∈ seed.chunks)
    (hf : f ∈ seed.chunks) : f = e ∨ f.stop ≤ e.offset.toNat ∨ e.stop ≤ f.offset.toNat := by
  by_cases hn : f = e
  case pos => exact .inl hn
  case neg => exact .inr (h.disjoint.forall hf he hn)

-- Before every good chunk there is a gap, which may be empty.
theorem Partitioned.exists_gap (h : seed.Partitioned) (he : seed.Good sha256 file e) :
    ∃ a, seed.Gap sha256 file a e := by
  classical
  let P (a : Nat) : Prop := a = 0 ∨ ∃ f, seed.Good sha256 file f ∧ f.stop = a
  have hz : P 0 := .inl rfl
  refine ⟨Nat.findGreatest P e.offset.toNat, he, Nat.findGreatest_le _,
    Nat.findGreatest_spec (Nat.zero_le _) hz, fun f hf => ?_⟩
  obtain rfl | hd | hd := h.eq_or_disjoint he.left hf.left
  case inl     => exact .inr (Nat.le_refl _)
  case inr.inl => exact .inl (Nat.le_findGreatest hd (.inr ⟨f, hf, rfl⟩))
  case inr.inr => exact .inr (Nat.le_trans (Nat.le_add_right ..) hd)

-- The end of a good chunk that is found is a cut point, and so is the start of the file.
theorem cutPoint_of_start {a : Nat} (hc : seed.CutsOff sha256 file)
    (hp : ∀ f, seed.Good sha256 file f → f.stop ≤ a →
      FastCDC.CutPoint seed.config file f.offset.toNat)
    (ha : a = 0 ∨ ∃ f, seed.Good sha256 file f ∧ f.stop = a) :
    FastCDC.CutPoint seed.config file a := by
  obtain rfl | ⟨f, hf, rfl⟩ := ha
  case inl => exact .zero
  case inr => exact (hp f hf (Nat.le_refl _)).trans (.add (hc f hf) .zero)

-- After a gap, the scan stays in step as long as there are good chunks.
theorem Resynchronizes.cutPoint (h : seed.Resynchronizes sha256 file) (hp : seed.Partitioned)
    (hc : seed.CutsOff sha256 file) (he : seed.Good sha256 file e) :
    FastCDC.CutPoint seed.config file e.offset.toNat := by
  induction hn : e.offset.toNat using Nat.strong_induction_on generalizing e
  case h n hi =>
    subst hn
    obtain ⟨a, hg⟩ := hp.exists_gap he
    have ha : FastCDC.CutPoint seed.config file a := by
      refine cutPoint_of_start hc (fun f hf hs => hi _ ?_ hf rfl) hg.start
      have := hp.positive f hf.left
      have := hg.le
      rw [ChunkEntry.stop] at hs
      omega
    have := ha.trans (h a e hg)
    rwa [Nat.add_sub_cancel' hg.le] at this

theorem resynchronizes_of_cutPoint (hc : seed.CutsOff sha256 file)
    (hp : ∀ e, seed.Good sha256 file e → FastCDC.CutPoint seed.config file e.offset.toNat) :
    seed.Resynchronizes sha256 file := by
  intro a e hg
  have ha : FastCDC.CutPoint seed.config file a := cutPoint_of_start hc (fun f hf _ => hp f hf) hg.start
  refine ha.drop ?_
  rw [Nat.add_sub_cancel' hg.le]
  exact hp e hg.good

-- The chunks of a seed that was made by the scan are cut off wherever they are complete.
theorem SeedOf.cutsOff (h : seed.SeedOf sha256 source) (hcf : seed.CollisionFree sha256 source)
    (hl : file.length = source.length) : seed.CutsOff sha256 file := by
  intro e he
  have hs : source.length < 2 ^ 64 := h.fileSize ▸ seed.fileSize.toNat_lt
  have hd := h.tiles.describes he.left
  have hb : e.bytes file = e.bytes source :=
    hcf e he.left _ (List.length_slice (hl ▸ hd.fits)) (he.right.trans hd.hash)
  have hm : e ∈ FastCDC.scanBuffer sha256 seed.config source := h.chunks ▸ he.left
  have hc := ((FastCDC.exists_mem_scanBuffer_iff hs).mp ⟨e, hm, rfl, rfl⟩).right
  have split (l : List UInt8) : l.drop e.offset.toNat = e.bytes l ++ l.drop e.stop := by
    rw [ChunkEntry.bytes, List.slice, ChunkEntry.stop, ← List.drop_drop, List.take_append_drop]
  have hn : (e.bytes source).length = e.length.toNat := List.length_slice hd.fits
  rw [split, ← hn] at hc ⊢
  rw [hb]
  refine FastCDC.firstCut_append ?_ hc
  rw [List.drop_eq_nil_iff, List.drop_eq_nil_iff, hl]

end TSeedFile

namespace Task

variable {δ : Type} [DecidableEq δ] {sha256 : List UInt8 → δ} {seed : TSeedFile δ}
variable {i : Nat} {e : ChunkEntry δ}

theorem initBf_iff (hf : fileExists existing) (he : seed.chunks[i]? = some e) :
    (initBf sha256 seed existing)[i]? = some true ↔
      sha256 (e.bytes (SegmentWriter.preallocate existing seed.fileSize)) = e.sha256 ∧
        ∃ c ∈ FastCDC.scanBuffer sha256 seed.config
          (SegmentWriter.preallocate existing seed.fileSize), c.offset = e.offset ∧
          c.length = e.length := by
  simp only [initBf, List.getElem?_map, he, Option.map_some, hf, Bool.true_and, Option.some.injEq,
    List.any_eq_true, Bool.and_eq_true, decide_eq_true_eq]
  constructor
  · rintro ⟨c, hc, ⟨hh, ho⟩, hl⟩
    exact ⟨(hash_of_mem_scanBuffer hc ho hl).symm.trans hh, c, hc, ho, hl⟩
  · rintro ⟨hh, c, hc, ho, hl⟩
    exact ⟨c, hc, ⟨(hash_of_mem_scanBuffer hc ho hl).trans hh, ho⟩, hl⟩

-- `cmd_add` finds exactly those chunks that the file has.
def ResumesExactly (sha256 : List UInt8 → δ) (seed : TSeedFile δ) (existing : Option (List UInt8)) :
    Prop :=
  ∀ (i : Nat) (e : ChunkEntry δ), seed.chunks[i]? = some e →
    ((initBf sha256 seed existing)[i]? = some true ↔
      sha256 (e.bytes (SegmentWriter.preallocate existing seed.fileSize)) = e.sha256)

theorem resumesExactly_iff (hf : fileExists existing) : ResumesExactly sha256 seed existing ↔
    ∀ e, seed.Good sha256 (SegmentWriter.preallocate existing seed.fileSize) e →
      FastCDC.CutPoint seed.config (SegmentWriter.preallocate existing seed.fileSize)
          e.offset.toNat ∧
        FastCDC.firstCut seed.config ((SegmentWriter.preallocate existing seed.fileSize).drop
          e.offset.toNat) = some e.length.toNat := by
  have hs : (SegmentWriter.preallocate existing seed.fileSize).length < 2 ^ 64 :=
    SegmentWriter.length_preallocate_lt
  constructor
  · intro h e he
    obtain ⟨i, hi⟩ := List.mem_iff_getElem?.mp he.left
    have hb := ((initBf_iff hf hi).mp ((h i e hi).mpr he.right)).right
    exact (FastCDC.exists_mem_scanBuffer_iff hs).mp hb
  · intro h i e he
    rw [initBf_iff hf he, FastCDC.exists_mem_scanBuffer_iff hs]
    exact and_iff_left_of_imp fun hh => h e ⟨List.mem_of_getElem? he, hh⟩

-- `cmd_add` never takes a chunk that the file does not have. It finds all that the file has exactly if
-- the scan is back in step behind every gap and does not cut good chunks into pieces, which never
-- happens to the chunks of a seed that the scan has made.
theorem resume_exact_iff_resynchronizes (hf : fileExists existing) (hp : seed.Partitioned) :
    (∀ (i : Nat) (e : ChunkEntry δ), seed.chunks[i]? = some e →
      (initBf sha256 seed existing)[i]? = some true →
      sha256 (e.bytes (SegmentWriter.preallocate existing seed.fileSize)) = e.sha256) ∧
    (ResumesExactly sha256 seed existing ↔
      seed.CutsOff sha256 (SegmentWriter.preallocate existing seed.fileSize) ∧
      seed.Resynchronizes sha256 (SegmentWriter.preallocate existing seed.fileSize)) ∧
    ∀ source, seed.SeedOf sha256 source → seed.CollisionFree sha256 source →
      (ResumesExactly sha256 seed existing ↔
        seed.Resynchronizes sha256 (SegmentWriter.preallocate existing seed.fileSize)) := by
  have hi : ResumesExactly sha256 seed existing ↔
      seed.CutsOff sha256 (SegmentWriter.preallocate existing seed.fileSize) ∧
      seed.Resynchronizes sha256 (SegmentWriter.preallocate existing seed.fileSize) := by
    rw [resumesExactly_iff hf]
    constructor
    · intro h
      have hc : seed.CutsOff sha256 _ := fun e he => (h e he).right
      exact ⟨hc, TSeedFile.resynchronizes_of_cutPoint hc fun e he => (h e he).left⟩
    · rintro ⟨hc, hr⟩ e he
      exact ⟨hr.cutPoint hp hc he, hc e he⟩
  refine ⟨fun i e he hb => ((initBf_iff hf he).mp hb).left, hi, fun source hs hcf => hi.trans ?_⟩
  refine and_iff_right (hs.cutsOff hcf ?_)
  rw [SegmentWriter.length_preallocate, hs.fileSize]

-- Content matches the mask after every byte 1, but not after 0. Chunks are their own digests.
def matchingConfig : FastCDCConfig where
  minSize := 1
  avgSize := 8
  maxSize := 3

def matchingSeed : TSeedFile (List UInt8) where
  fileSize := 4
  config   := matchingConfig
  chunks   := FastCDC.scanBuffer id matchingConfig [1, 1, 1, 1]
  countLt  := by decide +kernel

theorem partitioned_matchingSeed : matchingSeed.Partitioned :=
  ⟨by decide +kernel, by decide +kernel, by decide +kernel, by decide +kernel⟩

-- Two chunks are missing, and the scan has a boundary where the next one starts.
theorem matchingSeed_resumes_exactly :
    initBf id matchingSeed (some [0, 0, 1, 1]) = [false, false, true, true] ∧
      ResumesExactly id matchingSeed (some [0, 0, 1, 1]) := by
  have hcf : matchingSeed.CollisionFree id [1, 1, 1, 1] := fun _ _ _ _ h => h
  refine ⟨by decide +kernel, ((resume_exact_iff_resynchronizes (by decide)
    partitioned_matchingSeed).right.right [1, 1, 1, 1] ⟨rfl, rfl⟩ hcf).mpr ?_⟩
  have good : ∀ e ∈ matchingSeed.chunks,
      e.bytes (SegmentWriter.preallocate (some [0, 0, 1, 1]) 4) = e.sha256 →
      e = ⟨2, 1, [1]⟩ ∨ e = ⟨3, 1, [1]⟩ := by
    decide +kernel
  have third : matchingSeed.Good id (SegmentWriter.preallocate (some [0, 0, 1, 1]) 4) ⟨2, 1, [1]⟩ :=
    ⟨by decide +kernel, by decide +kernel⟩
  intro a e hg
  have hle := hg.le
  have hne := hg.empty _ third
  obtain rfl | ⟨f, hf, rfl⟩ := hg.start
  case inl =>
    obtain rfl | rfl := good e hg.good.left hg.good.right
    case inl => exact .add (p := 0) (by decide +kernel) .zero
    case inr => exact absurd hne (by decide)
  case inr =>
    obtain rfl | rfl := good f hf.left hf.right
    all_goals obtain rfl | rfl := good e hg.good.left hg.good.right
    case inl.inr => exact .zero
    all_goals exact absurd hle (by decide)

-- Only the first chunk is missing. The scan does not see where it ends.
theorem resume_misses_chunk :
    matchingSeed.Partitioned ∧ matchingSeed.SeedOf id [1, 1, 1, 1] ∧
      (∃ e, matchingSeed.chunks[1]? = some e ∧
        e.bytes (SegmentWriter.preallocate (some [0, 1, 1, 1]) 4) = e.sha256) ∧
      (initBf id matchingSeed (some [0, 1, 1, 1]))[1]? = some false := by
  refine ⟨⟨?_, ?_, ?_, ?_⟩, ⟨rfl, rfl⟩, ⟨⟨1, 1, [1]⟩, ?_, ?_⟩, ?_⟩ <;> decide +kernel

-- Files of the size of the source are scanned to the same boundaries if content cannot match the
-- mask, as with the configuration of `tbt make`.
theorem resume_exact_of_seedOf (hf : fileExists existing) (h : seed.SeedOf sha256 source)
    (ha : 2048 ≤ seed.config.avgSize.toNat) (he : seed.chunks[i]? = some e) :
    (initBf sha256 seed existing)[i]? = some true ↔
      sha256 (e.bytes (SegmentWriter.preallocate existing seed.fileSize)) = e.sha256 := by
  refine (initBf_iff hf he).trans (and_iff_left ?_)
  have hl : source.length = (SegmentWriter.preallocate existing seed.fileSize).length := by
    rw [SegmentWriter.length_preallocate, h.fileSize]
  have hm := List.mem_of_getElem? he
  rw [h.chunks, FastCDC.scanBuffer_eq_entries,
    FastCDC.lengths_congr (FastCDC.nine_le_maskBits ha) hl] at hm
  rw [FastCDC.scanBuffer_eq_entries]
  exact FastCDC.exists_mem_entries hm

end Task
end ThinBT
