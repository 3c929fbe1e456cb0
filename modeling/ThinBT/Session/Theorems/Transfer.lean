import ThinBT.Session.Theorems.Pieces
import ThinBT.Scheduler.Theorems.Runs

namespace ThinBT

namespace ChunkAssembler

-- The calls of `on_piece` for the begin offsets and data of pieces, with the values they return.
def deliver (a : ChunkAssembler) (file : List UInt8) :
    List (UInt32 × List UInt8) → Option (ChunkAssembler × List UInt8 × List Bool)
  | []      => some (a, file, [])
  | p :: ps => do
    let (a, file, complete) ← a.onPiece p.1 p.2 file
    let (a, file, results) ← a.deliver file ps
    return (a, file, complete :: results)

variable {δ : Type} {e : ChunkEntry δ} {a : ChunkAssembler} {source file : List UInt8}

-- An assembler and its file after some honest pieces, where `results` are the values returned so far.
structure Filling (source : List UInt8) (e : ChunkEntry δ) (a : ChunkAssembler) (file : List UInt8)
    (results : List Bool) : Prop where
  assembles : a.Assembles e source.length
  base      : a.base = some e.offset.toNat
  length    : file.length = source.length
  slots     : a.received s → s < a.totalSlots.toNat ∧ e.HasSubBlock source file s
  pending   : a.pendingCount.toNat + Bitset.size a.completedMask = a.totalSlots.toNat
  once      : results.count true = if a.pendingCount = 0 then 1 else 0

theorem Filling.bounds (h : Filling source e a file rs) :
    e.offset.toNat + e.length.toNat ≤ source.length ∧ e.length.toNat ≤ 1024 * 1024 :=
  (h.assembles.base_eq h.base).right

theorem Filling.pending_eq_zero_iff (h : Filling source e a file rs) :
    a.pendingCount = 0 ↔ ∀ s < a.totalSlots.toNat, a.received s := by
  have hb : Bitset.size a.completedMask = a.totalSlots.toNat ↔ ∀ s < a.totalSlots.toNat, a.received s :=
    Bitset.size_eq_iff (fun _ hs => (h.slots hs).left) h.assembles.totalSlots_le_mask
  have h0 : a.pendingCount = 0 ↔ a.pendingCount.toNat = 0 :=
    ⟨fun he => he ▸ rfl, fun he => UInt32.toNat_inj.mp he⟩
  have hp := h.pending
  rw [h0, ← hb]
  omega

-- Whether a piece ends inside of the chunk.
def fits (e : ChunkEntry δ) (p : UInt32 × List UInt8) : Bool :=
  p.1.toNat + p.2.length ≤ e.length.toNat

theorem write_honest (h : Filling source e a file rs) (hp : Honest source e s begin data)
    (hc : s * ThinBT.subBlockSize + data.length ≤ e.length.toNat) :
    a.write begin data file =
      some (file.overwrite (e.offset.toNat + s * ThinBT.subBlockSize) data) := by
  rw [write, h.base, h.assembles.chunkSize, hp.begins]
  exact if_pos hc

-- The bit of an honest piece that is not the first one for its slot.
theorem Filling.repeated (h : Filling source e a file rs) (hm : a.Marked s a' first)
    (hr : a.received s = true) (hl : file'.length = file.length)
    (hk : ∀ t, e.HasSubBlock source file t → e.HasSubBlock source file' t) :
    Filling source e a' file' (rs ++ [false]) where
  assembles := h.assembles.of_sameFrame hm.frame
  base      := hm.frame.base.trans h.base
  length    := hl.trans h.length
  slots {t} := by
    rw [hm.received, hm.frame.totalSlots]
    intro ht
    have ht : a.received t := by
      by_cases he : t = s
      case pos => exact he ▸ hr
      case neg => simpa [he] using ht
    exact (h.slots ht).imp id (hk t)
  pending   := by
    rw [hm.size, if_pos hr, hm.pending, hm.frame.totalSlots]
    exact h.pending
  once      := by
    rw [List.count_append, hm.pending, h.once]
    rfl

-- The first honest piece for a slot.
theorem Filling.fresh (h : Filling source e a file rs) (hm : a.Marked s a' first)
    (hr : a.received s = false) (hs : s < a.totalSlots.toNat) (hl : file'.length = file.length)
    (hk : ∀ t, e.HasSubBlock source file t → e.HasSubBlock source file' t)
    (hn : e.HasSubBlock source file' s) :
    Filling source e a'.countDown.1 file' (rs ++ [a'.countDown.2]) := by
  -- A slot is missing, so that the counter has not reached zero.
  have hp : a.pendingCount ≠ 0 := by
    intro hp
    have := h.pending_eq_zero_iff.mp hp s hs
    rw [hr] at this
    cases this
  have hp1 : 1 ≤ a.pendingCount.toNat := by
    refine Nat.pos_of_ne_zero fun he => hp ?_
    exact UInt32.toNat_inj.mp he
  have hd : a'.countDown.1.pendingCount.toNat = a.pendingCount.toNat - 1 := by
    rw [countDown, hm.pending]
    exact UInt32.toNat_sub_of_le _ _ (UInt32.le_iff_toNat_le.mpr hp1)
  refine ⟨?_, hm.frame.base.trans h.base, hl.trans h.length, fun {t} ht => ?_, ?_, ?_⟩
  · exact (h.assembles.of_sameFrame hm.frame).of_sameFrame countDown_frame
  · have ht : a'.received t := ht
    rw [hm.received, Bool.or_eq_true, beq_iff_eq] at ht
    change t < a'.totalSlots.toNat ∧ _
    rw [hm.frame.totalSlots]
    cases ht
    case inl ht => exact ht ▸ ⟨hs, hn⟩
    case inr ht => exact (h.slots ht).imp id (hk t)
  · have hsz := hm.size
    rw [hr] at hsz
    change _ + Bitset.size a'.completedMask = a'.totalSlots.toNat
    rw [hd, hm.frame.totalSlots, hsz, ← h.pending]
    simp only [Bool.false_eq_true, if_false]
    omega
  · have h0 : a'.countDown.1.pendingCount = 0 ↔ a.pendingCount = 1 := by
      rw [← UInt32.toNat_inj, ← UInt32.toNat_inj, hd]
      change _ = 0 ↔ _ = 1
      omega
    have hc : a'.countDown.2 = decide (a.pendingCount = 1) := by rw [countDown, hm.pending]
    rw [List.count_append, h.once, if_neg hp, hc, Nat.zero_add]
    by_cases h1 : a.pendingCount = 1
    case pos => rw [if_pos (h0.mpr h1), h1]; rfl
    case neg => rw [if_neg (h0.not.mpr h1), decide_eq_false h1]; rfl

theorem Filling.onPiece (h : Filling source e a file rs) (hp : Honest source e s begin data) :
    ∃ a' file' r, a.onPiece begin data file = some (a', file', r) ∧
      Filling source e a' file' (rs ++ [r]) ∧
      ∀ t, a'.received t = (a.received t || (t == s && fits e (begin, data))) := by
  have hacc := h.assembles.accepts_iff h.base hp.toMeasured
  have hf : fits e (begin, data) = decide (s * ThinBT.subBlockSize + data.length ≤ e.length.toNat) := by
    rw [fits, hp.begins]
  by_cases hc : s * ThinBT.subBlockSize + data.length ≤ e.length.toNat
  case neg =>
    refine ⟨a, file, false, ?_, ⟨h.assembles, h.base, h.length, h.slots, h.pending, ?_⟩, fun t => ?_⟩
    · rw [ChunkAssembler.onPiece, if_neg (hacc.not.mpr hc)]
      rfl
    · rw [List.count_append, h.once]
      rfl
    · rw [hf, decide_eq_false hc, Bool.and_false, Bool.or_false]
  case pos =>
    have hs : a.slot begin = s := by
      rw [h.assembles.slot_eq, hp.begins, Nat.mul_div_cancel _ (by decide)]
    have hlt : s < a.totalSlots.toNat := (h.assembles.lt_totalSlots_iff h.bounds.right).mpr hp.inside
    have ⟨a', first, hm⟩ := mark_defined h.assembles (hs.symm ▸ hlt)
    have hM := mark_eq_some hm
    rw [hs] at hM
    have hk (t) (ht : e.HasSubBlock source file t) := hp.slice_overwrite h.length h.bounds.left hc ht
    have hn := hp.hasSubBlock_overwrite h.length h.bounds.left hc
    have hrec (t) : a'.received t = (a.received t || (t == s && fits e (begin, data))) := by
      rw [hM.received, hf, decide_eq_true hc, Bool.and_true, Bool.or_comm]
    simp only [ChunkAssembler.onPiece, if_pos (hacc.mpr hc), write_honest h hp hc, hm,
      Option.bind_eq_bind, Option.bind_some]
    cases hr : a.received s
    case true =>
      rw [hM.first, hr]
      exact ⟨_, _, _, rfl, h.repeated hM hr List.length_overwrite hk, hrec⟩
    case false =>
      rw [hM.first, hr]
      exact ⟨_, _, _, rfl, h.fresh hM hr hlt List.length_overwrite hk hn, hrec⟩

theorem Filling.deliver (h : Filling source e a file rs)
    (hp : ∀ p ∈ ps, ∃ s, Honest source e s p.1 p.2) :
    ∃ a' file' rs', a.deliver file ps = some (a', file', rs') ∧
      Filling source e a' file' (rs ++ rs') ∧
      ∀ s, a'.received s =
        (a.received s || ps.any fun p => p.1.toNat / ThinBT.subBlockSize == s && fits e p) := by
  induction ps generalizing a file rs
  case nil => exact ⟨a, file, [], rfl, (List.append_nil rs).symm ▸ h, fun s => by simp⟩
  case cons p ps hi =>
    have ⟨⟨s, hs⟩, hps⟩ := List.forall_mem_cons.mp hp
    have ⟨a₁, file₁, r, ho, h₁, hr₁⟩ := h.onPiece hs
    have ⟨a₂, file₂, rs₂, hd, h₂, hr₂⟩ := hi h₁ hps
    refine ⟨a₂, file₂, r :: rs₂, ?_, ?_, fun t => ?_⟩
    · simp only [ChunkAssembler.deliver, ho, hd, Option.bind_eq_bind, Option.bind_some]
      rfl
    · rwa [List.append_assoc] at h₂
    · have hb : p.1.toNat / ThinBT.subBlockSize = s := by
        rw [hs.begins, Nat.mul_div_cancel _ (by decide)]
      rw [hr₂, hr₁, List.any_cons, hb, Bool.or_assoc, Bool.beq_comm]

theorem filling_init (hl : file.length = source.length)
    (hf : e.offset.toNat + e.length.toNat ≤ source.length) (h0 : 0 < e.length.toNat)
    (hm : e.length.toNat ≤ 1024 * 1024) :
    Filling source e (init (some e.offset.toNat) e.length (.ofNat ThinBT.subBlockSize)) file [] := by
  have ha := assembles_init_some hf hm
  have hr (s) : (init (some e.offset.toNat) e.length (.ofNat ThinBT.subBlockSize)).received s = false :=
    Bitset.bit_replicate_zero
  refine ⟨ha, rfl, hl, fun {s} hs => ?_, ?_, ?_⟩
  · rw [hr] at hs
    cases hs
  · exact congrArg (_ + ·) Bitset.size_replicate_zero
  · rw [if_neg, List.count_nil]
    intro hp
    have hlt : 0 < (slotCount e.length (.ofNat ThinBT.subBlockSize)).toNat :=
      (ha.lt_totalSlots_iff hm).mpr (by rwa [Nat.zero_mul])
    have hp : slotCount e.length (.ofNat ThinBT.subBlockSize) = 0 := hp
    rw [hp] at hlt
    cases hlt

end ChunkAssembler

namespace Scheduler

variable {std : StdSort} {σ : Scheduler}

-- The messages that `try_schedule_chunk_on_peer` sends for a chunk in a run.
def scheduledRequests (std : StdSort) (σ : Scheduler) (ops : List Op) (c : Nat) : List Msg :=
  (Actions.trace apply σ (history std σ ops)).flatMap fun x =>
    match x.2 with
    | .assign i d s now => if d = c then (x.1.calls (.assign i d s now)).map Call.msg else []
    | _                 => []

theorem mem_scheduledRequests (hl : AllOps std Legal (start total speed sizes) ops)
    (h : m ∈ scheduledRequests std (start total speed sizes) ops c) :
    ∃ s < (start total speed sizes).subTotal c,
      m = .request (.ofNat c) (.ofNat (s * subBlockSize)) (.ofNat subBlockSize) := by
  have hg : Actions.AllAt apply (fun σ a => σ.subTotal = (start total speed sizes).subTotal ∧ σ.Guard a)
      (start total speed sizes) (history std (start total speed sizes) ops) :=
    (guarded_history hl).strengthen (fun _ _ hs _ => (subTotal_apply ..).trans hs) rfl
  obtain ⟨x, hx, hm⟩ := List.mem_flatMap.mp h
  have hg := Actions.allAt_iff_trace.mp hg x hx
  obtain ⟨σ, a⟩ := x
  cases a
  case assign i d s now =>
    have ⟨_, _, hs, _⟩ : σ.Assigning (.assign i d s now) := hg.right
    dsimp only at hm
    split at hm
    case isFalse => cases hm
    case isTrue hd =>
      subst hd
      obtain ⟨call, hc, rfl⟩ := List.mem_map.mp hm
      obtain ⟨slot, _, rfl⟩ := List.mem_map.mp hc
      exact ⟨s, hg.left ▸ hs, rfl⟩
  all_goals cases hm

end Scheduler

-- A seeder that has the file answers the request with the piece.
def Msg.Answered (chunkOffsets : List UInt64) (file : List UInt8) (m : Msg)
    (p : UInt32 × List UInt8) : Prop :=
  ∃ (s : PeerSession) (index begin length : UInt32), m = .request index begin length ∧
    s.answer chunkOffsets file index begin length = some (.piece index p.1 p.2)

section Transfer

variable {δ : Type} {sha256 : List UInt8 → δ} {source : List UInt8} {seed : TSeedFile δ}
variable {e : ChunkEntry δ} {std : StdSort}

theorem Msg.Answered.honest {c : Nat} (hs : seed.SeedOf sha256 source)
    (he : seed.chunks[c]? = some e) (hlt : s * subBlockSize < e.length.toNat)
    (h : Msg.Answered (seed.chunks.map (·.offset)) source
      (.request (.ofNat c) (.ofNat (s * subBlockSize)) (.ofNat subBlockSize)) p) :
    Honest source e s p.1 p.2 := by
  obtain ⟨sess, index, begin, length, hr, ha⟩ := h
  obtain ⟨rfl, rfl, rfl⟩ := Msg.request.inj hr
  obtain ⟨j, hj, ha⟩ := Option.bind_eq_some_iff.mp ha
  unfold ReadJob.reply at ha
  split at ha
  case isTrue => cases ha
  case isFalse =>
    obtain ⟨_, hb, hd⟩ := Msg.piece.inj (Option.some.inj ha)
    rw [← hb, ← hd]
    exact ((asks_ofNat he hlt).reads hs hj).honest rfl rfl

-- The requests for a chunk of the seed in a run of a new scheduler.
def requestsFor (std : StdSort) (seed : TSeedFile δ) (speed : Nat) (ops : List Scheduler.Op)
    (c : Nat) : List Msg :=
  Scheduler.scheduledRequests std (.start seed.chunkCount speed (Task.sizesOf seed)) ops c

def subBlockRequest (c s : Nat) : Msg :=
  .request (.ofNat c) (.ofNat (s * subBlockSize)) (.ofNat subBlockSize)

-- An honest piece for the last sub-block ends inside of the chunk only if the chunk has no short
-- sub-block or the file ends with the chunk.
theorem fits_iff (hf : e.offset.toNat + e.length.toNat ≤ source.length) (h0 : 0 < e.length.toNat) :
    (∀ s, s * subBlockSize < e.length.toNat → s * subBlockSize +
        min subBlockSize (source.length - (e.offset.toNat + s * subBlockSize)) ≤ e.length.toNat) ↔
      e.length.toNat % subBlockSize = 0 ∨ e.offset.toNat + e.length.toNat = source.length := by
  have hb : subBlockSize = 16384 := rfl
  rw [hb]
  constructor
  case mp =>
    intro h
    have := h ((e.length.toNat - 1) / 16384) (by omega)
    omega
  case mpr =>
    intro h s hs
    omega

-- The chunk arrives if and only if all of its sub-blocks are requested and no piece reaches over its
-- end.
theorem chunk_transfer_complete_iff {c : Nat} (hs : seed.SeedOf sha256 source)
    (hm : seed.config.maxSize.toNat ≤ 1024 * 1024) (he : seed.chunks[c]? = some e)
    (hl : Scheduler.AllOps std Scheduler.Legal
      (.start seed.chunkCount speed (Task.sizesOf seed)) ops)
    (hp : ∀ p ∈ pieces, ∃ m ∈ requestsFor std seed speed ops c,
      m.Answered (seed.chunks.map (·.offset)) source p)
    (ha : ∀ m ∈ requestsFor std seed speed ops c, ∃ p ∈ pieces,
      m.Answered (seed.chunks.map (·.offset)) source p)
    (hf : file.length = source.length) :
    ∃ a file' results,
      (ChunkAssembler.init (some e.offset.toNat) e.length (.ofNat subBlockSize)).deliver file pieces =
        some (a, file', results) ∧
      (results.count true = 1 ∧ e.bytes file' = e.bytes source ↔
        (∀ s < Scheduler.subBlockCount e.length,
          subBlockRequest c s ∈ requestsFor std seed speed ops c) ∧
        (e.length.toNat % subBlockSize = 0 ∨ e.offset.toNat + e.length.toNat = source.length)) := by
  have hmem := List.mem_of_getElem? he
  have ⟨h0, hmax⟩ := hs.tiles.length_bounds hmem
  have hfit := (hs.tiles.describes hmem).fits
  have hL : e.length.toNat ≤ 1024 * 1024 := by omega
  have hF := ChunkAssembler.filling_init hf hfit h0 hL
  have hslot (s : Nat) : s < Scheduler.subBlockCount e.length ↔ s * subBlockSize < e.length.toNat :=
    hF.assembles.lt_totalSlots_iff hL
  -- Every piece is honest and belongs to a request.
  have hH {p} (hpm : p ∈ pieces) :
      ∃ s, Honest source e s p.1 p.2 ∧ subBlockRequest c s ∈ requestsFor std seed speed ops c := by
    have ⟨m, hmm, hA⟩ := hp p hpm
    obtain ⟨s, hlt, rfl⟩ := Scheduler.mem_scheduledRequests hl hmm
    rw [Scheduler.subTotal_start (Task.sizesOf_eq_some he), hslot] at hlt
    exact ⟨s, hA.honest hs he hlt, hmm⟩
  have ⟨a, file', rs, hd, hF', hR⟩ := hF.deliver fun p hpm => (hH hpm).imp fun _ => And.left
  refine ⟨a, file', rs, hd, ?_⟩
  have hall : rs.count true = 1 ↔ ∀ s, s * subBlockSize < e.length.toNat → a.received s := by
    rw [show rs.count true = _ from hF'.once]
    simp only [← hF'.assembles.lt_totalSlots_iff hL, ← hF'.pending_eq_zero_iff]
    split <;> simp [*]
  have hrec (s : Nat) (hlt : s * subBlockSize < e.length.toNat) : a.received s ↔
      subBlockRequest c s ∈ requestsFor std seed speed ops c ∧ s * subBlockSize +
        min subBlockSize (source.length - (e.offset.toNat + s * subBlockSize)) ≤ e.length.toNat := by
    have h0 : (ChunkAssembler.init (some e.offset.toNat) e.length (.ofNat subBlockSize)).received s =
        false := Bitset.bit_replicate_zero
    rw [hR, h0, Bool.false_or, List.any_eq_true]
    simp only [Bool.and_eq_true, beq_iff_eq, ChunkAssembler.fits, decide_eq_true_eq]
    constructor
    case mp =>
      rintro ⟨p, hpm, rfl, hfp⟩
      have ⟨s, hh, hreq⟩ := hH hpm
      rw [hh.begins, hh.length] at hfp
      rw [hh.begins, Nat.mul_div_cancel _ (by decide)]
      exact ⟨hreq, hfp⟩
    case mpr =>
      rintro ⟨hreq, hfp⟩
      have ⟨p, hpm, hA⟩ := ha _ hreq
      have hh := hA.honest hs he hlt
      refine ⟨p, hpm, ?_, ?_⟩
      · rw [hh.begins, Nat.mul_div_cancel _ (by decide)]
      · rw [hh.begins, hh.length]
        exact hfp
  rw [hall, ← fits_iff hfit h0]
  constructor
  case mp =>
    rintro ⟨h, _⟩
    exact ⟨fun s hlt => ((hrec s ((hslot s).mp hlt)).mp (h s ((hslot s).mp hlt))).left,
      fun s hlt => ((hrec s hlt).mp (h s hlt)).right⟩
  case mpr =>
    rintro ⟨hreq, hc⟩
    have h (s) (hlt : s * subBlockSize < e.length.toNat) : a.received s :=
      (hrec s hlt).mpr ⟨hreq s ((hslot s).mpr hlt), hc s hlt⟩
    exact ⟨h, ChunkEntry.bytes_eq_of_hasSubBlock fun s hlt => (hF'.slots (h s hlt)).right⟩

end Transfer

section ShortChunk

-- A seed for two bytes, each of which is a chunk. Chunks are their own digests.
def splitSeed : TSeedFile (List UInt8) where
  fileSize := 2
  config   := { minSize := 1, avgSize := 1, maxSize := 1 }
  chunks   := [⟨0, 1, [7]⟩, ⟨1, 1, [8]⟩]
  countLt  := by decide

def splitDownload : List Scheduler.Op := [
  .onPeerAdded 0 1000, .onBitfield 0 [true, true] 1, .onChokeChange 0 false, .tick 10
]

def splitSession : PeerSession :=
  { slotId := 0, chokingPeer := false }

-- The last chunk of the file arrives.
theorem last_chunk_arrives :
    ∃ a file' results,
      (ChunkAssembler.init (some 1) 1 (.ofNat subBlockSize)).deliver [0, 0] [(0, [8])] =
        some (a, file', results) ∧
      results.count true = 1 ∧ ChunkEntry.bytes ⟨1, 1, [8]⟩ file' = [8] := by
  have hs : splitSeed.SeedOf id [7, 8] := ⟨rfl, by decide +kernel⟩
  have hl : Scheduler.AllOps .stable Scheduler.Legal
    (.start splitSeed.chunkCount 1000 (Task.sizesOf splitSeed)) splitDownload := by decide +kernel
  have hr : requestsFor .stable splitSeed 1000 splitDownload 1 = [subBlockRequest 1 0] := by
    decide +kernel
  have hA : (subBlockRequest 1 0).Answered (splitSeed.chunks.map (·.offset)) [7, 8] (0, [8]) :=
    ⟨splitSession, 1, 0, 16384, rfl, by decide +kernel⟩
  have ⟨a, file', results, hd, hi⟩ := chunk_transfer_complete_iff (c := 1) (e := ⟨1, 1, [8]⟩) hs
    (by decide) rfl hl (List.forall_mem_singleton.mpr ⟨_, hr ▸ List.mem_singleton_self _, hA⟩)
    (hr ▸ List.forall_mem_singleton.mpr ⟨_, List.mem_singleton_self _, hA⟩)
    (show [0, 0].length = 2 from rfl)
  exact ⟨a, file', results, hd, hi.mpr ⟨by rw [hr]; decide, .inr rfl⟩⟩

-- The first chunk does not: the answer to its only request has two bytes and is rejected.
theorem piece_over_chunk_end_is_rejected :
    splitSeed.chunks = FastCDC.scanBuffer id splitSeed.config [7, 8] ∧
      requestsFor .stable splitSeed 1000 splitDownload 0 = [subBlockRequest 0 0] ∧
      splitSession.answer (splitSeed.chunks.map (·.offset)) [7, 8] 0 0 16384 =
        some (.piece 0 0 [7, 8]) ∧
      ((ChunkAssembler.init (some 0) 1 (.ofNat subBlockSize)).deliver [0, 0] [(0, [7, 8])]).map
        (·.2) = some ([0, 0], [false]) := by
  decide +kernel

end ShortChunk
end ThinBT
