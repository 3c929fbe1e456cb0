import ThinBT.Task.Theorems.Measured

namespace ThinBT

-- The piece is what a peer that has the chunk sends for one of its sub-blocks.
def PieceTask.IsHonest {δ : Type} (source : List UInt8) (seed : TSeedFile δ) (t : PieceTask) : Prop :=
  ∃ s e, seed.chunks[t.chunkIdx.toNat]? = some e ∧ Honest source e s t.begin t.data

theorem PieceTask.IsHonest.isMeasured {δ : Type} {seed : TSeedFile δ} {t : PieceTask}
    (h : t.IsHonest source seed) : t.IsMeasured source seed := by
  obtain ⟨s, e, he, hh⟩ := h
  exact ⟨s, e, he, hh.toMeasured⟩

namespace Task

variable {δ : Type} {τ τ' : Task δ} {source : List UInt8}

-- The file has the bytes of the source in the chunk.
def Holds (source : List UInt8) (τ : Task δ) (c : Nat) : Prop :=
  ∀ e, τ.seed.chunks[c]? = some e → e.bytes τ.file = e.bytes source

-- A task that has only received honest pieces.
structure Sound (source : List UInt8) (τ : Task δ) : Prop extends τ.WellMeasured source where
  shape     : τ.scheduler.Shape
  closed    : ∀ c < τ.seed.chunks.length, τ.scheduler.closed c → τ.Holds source c
  initial   : ∀ c, τ.initialBitfield.getD c false → τ.Holds source c
  results   : ∀ r ∈ τ.results, r.passed ∧ τ.Holds source r.chunkIdx
  verifying : ∀ v ∈ τ.verifyTasks, τ.Holds source v.chunkIdx
  bits      : ∀ {c : Nat} {a e s}, τ.assemblers[c]? = some a → τ.seed.chunks[c]? = some e →
    a.received s → e.HasSubBlock source τ.file s
  honest    : ∀ k ∈ τ.workers, ∀ t ∈ k.queue, t.IsHonest source τ.seed
  stored    : ∀ k ∈ τ.workers, ∀ t e s, k.stage = .written t →
    τ.seed.chunks[t.chunkIdx.toNat]? = some e → t.begin.toNat = s * subBlockSize →
    e.HasSubBlock source τ.file s

-- Wherever the first file has the bytes of the source, the second one has them, too.
def Improves (source file file' : List UInt8) : Prop :=
  ∀ p n, file.slice p n = source.slice p n → file'.slice p n = source.slice p n

theorem Holds.improve (h : τ.Holds source c) (hs : τ'.seed = τ.seed)
    (hf : Improves source τ.file τ'.file) : τ'.Holds source c := by
  intro e he
  rw [hs] at he
  exact hf _ _ (h e he)

namespace Sound

-- All slots of an assembler whose mask is full are received.
theorem holds_of_size (h : τ.Sound source) {c : Nat} (ha : τ.assemblers[c]? = some a)
    (hb : a.base.isSome) (hsz : a.totalSlots.toNat ≤ Bitset.size a.completedMask) :
    τ.Holds source c := by
  intro e he
  have hA := h.layout.assembles ha he
  obtain ⟨base, hb⟩ := Option.isSome_iff_exists.mp hb
  have hm := (hA.base_eq hb).right.right
  have hbit (s) (hs : Bitset.bit a.completedMask s) : s < a.totalSlots.toNat := h.slots ha hs
  have hle := Bitset.size_le_of_bit hbit hA.totalSlots_le_mask
  have hall := (Bitset.size_eq_iff hbit hA.totalSlots_le_mask).mp (Nat.le_antisymm hle hsz)
  refine ChunkEntry.bytes_eq_of_hasSubBlock fun s hs => ?_
  exact h.bits ha he (hall s ((hA.lt_totalSlots_iff hm).mpr hs))

section Workers

variable {w : Nat} {a : ChunkAssembler}

theorem improves (h : τ.Sound source) (hs : IoStep τ w τ') : Improves source τ.file τ'.file := by
  cases hs
  case write t _ _ _ hk ha hc hb _ =>
    have ⟨s, e, he, hh⟩ := h.honest _ (List.mem_of_getElem? hk) t List.mem_cons_self
    have ⟨ho, hf, hfit⟩ := h.copy ha hc hb he hh.toMeasured
    intro p n hp
    change (τ.file.overwrite _ _).slice p n = _
    rw [ho]
    exact hh.slice_overwrite h.length hf hfit hp
  all_goals exact fun _ _ he => he

-- The bits of the masks stand for sub-blocks of the source.
theorem bits_ioStep (h : τ.Sound source) (hs : IoStep τ w τ') {c : Nat}
    (ha : τ'.assemblers[c]? = some a) (he : τ.seed.chunks[c]? = some e) (hr : a.received s) :
    e.HasSubBlock source τ'.file s := by
  refine h.improves hs _ _ ?_
  obtain ⟨b, hb, _, hr | ⟨k, hk, t, hst, rfl, rfl⟩⟩ := hs.received ha hr
  case inl => exact h.bits hb he hr
  case inr =>
    have hS := h.stages k hk
    rw [hst] at hS
    obtain ⟨_, s, e', he', hh⟩ := hS
    obtain rfl := Option.some.inj (he'.symm.trans he)
    rw [(h.layout.assembles hb he).slot_eq, hh.begins, Nat.mul_div_cancel _ (by decide)]
    exact h.stored k hk t e' s hst he hh.begins

theorem stored_ioStep (h : τ.Sound source) (hs : IoStep τ w τ') (hk : k ∈ τ'.workers)
    (hst : k.stage = .written t) (he : τ.seed.chunks[t.chunkIdx.toNat]? = some e)
    (hb : t.begin.toNat = s * subBlockSize) : e.HasSubBlock source τ'.file s := by
  have himp := h.improves hs
  have old (hk : k ∈ τ.workers) : e.HasSubBlock source τ'.file s :=
    himp _ _ (h.stored k hk t e s hst he hb)
  cases hs
  case skip => exact old hk
  case write hk₀ ha hc hbase _ =>
    obtain hk | rfl := mem_setWorker hk
    case inl => exact old hk
    case inr =>
      cases hst
      have ⟨s', e', he', hh⟩ := h.honest _ (List.mem_of_getElem? hk₀) t List.mem_cons_self
      obtain rfl := Option.some.inj (he'.symm.trans he)
      obtain rfl : s' = s := Nat.eq_of_mul_eq_mul_right (by decide) (hh.begins.symm.trans hb)
      have ⟨ho, hf, hfit⟩ := h.copy ha hc hbase he hh.toMeasured
      change e'.HasSubBlock source (τ.file.overwrite _ _) s'
      rw [ho]
      exact hh.hasSubBlock_overwrite h.length hf hfit
  case mark first _ _ _ =>
    obtain hk | rfl := mem_setWorker hk
    case inl => exact old hk
    case inr => cases first <;> cases hst
  case reject | count | complete =>
    obtain hk | rfl := mem_setWorker hk
    case inl => exact old hk
    case inr => cases hst

theorem verifying_ioStep (h : τ.Sound source) (hs : IoStep τ w τ') (hv : v ∈ τ'.verifyTasks) :
    τ'.Holds source v.chunkIdx := by
  have himp := h.improves hs
  have hseed := hs.seed
  have old (hv : v ∈ τ.verifyTasks) : τ'.Holds source v.chunkIdx :=
    (h.verifying v hv).improve hseed himp
  cases hs
  case complete t b _ hk hb hp _ =>
    obtain hv | hv := List.mem_append.mp hv
    case inl => exact old hv
    case inr =>
      rw [List.mem_singleton.mp hv]
      have ⟨b', hb', hbase⟩ : τ.Writable t.chunkIdx.toNat := h.stages _ (List.mem_of_getElem? hk)
      obtain rfl : b' = b := Option.some.inj (hb'.symm.trans hb)
      -- The worker that completes the chunk is one of those that count.
      have hn := countingOn_countDown hk b'.countDown.1
      have hlast := (h.ledger t.chunkIdx.toNat).last_count h.layout hb hp
      exact (h.holds_of_size hb hbase (by omega)).improve hseed himp
  all_goals exact old hv

theorem ioStep (h : τ.Sound source) (hs : IoStep τ w τ') : τ'.Sound source where
  toWellMeasured := h.toWellMeasured.ioStep hs
  shape          := hs.scheduler ▸ h.shape
  closed         := by
    rw [hs.seed, hs.scheduler]
    exact fun c hc hd => (h.closed c hc hd).improve hs.seed (h.improves hs)
  initial        := by
    rw [hs.initialBitfield]
    exact fun c hc => (h.initial c hc).improve hs.seed (h.improves hs)
  results        := by
    rw [hs.results]
    exact fun r hr => (h.results r hr).imp id fun hh => hh.improve hs.seed (h.improves hs)
  verifying _    := h.verifying_ioStep hs
  bits           := by
    rw [hs.seed]
    exact h.bits_ioStep hs
  honest k hk t ht := by
    have ⟨k₀, hk₀, hq⟩ := hs.queue hk
    rw [hs.seed]
    exact h.honest k₀ hk₀ t (hq t ht)
  stored         := by
    rw [hs.seed]
    exact fun k hk t e s => h.stored_ioStep hs hk

end Workers

-- The verification of a chunk that the task holds passes.
theorem results_verify {sha256 : List UInt8 → δ} (h : τ.Sound source)
    (hs : τ.seed.SeedOf sha256 source) {k : Nat} {v : VerifyTask δ}
    (hv : τ.verifyTasks[k]? = some v) (hb : v.data = some base) :
    sha256 (τ.file.slice base v.length.toNat) = v.expectedHash := by
  have hm := List.mem_of_getElem? hv
  have ⟨e, hV⟩ := h.layout.verifies v hm
  have hbytes : e.bytes τ.file = e.bytes source := h.verifying v hm e hV.chunk
  have hoff : base = e.offset.toNat := by
    cases hV.data
    case inl hn => rw [hn] at hb; cases hb
    case inr hd => exact Option.some.inj (hb.symm.trans hd)
  rw [hoff, hV.length, hV.hash, (hs.tiles.describes (List.mem_of_getElem? hV.chunk)).hash, ← hbytes]
  rfl

section Steps

variable [DecidableEq δ] {sha256 : List UInt8 → δ} {std : StdSort}

-- Chunks of the source stay what they are.
theorem holds_step (h : τ.Sound source) (hst : τ.step sha256 std op = some τ')
    (hh : τ.Holds source c) : τ'.Holds source c := by
  refine hh.improve (seed_step hst) ?_
  by_cases hio : ∃ w, op = .io w
  case pos =>
    obtain ⟨w, rfl⟩ := hio
    exact h.improves (ioStep_cases hst)
  case neg =>
    rw [file_step hst hio]
    exact fun _ _ he => he

theorem step (h : τ.Sound source) (hs : τ.seed.SeedOf sha256 source) (hl : τ.Legal op)
    (hp : ∀ t now, op = .piece t now → t.IsHonest source τ.seed)
    (hst : τ.step sha256 std op = some τ') : τ'.Sound source := by
  by_cases hio : ∃ w, op = .io w
  case pos =>
    obtain ⟨w, rfl⟩ := hio
    exact h.ioStep (ioStep_cases hst)
  case neg =>
    have hsz := h.toWellMeasured.step (fun t now he => (hp t now he).isMeasured) hst
    have hold {c} : τ.Holds source c → τ'.Holds source c := h.holds_step hst
    have hshape : τ'.scheduler.Shape :=
      scheduler_step hst ▸ h.shape.run (h.layout.indexed.legal_schedulerOps hl)
    have hclosed (c) (hc : c < τ'.seed.chunks.length) (hd : τ'.scheduler.closed c) :
        τ'.Holds source c := by
      rw [seed_step hst] at hc
      obtain hd | ⟨r, hr, rfl, _⟩ := h.layout.of_closed_step hl.calls hst hc hd
      case inl => exact hold (h.closed c hc hd)
      case inr => exact hold (h.results r hr).right
    cases op
    case io w => exact absurd ⟨w, rfl⟩ hio
    case session =>
      cases hst
      exact ⟨hsz, hshape, hclosed, h.initial, h.results, h.verifying, h.bits, h.honest, h.stored⟩
    case tick =>
      cases hst
      exact ⟨hsz, hshape, hclosed, h.initial, List.forall_mem_nil _, h.verifying, h.bits, h.honest,
        h.stored⟩
    case verify k =>
      obtain rfl | ⟨v, base, hv, hb, rfl⟩ := verifyStep_cases hst
      case inl => exact h
      case inr =>
        refine ⟨hsz, hshape, hclosed, h.initial, fun r hr => ?_,
          fun v hv => h.verifying v (List.mem_of_mem_eraseIdx hv), h.bits, h.honest, h.stored⟩
        obtain hr | hr := List.mem_append.mp hr
        case inl => exact h.results r hr
        case inr =>
          rw [List.mem_singleton.mp hr]
          exact ⟨decide_eq_true (h.results_verify hs hv hb), h.verifying v (List.mem_of_getElem? hv)⟩
    case piece t now =>
      cases hst
      refine ⟨hsz, hshape, hclosed, h.initial, h.results, h.verifying, h.bits, fun k hk u hu => ?_,
        fun k hk => ?_⟩
      · obtain ⟨k₀, hk₀, hq, _⟩ := mem_dispatch hk
        obtain hu | rfl := hq u hu
        case inl => exact h.honest k₀ hk₀ u hu
        case inr => exact hp u now rfl
      · obtain ⟨k₀, hk₀, _, hstage⟩ := mem_dispatch hk
        rw [hstage]
        exact h.stored k₀ hk₀

end Steps
end Sound

section Start

theorem Fresh.sound (h : τ.Fresh) (hl : τ.Layout) (hσ : τ.scheduler.Shape)
    (hf : τ.file.length = source.length)
    (hc : ∀ c < τ.seed.chunks.length, τ.scheduler.closed c → τ.Holds source c)
    (hb : ∀ c, τ.initialBitfield.getD c false → τ.Holds source c) : τ.Sound source := by
  refine ⟨h.wellMeasured hl hf, hσ, hc, hb, ?_, ?_, fun {c a e s} ha _ hr => ?_, fun k hk => ?_,
    fun k hk t e s hst => ?_⟩
  · rw [h.results]
    exact List.forall_mem_nil _
  · rw [h.verifyTasks]
    exact List.forall_mem_nil _
  · rw [h.received_eq_false ha] at hr
    cases hr
  · rw [h.workers k hk]
    exact List.forall_mem_nil _
  · rw [h.workers k hk] at hst
    cases hst

variable {seed : TSeedFile δ} {sha256 : List UInt8 → δ} {std : StdSort}

-- A task that seeds the source.
theorem sound_cmdSeed (hs : seed.SeedOf sha256 source) :
    (cmdSeed std seed source hw speed).Sound source := by
  have ha {c : Nat} {a} (h : (cmdSeed std seed source hw speed).assemblers[c]? = some a) :
      ∃ e, seed.chunks[c]? = some e ∧ a = .init none e.length (.ofNat subBlockSize) := by
    simp only [cmdSeed, List.getElem?_map] at h
    obtain ⟨e, he, rfl⟩ := Option.map_eq_some_iff.mp h
    exact ⟨e, he, rfl⟩
  have hfresh : (cmdSeed std seed source hw speed).Fresh := by
    refine ⟨fun _ => List.eq_of_mem_replicate, rfl, rfl, fun h => ?_⟩
    have ⟨e, _, he⟩ := ha h
    exact ⟨_, _, he⟩
  refine hfresh.sound ⟨hs.fileSize.symm, List.length_map _, fun {c a e} h he => ?_,
    List.forall_mem_nil _, List.forall_mem_nil _, ?_⟩ ?_ rfl (fun _ _ _ _ _ => rfl)
    fun _ _ _ _ => rfl
  · obtain ⟨e', he', rfl⟩ := ha h
    obtain rfl : e = e' := Option.some.inj (he.symm.trans he')
    exact ChunkAssembler.assembles_init_none
  · exact Scheduler.totalChunks_run.trans
      (Scheduler.totalChunks_start.trans TSeedFile.toNat_chunkCount)
  · exact Scheduler.shape_start.run ⟨trivial, trivial, trivial, trivial⟩

-- The chunks that are found when a download is resumed are those of the source.
theorem Added.sound [DecidableEq δ] (h : Added sha256 std existing speed order τ)
    (ho : order.Perm (.range τ.seed.chunks.length)) (hs : τ.seed.SeedOf sha256 source)
    (hcf : τ.seed.CollisionFree sha256 source) : τ.Sound source := by
  have hf : τ.file.length = source.length := h.layout.fileLength.trans hs.fileSize
  have hb (c) (hb : (initBf sha256 τ.seed existing).getD c false) : τ.Holds source c := by
    intro e he
    have hm := List.mem_of_getElem? he
    have hd := hs.tiles.describes hm
    refine hcf e hm _ (List.length_slice (hf ▸ hd.fits)) ?_
    rw [h.file, hash_of_initBf he hb, hd.hash]
  exact h.fresh.sound h.layout (h.shape ho) hf (fun c hc hd => hb c (h.bit_of_closed hc hd))
    (h.bitfield ▸ hb)

end Start

end Task
end ThinBT
