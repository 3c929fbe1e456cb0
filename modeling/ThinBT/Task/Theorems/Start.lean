import ThinBT.Task.Theorems.Layout
import ThinBT.Task.Theorems.Reuse
import ThinBT.Scheduler.Theorems.Runs

namespace ThinBT

theorem Scheduler.totalChunks_start : (start total speed sizes).totalChunks = total.toNat :=
  List.length_replicate

theorem Scheduler.not_closed_start (h : c < total.toNat) : ¬(start total speed sizes).closed c := by
  simp [closed, start, setChunkSizes, init, h]

theorem Scheduler.peerSlots_run_eq_nil {σ : Scheduler} {ops : List Op} {std : StdSort}
    (h : σ.peerSlots = []) (ho : ∀ op ∈ ops, op.seats = false) : (run std σ ops).peerSlots = [] := by
  have hs : (run std σ ops).peerSlots.map (·.slotId) = σ.peerSlots.map (·.slotId) := slotIds_run ho
  rw [h] at hs
  exact List.map_eq_nil_iff.mp hs

theorem SegmentWriter.length_preallocate_lt {n : UInt64} :
    (preallocate existing n).length < 2 ^ 64 := by
  rw [length_preallocate]
  exact n.toNat_lt

namespace Task

variable {δ : Type}

theorem initAssemblers_spec {n : UInt64} {cs : List (ChunkEntry δ)}
    (hw : SegmentWriter.openWriter n SegmentWriter.defaultSegmentSize = some w)
    (h : initAssemblers w cs = some as) :
    as.length = cs.length ∧ ∀ (c : Nat) a e, as[c]? = some a → cs[c]? = some e →
      a = .init (some e.offset.toNat) e.length (.ofNat subBlockSize) ∧
      e.offset.toNat + e.length.toNat ≤ n.toNat ∧ e.length.toNat ≤ 1024 * 1024 := by
  induction cs generalizing as
  case nil =>
    cases h
    exact ⟨rfl, fun c a e ha => by cases ha⟩
  case cons e cs hi =>
    simp only [initAssemblers, Option.bind_eq_bind, Option.bind_eq_some_iff] at h
    obtain ⟨base, hb, as', has, h⟩ := h
    cases h
    have ⟨hl, hs⟩ := hi has
    have ⟨he, hf, hm⟩ := SegmentWriter.getChunkBase_spec hw hb
    refine ⟨by rw [List.length_cons, List.length_cons, hl], ?_⟩
    intro c a e' ha he'
    cases c
    case zero =>
      obtain rfl := Option.some.inj ha
      obtain rfl := Option.some.inj he'
      exact ⟨by rw [he], hf, hm⟩
    case succ c => exact hs c a e' ha he'

-- The operations on the scheduler with which a download starts, where `bf` has the chunks that were
-- found.
def resumeOps (found : Prop) [Decidable found] (bf : List Bool) : List Scheduler.Op :=
  (if found then [.markAllComplete bf] else []) ++ [.setCancelIssuer, .setNotInterestedIssuer]

def openingOps (found : Prop) [Decidable found] (bf : List Bool) (order : List Nat) :
    List Scheduler.Op :=
  .randomizePieceOrder order :: resumeOps found bf

section Opening

variable {found : Prop} [Decidable found] {bf : List Bool}

theorem mem_resumeOps (h : op ∈ resumeOps found bf) :
    op = .markAllComplete bf ∨ op = .setCancelIssuer ∨ op = .setNotInterestedIssuer := by
  simp only [resumeOps, List.mem_append, List.mem_cons, List.not_mem_nil, or_false] at h
  obtain h | h | h := h
  case inl =>
    split at h
    case isTrue  => exact .inl (List.mem_singleton.mp h)
    case isFalse => cases h
  all_goals simp [h]

theorem legal_openingOps {std : StdSort} {σ : Scheduler} (ho : order.Perm σ.activeChunks) :
    Scheduler.AllOps std Scheduler.Legal σ (openingOps found bf order) := by
  refine ⟨ho, Scheduler.allOps_of_forall fun op hm σ' _ => ?_⟩
  obtain rfl | rfl | rfl := mem_resumeOps hm
  all_goals trivial

theorem seats_openingOps (h : op ∈ openingOps found bf order) : op.seats = false := by
  obtain rfl | hm := List.mem_cons.mp h
  case inl => rfl
  case inr =>
    obtain rfl | rfl | rfl := mem_resumeOps hm
    all_goals rfl

theorem keepsDone_openingOps (h : op ∈ openingOps found bf order) : op.keepsDone c := by
  obtain rfl | hm := List.mem_cons.mp h
  case inl => rfl
  case inr =>
    obtain rfl | rfl | rfl := mem_resumeOps hm
    all_goals rfl

end Opening

-- A task to which nothing has been delivered yet.
structure Fresh (τ : Task δ) : Prop where
  workers     : ∀ k ∈ τ.workers, k = {}
  verifyTasks : τ.verifyTasks = []
  results     : τ.results = []
  assemblers  : ∀ {c : Nat} {a}, τ.assemblers[c]? = some a →
    ∃ base size, a = .init base size (.ofNat subBlockSize)

theorem Fresh.received_eq_false {τ : Task δ} (h : τ.Fresh) {c : Nat} (ha : τ.assemblers[c]? = some a) :
    a.received s = false := by
  obtain ⟨base, size, rfl⟩ := h.assemblers ha
  exact Bitset.bit_replicate_zero

-- A task whose output file has just been opened.
structure Opened (τ : Task δ) : Prop where
  fileLength  : τ.file.length = τ.seed.fileSize.toNat
  assemblers  : ∃ w, SegmentWriter.openWriter τ.seed.fileSize SegmentWriter.defaultSegmentSize =
    some w ∧ initAssemblers w τ.seed.chunks = some τ.assemblers
  workers     : ∀ k ∈ τ.workers, k = {}
  verifyTasks : τ.verifyTasks = []
  results     : τ.results = []
  totalChunks : τ.scheduler.totalChunks = τ.seed.chunks.length

namespace Opened

variable {τ : Task δ}

theorem layout (h : τ.Opened) : τ.Layout := by
  have ⟨w, hw, ha⟩ := h.assemblers
  have ⟨hl, hs⟩ := initAssemblers_spec hw ha
  refine ⟨h.fileLength, hl, ?_, ?_, ?_, h.totalChunks⟩
  · intro c a e ha he
    have ⟨hi, hf, hm⟩ := hs c a e ha he
    exact hi ▸ ChunkAssembler.assembles_init_some (h.fileLength ▸ hf) hm
  · rw [h.verifyTasks]
    exact List.forall_mem_nil _
  · rw [h.results]
    exact List.forall_mem_nil _

theorem inside (h : τ.Opened) (c : Nat) (e : ChunkEntry δ) (he : τ.seed.chunks[c]? = some e) :
    e.offset.toNat + e.length.toNat ≤ τ.seed.fileSize.toNat := by
  have ⟨w, hw, has⟩ := h.assemblers
  have ⟨hl, hs⟩ := initAssemblers_spec hw has
  have hc : c < τ.assemblers.length := hl ▸ (List.getElem?_eq_some_iff.mp he).choose
  exact (hs c _ e (List.getElem?_eq_getElem hc) he).right.left

theorem exists_base (h : τ.Opened) {c : Nat} (ha : τ.assemblers[c]? = some a) :
    ∃ base size, a = .init (some base) size (.ofNat subBlockSize) := by
  have ⟨w, hw, has⟩ := h.assemblers
  have ⟨e, he, _⟩ := h.layout.exists_entry ha
  exact ⟨_, _, ((initAssemblers_spec hw has).right c a e ha he).left⟩

theorem fresh (h : τ.Opened) : τ.Fresh := by
  refine ⟨h.workers, h.verifyTasks, h.results, fun {c a} ha => ?_⟩
  obtain ⟨base, size, ha⟩ := h.exists_base ha
  exact ⟨some base, size, ha⟩

end Opened

-- A download that starts with its pieces in this order.
structure Begins (std : StdSort) (order : List Nat) (τ : Task δ) : Prop extends Opened τ where
  threads   : 0 < τ.workers.length
  bitfield  : τ.initialBitfield.length = τ.seed.chunks.length
  scheduler : ∃ speed found, ∃ (_ : Decidable found), ∃ bf, τ.scheduler = Scheduler.run std
    (Scheduler.start τ.seed.chunkCount speed (sizesOf τ.seed)) (openingOps found bf order)

namespace Begins

variable {std : StdSort} {τ : Task δ}

theorem shape (h : τ.Begins std order) (ho : order.Perm (.range τ.seed.chunks.length)) :
    τ.scheduler.Shape := by
  obtain ⟨speed, found, _, bf, hs⟩ := h.scheduler
  rw [hs]
  refine Scheduler.shape_start.run (legal_openingOps ?_)
  rw [← TSeedFile.toNat_chunkCount] at ho
  exact ho

theorem subTotal (h : τ.Begins std order) (he : τ.seed.chunks[c]? = some e) :
    τ.scheduler.subTotal c = Scheduler.subBlockCount e.length := by
  obtain ⟨speed, found, _, bf, hs⟩ := h.scheduler
  rw [hs, Scheduler.subTotal_run, Scheduler.subTotal_start (sizesOf_eq_some he)]

theorem subDone_eq_false (h : τ.Begins std order) : τ.scheduler.subDone c s = false := by
  obtain ⟨speed, found, _, bf, hs⟩ := h.scheduler
  rw [hs, Scheduler.subDone_run fun op => keepsDone_openingOps, Scheduler.subDone_start]

theorem rows (h : τ.Begins std order) (hc : c < τ.scheduler.totalChunks) :
    τ.scheduler.chunkSubDone.rowLength c = τ.scheduler.subTotal c := by
  obtain ⟨speed, found, _, bf, hs⟩ := h.scheduler
  rw [hs, Scheduler.totalChunks_run] at hc
  rw [hs, Scheduler.rowLength_subDone_run, Scheduler.subTotal_run, Scheduler.shape_start.doneRow hc]

theorem peerSlots (h : τ.Begins std order) : τ.scheduler.peerSlots = [] := by
  obtain ⟨speed, found, _, bf, hs⟩ := h.scheduler
  rw [hs]
  exact Scheduler.peerSlots_run_eq_nil rfl fun op => seats_openingOps

end Begins

-- The scan of the file has the digests of the file's bytes.
theorem hash_of_mem_scanBuffer {sha256 : List UInt8 → δ} {c e : ChunkEntry δ} {n : UInt64}
    (hc : c ∈ FastCDC.scanBuffer sha256 cfg (SegmentWriter.preallocate existing n))
    (ho : c.offset = e.offset) (hl : c.length = e.length) :
    c.sha256 = sha256 (e.bytes (SegmentWriter.preallocate existing n)) := by
  rw [((FastCDC.tiles_scanBuffer SegmentWriter.length_preallocate_lt).describes hc).hash,
    ChunkEntry.bytes, ChunkEntry.bytes, ho, hl]

variable [DecidableEq δ] {sha256 : List UInt8 → δ} {std : StdSort} {τ : Task δ}
variable {seed : TSeedFile δ}

-- What `cmd_add` returns when it succeeds.
structure Added (sha256 : List UInt8 → δ) (std : StdSort) (existing : Option (List UInt8))
    (speed : Nat) (order : List Nat) (τ : Task δ) : Prop where
  file        : τ.file = SegmentWriter.preallocate existing τ.seed.fileSize
  assemblers  : ∃ w, SegmentWriter.openWriter τ.seed.fileSize SegmentWriter.defaultSegmentSize =
    some w ∧ initAssemblers w τ.seed.chunks = some τ.assemblers
  threads     : 0 < τ.workers.length
  workers     : ∀ k ∈ τ.workers, k = {}
  verifyTasks : τ.verifyTasks = []
  results     : τ.results = []
  bitfield    : τ.initialBitfield = initBf sha256 τ.seed existing
  scheduler   : τ.scheduler = Scheduler.run std
    (Scheduler.start τ.seed.chunkCount speed (sizesOf τ.seed))
    (openingOps (0 < bytesOf τ.seed (initBf sha256 τ.seed existing)) (initBf sha256 τ.seed existing)
      order)

theorem cmdAdd_spec (h : cmdAdd sha256 std seed existing hw speed order = some τ) :
    τ.seed = seed ∧ Added sha256 std existing speed order τ := by
  simp only [cmdAdd, Option.bind_eq_bind, Option.bind_eq_some_iff] at h
  obtain ⟨w, hw, as, ha, h⟩ := h
  cases h
  refine ⟨rfl, rfl, ⟨w, hw, ha⟩, ?_, fun _ => List.eq_of_mem_replicate, rfl, rfl, rfl, rfl⟩
  rw [List.length_replicate, ioThreads]
  omega

theorem Added.begins (h : Added sha256 std existing speed order τ) : τ.Begins std order where
  fileLength  := by rw [h.file, SegmentWriter.length_preallocate]
  assemblers  := h.assemblers
  workers     := h.workers
  verifyTasks := h.verifyTasks
  results     := h.results
  totalChunks := by
    rw [h.scheduler, Scheduler.totalChunks_run, Scheduler.totalChunks_start,
      TSeedFile.toNat_chunkCount]
  threads     := h.threads
  bitfield    := by rw [h.bitfield, initBf, List.length_map]
  scheduler   := ⟨_, _, _, _, h.scheduler⟩

theorem Added.layout (h : Added sha256 std existing speed order τ) : τ.Layout :=
  h.begins.layout

theorem Added.shape (h : Added sha256 std existing speed order τ)
    (ho : order.Perm (.range τ.seed.chunks.length)) : τ.scheduler.Shape :=
  h.begins.shape ho

theorem Added.fresh (h : Added sha256 std existing speed order τ) : τ.Fresh :=
  h.begins.fresh

theorem begins_cmdUpdate {oldSeed : Option (TSeedFile δ)} {files : Files}
    (h : cmdUpdate sha256 std seed newPath oldSeed oldPath files clones hw speed order = some τ) :
    τ.seed = seed ∧ τ.Begins std order := by
  obtain ⟨rfl, hu⟩ := cmdUpdate_spec h
  refine ⟨rfl, ⟨?_, hu.assemblers, hu.workers, hu.verifyTasks, hu.results, ?_⟩, hu.threads, ?_,
    _, _, _, _, hu.scheduler⟩
  · rw [hu.file, reuse, length_content_exec, content_reuseStart, SegmentWriter.length_preallocate]
  · rw [hu.scheduler, Scheduler.totalChunks_run, Scheduler.totalChunks_start,
      TSeedFile.toNat_chunkCount]
  · rw [hu.bitfield, length_initBf_reuse]

-- The chunks that `cmd_add` finds in the file are there.
theorem hash_of_initBf (he : seed.chunks[c]? = some e)
    (h : (initBf sha256 seed existing).getD c false) :
    sha256 (e.bytes (SegmentWriter.preallocate existing seed.fileSize)) = e.sha256 := by
  simp only [initBf, List.getD_eq_getElem?_getD, List.getElem?_map, he, Option.map_some,
    Option.getD_some, Bool.and_eq_true, List.any_eq_true, decide_eq_true_eq] at h
  obtain ⟨_, e', hm, ⟨hh, ho⟩, hl⟩ := h
  rw [← hash_of_mem_scanBuffer hm ho hl, hh]

theorem Added.bit_of_closed (h : Added sha256 std existing speed order τ)
    (hc : c < τ.seed.chunks.length) (hd : τ.scheduler.closed c) :
    (initBf sha256 τ.seed existing).getD c false := by
  have hl : c < τ.seed.chunkCount.toNat := TSeedFile.toNat_chunkCount ▸ hc
  rw [h.scheduler] at hd
  obtain hs | ⟨op, ho, hb⟩ := Scheduler.of_closed_run (Scheduler.totalChunks_start ▸ hl) hd
  case inl => exact absurd hs.left (Scheduler.not_closed_start hl)
  case inr =>
    cases List.mem_cons.mp ho
    case inl ho => rw [ho] at hb; cases hb
    case inr ho =>
      obtain rfl | rfl | rfl := mem_resumeOps ho
      case inl => exact hb
      all_goals cases hb

-- The tasks with which a download starts.
inductive Downloads (sha256 : List UInt8 → δ) (std : StdSort) : Task δ → Prop
  | cmdAdd {seed : TSeedFile δ} {τ : Task δ} :
    Task.cmdAdd sha256 std seed existing hw speed order = some τ → Downloads sha256 std τ
  | cmdUpdate {seed : TSeedFile δ} {oldSeed : Option (TSeedFile δ)} {files : Files} {τ : Task δ} :
    Task.cmdUpdate sha256 std seed newPath oldSeed oldPath files clones hw speed order = some τ →
    Downloads sha256 std τ

theorem Downloads.begins (h : Downloads sha256 std τ) : ∃ order, τ.Begins std order := by
  cases h
  case cmdAdd h    => exact ⟨_, (cmdAdd_spec h).right.begins⟩
  case cmdUpdate h => exact ⟨_, (begins_cmdUpdate h).right⟩

theorem Downloads.opened (h : Downloads sha256 std τ) : τ.Opened :=
  h.begins.choose_spec.toOpened

-- The tasks with which a node starts.
inductive Started (sha256 : List UInt8 → δ) (std : StdSort) : Task δ → Prop
  | cmdAdd {seed : TSeedFile δ} {τ : Task δ} : order.Perm (.range seed.chunks.length) →
    Task.cmdAdd sha256 std seed existing hw speed order = some τ → Started sha256 std τ
  | cmdUpdate {seed : TSeedFile δ} {oldSeed : Option (TSeedFile δ)} {files : Files} {τ : Task δ} :
    order.Perm (.range seed.chunks.length) →
    Task.cmdUpdate sha256 std seed newPath oldSeed oldPath files clones hw speed order = some τ →
    Started sha256 std τ
  | cmdSeed {seed : TSeedFile δ} {bytes : List UInt8} :
    Started sha256 std (Task.cmdSeed std seed bytes hw speed)

namespace Started

-- A task that is not started by `cmd_seed` is a download.
theorem begins (h : Started sha256 std τ) :
    (∃ order, order.Perm (.range τ.seed.chunks.length) ∧ τ.Begins std order) ∨
      ∃ seed bytes hw speed, τ = Task.cmdSeed std seed bytes hw speed := by
  cases h
  case cmdAdd ho h =>
    obtain ⟨rfl, ha⟩ := cmdAdd_spec h
    exact .inl ⟨_, ho, ha.begins⟩
  case cmdUpdate ho h =>
    obtain ⟨rfl, hb⟩ := begins_cmdUpdate h
    exact .inl ⟨_, ho, hb⟩
  case cmdSeed => exact .inr ⟨_, _, _, _, rfl⟩

theorem indexed (h : Started sha256 std τ) : τ.Indexed := by
  obtain ⟨_, _, hb⟩ | ⟨_, _, _, _, rfl⟩ := h.begins
  case inl => exact hb.layout.indexed
  case inr =>
    refine ⟨List.forall_mem_nil _, List.forall_mem_nil _, ?_⟩
    exact Scheduler.totalChunks_run.trans
      (Scheduler.totalChunks_start.trans TSeedFile.toNat_chunkCount)

theorem initialBitfield (h : Started sha256 std τ) :
    τ.initialBitfield.length = τ.seed.chunks.length := by
  obtain ⟨_, _, hb⟩ | ⟨_, _, _, _, rfl⟩ := h.begins
  case inl => exact hb.bitfield
  case inr => exact List.length_map ..

theorem subTotal (h : Started sha256 std τ) (he : τ.seed.chunks[c]? = some e) :
    τ.scheduler.subTotal c = Scheduler.subBlockCount e.length := by
  obtain ⟨_, _, hb⟩ | ⟨_, _, _, _, rfl⟩ := h.begins
  case inl => exact hb.subTotal he
  case inr =>
    exact (congrFun Scheduler.subTotal_run c).trans (Scheduler.subTotal_start (sizesOf_eq_some he))

theorem shape (h : Started sha256 std τ) : τ.scheduler.Shape := by
  obtain ⟨_, ho, hb⟩ | ⟨_, _, _, _, rfl⟩ := h.begins
  case inl => exact hb.shape ho
  case inr => exact Scheduler.shape_start.run ⟨trivial, trivial, trivial, trivial⟩

theorem peerSlots (h : Started sha256 std τ) : τ.scheduler.peerSlots = [] := by
  obtain ⟨_, _, hb⟩ | ⟨_, _, _, _, rfl⟩ := h.begins
  case inl => exact hb.peerSlots
  case inr => exact Scheduler.peerSlots_run_eq_nil rfl (by simp [Scheduler.Op.seats])

end Started
end Task
end ThinBT
