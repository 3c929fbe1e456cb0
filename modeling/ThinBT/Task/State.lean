import ThinBT.Util.Machine
import ThinBT.Cdc.FastCDC
import ThinBT.Storage.SegmentWriter
import ThinBT.Assembler.ChunkAssembler
import ThinBT.Scheduler.Operations
import ThinBT.Session.Protocol

namespace ThinBT

-- A piece on its way from `handle_piece_msg` to `on_piece`. Its data is the rest of a message body.
structure PieceTask where
  chunkIdx : UInt32
  begin    : UInt32
  peerSlot : Nat
  data     : List UInt8
  short    : data.length ≤ maxMsgSize - 8
  deriving DecidableEq

def PieceTask.length (t : PieceTask) : UInt32 :=
  .ofNat t.data.length

-- How far an I/O worker is in `on_piece`. Other workers may run between any two stages.
inductive Stage
  | idle
  -- The data has been copied, `fetch_or` comes next.
  | written (t : PieceTask)
  -- The bit was clear, `fetch_sub` comes next.
  | marked (t : PieceTask)
  deriving DecidableEq

structure Worker where
  queue : List PieceTask := []
  stage : Stage := .idle
  deriving DecidableEq

structure VerifyTask (δ : Type) where
  chunkIdx        : Nat
  winningPeerSlot : Nat
  data            : Option Nat
  length          : UInt32
  expectedHash    : δ
  deriving DecidableEq

structure VerifyResult where
  chunkIdx        : Nat
  winningPeerSlot : Nat
  passed          : Bool
  deriving DecidableEq, Repr

inductive TaskState
  | downloading
  | complete
  | waiting
  | seeding
  deriving DecidableEq, Repr

-- A task with its I/O pool, its verify pool and its output file.
structure Task (δ : Type) where
  seed            : TSeedFile δ
  file            : List UInt8
  assemblers      : List ChunkAssembler
  workers         : List Worker
  verifyTasks     : List (VerifyTask δ) := []
  results         : List VerifyResult := []
  scheduler       : Scheduler
  initialBitfield : List Bool
  bytesDone       : UInt64
  state           : TaskState
  deriving DecidableEq

namespace Task

variable {δ : Type}

def ioThreads (hardwareConcurrency : Nat) : Nat :=
  min (max 2 (hardwareConcurrency / 2)) 8

section Start

variable [DecidableEq δ] (sha256 : List UInt8 → δ) (std : StdSort)

-- The assemblers that `cmd_add` creates, unless a chunk has no base address.
def initAssemblers (w : SegmentWriter) : List (ChunkEntry δ) → Option (List ChunkAssembler)
  | []      => some []
  | c :: cs => do
    let base ← w.getChunkBase c.offset c.length
    let as ← initAssemblers w cs
    return .init (some base) c.length (.ofNat subBlockSize) :: as

-- `file_exists` of `cmd_add`.
def fileExists : Option (List UInt8) → Bool
  | none      => false
  | some file => 0 < file.length

-- `init_bf` of `cmd_add`: a chunk is there if the scan of the file yields the same entry.
def initBf (seed : TSeedFile δ) (existing : Option (List UInt8)) : List Bool :=
  let file := SegmentWriter.preallocate existing seed.fileSize
  let localChunks := FastCDC.scanBuffer sha256 seed.config file
  seed.chunks.map fun want => fileExists existing && localChunks.any fun c =>
    c.sha256 = want.sha256 && c.offset = want.offset && c.length = want.length

def bytesOf (seed : TSeedFile δ) (bf : List Bool) : UInt64 :=
  ((seed.chunks.zip bf).filter (·.2)).foldl (fun n x => n + x.1.length.toUInt64) 0

def sizesOf (seed : TSeedFile δ) : List UInt32 :=
  seed.chunks.map (·.length)

-- `cmd_add`, where `existing` is the file at the save path and `order` the shuffled piece order.
def cmdAdd (seed : TSeedFile δ) (existing : Option (List UInt8)) (hardwareConcurrency speed : Nat)
    (order : List Nat) : Option (Task δ) := do
  let w ← SegmentWriter.openWriter seed.fileSize SegmentWriter.defaultSegmentSize
  let assemblers ← initAssemblers w seed.chunks
  let bf := initBf sha256 seed existing
  let bytesDone := bytesOf seed bf
  let σ := Scheduler.start seed.chunkCount speed (sizesOf seed)
  return {
    seed            := seed
    file            := SegmentWriter.preallocate existing seed.fileSize
    assemblers      := assemblers
    workers         := .replicate (ioThreads hardwareConcurrency) {}
    scheduler       := Scheduler.run std σ ([.randomizePieceOrder order] ++
      (if 0 < bytesDone then [.markAllComplete bf] else []) ++
      [.setCancelIssuer, .setNotInterestedIssuer])
    initialBitfield := bf
    bytesDone       := bytesDone
    state           := .downloading }

-- `cmd_seed` on a file that can be opened.
def cmdSeed (seed : TSeedFile δ) (file : List UInt8) (hardwareConcurrency speed : Nat) : Task δ :=
  let bf := seed.chunks.map fun _ => true
  let σ := Scheduler.start seed.chunkCount speed (sizesOf seed)
  { seed            := seed
    file            := file
    assemblers      := seed.chunks.map fun c => .init none c.length (.ofNat subBlockSize)
    workers         := .replicate (ioThreads hardwareConcurrency) {}
    scheduler       := Scheduler.run std σ
      [.markAllComplete bf, .setCancelIssuer, .setNotInterestedIssuer]
    initialBitfield := bf
    bytesDone       := 0
    state           := .seeding }

end Start

-- `IOWorkerPool::dispatch`
def dispatch (τ : Task δ) (t : PieceTask) : Task δ :=
  let slotIdx := t.begin / .ofNat subBlockSize
  let worker := (t.chunkIdx ^^^ slotIdx).toNat % τ.workers.length
  { τ with workers := τ.workers.modify worker fun k => { k with queue := k.queue ++ [t] } }

-- `PeerSession::handle_piece_msg` on a body of at least eight bytes.
def handlePieceMsg (std : StdSort) (τ : Task δ) (t : PieceTask) (now : UInt64) : Task δ :=
  { τ.dispatch t with
    scheduler := Scheduler.next std τ.scheduler
      (.decPeerPending t.peerSlot t.chunkIdx.toNat t.begin.toNat now) }

def setWorker (τ : Task δ) (w : Nat) (k : Worker) : Task δ :=
  { τ with workers := τ.workers.set w k }

def setAssembler (τ : Task δ) (c : Nat) (a : ChunkAssembler) : Task δ :=
  { τ with assemblers := τ.assemblers.set c a }

-- `VerifyWorkerPool::enqueue`
def enqueueVerify (τ : Task δ) (a : ChunkAssembler) (e : ChunkEntry δ) (t : PieceTask) : Task δ :=
  { τ with verifyTasks := τ.verifyTasks ++ [{
      chunkIdx        := t.chunkIdx.toNat
      winningPeerSlot := t.peerSlot
      data            := a.base
      length          := a.chunkSize
      expectedHash    := e.sha256 }] }

-- The next stage of the I/O worker `w` in `worker_loop`. It is undefined if the worker leaves the
-- array of assemblers, the memory of the chunk or the mask of the assembler. Here a piece is copied in
-- one step; in `Verifying` its bytes are copied one by one.
def ioStep (τ : Task δ) (w : Nat) : Option (Task δ) := do
  let some k := τ.workers[w]? | return τ
  match k.stage with
  | .idle =>
    match k.queue with
    | []     => return τ
    | t :: q =>
      let a ← τ.assemblers[t.chunkIdx.toNat]?
      if a.accepts t.begin t.length then
        let file ← a.write t.begin t.data τ.file
        return { τ with file := file }.setWorker w ⟨q, .written t⟩
      else return τ.setWorker w ⟨q, .idle⟩
  | .written t =>
    let a ← τ.assemblers[t.chunkIdx.toNat]?
    let (a, first) ← a.mark t.begin
    return (τ.setAssembler t.chunkIdx.toNat a).setWorker w
      ⟨k.queue, if first then .marked t else .idle⟩
  | .marked t =>
    let a ← τ.assemblers[t.chunkIdx.toNat]?
    let e ← τ.seed.chunks[t.chunkIdx.toNat]?
    let τ' := (τ.setAssembler t.chunkIdx.toNat a.countDown.1).setWorker w ⟨k.queue, .idle⟩
    return if a.countDown.2 then τ'.enqueueVerify a e t else τ'

-- A verify worker takes the `k`-th task of the queue and hashes what the file holds. Here this is one
-- step; in `Verifying` the worker reads and reports in steps of its own.
def verifyStep [DecidableEq δ] (sha256 : List UInt8 → δ) (τ : Task δ) (k : Nat) :
    Option (Task δ) := do
  let some v := τ.verifyTasks[k]? | return τ
  let base ← v.data
  return { τ with
    verifyTasks := τ.verifyTasks.eraseIdx k
    results     := τ.results ++ [{
      chunkIdx        := v.chunkIdx
      winningPeerSlot := v.winningPeerSlot
      passed          := sha256 (τ.file.slice base v.length.toNat) = v.expectedHash }] }

-- The list `passed` of `tick`.
def passedMsgs (τ : Task δ) : List ChunkCompleteMsg :=
  (τ.results.filter (·.passed)).map fun r => ⟨r.chunkIdx, r.winningPeerSlot⟩

-- The calls that `tick` makes to the scheduler.
def tickOps (τ : Task δ) (now : UInt64) : List Scheduler.Op :=
  [.tick now] ++ (τ.results.filter (!·.passed)).map (.onVerifyFailed ·.chunkIdx) ++
    if τ.passedMsgs = [] then [] else [.processCompletions τ.passedMsgs]

def creditBytes (τ : Task δ) : UInt64 :=
  τ.passedMsgs.foldl (fun n m => n + ((τ.seed.chunks[m.chunkIdx]?).elim 0 (·.length.toUInt64)))
    τ.bytesDone

-- `TaskManager::tick` for a single task.
def tick (std : StdSort) (τ : Task δ) (now : UInt64) (trackerDead : Bool) : Task δ :=
  let state := if τ.seed.fileSize ≤ τ.creditBytes ∧ τ.state = .downloading then .complete else τ.state
  { τ with
    scheduler := Scheduler.run std τ.scheduler (τ.tickOps now)
    results   := []
    bytesDone := τ.creditBytes
    state     := if trackerDead ∧ state = .downloading then .waiting else state }

-- What may happen to a task. Its sessions call the scheduler on other messages than pieces.
inductive Op
  | session (op : Scheduler.Op)
  | piece (t : PieceTask) (now : UInt64)
  | io (w : Nat)
  | verify (k : Nat)
  | tick (now : UInt64) (trackerDead : Bool)

def step [DecidableEq δ] (sha256 : List UInt8 → δ) (std : StdSort) (τ : Task δ) :
    Op → Option (Task δ)
  | .session op     => some { τ with scheduler := Scheduler.next std τ.scheduler op }
  | .piece t now    => some (τ.handlePieceMsg std t now)
  | .io w           => τ.ioStep w
  | .verify k       => τ.verifyStep sha256 k
  | .tick now dead  => some (τ.tick std now dead)

-- The calls to the scheduler that a step makes.
def schedulerOps (τ : Task δ) : Op → List Scheduler.Op
  | .session op       => [op]
  | .piece t now      => [.decPeerPending t.peerSlot t.chunkIdx.toNat t.begin.toNat now]
  | .io _ | .verify _ => []
  | .tick now _       => τ.tickOps now

-- The calls to the scheduler that the sessions and the peer manager make.
def sessionCall : Scheduler.Op → Bool
  | .onBitfield .. | .onHave .. | .onPeerAdded .. | .onPeerSpeed .. | .onPeerRemoved ..
  | .onChokeChange .. | .evalTick .. | .onSubblockTimeout .. => true
  | _ => false

def Legal (τ : Task δ) : Op → Prop
  | .session op => sessionCall op ∧ τ.scheduler.Legal op
  | _           => True

instance {τ : Task δ} : (op : Op) → Decidable (Legal τ op)
  | .session op => inferInstanceAs (Decidable (sessionCall op ∧ τ.scheduler.Legal op))
  | .piece .. | .io _ | .verify _ | .tick .. => .isTrue trivial

end Task
end ThinBT
