import ThinBT.Queue.ReaderWriterQueue
import ThinBT.Task.State

namespace ThinBT

open ReaderWriterQueue (Enqueue Dequeue)

-- What `worker_loop` reports about a task if `read` are the bytes that `sha256` has seen.
def VerifyTask.result [DecidableEq δ] (sha256 : List UInt8 → δ) (v : VerifyTask δ)
    (read : List UInt8) : VerifyResult where
  chunkIdx        := v.chunkIdx
  winningPeerSlot := v.winningPeerSlot
  passed          := sha256 read = v.expectedHash

-- How far a verify worker is in `worker_loop`. Other threads may run between any two steps.
inductive VerifyWorker (δ : Type)
  -- `sha256` has read these bytes of the chunk.
  | hashes (v : VerifyTask δ) (read : List UInt8)
  -- Where it is in `enqueue`. It waits for a task if it is not in a call.
  | reports (e : Enqueue VerifyResult)
  deriving DecidableEq

namespace VerifyWorker

variable {δ : Type}

def call : VerifyWorker δ → Enqueue VerifyResult
  | .hashes .. => .idle
  | .reports e => e

-- The chunk has been read, `enqueue` comes next.
def hashed : VerifyWorker δ → Bool
  | .hashes v read => v.length.toNat ≤ read.length
  | .reports _     => false

end VerifyWorker

-- Where the main thread is in `tick`.
inductive MainThread
  | outside
  -- In the loop of `drain_results`.
  | draining
  | drained
  deriving DecidableEq, Repr

-- The piece that the I/O worker `w` copies next, and where its first byte goes.
def Task.nextCopy (τ : Task δ) (w : Nat) : Option (PieceTask × Nat) :=
  match τ.workers[w]? with
  | some ⟨t :: _, .idle⟩ => do
    let a ← τ.assemblers[t.chunkIdx.toNat]?
    let base ← a.base
    if a.accepts t.begin t.length then some (t, base + t.begin.toNat) else none
  | _ => none

-- A task whose verify workers read the file while the I/O workers write it, and report to the main
-- thread through `result_queue_`. The results that `task` has are those that `drain_results` has taken
-- from the queue. For an I/O worker in `memcpy`, `copies` has the bytes of its piece that are left.
structure Verifying (δ : Type) where
  task       : Task δ
  copies     : List (Option (List Nat))
  results    : ReaderWriterQueue VerifyResult := .init VerifyResult 4096
  workers    : List (VerifyWorker δ)
  drainer    : Dequeue VerifyResult := .idle
  mainThread : MainThread := .outside
  deriving DecidableEq

namespace Verifying

variable {δ : Type}

-- The number of threads that `VerifyWorkerPool::start` chooses.
def verifyThreads (hardwareConcurrency : Nat) : Nat :=
  max 2 (min 4 (hardwareConcurrency / 4))

def start (hardwareConcurrency : Nat) (τ : Task δ) : Verifying δ :=
  { task    := τ
    copies  := τ.workers.map fun _ => none
    workers := .replicate (verifyThreads hardwareConcurrency) (.reports .idle) }

def setWorker (x : Verifying δ) (p : Nat) (k : VerifyWorker δ) : Verifying δ :=
  { x with workers := x.workers.set p k }

inductive Op
  | session (op : Scheduler.Op)
  | piece (t : PieceTask) (now : UInt64)
  | io (w : Nat)
  -- The I/O worker `w` copies the `k`-th of the bytes that are left.
  | copy (w k : Nat)
  -- The worker `p` takes the `k`-th task of the queue.
  | take (p k : Nat)
  -- It reads the next byte of its chunk. After the last one it calls `enqueue`.
  | hash (p : Nat)
  -- The next step of the worker in this call.
  | report (p : Nat) (allocates : Bool)
  -- The next step of `drain_results`.
  | drain
  | tick (now : UInt64) (trackerDead : Bool)

-- The step of the task, if it is one.
def Op.onTask : Op → Option Task.Op
  | .session op    => some (.session op)
  | .piece t now   => some (.piece t now)
  | .tick now dead => some (.tick now dead)
  | _              => none

-- The stages of an I/O worker are those of the task, but `memcpy` has steps of its own.
def io (x : Verifying δ) (w : Nat) : Option (Verifying δ) := do
  let task ← x.task.ioStep w
  match x.task.nextCopy w, x.copies[w]?.join with
  | none, _             => return { x with task }
  | some (t, _), none   => return { x with copies := x.copies.set w (some (.range t.data.length)) }
  | some _, some []     => return { x with
    task   := { task with file := x.task.file }
    copies := x.copies.set w none }
  | some _, some (_ :: _) => return x

-- Where a byte goes that is copied, and the byte.
def nextByte (x : Verifying δ) (w k : Nat) : Option (Nat × UInt8) := do
  let (t, pos) ← x.task.nextCopy w
  let left ← x.copies[w]?.join
  let i ← left[k]?
  let byte ← t.data[i]?
  return (pos + i, byte)

-- The bytes of a piece may be copied in any order.
def copy (x : Verifying δ) (w k : Nat) : Verifying δ :=
  match x.nextByte w k with
  | some (pos, byte) => { x with
    task   := { x.task with file := x.task.file.set pos byte }
    copies := x.copies.modify w (·.map (·.eraseIdx k)) }
  | none => x

def take (x : Verifying δ) (p k : Nat) : Verifying δ :=
  match x.workers[p]?, x.task.verifyTasks[k]? with
  | some (.reports .idle), some v =>
    { x with task := { x.task with verifyTasks := x.task.verifyTasks.eraseIdx k } }.setWorker p
      (.hashes v [])
  | _, _ => x

def hash [DecidableEq δ] (sha256 : List UInt8 → δ) (x : Verifying δ) (p : Nat) :
    Option (Verifying δ) :=
  match x.workers[p]? with
  | some (.hashes v read) =>
    if read.length < v.length.toNat then do
      let base ← v.data
      let byte ← x.task.file[base + read.length]?
      return x.setWorker p (.hashes v (read ++ [byte]))
    else do
      let e ← x.results.innerEnqueue (v.result sha256 read)
      return x.setWorker p (.reports e)
  | _ => some x

def report (x : Verifying δ) (p : Nat) (allocates : Bool) : Option (Verifying δ) :=
  match x.workers[p]? with
  | some (.reports e) => do
    let (results, e, _) ← x.results.produce allocates e
    return { x with results }.setWorker p (.reports e)
  | _ => some x

-- The loop is over when the queue is found empty.
def drain (x : Verifying δ) : Option (Verifying δ) :=
  if x.mainThread = .drained then some x
  else if x.drainer = .idle then do
    let drainer ← x.results.tryDequeue
    return { x with drainer, mainThread := .draining }
  else do
    let (results, drainer, events) ← x.results.consume x.drainer
    return { x with
      task       := { x.task with results := x.task.results ++ events.filterMap Fifo.Event.popped }
      results    := results
      drainer    := drainer
      mainThread := if events = [.empty] then .drained else .draining }

-- The main thread handles no messages in `tick`.
def step [DecidableEq δ] (sha256 : List UInt8 → δ) (std : StdSort) (x : Verifying δ) :
    Op → Option (Verifying δ)
  | .session op    =>
    if x.mainThread = .outside then
      some { x with task := { x.task with scheduler := Scheduler.next std x.task.scheduler op } }
    else some x
  | .piece t now   =>
    if x.mainThread = .outside then some { x with task := x.task.handlePieceMsg std t now }
    else some x
  | .io w          => x.io w
  | .copy w k      => some (x.copy w k)
  | .take p k      => some (x.take p k)
  | .hash p        => x.hash sha256 p
  | .report p a    => x.report p a
  | .drain         => x.drain
  | .tick now dead =>
    if x.mainThread = .drained then
      some { x with task := x.task.tick std now dead, mainThread := .outside }
    else some x

-- The sessions call the scheduler as they do in a task.
def Legal (x : Verifying δ) : Op → Prop
  | .session op => x.task.Legal (.session op)
  | _           => True

instance {x : Verifying δ} : (op : Op) → Decidable (x.Legal op)
  | .session op => inferInstanceAs (Decidable (x.task.Legal (.session op)))
  | .piece .. | .io _ | .copy .. | .take .. | .hash _ | .report .. | .drain | .tick .. =>
    .isTrue trivial

end Verifying

end ThinBT
