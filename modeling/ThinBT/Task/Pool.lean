import ThinBT.Queue.ReaderWriterQueue
import ThinBT.Task.State

namespace ThinBT

open ReaderWriterQueue (Enqueue Dequeue)

-- The queue of an I/O worker, with the places of the network thread and of the worker in its calls.
structure WorkerQueue where
  queue    : ReaderWriterQueue PieceTask := .init PieceTask 4096
  producer : Enqueue PieceTask := .idle
  consumer : Dequeue PieceTask := .idle

-- A task whose I/O workers get their pieces through the queues of their pool. The list that `task` has
-- for a worker is its variable `task`: the piece that it has dequeued and not yet handled.
structure Pooled (δ : Type) where
  task        : Task δ
  queues      : List WorkerQueue
  -- The piece that `handle_piece_msg` dispatches. The network thread does nothing else meanwhile.
  dispatching : Option (PieceTask × UInt64) := none

namespace Pooled

variable {δ : Type}

-- `IOWorkerPool::start`
def start (τ : Task δ) : Pooled δ :=
  { task := τ, queues := τ.workers.map fun _ => {} }

inductive Op
  | session (op : Scheduler.Op)
  | piece (t : PieceTask) (now : UInt64)
  -- The next step of the network thread in `dispatch`.
  | dispatch (allocates : Bool)
  | io (w : Nat)
  | verify (k : Nat)
  | tick (now : UInt64) (trackerDead : Bool)

def route (x : Pooled δ) (t : PieceTask) : Nat :=
  let slotIdx := t.begin / .ofNat subBlockSize
  (t.chunkIdx ^^^ slotIdx).toNat % x.queues.length

def setQueue (x : Pooled δ) (w : Nat) (q : WorkerQueue) : Pooled δ :=
  { x with queues := x.queues.set w q }

-- `dispatch` up to the first access to the queue that the worker uses too.
def piece (x : Pooled δ) (t : PieceTask) (now : UInt64) : Option (Pooled δ) := do
  let q ← x.queues[x.route t]?
  let producer ← q.queue.innerEnqueue t
  return { x.setQueue (x.route t) { q with producer } with dispatching := some (t, now) }

-- What `enqueue` returns is ignored.
def dispatch (std : StdSort) (x : Pooled δ) (allocates : Bool) : Option (Pooled δ) := do
  let some (t, now) := x.dispatching | return x
  let q ← x.queues[x.route t]?
  let (queue, producer, events) ← q.queue.produce allocates q.producer
  let x := x.setQueue (x.route t) { q with queue, producer }
  return if events = [] then x else
    { x with
      task        := { x.task with
        scheduler := Scheduler.next std x.task.scheduler
          (.decPeerPending t.peerSlot t.chunkIdx.toNat t.begin.toNat now) }
      dispatching := none }

-- A worker without a piece is in `try_dequeue` or calls it.
def poll (x : Pooled δ) (w : Nat) : Option (Pooled δ) := do
  let q ← x.queues[w]?
  if q.consumer = .idle then
    let consumer ← q.queue.tryDequeue
    return x.setQueue w { q with consumer }
  else
    let (queue, consumer, events) ← q.queue.consume q.consumer
    return { x.setQueue w { q with queue, consumer } with
      task := x.task.setWorker w ⟨events.filterMap Fifo.Event.popped, .idle⟩ }

-- `worker_loop`
def ioStep (x : Pooled δ) (w : Nat) : Option (Pooled δ) := do
  let some k := x.task.workers[w]? | return x
  if k = {} then x.poll w else (x.task.ioStep w).map fun task => { x with task }

-- The ticks run on the network thread, too.
def step [DecidableEq δ] (sha256 : List UInt8 → δ) (std : StdSort) (x : Pooled δ) :
    Op → Option (Pooled δ)
  | .session op    =>
    if x.dispatching = none then
      some { x with task := { x.task with scheduler := Scheduler.next std x.task.scheduler op } }
    else some x
  | .piece t now   => if x.dispatching = none then x.piece t now else some x
  | .dispatch a    => x.dispatch std a
  | .io w          => x.ioStep w
  | .verify k      => (x.task.verifyStep sha256 k).map fun task => { x with task }
  | .tick now dead =>
    if x.dispatching = none then some { x with task := x.task.tick std now dead } else some x

-- The steps of a task with lists of pieces that a step stands for. A piece is in the list of its worker
-- once `dispatch` returns.
def taskOps (std : StdSort) (x : Pooled δ) : Op → List Task.Op
  | .session op    => if x.dispatching = none then [.session op] else []
  | .piece ..      => []
  | .dispatch a    =>
    match x.dispatching, (x.dispatch std a).map (·.dispatching) with
    | some (t, now), some none => [.piece t now]
    | _, _                     => []
  | .io w          => if x.task.workers[w]? = some {} then [] else [.io w]
  | .verify k      => [.verify k]
  | .tick now dead => if x.dispatching = none then [.tick now dead] else []

-- The sessions call the scheduler as they do in a task, and there is memory for the blocks of queues.
def Legal (x : Pooled δ) : Op → Prop
  | .session op => x.task.Legal (.session op)
  | .dispatch a => a = true
  | _           => True

instance {x : Pooled δ} : (op : Op) → Decidable (x.Legal op)
  | .session op => inferInstanceAs (Decidable (x.task.Legal (.session op)))
  | .dispatch a => inferInstanceAs (Decidable (a = true))
  | .piece .. | .io _ | .verify _ | .tick .. => .isTrue trivial

end Pooled

end ThinBT
