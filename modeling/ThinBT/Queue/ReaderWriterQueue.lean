import ThinBT.Util.Fifo
import ThinBT.Util.Ring
import Mathlib.Logic.Function.Basic

namespace ThinBT

namespace ReaderWriterQueue

-- Blocks are numbered in the order of their allocation. A cell without an element is memory in which
-- nothing is constructed.
structure Block (α : Type) where
  front      : Nat := 0
  localTail  : Nat := 0
  tail       : Nat := 0
  localFront : Nat := 0
  next       : Nat := 0
  data       : List (Option α)
  sizeMask   : Nat
  deriving DecidableEq, Repr

def maxBlockSize : Nat :=
  512

def makeBlock (α : Type) (capacity : Nat) : Block α :=
  { data := .replicate capacity none, sizeMask := capacity - 1 }

def ceilToPow2 (x : Nat) : Nat :=
  [1, 2, 4, 8, 16, 32].foldl Ring.smear (x - 1) + 1

end ReaderWriterQueue

open ReaderWriterQueue in
structure ReaderWriterQueue (α : Type) where
  blocks           : List (Block α)
  frontBlock       : Nat := 0
  tailBlock        : Nat := 0
  largestBlockSize : Nat
  deriving DecidableEq, Repr

namespace ReaderWriterQueue

variable {α : Type}

-- The circle of blocks that the constructor makes.
def circle (α : Type) (count size : Nat) : List (Block α) :=
  (List.range count).map fun i =>
    { makeBlock α size with next := if i + 1 = count then 0 else i + 1 }

def init (α : Type) (size : Nat) : ReaderWriterQueue α :=
  let largestBlockSize := ceilToPow2 (size + 1)
  if maxBlockSize * 2 < largestBlockSize then
    let initialBlockCount := (size + maxBlockSize * 2 - 3) / (maxBlockSize - 1)
    { blocks := circle α initialBlockCount maxBlockSize, largestBlockSize := maxBlockSize }
  else { blocks := circle α 1 largestBlockSize, largestBlockSize }

def setBlock (q : ReaderWriterQueue α) (b : Nat) (B : Block α) : ReaderWriterQueue α :=
  { q with blocks := q.blocks.set b B }

section Threads

-- What a thread does next in `inner_enqueue`. Each place stands before a single access to what the
-- consumer uses too. What only the producer writes is read along with the access before. Here `b` is
-- the block, `i` the index of the cell and `n` the one after it.
inductive Enqueue (α : Type)
  | idle
  | loadFront (x : α) (b i n : Nat)
  | construct (x : α) (b i n : Nat)
  | storeTail (x : α) (b n : Nat)
  -- `tailBlock_->next.load() != frontBlock`
  | loadFrontBlock (x : α) (b : Nat)
  | loadNextFront (x : α) (b : Nat)
  | constructNext (x : α) (b i : Nat)
  | storeNextTail (x : α) (b n : Nat)
  | storeTailBlock (x : α) (b : Nat)
  | storeNext (x : α) (b : Nat)
  deriving DecidableEq, Repr

-- The same for `try_dequeue`.
inductive Dequeue (α : Type)
  | idle
  | loadTail (b f : Nat)
  | loadTailBlock (b : Nat)
  | reloadTail
  | loadNext (b : Nat)
  | loadNextTail (b : Nat)
  | storeFrontBlock (b f : Nat)
  | take (b f : Nat)
  | storeFront (b f : Nat) (x : α)
  deriving DecidableEq, Repr

open Fifo (Event)

variable (q : ReaderWriterQueue α)

-- `inner_enqueue` up to the first access of this kind.
def innerEnqueue (x : α) : Option (Enqueue α) := do
  let B ← q.blocks[q.tailBlock]?
  let n := (B.tail + 1) &&& B.sizeMask
  return if n ≠ B.localFront then .construct x q.tailBlock B.tail n
    else .loadFront x q.tailBlock B.tail n

-- The block that holds the element when it is linked.
def newBlock (x : α) (size next : Nat) : Block α :=
  { makeBlock α size with
    data      := (List.replicate size none).set 0 (some x)
    tail      := 1
    localTail := 1
    next      := next }

-- The next step of a producer, with what the call returns if it does. `allocates` is whether
-- `make_block` gets memory.
def produce (allocates : Bool) : Enqueue α → Option (ReaderWriterQueue α × Enqueue α × List (Event α))
  | .idle => some (q, .idle, [])
  | .loadFront x b i n => do
    let B ← q.blocks[b]?
    return (q.setBlock b { B with localFront := B.front },
      if n ≠ B.front then .construct x b i n else .loadFrontBlock x b, [])
  | .construct x b i n => do
    let B ← q.blocks[b]?
    return (q.setBlock b { B with data := B.data.set i (some x) }, .storeTail x b n, [])
  | .storeTail x b n => do
    let B ← q.blocks[b]?
    return (q.setBlock b { B with tail := n }, .idle, [.enqueued x])
  | .loadFrontBlock x b => do
    let B ← q.blocks[b]?
    return (q, if B.next ≠ q.frontBlock then .loadNextFront x B.next else .storeNext x b, [])
  -- The block must be empty, which is only asserted.
  | .loadNextFront x b => do
    let B ← q.blocks[b]?
    return (q.setBlock b { B with localFront := B.front }, .constructNext x b B.tail, [])
  | .constructNext x b i => do
    let B ← q.blocks[b]?
    return (q.setBlock b { B with data := B.data.set i (some x) },
      .storeNextTail x b ((i + 1) &&& B.sizeMask), [])
  | .storeNextTail x b n => do
    let B ← q.blocks[b]?
    return (q.setBlock b { B with tail := n }, .storeTailBlock x b, [])
  | .storeTailBlock x b => some ({ q with tailBlock := b }, .idle, [.enqueued x])
  | .storeNext x b => do
    let B ← q.blocks[b]?
    if allocates then
      let size := if maxBlockSize ≤ q.largestBlockSize then q.largestBlockSize
        else q.largestBlockSize * 2
      let new := q.blocks.length
      return ({ q with
          blocks           := (q.blocks.set b { B with next := new }) ++ [newBlock x size B.next]
          largestBlockSize := size },
        .storeTailBlock x new, [])
    else return (q, .idle, [.refused x])

-- `try_dequeue` up to the first access.
def tryDequeue : Option (Dequeue α) := do
  let B ← q.blocks[q.frontBlock]?
  return if B.front ≠ B.localTail then .take q.frontBlock B.front else .loadTail q.frontBlock B.front

-- The next step of the consumer. It is undefined if there is no element in the cell that is read.
def consume : Dequeue α → Option (ReaderWriterQueue α × Dequeue α × List (Event α))
  | .idle => some (q, .idle, [])
  | .loadTail b f => do
    let B ← q.blocks[b]?
    return (q.setBlock b { B with localTail := B.tail },
      if f ≠ B.tail then .take b f else .loadTailBlock b, [])
  | .loadTailBlock b =>
    if b ≠ q.tailBlock then some (q, .reloadTail, []) else some (q, .idle, [.empty])
  | .reloadTail => do
    let B ← q.blocks[q.frontBlock]?
    return (q.setBlock q.frontBlock { B with localTail := B.tail },
      if B.front ≠ B.tail then .take q.frontBlock B.front else .loadNext q.frontBlock, [])
  | .loadNext b => do
    let B ← q.blocks[b]?
    return (q, .loadNextTail B.next, [])
  -- The block must have an element, which is only asserted.
  | .loadNextTail b => do
    let B ← q.blocks[b]?
    return (q.setBlock b { B with localTail := B.tail }, .storeFrontBlock b B.front, [])
  | .storeFrontBlock b f => some ({ q with frontBlock := b }, .take b f, [])
  | .take b f => do
    let B ← q.blocks[b]?
    let x ← (B.data[f]?).join
    return (q, .storeFront b f x, [])
  -- The element is destroyed before the store.
  | .storeFront b f x => do
    let B ← q.blocks[b]?
    return (q.setBlock b { B with data := B.data.set f none, front := (f + 1) &&& B.sizeMask },
      .idle, [.dequeued x])

end Threads

-- A queue that threads use, and what their calls have returned. There is a single consumer.
structure Shared (α : Type) where
  queue     : ReaderWriterQueue α
  producers : Nat → Enqueue α := fun _ => .idle
  consumer  : Dequeue α := .idle
  log       : List (Fifo.Event α) := []

namespace Shared

inductive Op (α : Type)
  | enqueue (p : Nat) (x : α)
  | produce (p : Nat) (allocates : Bool)
  | tryDequeue
  | consume
  deriving DecidableEq, Repr

-- The calls of a thread and its steps in a call.
def Op.isEnqueue (p : Nat) : Op α → Bool
  | .enqueue p' _ => p' = p
  | _             => false

def Op.isProduce (p : Nat) : Op α → Bool
  | .produce p' _ => p' = p
  | _             => false

def Op.isTryDequeue : Op α → Bool
  | .tryDequeue => true
  | _           => false

def Op.isConsume : Op α → Bool
  | .consume => true
  | _        => false

-- A thread that is in a call does not make another one.
def step [DecidableEq α] (s : Shared α) : Op α → Option (Shared α)
  | .enqueue p x =>
    if s.producers p = .idle then do
      let e ← s.queue.innerEnqueue x
      return { s with producers := Function.update s.producers p e }
    else some s
  | .produce p allocates => do
    let (queue, e, events) ← s.queue.produce allocates (s.producers p)
    return { s with queue, producers := Function.update s.producers p e, log := s.log ++ events }
  | .tryDequeue =>
    if s.consumer = .idle then do
      let consumer ← s.queue.tryDequeue
      return { s with consumer, log := s.log ++ [.asked] }
    else some s
  | .consume => do
    let (queue, consumer, events) ← s.queue.consume s.consumer
    return { s with queue, consumer, log := s.log ++ events }

-- No thread calls `enqueue` while another one is in it.
def Alone (s : Shared α) : Op α → Prop
  | .enqueue p _ => s.producers p = .idle → ∀ p', s.producers p' = .idle
  | _            => True

end Shared

end ReaderWriterQueue

end ThinBT
