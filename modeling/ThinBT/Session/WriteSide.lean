import ThinBT.Session.Wire
import ThinBT.Util.Actions

namespace ThinBT

-- A request that is answered by the sendfile pool.
structure SendJob where
  index  : UInt32
  begin  : UInt32
  length : UInt32
  deriving DecidableEq, Repr

-- The header of a piece, as the pool writes it.
def SendJob.header (j : SendJob) : List UInt8 :=
  be32 (1 + 8 + j.length) ++ [P2PMsgId.piece.toByte] ++ be32 j.index ++ be32 j.begin

-- How far a thread or a handler is that writes to the socket. Others may run before its next step.
inductive Writer
  -- It calls `do_write`.
  | starting
  -- `do_write` has taken the buffer from the queue and calls `async_write`.
  | owning (buf : List UInt8)
  -- The `async_write` is outstanding and has not yet written the rest of the buffer.
  | writing (rest : List UInt8)
  -- The `async_write` is complete and its handler is called.
  | written
  -- The job has been posted to the pool.
  | posted (j : SendJob)
  -- The pool has sent the header and calls `sendfile`.
  | sending (j : SendJob)
  -- The pool has finished the job and its handler is called.
  | sent
  deriving DecidableEq, Repr

-- The part of a session that writes to its socket.
structure WriteSide where
  useSendfile : Bool
  writeQueue  : List (List UInt8) := []
  isWriting   : Bool := false
  writers     : List Writer := []
  closed      : Bool := false
  -- Whether an `async_write` has failed.
  error       : Bool := false
  socket      : List UInt8 := []
  deriving DecidableEq, Repr

namespace WriteSide

inductive Op
  -- The critical section of `send_message`.
  | send (buf : List UInt8)
  -- The critical section of `handle_request_msg`.
  | request (j : SendJob)
  -- The next step of a writer that does not wait for the socket.
  | run (k : Nat)
  -- The `async_write` writes some bytes.
  | progress (k count : Nat)
  | complete (k : Nat)
  | fail (k : Nat)
  -- The result of `::send`, where `none` stands for an error.
  | header (k : Nat) (count : Option Nat)
  -- The bytes of the file that `sendfile` has written, of which there are none after an error.
  | body (k : Nat) (data : List UInt8)
  | disconnect

def setWriter (s : WriteSide) (k : Nat) (w : Writer) : WriteSide :=
  { s with writers := s.writers.set k w }

def dropWriter (s : WriteSide) (k : Nat) : WriteSide :=
  { s with writers := s.writers.eraseIdx k }

def put (s : WriteSide) (bytes : List UInt8) : WriteSide :=
  { s with socket := s.socket ++ bytes }

def send (s : WriteSide) (buf : List UInt8) : WriteSide :=
  let s := { s with writeQueue := s.writeQueue ++ [buf] }
  if s.isWriting then s else { s with isWriting := true, writers := s.writers ++ [.starting] }

-- A request that is not left to `sendfile` is read by another pool, which sends the piece later.
def request (s : WriteSide) (j : SendJob) : WriteSide :=
  if s.useSendfile ∧ s.writeQueue = [] ∧ ¬s.isWriting then
    { s with isWriting := true, writers := s.writers ++ [.posted j] }
  else s

def run (s : WriteSide) (k : Nat) : WriteSide :=
  match s.writers[k]? with
  | some .starting     =>
    match s.writeQueue with
    | []       => { s with isWriting := false }.dropWriter k
    | buf :: q => { s with writeQueue := q }.setWriter k (.owning buf)
  | some (.owning buf) => s.setWriter k (.writing buf)
  | some .written      =>
    if s.writeQueue = [] then { s with isWriting := false }.dropWriter k
    else s.setWriter k .starting
  -- The flag is cleared even if `do_write` is called again.
  | some .sent         =>
    if s.writeQueue = [] then { s with isWriting := false }.dropWriter k
    else { s with isWriting := false }.setWriter k .starting
  | _                  => s

def progress (s : WriteSide) (k count : Nat) : WriteSide :=
  match s.writers[k]? with
  | some (.writing rest) => (s.put (rest.take count)).setWriter k (.writing (rest.drop count))
  | _                    => s

def complete (s : WriteSide) (k : Nat) : WriteSide :=
  match s.writers[k]? with
  | some (.writing []) => s.setWriter k .written
  | _                  => s

def fail (s : WriteSide) (k : Nat) : WriteSide :=
  match s.writers[k]? with
  | some (.writing _) => { s with error := true, closed := true }.dropWriter k
  | _                 => s

def header (s : WriteSide) (k : Nat) (count : Option Nat) : WriteSide :=
  match s.writers[k]? with
  | some (.posted j) =>
    if s.closed then s.dropWriter k
    else (s.put (j.header.take (count.getD 0))).setWriter k
      (if count = some 13 then .sending j else .sent)
  | _                => s

def body (s : WriteSide) (k : Nat) (data : List UInt8) : WriteSide :=
  match s.writers[k]? with
  | some (.sending j) => (s.put (data.take j.length.toNat)).setWriter k .sent
  | _                 => s

def step (s : WriteSide) : Op → WriteSide
  | .send buf         => s.send buf
  | .request j        => s.request j
  | .run k            => s.run k
  | .progress k count => s.progress k count
  | .complete k       => s.complete k
  | .fail k           => s.fail k
  | .header k count   => s.header k count
  | .body k data      => s.body k data
  | .disconnect       => { s with closed := true }

-- The state after some steps of a new session.
def reached (useSendfile : Bool) (ops : List Op) : WriteSide :=
  Actions.exec step { useSendfile := useSendfile } ops

-- The buffers that are passed to `send_message`, in their order.
def enqueued (ops : List Op) : List (List UInt8) :=
  ops.filterMap fun
    | .send buf => some buf
    | _         => none

end WriteSide
end ThinBT
