import ThinBT.Session.Protocol
import ThinBT.Scheduler.State
import Mathlib.Data.Prod.Lex

namespace ThinBT

-- The message that a callback of the scheduler sends.
def Scheduler.Call.msg : Call → Msg
  | .issueRequest _ c b len  => .request (.ofNat c) (.ofNat b) (.ofNat len)
  | .cancelRequest _ c b _   => .cancel (.ofNat c) (.ofNat b)
  | .broadcastHave c         => .haveChunk (.ofNat c)
  | .broadcastNotInterested  => .notInterested
  | .notInterested _         => .notInterested

-- A read that is posted to the `FileReadPool`, with the piece that it is for.
structure ReadJob where
  off   : UInt64
  len   : UInt32
  index : UInt32
  begin : UInt32
  deriving DecidableEq, Repr

namespace ReadJob

-- `pread` returns fewer bytes at the end of the file.
def pread (j : ReadJob) (file : List UInt8) : List UInt8 :=
  file.slice j.off.toNat j.len.toNat

-- What the callback of the read sends.
def reply (j : ReadJob) (data : List UInt8) : Option Msg :=
  if data = [] then none else some (.piece j.index j.begin data)

end ReadJob

-- PeerSession::State
inductive SessionState
  | handshake
  | connected
  | disconnected
  deriving DecidableEq, Repr

-- What the chain of asynchronous operations waits for that connects and reads.
inductive Reading
  | connect
  | handshake
  | message
  -- The socket was closed before this operation was started.
  | failure
  | nothing
  deriving DecidableEq, Repr

-- What passes through the socket of a session.
inductive Traffic
  | sent (m : Msg)
  | received (m : Msg)
  deriving DecidableEq, Repr

structure PeerSession where
  slotId              : UInt32
  handshakeSent       : Bool := false
  amInterested        : Bool := false
  chokingPeer         : Bool := true
  cancelledSet        : List (UInt32 × UInt32) := []
  remoteBitfield      : List Bool := []
  state               : SessionState := .handshake
  closed              : Bool := false
  reading             : Reading := .handshake
  peerChokingMe       : Bool := true
  peerInterested      : Bool := false
  -- The times of the requests for a chunk and a begin offset.
  pendingTimes        : SortedMap (Nat ×ₗ Nat) UInt64 := ∅
  consecutiveTimeouts : Nat := 0
  pipelineCap         : Nat := 128
  -- The reads that were posted to the pool, and the pieces that its callbacks have posted back.
  reads               : List ReadJob := []
  posted              : List Msg := []
  -- What was sent on the open socket and what was handled, with times.
  log                 : List (UInt64 × Traffic) := []
  deriving DecidableEq

namespace PeerSession

-- `handle_request_msg` without `sendfile`.
def handleRequestMsg (s : PeerSession) (chunkOffsets : List UInt64) (index begin length : UInt32) :
    Option ReadJob :=
  if s.chokingPeer then none
  else if (index, begin) ∈ s.cancelledSet then none
  else
    let baseOff := chunkOffsets.getD index.toNat (index.toUInt64 * 131072)
    some { off := baseOff + begin.toUInt64, len := length, index := index, begin := begin }

def handleCancelMsg (s : PeerSession) (index begin : UInt32) : PeerSession :=
  { s with cancelledSet := s.cancelledSet.insert (index, begin) }

def recordHave (s : PeerSession) (chunkIdx : UInt32) : PeerSession :=
  { s with remoteBitfield := s.remoteBitfield.set chunkIdx.toNat true }

def recordBitfield (s : PeerSession) (bf : List (BitVec 8)) : PeerSession :=
  { s with remoteBitfield := Bitfield.record bf }

-- The messages that were sent, in their order.
def stream (s : PeerSession) : List Msg :=
  s.log.filterMap fun
    | (_, .sent m) => some m
    | _            => none

-- The messages that were received, in their order.
def received (s : PeerSession) : List Msg :=
  s.log.filterMap fun
    | (_, .received m) => some m
    | _                => none

-- `send_message`, where nothing is written to a closed socket.
def send (s : PeerSession) (now : UInt64) (m : Msg) : PeerSession :=
  { s with log := if s.closed then s.log else s.log ++ [(now, .sent m)] }

def sendHandshake (s : PeerSession) (now : UInt64) (speed : Nat) : PeerSession :=
  { s.send now (.handshake speed) with handshakeSent := true }

def sendInterested (s : PeerSession) (now : UInt64) : PeerSession :=
  if s.amInterested then s else { s with amInterested := true }.send now .interested

def sendNotInterested (s : PeerSession) (now : UInt64) : PeerSession :=
  if s.amInterested then { s with amInterested := false }.send now .notInterested else s

-- A request as the session posts it to the pool.
def postRead (s : PeerSession) (chunkOffsets : List UInt64) (index begin length : UInt32) :
    PeerSession :=
  { s with reads := s.reads ++ (s.handleRequestMsg chunkOffsets index begin length).toList }

-- The pool has read the `k`-th job, and its callback posts the piece.
def finishRead (s : PeerSession) (k : Nat) (data : List UInt8) : PeerSession :=
  match s.reads[k]? with
  | none   => s
  | some j =>
    { s with
      reads  := s.reads.eraseIdx k
      posted := if s.closed then s.posted else s.posted ++ (j.reply data).toList }

def runPosted (s : PeerSession) (now : UInt64) : PeerSession :=
  match s.posted with
  | []      => s
  | m :: ms => { s with posted := ms }.send now m

-- The request issuer of the scheduler, whose arguments are of type `uint32_t`.
def issueRequest (s : PeerSession) (now : UInt64) (c b len : Nat) : PeerSession :=
  let index : UInt32 := .ofNat c
  let begin : UInt32 := .ofNat b
  { s.send now (.request index begin (.ofNat len)) with
    pendingTimes := s.pendingTimes.upsert (toLex (index.toNat, begin.toNat)) now }

-- The part of `handle_piece_msg` that concerns the session.
def pieceArrived (s : PeerSession) (index begin : UInt32) : PeerSession :=
  { s with
    consecutiveTimeouts := 0
    pendingTimes        := s.pendingTimes.erase (toLex (index.toNat, begin.toNat)) }

-- The bookkeeping of `do_eval_tick` for a request that has timed out.
def requestTimedOut (s : PeerSession) (now : UInt64) (c b : Nat) : PeerSession :=
  { s.send now (.cancel (.ofNat c) (.ofNat b)) with
    pendingTimes        := s.pendingTimes.erase (toLex (c, b))
    consecutiveTimeouts := s.consecutiveTimeouts + 1 }

-- The piece that a session sends in answer to a request, if it reads the file at once.
def answer (s : PeerSession) (chunkOffsets : List UInt64) (file : List UInt8)
    (index begin length : UInt32) : Option Msg := do
  let j ← s.handleRequestMsg chunkOffsets index begin length
  j.reply (j.pread file)

-- The part of `dispatch_message` and its handlers that concerns the session.
def dispatchMessage (s : PeerSession) (chunkOffsets : List UInt64) : Msg → PeerSession
  | .choke                      => { s with peerChokingMe := true }
  | .unchoke                    => { s with peerChokingMe := false }
  | .interested                 => { s with peerInterested := true }
  | .notInterested              => { s with peerInterested := false }
  | .haveChunk ci               => s.recordHave ci
  | .bitfield bf                => s.recordBitfield bf
  | .request index begin length => s.postRead chunkOffsets index begin length
  | .piece index begin _        => s.pieceArrived index begin
  | .cancel index begin         => s.handleCancelMsg index begin
  | .pex .. | .handshake _      => s

def logReceived (s : PeerSession) (now : UInt64) (m : Msg) : PeerSession :=
  { s with log := s.log ++ [(now, .received m)] }

-- The elementary updates that the callbacks and handlers of a session are made of.
inductive Update
  -- A message that is handled without being dispatched.
  | receive (m : Msg)
  | dispatch (chunkOffsets : List UInt64) (m : Msg)
  | send (m : Msg)
  | sendHandshake (speed : Nat)
  | sendInterested
  | sendNotInterested
  | issueRequest (c b len : Nat)
  | setReading (r : Reading)
  -- `state_ = State::CONNECTED`
  | connected
  -- The part of `disconnect` that concerns the session.
  | close
  -- `set_choking_peer` and the message for it.
  | choke (choking : Bool)
  | finishRead (k : Nat) (data : List UInt8)
  | runPosted
  | requestTimedOut (c b : Nat)
  | setPipelineCap (cap : Nat)
  deriving DecidableEq

def apply (now : UInt64) (s : PeerSession) : Update → PeerSession
  | .receive m            => s.logReceived now m
  | .dispatch offsets m   => (s.logReceived now m).dispatchMessage offsets m
  | .send m               => s.send now m
  | .sendHandshake speed  => s.sendHandshake now speed
  | .sendInterested       => s.sendInterested now
  | .sendNotInterested    => s.sendNotInterested now
  | .issueRequest c b len => s.issueRequest now c b len
  -- A chain of operations that has ended is not started again.
  | .setReading r         => if s.reading = .nothing then s else { s with reading := r }
  | .connected            => { s with state := .connected }
  | .close                => { s with state := .disconnected, closed := true }
  | .choke choking        =>
    { s with chokingPeer := choking }.send now (if choking then .choke else .unchoke)
  | .finishRead k data    => s.finishRead k data
  | .runPosted            => s.runPosted now
  | .requestTimedOut c b  => s.requestTimedOut now c b
  | .setPipelineCap cap   => { s with pipelineCap := cap }

variable {s : PeerSession}

theorem stream_send (h : s.closed = false) : (s.send now m).stream = s.stream ++ [m] := by
  simp [stream, send, h, List.filterMap_append]

theorem handleRequestMsg_eq_some (h : s.handleRequestMsg offsets index begin length = some j) :
    j = ⟨offsets.getD index.toNat (index.toUInt64 * 131072) + begin.toUInt64, length, index, begin⟩ := by
  unfold handleRequestMsg at h
  split at h
  case isTrue => cases h
  case isFalse =>
    split at h
    case isTrue  => cases h
    case isFalse => exact (Option.some.inj h).symm

end PeerSession
end ThinBT
