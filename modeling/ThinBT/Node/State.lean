import ThinBT.Task.State
import ThinBT.Session.PeerSession

namespace ThinBT

-- PeerManager::MAX_PEERS
def maxPeers : Nat :=
  60

-- PeerSession::REQUEST_TIMEOUT_MS
def requestTimeoutMs : Nat :=
  3000

-- PeerSession::REQUEST_TIMEOUT_LIMIT
def requestTimeoutLimit : Nat :=
  3

-- PeerSession::PIPELINE_MIN
def pipelineMin : Nat :=
  8

-- PeerSession::PIPELINE_MAX
def pipelineMax : Nat :=
  100

-- The length of a body on the wire.
def Msg.bodyLen : Msg → Nat
  | handshake _ | choke | unchoke | interested | notInterested => 0
  | haveChunk _     => 4
  | bitfield bf     => bf.length
  | request ..      => 12
  | piece _ _ data  => 8 + data.length
  | cancel ..       => 12
  | pex _ peers     => 3 + peers.length * 8

-- A task with its peer manager. The list has all sessions that were ever created, and `sessions_` has
-- those that are not closed.
structure Node (δ : Type) where
  task       : Task δ
  sessions   : List PeerSession := []
  nextSlotId : UInt32 := 0
  deriving DecidableEq

namespace Node

variable {δ : Type}

def peerCount (n : Node δ) : Nat :=
  n.sessions.countP (!·.closed)

def chunkOffsets (n : Node δ) : List UInt64 :=
  n.task.seed.chunks.map (·.offset)

section Callbacks

def getSession (sessions : List PeerSession) (slot : Nat) : Option Nat :=
  sessions.findIdx? fun s => !s.closed && s.slotId.toNat = slot

-- The update that the callbacks of `cmd_add` and `cmd_seed` make to a session.
def update : Scheduler.Call → PeerSession.Update
  | .issueRequest _ c b len                    => .issueRequest c b len
  | .notInterested _                           => .sendNotInterested
  | .cancelRequest slot c b len                => .send (Scheduler.Call.cancelRequest slot c b len).msg
  | .broadcastHave c                           => .send (Scheduler.Call.broadcastHave c).msg
  | .broadcastNotInterested                    => .send Scheduler.Call.broadcastNotInterested.msg

-- The slot of the session that a callback is for, unless it is for all sessions.
def target : Scheduler.Call → Option Nat
  | .issueRequest slot .. | .cancelRequest slot .. | .notInterested slot => some slot
  | .broadcastHave _ | .broadcastNotInterested                           => none

def callback (now : UInt64) (sessions : List PeerSession) (call : Scheduler.Call) :
    List PeerSession :=
  match target call with
  | none      => sessions.map fun s => if s.closed then s else s.apply now (update call)
  | some slot =>
    match getSession sessions slot with
    | none   => sessions
    | some k => sessions.modify k (·.apply now (update call))

end Callbacks

-- The elementary actions of a node. Sessions are given by their position.
inductive Action
  -- A step of the task.
  | task (op : Task.Op)
  -- A new session and `on_peer_connected`.
  | attach (r : Reading)
  -- `disconnect` and `on_peer_disconnected`.
  | detach (k : Nat)
  -- The bitfield of `on_handshake_done_`.
  | announce (k : Nat)
  -- `dispatch_message`, up to what is sent in answer.
  | dispatch (k : Nat) (m : Msg)
  | session (k : Nat) (u : PeerSession.Update)

section Actions

variable (std : StdSort) (now : UInt64)

def addSession (n : Node δ) (r : Reading) : Node δ :=
  { n with
    sessions   := n.sessions ++ [{ slotId := n.nextSlotId, reading := r }]
    nextSlotId := n.nextSlotId + 1 }

def modify (n : Node δ) (k : Nat) (u : PeerSession.Update) : Node δ :=
  { n with sessions := n.sessions.modify k (·.apply now u) }

-- A session that is disconnected is not disconnected again.
def isDisconnected (n : Node δ) (k : Nat) : Bool :=
  (n.sessions[k]?).all (·.state = .disconnected)

-- What an action does to the sessions.
def onSessions (n : Node δ) : Action → Option (Node δ)
  | .task _       => some n
  | .attach r     => some (n.addSession r)
  | .detach k     => some (if n.isDisconnected k then n else n.modify now k .close)
  | .announce k   =>
    if n.task.initialBitfield = [] then some n
    else do
      let bf ← Bitfield.build n.task.initialBitfield
      return n.modify now k (.send (.bitfield bf))
  | .dispatch k m => some (n.modify now k (.dispatch n.chunkOffsets m))
  | .session k u  => some (n.modify now k u)

-- What `dispatch_message` and its handlers do to the task.
def dispatchOp (s : PeerSession) : Msg → Option Task.Op
  | .choke                  => some (.session (.onChokeChange s.slotId.toNat true))
  | .unchoke                => some (.session (.onChokeChange s.slotId.toNat false))
  | .haveChunk ci           => some (.session (.onHave s.slotId.toNat ci.toNat now))
  | .bitfield bf            => some (.session (.onBitfield s.slotId.toNat (Bitfield.record bf) now))
  | .piece index begin data =>
    if h : data.length ≤ maxMsgSize - 8 then
      some (.piece ⟨index, begin, s.slotId.toNat, data, h⟩ now)
    else none
  | _                       => none

-- The step of the task that belongs to an action.
def taskOp (n : Node δ) : Action → Option Task.Op
  | .task op      => some op
  | .attach _     => some (.session (.onPeerAdded n.nextSlotId.toNat 0))
  | .detach k     =>
    if n.isDisconnected k then none
    else (n.sessions[k]?).map fun s => .session (.onPeerRemoved s.slotId.toNat)
  | .dispatch k m => (n.sessions[k]?).bind (dispatchOp now · m)
  | .announce _   => none
  | .session ..   => none

-- The callbacks that a step of the task invokes.
def calls (n : Node δ) (op : Task.Op) : List Scheduler.Call :=
  Scheduler.callbacks std n.task.scheduler (n.task.schedulerOps op)

end Actions

section Apply

variable [DecidableEq δ] (sha256 : List UInt8 → δ) (std : StdSort) (now : UInt64)

def taskStep (n : Node δ) (op : Task.Op) : Option (Node δ) := do
  let task ← n.task.step sha256 std op
  return { n with task := task, sessions := (n.calls std op).foldl (callback now) n.sessions }

def apply (n : Node δ) (a : Action) : Option (Node δ) := do
  let n' ← n.onSessions now a
  match n.taskOp now a with
  | none    => return n'
  | some op => n'.taskStep sha256 std now op

end Apply

-- What may happen to a node. Addresses, rates and the order of peers are left open: `connect` stands
-- for a call of `connect_to` that finds no reason to skip the peer, `choked` for the outcome of
-- `tick_choke`, `peers` and `delta` for the addresses that are sent, and `fast` and `rtt` for the
-- measured latency.
inductive Op
  | connect
  | accept
  -- `async_connect` is complete.
  | established (k : Nat)
  -- The next message of the peer is complete.
  | receive (k : Nat) (m : Msg) (peers : List PexPeer)
  -- A read or `async_connect` fails, or the handshake is for another file.
  | readError (k : Nat)
  -- A write fails.
  | writeError (k : Nat)
  -- The pool finishes a read.
  | read (k j : Nat)
  -- The callback of the pool is run.
  | post (k : Nat)
  | evalTick (k : Nat) (fast : Bool) (rtt : UInt32)
  | tickChoke (choked : List Bool)
  | tickPex (delta : List PexPeer)
  | io (w : Nat)
  | verify (k : Nat)
  | tick (trackerDead : Bool)
  deriving DecidableEq

section Methods

variable (std : StdSort) (now : UInt64)

-- `connect_to` and `do_accept`
def openSession (r : Reading) (n : Node δ) : List Action :=
  if maxPeers ≤ n.peerCount then [] else [.attach r]

-- The next operation after one that has succeeded.
def readNext (k : Nat) (s : PeerSession) (r : Reading) : Action :=
  .session k (.setReading (if s.closed then .failure else r))

-- `disconnect`, after which nothing is read.
def hangUp (k : Nat) : List Action :=
  [.detach k, .session k (.setReading .nothing)]

def established (k : Nat) (n : Node δ) (s : PeerSession) : List Action :=
  if s.reading = .connect then
    [readNext k s .handshake, .session k (.sendHandshake n.task.scheduler.localSpeedMbps)]
  else []

def sendHandshakeIfNeeded (k : Nat) (n : Node δ) (s : PeerSession) : List Action :=
  if s.handshakeSent then [] else [.session k (.sendHandshake n.task.scheduler.localSpeedMbps)]

-- Nothing looks at the state before the peer manager is done.
def handleHandshake (k speed : Nat) (peers : List PexPeer) (n : Node δ) (s : PeerSession) :
    List Action :=
  [.session k (.receive (.handshake speed))] ++ sendHandshakeIfNeeded k n s ++
    [.task (.session (.onPeerSpeed s.slotId.toNat speed)), .announce k, .session k .connected,
      readNext k s .message] ++
    if peers = [] then [] else [.session k (.send (.pex 0 peers))]

def interestIf (k : Nat) (wanted : Bool) : List Action :=
  if wanted then [.session k .sendInterested] else []

-- What is sent in answer to a message.
def answer (k : Nat) (m : Msg) (n : Node δ) (s : PeerSession) : List Action :=
  match m with
  | .unchoke      => interestIf k (0 < n.task.scheduler.missingCount)
  | .interested   => if s.chokingPeer then [.session k (.choke false)] else []
  | .haveChunk ci =>
    interestIf k ((Scheduler.next std n.task.scheduler
      (.onHave s.slotId.toNat ci.toNat now)).wantsPeer s.slotId.toNat)
  | .bitfield bf  =>
    interestIf k ((Scheduler.next std n.task.scheduler
      (.onBitfield s.slotId.toNat (Bitfield.record bf) now)).wantsPeer s.slotId.toNat)
  -- New peers of a `pex` are connected to by separate steps.
  | _             => []

-- `handle_handshake`, `start_read_header` and `start_read_body`. A handshake is no header of a
-- message that is short enough, and a message is no handshake.
def receive (k : Nat) (m : Msg) (peers : List PexPeer) (n : Node δ) (s : PeerSession) : List Action :=
  if s.reading = .handshake then
    match m with
    | .handshake speed => handleHandshake k speed peers n s
    | _                => hangUp k
  else if s.reading = .message then
    match m with
    | .handshake _ => hangUp k
    | m            =>
      if maxMsgSize < m.bodyLen then hangUp k
      else [.dispatch k m] ++ answer std now k m n s ++ [readNext k s .message]
  else []

def readError (k : Nat) (s : PeerSession) : List Action :=
  if s.reading = .nothing then [] else hangUp k

def read (k j : Nat) (n : Node δ) (s : PeerSession) : List Action :=
  (s.reads[j]?).toList.map fun job => .session k (.finishRead j (job.pread n.task.file))

-- The requests that `do_eval_tick` finds to be too old.
def timedOut (s : PeerSession) : List (Nat × Nat) :=
  (s.pendingTimes.entries.filter fun e => requestTimeoutMs ≤ now.toNat - e.2.toNat).map fun e => ofLex e.1

def newPipelineCap (s : PeerSession) (fast : Bool) : Nat :=
  if timedOut now s = [] ∧ fast then min ((s.pipelineCap * 3 + 1) / 2) pipelineMax
  else max (s.pipelineCap / 2) pipelineMin

def evalTick (k : Nat) (fast : Bool) (rtt : UInt32) (s : PeerSession) : List Action :=
  if s.state ≠ .connected then []
  else
    let timeouts := s.consecutiveTimeouts + (timedOut now s).length
    let cap := newPipelineCap now s fast
    (timedOut now s).flatMap (fun x =>
      [.session k (.requestTimedOut x.1 x.2), .task (.session (.onSubblockTimeout x.1 x.2))]) ++
    if requestTimeoutLimit ≤ timeouts then [.detach k]
    else
      [.session k (.setPipelineCap cap),
        .task (.session (.evalTick s.slotId.toNat cap timeouts rtt))]

-- The positions of the sessions that are in `sessions_`.
def openSessions (n : Node δ) : List Nat :=
  n.sessions.findIdxs (!·.closed)

def onSession (n : Node δ) (k : Nat) (f : PeerSession → List Action) : List Action :=
  match n.sessions[k]? with
  | none   => []
  | some s => f s

-- The actions of a step.
def actions (n : Node δ) : Op → List Action
  | .connect             => n.openSession .connect
  | .accept              => n.openSession .handshake
  | .established k       => n.onSession k (established k n)
  | .receive k m peers   => n.onSession k (receive std now k m peers n)
  | .readError k         => n.onSession k (readError k)
  | .writeError k        => [.detach k]
  | .read k j            => n.onSession k (read k j n)
  | .post k              => [.session k .runPosted]
  | .evalTick k fast rtt => n.onSession k (evalTick now k fast rtt)
  | .tickChoke choked    => n.openSessions.map fun k => .session k (.choke (choked.getD k true))
  | .tickPex delta       =>
    if delta = [] then [] else n.openSessions.map fun k => .session k (.send (.pex 1 delta))
  | .io w                => [.task (.io w)]
  | .verify k            => [.task (.verify k)]
  | .tick dead           => [.task (.tick now dead)]

end Methods

-- A step at a time.
def step [DecidableEq δ] (sha256 : List UInt8 → δ) (std : StdSort) (n : Node δ) (x : UInt64 × Op) :
    Option (Node δ) :=
  Machine.run (apply sha256 std x.1) n (n.actions std x.1 x.2)

end Node
end ThinBT
