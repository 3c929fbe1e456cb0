import ThinBT.Session.Socket
import ThinBT.Swarm.State

namespace ThinBT

-- What handshakes tell besides the speed. Each session has a random peer id.
structure Identity where
  infoHash   : Sha1Digest
  listenPort : Nat → UInt16
  peerId     : End → { bytes : List UInt8 // bytes.length = 20 }

-- `send_handshake`
def Identity.hello (p : Identity) (d : End) (speed : Nat) : List UInt8 :=
  let h : Handshake := { infoHash := p.infoHash, peerId := p.peerId d }
  serializeHandshake (h.build p.infoHash (.ofNat speed) (p.listenPort d.node))

-- A swarm whose connections carry bytes.
structure ByteSwarm (δ : Type) where
  swarm  : Swarm δ
  socket : End → Socket := fun _ => {}

namespace ByteSwarm

inductive Op
  -- At most `n` more bytes arrive at a session.
  | arrive (e : End) (n : Nat)
  -- The read of a session is complete.
  | read (e : End) (peers : List PexPeer)
  -- A step that does not concern the connections.
  | swarm (op : Swarm.Op)

variable {δ : Type}

def isDeliver : Swarm.Op → Bool
  | .deliver .. => true
  | _           => false

-- The bytes that have been written at the other end, which are undefined if a builder leaves its
-- buffer.
def written (p : Identity) (w : Swarm δ) (e : End) : Option (List UInt8) :=
  match w.mate e with
  | none   => some []
  | some d => encodeAll (p.hello d) (((w.session d).map (·.stream)).getD [])

def arrive (p : Identity) (b : ByteSwarm δ) (e : End) (n : Nat) : Option (ByteSwarm δ) := do
  let bytes ← written p b.swarm e
  let k := b.socket e
  return { b with socket := Function.update b.socket e (k.push ((bytes.drop k.arrived).take n)) }

section Step

variable [DecidableEq δ] (sha256 : List UInt8 → δ) (std : StdSort) (p : Identity)

-- A step of a node that is caused by what it has read.
def nodeStep (w : Swarm δ) (now : UInt64) (i : Nat) (op : Node.Op) : Option (Swarm δ) :=
  match w.nodes[i]? with
  | none   => some w
  | some n => do
    let n' ← n.step sha256 std (now, op)
    return { w with nodes := w.nodes.set i n' }

def handle (w : Swarm δ) (now : UInt64) (e : End) (peers : List PexPeer) :
    Socket.Event → Option (Swarm δ)
  | .wait | .next => some w
  | .fail         => nodeStep sha256 std w now e.node (.readError e.session)
  | .message m    => nodeStep sha256 std w now e.node (.receive e.session m peers)

def read (b : ByteSwarm δ) (now : UInt64) (e : End) (peers : List PexPeer) : Option (ByteSwarm δ) :=
  match b.swarm.session e with
  | none   => some b
  | some s => do
    let x ← (b.socket e).poll p.infoHash s
    let w ← handle sha256 std b.swarm now e peers x.1
    return { swarm := w, socket := Function.update b.socket e x.2 }

-- A step at a time.
def step (b : ByteSwarm δ) (x : UInt64 × Op) : Option (ByteSwarm δ) :=
  match x.2 with
  | .arrive e n   => b.arrive p e n
  | .read e peers => b.read sha256 std p x.1 e peers
  | .swarm op     =>
    if isDeliver op then some b
    else (b.swarm.step sha256 std (x.1, op)).map fun w => { b with swarm := w }

end Step
end ByteSwarm
end ThinBT
