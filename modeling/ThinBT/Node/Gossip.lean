import ThinBT.Common.Platform
import ThinBT.Node.PeerManager
import ThinBT.Util.SortedMap
import Mathlib.Data.String.Basic
import Mathlib.Logic.Function.Basic

namespace ThinBT

-- PeerManager::RecentPeer
structure RecentPeer where
  when  : UInt64
  port  : UInt16
  flags : UInt8
  deriving DecidableEq, Repr

-- What a session keeps of its peer's handshake.
structure Hello where
  remoteSpeedMbps  : Nat := 0
  remoteListenPort : UInt16 := 0
  deriving DecidableEq, Repr

-- A peer manager with what it tells its peers about others.
structure Gossip (α δ : Type) where
  manager           : PeerManager α δ
  hellos            : Nat → Hello := fun _ => {}
  recentConnects    : SortedMap String RecentPeer := ∅
  recentDisconnects : SortedMap String RecentPeer := ∅

namespace Gossip

variable {α δ : Type}

section Methods

-- `inet_addr`, and the ports of the other ends of the sockets.
variable (fmt : AddressFormat α) (inetAddr : String → UInt32) (ports : Nat → UInt16)
variable (now : UInt64) (g : Gossip α δ) (k : Nat)

def remoteIp : String :=
  (g.manager.remotes[k]?).elim "unknown" (·.remoteIp fmt)

def remotePort : UInt16 :=
  if (g.manager.remotes[k]?).any (·.connected) then ports k else 0

-- The port and the flags under which others are told of a peer.
def peerPort : UInt16 :=
  if (g.hellos k).remoteListenPort ≠ 0 then (g.hellos k).remoteListenPort else g.remotePort ports k

def peerFlags : UInt8 :=
  if 1000 ≤ (g.hellos k).remoteSpeedMbps then 0x02 else 0x00

def makeFullPexList (exclude : Nat) : List PexPeer :=
  (g.manager.node.openSessions.filter fun k =>
    k ≠ exclude && PeerManager.isConnectablePeerIp fmt (g.remoteIp fmt k)).map fun k =>
      { ip    := inetAddr (g.remoteIp fmt k)
        port  := hton16 (g.peerPort ports k)
        flags := g.peerFlags k }

-- The entry that `note_recent_connect` and `note_recent_disconnect` make for the address of a session.
def note (recent : SortedMap String RecentPeer) : SortedMap String RecentPeer :=
  if PeerManager.isConnectablePeerIp fmt (g.remoteIp fmt k) then
    recent.upsert (g.remoteIp fmt k) ⟨now, g.peerPort ports k, g.peerFlags k⟩
  else recent

def noteRecentConnect : Gossip α δ :=
  { g with recentConnects := g.note fmt ports now k g.recentConnects }

def noteRecentDisconnect : Gossip α δ :=
  { g with recentDisconnects := g.note fmt ports now k g.recentDisconnects }

-- `socket_->close`
def closeSocket : Gossip α δ :=
  { g with manager := { g.manager with
      remotes := g.manager.remotes.modify k ({ · with connected := false }) } }

-- The rest of `disconnect`, which closes the socket before it calls `on_peer_disconnected`.
def disconnect : Gossip α δ :=
  (g.closeSocket k).noteRecentDisconnect fmt ports now k

-- The condition under which `tick_pex` tells of a peer. Times are in milliseconds.
def isRecent (e : String × RecentPeer) : Bool :=
  now.toNat < e.2.when.toNat + 60000 && PeerManager.isConnectablePeerIp fmt e.1 && e.2.port ≠ 0

def pexPeer (left : UInt8) (e : String × RecentPeer) : PexPeer where
  ip    := inetAddr e.1
  port  := hton16 e.2.port
  flags := e.2.flags ||| left

-- What `tick_pex` sends.
def delta : List PexPeer :=
  (g.recentConnects.entries.filter (isRecent fmt now)).map (pexPeer inetAddr 0) ++
    (g.recentDisconnects.entries.filter (isRecent fmt now)).map (pexPeer inetAddr 0x80)

end Methods

-- The steps that have no part of their own below.
def isPlain : PeerManager.Op α → Bool
  | .node (.receive _ (.handshake _) _) _ => false
  | .node (.tickPex _) _                  => false
  | _                                     => true

inductive Op (α : Type)
  | handshake (k speed : Nat) (listenPort : UInt16)
  | tickPex
  -- The callback that `on_peer_connected` sets for peers that have left.
  | onPexRemove (ip : String)
  | manager (op : PeerManager.Op α) (h : isPlain op)

theorem receive_opens_nothing {k : Nat} :
    Node.Op.receive k msg peers ≠ .connect ∧ Node.Op.receive k msg peers ≠ .accept := by
  simp

theorem tickPex_opens_nothing :
    Node.Op.tickPex peers ≠ .connect ∧ Node.Op.tickPex peers ≠ .accept := by
  simp

-- The sessions that a step has disconnected.
def disconnected (m m' : PeerManager α δ) : List Nat :=
  (List.range m.node.sessions.length).filter fun k =>
    (m.node.sessions[k]?).any (!·.closed) && (m'.node.sessions[k]?).any (·.closed)

section Steps

variable [DecidableEq δ] (fmt : AddressFormat α) (inetAddr : String → UInt32) (ports : Nat → UInt16)
variable (sha256 : List UInt8 → δ) (std : StdSort)

def managerStep (g : Gossip α δ) (now : UInt64) (op : PeerManager.Op α) : Option (Gossip α δ) :=
  (g.manager.step fmt sha256 std (now, op)).map fun m =>
    (disconnected g.manager m).foldl (disconnect fmt ports now) { g with manager := m }

-- `handle_handshake`, where the peer manager notes the peer if the session waits for a handshake.
def handshake (g : Gossip α δ) (now : UInt64) (k speed : Nat) (listenPort : UInt16) :
    Option (Gossip α δ) :=
  let peers := g.makeFullPexList fmt inetAddr ports k
  (g.managerStep fmt ports sha256 std now
    (.node (.receive k (.handshake speed) peers) receive_opens_nothing)).map fun g' =>
      if (g.manager.node.sessions[k]?).any (·.reading = .handshake) then
        { g' with hellos := Function.update g'.hellos k ⟨speed, listenPort⟩ }.noteRecentConnect fmt
          ports now k
      else g'

def tickPex (g : Gossip α δ) (now : UInt64) : Option (Gossip α δ) :=
  (g.managerStep fmt ports sha256 std now
    (.node (.tickPex (g.delta fmt inetAddr now)) tickPex_opens_nothing)).map fun g' =>
      { g' with recentConnects := ∅, recentDisconnects := ∅ }

-- A step at a time.
def step (g : Gossip α δ) (x : UInt64 × Op α) : Option (Gossip α δ) :=
  match x.2 with
  | .handshake k speed listenPort => g.handshake fmt inetAddr ports sha256 std x.1 k speed listenPort
  | .tickPex                      => g.tickPex fmt inetAddr ports sha256 std x.1
  | .onPexRemove ip               => some { g with recentConnects := g.recentConnects.erase ip }
  | .manager op _                 => g.managerStep fmt ports sha256 std x.1 op

end Steps
end Gossip
end ThinBT
