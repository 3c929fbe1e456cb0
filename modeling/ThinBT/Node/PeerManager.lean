import ThinBT.Node.State

namespace ThinBT

-- Addresses and their texts: `text` is what a socket gives for an address, `host` is the address that
-- a text is resolved to, and `valid` tells which texts `inet_addr` accepts.
structure AddressFormat (α : Type) where
  text      : α → String
  host      : String → α
  valid     : String → Bool
  host_text : ∀ a, host (text a) = a

-- The socket of a session, as far as it is asked for its remote end.
structure Remote (α : Type) where
  address   : α
  connected : Bool

def Remote.remoteIp (fmt : AddressFormat α) (r : Remote α) : String :=
  if r.connected then fmt.text r.address else "unknown"

-- A node with the remote ends of its sessions, in the order of the sessions.
structure PeerManager (α δ : Type) where
  node         : Node δ
  remotes      : List (Remote α) := []
  localPeerIps : List String
  p2pPort      : UInt16

namespace PeerManager

variable {α δ : Type}

def isUnspecifiedOrBroadcast (ip : String) : Bool :=
  ip = "0.0.0.0" || ip = "255.255.255.255"

def isConnectablePeerIp (fmt : AddressFormat α) (ip : String) : Bool :=
  if ip = "" || ip = "unknown" then false
  else if isUnspecifiedOrBroadcast ip then false
  else fmt.valid ip

def isSelfPeerEndpoint (localIps : List String) (localPort : UInt16) (ip : String) (port : UInt16) :
    Bool :=
  if port ≠ localPort then false else localIps.contains ip

-- The remote ends of `sessions_`.
def openRemotes (m : PeerManager α δ) : List (Remote α) :=
  ((m.node.sessions.zip m.remotes).filter (!·.1.closed)).map (·.2)

def isDuplicate (fmt : AddressFormat α) (m : PeerManager α δ) (ip : String) : Bool :=
  m.openRemotes.any (·.remoteIp fmt = ip)

inductive Op (α : Type)
  | connectTo (ip : String) (port : UInt16)
  -- The callback that `on_peer_connected` sets.
  | onPexPeer (ip : String) (port : UInt16)
  | accept (address : α)
  -- A socket gets or loses its connection. Its session is told by another step.
  | setConnected (k : Nat) (connected : Bool)
  -- Everything else that may happen to the node.
  | node (op : Node.Op) (h : op ≠ .connect ∧ op ≠ .accept)

section Steps

variable [DecidableEq δ] (fmt : AddressFormat α) (sha256 : List UInt8 → δ) (std : StdSort)
variable (now : UInt64)

-- A new session and `on_peer_connected`.
def openSession (m : PeerManager α δ) (op : Node.Op) (r : Remote α) : Option (PeerManager α δ) :=
  (m.node.step sha256 std (now, op)).map fun n =>
    { m with node := n, remotes := m.remotes ++ [r] }

def connectTo (m : PeerManager α δ) (ip : String) (port : UInt16) : Option (PeerManager α δ) :=
  if maxPeers ≤ m.node.peerCount then some m
  else if !isConnectablePeerIp fmt ip then some m
  else if isSelfPeerEndpoint m.localPeerIps m.p2pPort ip port then some m
  else if m.isDuplicate fmt ip then some m
  else m.openSession sha256 std now .connect ⟨fmt.host ip, false⟩

def onPexPeer (m : PeerManager α δ) (ip : String) (port : UInt16) : Option (PeerManager α δ) :=
  if maxPeers ≤ m.node.peerCount then some m
  else if !isConnectablePeerIp fmt ip then some m
  else if m.isDuplicate fmt ip then some m
  else m.connectTo fmt sha256 std now ip port

-- `do_accept`
def accept (m : PeerManager α δ) (address : α) : Option (PeerManager α δ) :=
  if maxPeers ≤ m.node.peerCount then some m
  else m.openSession sha256 std now .accept ⟨address, true⟩

-- A step at a time.
def step (m : PeerManager α δ) (x : UInt64 × Op α) : Option (PeerManager α δ) :=
  match x.2 with
  | .connectTo ip port        => m.connectTo fmt sha256 std x.1 ip port
  | .onPexPeer ip port        => m.onPexPeer fmt sha256 std x.1 ip port
  | .accept address           => m.accept sha256 std x.1 address
  | .setConnected k connected =>
    some { m with remotes := m.remotes.modify k ({ · with connected := connected }) }
  | .node op _                =>
    (m.node.step sha256 std (x.1, op)).map ({ m with node := · })

end Steps
end PeerManager
end ThinBT
