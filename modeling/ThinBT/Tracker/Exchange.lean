import ThinBT.Common.Inet
import ThinBT.Common.Platform
import ThinBT.Session.Protocol
import ThinBT.Session.Wire
import ThinBT.Tracker.Acceptor
import ThinBT.Util.Json
import ThinBT.Util.Machine

namespace ThinBT

open Cli Strings

-- Two digits for each byte.
def hexText (bytes : List UInt8) : String :=
  .ofList (bytes.flatMap fun b => [Nat.digitChar (b.toNat / 16), Nat.digitChar (b.toNat % 16)])

def sha1Hex (d : Sha1Digest) : String :=
  hexText d.val

-- What `async_read_until` has read when it is complete, however the bytes arrive.
def readLine (stream : List UInt8) : Option (List UInt8) :=
  (find [10] stream).map fun i => stream.take (i + 1)

namespace TrackerClient

-- The request of `do_announce`.
def request (infoHashHex : String) (p2pPort : UInt16) (speedMbps : UInt32) : String :=
  "\x7b\"op\":\"announce\",\"info_hash\":\"" ++ infoHashHex ++ "\",\"port\":" ++
    toString p2pPort.toNat ++ ",\"speed_mbps\":" ++ toString speedMbps.toNat ++ "\x7d\n"

-- `yyjson_get_uint`
def getUint : Json → UInt64
  | .int n => .ofInt n
  | _      => 0

-- The body of the loop of `parse_tracker_response`, which skips elements without an address or a port.
-- `none` stands for a call of `inet_addr` without a text.
def parsePeer (inet : Inet) (v : Json) : Option (Option PexPeer) :=
  match v.get (utf8 "ip"), v.get (utf8 "port") with
  | some (.str ip), some port => some (some {
      ip    := inet.addr (ip.takeWhile (· ≠ 0))
      port  := hton16 (getUint port).toUInt16
      flags := ((v.get (utf8 "flags")).elim 0 getUint).toUInt8 })
  | some _, some _            => none
  | _, _                      => some none

def parseTrackerResponse (reader : Json.Reader) (inet : Inet) (resp : List UInt8) :
    Option (List PexPeer) :=
  match reader.read resp with
  | none      => some []
  | some root =>
    if (root.get (utf8 "error")).isSome then some []
    else
      match root.get (utf8 "peers") with
      | some (.arr vs) => (vs.mapM (parsePeer inet)).map (·.filterMap id)
      | _              => some []

-- The arguments with which the callback of `announce_task_now` calls `connect_to`.
def onPeers (inet : Inet) (peers : List PexPeer) : List (String × UInt16 × UInt8) :=
  peers.map fun p => (inet.ntoa p.ip, ntoh16 p.port, p.flags)

end TrackerClient

-- What a client announces, with the address of its socket.
structure Announce where
  infoHash  : Sha1Digest
  ip        : UInt32
  port      : UInt16
  speedMbps : UInt32

namespace Exchange

inductive Op
  | announce (a : Announce)
  | cleanupStale (timeoutSec : UInt32)

section Step

variable (reader : Json.Reader) (inet : Inet) (std : FlagSort)

-- A client connects to the tracker, sends its request and reads the response.
def announce (server : TrackerServer) (now : Int) (a : Announce) :
    Option (TrackerServer × List PexPeer) := do
  let request ← readLine (utf8 (TrackerClient.request (sha1Hex a.infoHash) a.port a.speedMbps))
  let (server, resp) ← TrackerAcceptor.handleClient std server now (some (inet.ntoa a.ip)) request
  let resp ← readLine (utf8 resp)
  let peers ← TrackerClient.parseTrackerResponse reader inet resp
  return (server, peers)

-- A step at a time.
def step (server : TrackerServer) (x : Int × Op) : Option TrackerServer :=
  match x.2 with
  | .announce a              => (announce reader inet std server x.1 a).map (·.1)
  | .cleanupStale timeoutSec => some (server.cleanupStale x.1 timeoutSec)

end Step
end Exchange
end ThinBT
