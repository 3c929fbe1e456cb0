import ThinBT.Cli.Make
import ThinBT.Common.Numbers
import ThinBT.Tracker.Server

namespace ThinBT.TrackerAcceptor

open Cli Strings Numbers

-- What both extractors look for, and the first colon behind it.
def search (key : String) : List UInt8 :=
  34 :: (utf8 key ++ [34])

def colon (obj : List UInt8) (key : String) : Option Nat := do
  let kp ← find (search key) obj
  findFrom [58] obj (kp + (search key).length)

def jsonExtractString (obj : List UInt8) (key : String) : List UInt8 :=
  let s := do
    let colon ← colon obj key
    let vs ← findFrom [34] obj (colon + 1)
    let ve ← findFrom [34] obj (vs + 1)
    return obj.slice (vs + 1) (ve - vs - 1)
  s.getD []

def isBlank (b : UInt8) : Bool :=
  b = 32 || b = 9

-- `isdigit` is false for the bytes from 128 on, which it gets as negative numbers.
def isNumeric (b : UInt8) : Bool :=
  isDigit b || b = 45

-- The text that `json_extract_int` converts, unless there is no key or no colon.
def numberText (obj : List UInt8) (key : String) : Option (List UInt8) :=
  (colon obj key).map fun colon => ((obj.drop (colon + 1)).dropWhile isBlank).takeWhile isNumeric

-- `none` stands for an exception.
def jsonExtractInt (obj : List UInt8) (key : String) : Option UInt64 :=
  match numberText obj key with
  | none     => some 0
  | some num => if num = [] then some 0 else stoull num

-- The key of a swarm has a character for each byte.
def ofBytes (bytes : List UInt8) : String :=
  .ofList (bytes.map fun b => .ofNat b.toNat)

def missingInfoHash : String :=
  "\x7b\"error\":\"missing info_hash\"\x7d\n"

def entry (p : TrackerPeerEntry) : String :=
  "\x7b\"ip\":\"" ++ p.ip ++ "\",\"port\":" ++ toString p.port.toNat ++ ",\"flags\":" ++
    toString p.flags.toNat ++ "\x7d"

-- The requester is left out once more.
def response (peers : List TrackerPeerEntry) (peerIp : String) (peerPort : UInt16) : String :=
  let peers := peers.filter fun p => !(p.ip = peerIp && p.port = peerPort)
  "\x7b\"interval\":30,\"peers\":[" ++ ",".intercalate (peers.map entry) ++ "]\x7d\n"

-- The handler of a request in `handle_client` and what it writes. `remote` is the address of the
-- other side, unless the socket has none any more, and `none` stands for an exception.
def handleClient (std : FlagSort) (server : TrackerServer) (now : Int) (remote : Option String)
    (request : List UInt8) : Option (TrackerServer × String) := do
  let infoHash := jsonExtractString request "info_hash"
  let port ← jsonExtractInt request "port"
  let speedMbps ← jsonExtractInt request "speed_mbps"
  if infoHash = [] then return (server, missingInfoHash)
  else
    let peerIp := remote.getD ""
    let (server, peers) :=
      server.announce std now (ofBytes infoHash) peerIp port.toUInt16 speedMbps.toUInt32
    return (server, response peers peerIp port.toUInt16)

end ThinBT.TrackerAcceptor
