import ThinBT.Session.Wire
import ThinBT.Session.PeerSession

namespace ThinBT

section Writer

-- The bytes of a message. Cancelled sub-blocks are sent with their length.
def Msg.encode (hello : Nat → List UInt8) : Msg → Option (List UInt8)
  | handshake speed            => some (hello speed)
  | choke                      => buildMessage .choke []
  | unchoke                    => buildMessage .unchoke []
  | interested                 => buildInterested
  | notInterested              => buildNotInterested
  | haveChunk ci               => buildHave ci
  | bitfield bf                => buildMessage .bitfield (bf.map UInt8.ofBitVec)
  | request index begin length => buildRequest index begin length
  | piece index begin data     => buildPiece index begin data
  | cancel index begin         => buildCancel index begin (.ofNat subBlockSize)
  | pex op peers               => buildPex (op = 1) peers

-- The bytes of a stream of messages.
def encodeAll (hello : Nat → List UInt8) : List Msg → Option (List UInt8)
  | []      => some []
  | m :: ms => do
    let bytes ← m.encode hello
    let rest ← encodeAll hello ms
    return bytes ++ rest

end Writer

-- The receiving side of a socket.
structure Socket where
  -- The number of bytes of the peer that have arrived, and those of them that are not read yet.
  arrived : Nat := 0
  unread  : List UInt8 := []
  -- The header whose body is read next.
  header  : Option (UInt8 × Nat) := none
  deriving DecidableEq, Repr

namespace Socket

def push (k : Socket) (bytes : List UInt8) : Socket :=
  { k with arrived := k.arrived + bytes.length, unread := k.unread ++ bytes }

-- What the handler of a read does.
inductive Event
  -- The read is not complete.
  | wait
  -- `disconnect`
  | fail
  -- The next read is started.
  | next
  | message (m : Msg)
  deriving DecidableEq, Repr

-- A read that is started on a closed socket fails.
def startRead (s : PeerSession) : Event :=
  if s.closed then .fail else .next

-- `dispatch_message`. A request is a message also for a session that chokes its peer.
def dispatch (s : PeerSession) (id : UInt8) (body : List UInt8) : Option Event := do
  let _ ← dispatchBytes s.chokingPeer id body
  return (decode id body).join.elim (startRead s) .message

-- `handle_handshake`
def pollHandshake (infoHash : Sha1Digest) (k : Socket) : Event × Socket :=
  if k.unread.length < 67 then (.wait, k)
  else
    match parseHandshake (k.unread.take 67) with
    | none   => (.fail, k)
    | some h =>
      if h.infoHash = infoHash then
        (.message (.handshake h.speedMbps.toNat), { k with unread := k.unread.drop 67 })
      else (.fail, k)

-- `start_read_body`, after the read of the body
def pollBody (s : PeerSession) (id : UInt8) (bodyLen : Nat) (k : Socket) : Option (Event × Socket) :=
  if k.unread.length < bodyLen then some (.wait, k)
  else do
    let event ← dispatch s id (k.unread.take bodyLen)
    return (event, { k with unread := k.unread.drop bodyLen, header := none })

-- `start_read_header`, after the read of the header. There is no read for an empty body.
def pollHeader (s : PeerSession) (k : Socket) : Option (Event × Socket) :=
  if k.unread.length < 5 then some (.wait, k)
  else
    match parseMessageHeader (k.unread.take 5) with
    | none              => some (.fail, k)
    | some (msgLen, id) =>
      let bodyLen := (msgLen - 1).toNat
      if maxMsgSize < bodyLen then some (.fail, k)
      else if bodyLen = 0 then { k with unread := k.unread.drop 5 }.pollBody s id 0
      else some (startRead s, { k with unread := k.unread.drop 5, header := some (id, bodyLen) })

-- The handler of the read that the session has started, which is undefined if it reads behind a body.
def poll (infoHash : Sha1Digest) (s : PeerSession) (k : Socket) : Option (Event × Socket) :=
  match s.reading with
  | .handshake => some (k.pollHandshake infoHash)
  | .message   =>
    match k.header with
    | none               => k.pollHeader s
    | some (id, bodyLen) => k.pollBody s id bodyLen
  | _          => some (.wait, k)

end Socket

end ThinBT
