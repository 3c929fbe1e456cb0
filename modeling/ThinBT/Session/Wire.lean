import ThinBT.Common.Platform
import ThinBT.Session.Protocol

namespace ThinBT

inductive P2PMsgId
  | choke
  | unchoke
  | interested
  | notInterested
  | haveChunk
  | bitfield
  | request
  | piece
  | cancel
  | pex
  deriving DecidableEq, Repr

def P2PMsgId.toByte : P2PMsgId → UInt8
  | .choke         => 0
  | .unchoke       => 1
  | .interested    => 2
  | .notInterested => 3
  | .haveChunk     => 4
  | .bitfield      => 5
  | .request       => 6
  | .piece         => 7
  | .cancel        => 8
  | .pex           => 9

abbrev Sha1Digest :=
  { bytes : List UInt8 // bytes.length = 20 }

structure Handshake where
  protocolId : { bytes : List UInt8 // bytes.length = 19 } := ⟨.replicate 19 0, rfl⟩
  reserved   : { bytes : List UInt8 // bytes.length = 4 } := ⟨.replicate 4 0, rfl⟩
  speedMbps  : UInt32 := 0
  infoHash   : Sha1Digest := ⟨.replicate 20 0, rfl⟩
  peerId     : { bytes : List UInt8 // bytes.length = 20 } := ⟨.replicate 20 0, rfl⟩
  deriving DecidableEq

namespace Handshake

-- `PROTOCOL_ID`, which is "thinBT Protocol".
def protocolName : List UInt8 :=
  [116, 104, 105, 110, 66, 84, 32, 80, 114, 111, 116, 111, 99, 111, 108]

-- The packed struct in memory.
def image : Codec Handshake :=
  ((Codec.raw 19).prod <| (Codec.raw 4).prod <| Codec.u32.prod <|
    (Codec.raw 20).prod (Codec.raw 20)).imap {
      toFun     := fun x => ⟨x.1, x.2.1, x.2.2.1, x.2.2.2.1, x.2.2.2.2⟩
      invFun    := fun h => (h.protocolId, h.reserved, h.speedMbps, h.infoHash, h.peerId)
      left_inv  := fun _ => rfl
      right_inv := fun _ => rfl }

def build (h : Handshake) (infoHash : Sha1Digest) (speed : UInt32) (listenPort : UInt16) :
    Handshake :=
  { h with
    protocolId := ⟨protocolName ++ .replicate 4 0, rfl⟩
    reserved   := ⟨leBytes 2 (hton16 listenPort).toNat ++ .replicate 2 0, rfl⟩
    speedMbps  := hton32 speed
    infoHash   := infoHash }

def validateProtocolId (h : Handshake) : Bool :=
  h.protocolId.val.take 15 = protocolName && h.protocolId.val.drop 15 = .replicate 4 0

def listenPort (h : Handshake) : UInt16 :=
  ntoh16 (.ofNat (leNat (h.reserved.val.take 2)))

end Handshake

def serializeHandshake (h : Handshake) : List UInt8 :=
  Handshake.image.write h

def parseHandshake (data : List UInt8) : Option Handshake :=
  if data.length < 67 then none
  else do
    let x ← Handshake.image.read data
    if x.1.validateProtocolId then some { x.1 with speedMbps := ntoh32 x.1.speedMbps } else none

section Builders

def be32 (v : UInt32) : List UInt8 :=
  Codec.u32.write (hton32 v)

-- The buffer has room for `5 + payload_len` bytes, which is computed on `uint32_t`. Builders are
-- undefined if they leave their buffer.
def buildMessage (id : P2PMsgId) (payload : List UInt8) : Option (List UInt8) :=
  let payloadLen : UInt32 := .ofNat payload.length
  if 5 + payload.length ≤ (5 + payloadLen).toNat then
    some (be32 (1 + payloadLen) ++ [id.toByte] ++ payload)
  else none

def buildHave (chunkIdx : UInt32) : Option (List UInt8) :=
  buildMessage .haveChunk (be32 chunkIdx)

def buildBitfield (bits : List Bool) : Option (List UInt8) := do
  let bf ← Bitfield.build bits
  buildMessage .bitfield (bf.map UInt8.ofBitVec)

def buildRequest (index begin length : UInt32) : Option (List UInt8) :=
  buildMessage .request (be32 index ++ be32 begin ++ be32 length)

def buildPiece (index begin : UInt32) (data : List UInt8) : Option (List UInt8) :=
  let msgLen : UInt32 := 1 + 8 + .ofNat data.length
  if 13 + data.length ≤ (4 + msgLen).toNat then
    some (be32 msgLen ++ [P2PMsgId.piece.toByte] ++ be32 index ++ be32 begin ++ data)
  else none

def buildCancel (index begin length : UInt32) : Option (List UInt8) :=
  buildMessage .cancel (be32 index ++ be32 begin ++ be32 length)

def buildInterested : Option (List UInt8) :=
  buildMessage .interested []

def buildNotInterested : Option (List UInt8) :=
  buildMessage .notInterested []

-- The packed struct in memory.
def PexPeer.image : Codec PexPeer :=
  (Codec.u32.prod (Codec.u16.prod (Codec.u8.prod Codec.u8))).imap {
    toFun     := fun x => ⟨x.1, x.2.1, x.2.2.1, x.2.2.2⟩
    invFun    := fun p => (p.ip, p.port, p.flags, p.reserved)
    left_inv  := fun _ => rfl
    right_inv := fun _ => rfl }

def buildPex (isDelta : Bool) (peers : List PexPeer) : Option (List UInt8) :=
  let plen : UInt32 := 3 + .ofNat peers.length * 8
  if 3 + peers.length * 8 ≤ plen.toNat then
    buildMessage .pex ([if isDelta then 1 else 0] ++
      Codec.u16.write (hton16 (.ofNat peers.length)) ++ peers.flatMap PexPeer.image.write)
  else none

end Builders

section Receiver

def parseMessageHeader (data : List UInt8) : Option (UInt32 × UInt8) := do
  let x ← Codec.u32.read data
  let y ← Codec.u8.read x.2
  if 1 ≤ ntoh32 x.1 then some (ntoh32 x.1, y.1) else none

-- `start_read_header` and `start_read_body`: the id and the body of the next message. The session
-- disconnects on a header that it does not accept and waits if bytes are missing.
def readMessage (bytes : List UInt8) : Option ((UInt8 × List UInt8) × List UInt8) := do
  let header ← parseMessageHeader (bytes.take 5)
  let bodyLen := (header.1 - 1).toNat
  if bodyLen ≤ maxMsgSize ∧ 5 + bodyLen ≤ bytes.length then
    some ((header.2, (bytes.drop 5).take bodyLen), (bytes.drop 5).drop bodyLen)
  else none

-- Reads messages until the stream ends. Every message has at least five bytes.
def readMessages : Nat → List UInt8 → Option (List (UInt8 × List UInt8))
  | _, []                  => some []
  | 0, _ :: _              => none
  | fuel + 1, b :: bytes => do
    let x ← readMessage (b :: bytes)
    let xs ← readMessages fuel x.2
    return x.1 :: xs

-- What a session reads from a stream: a handshake and messages.
def readStream (bytes : List UInt8) : Option (Handshake × List (UInt8 × List UInt8)) := do
  let h ← parseHandshake (bytes.take 67)
  let ms ← readMessages bytes.length (bytes.drop 67)
  return (h, ms)

def field32 (body : List UInt8) (off : Nat) : Option UInt32 :=
  (Codec.u32.read (body.drop off)).map fun x => ntoh32 x.1

-- The fields that `dispatch_message` and its handlers decode. They are undefined if a handler reads
-- behind the body, and there is no message if the handler ignores it.
def decode (id : UInt8) (body : List UInt8) : Option (Option Msg) :=
  match id with
  | 0 => some (some .choke)
  | 1 => some (some .unchoke)
  | 2 => some (some .interested)
  | 3 => some (some .notInterested)
  | 4 => do
    let ci ← field32 body 0
    return some (.haveChunk ci)
  | 5 => some (some (.bitfield (body.map UInt8.toBitVec)))
  | 6 => do
    let index ← field32 body 0
    let begin ← field32 body 4
    let length ← field32 body 8
    return some (.request index begin length)
  | 7 =>
    if body.length < 8 then some none
    else do
      let index ← field32 body 0
      let begin ← field32 body 4
      return some (.piece index begin (body.drop 8))
  | 8 => do
    let index ← field32 body 0
    let begin ← field32 body 4
    return some (.cancel index begin)
  | 9 =>
    if body.length < 3 then some none
    else do
      let op ← Codec.u8.read body
      let count ← Codec.u16.read op.2
      if body.length < 3 + (ntoh16 count.1).toNat * 8 then return none
      else
        let peers ← PexPeer.image.readN (ntoh16 count.1).toNat count.2
        return some (.pex op.1 peers.1)
  | _ => some none

-- `dispatch_message` on the bytes of a body, which are the null pointer if there are none: the message
-- that a handler acts on.
def dispatchBytes (chokingPeer : Bool) (id : UInt8) (body : List UInt8) : Option (Option Msg) :=
  -- `handle_request_msg` returns before it reads the body.
  if id = P2PMsgId.request.toByte ∧ chokingPeer then some none else decode id body

end Receiver
end ThinBT
