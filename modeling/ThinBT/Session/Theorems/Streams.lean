import ThinBT.Session.Wire

namespace ThinBT

-- A message with the function that builds it.
inductive Built
  | message (id : P2PMsgId) (payload : List UInt8)
  | haveChunk (chunkIdx : UInt32)
  | bitfield (bits : List Bool)
  | request (index begin length : UInt32)
  | piece (index begin : UInt32) (data : List UInt8)
  | cancel (index begin length : UInt32)
  | interested
  | notInterested
  | pex (isDelta : Bool) (peers : List PexPeer)

namespace Built

def bytes : Built → Option (List UInt8)
  | message id payload         => buildMessage id payload
  | haveChunk chunkIdx         => buildHave chunkIdx
  | bitfield bits              => buildBitfield bits
  | request index begin length => buildRequest index begin length
  | piece index begin data     => buildPiece index begin data
  | cancel index begin length  => buildCancel index begin length
  | interested                 => buildInterested
  | notInterested              => buildNotInterested
  | pex isDelta peers          => buildPex isDelta peers

def id : Built → P2PMsgId
  | message id _  => id
  | haveChunk _   => .haveChunk
  | bitfield _    => .bitfield
  | request ..    => .request
  | piece ..      => .piece
  | cancel ..     => .cancel
  | interested    => .interested
  | notInterested => .notInterested
  | pex ..        => .pex

def body : Built → List UInt8
  | message _ payload          => payload
  | haveChunk chunkIdx         => be32 chunkIdx
  | bitfield bits              => ((Bitfield.build bits).getD []).map UInt8.ofBitVec
  | request index begin length => be32 index ++ be32 begin ++ be32 length
  | piece index begin data     => be32 index ++ be32 begin ++ data
  | cancel index begin length  => be32 index ++ be32 begin ++ be32 length
  | interested                 => []
  | notInterested              => []
  | pex isDelta peers          => [if isDelta then 1 else 0] ++
    Codec.u16.write (hton16 (.ofNat peers.length)) ++ peers.flatMap PexPeer.image.write

-- A message as it is received: the fields that were passed to the builder are those that the session
-- decodes. The length of a cancelled sub-block is not decoded.
def Received (m : Built) (f : UInt8 × List UInt8) : Prop :=
  f.1 = m.id.toByte ∧
  match m with
  | message _ payload          => f.2 = payload
  | haveChunk chunkIdx         => decode f.1 f.2 = some (some (.haveChunk chunkIdx))
  | bitfield bits              => ∃ bf, decode f.1 f.2 = some (some (.bitfield bf)) ∧
    ∃ n < 8, Bitfield.record bf = bits ++ .replicate n false ∧ (bits.length + n) % 8 = 0
  | request index begin length => decode f.1 f.2 = some (some (.request index begin length))
  | piece index begin data     => decode f.1 f.2 = some (some (.piece index begin data))
  | cancel index begin _       => decode f.1 f.2 = some (some (.cancel index begin))
  | interested                 => decode f.1 f.2 = some (some .interested)
  | notInterested              => decode f.1 f.2 = some (some .notInterested)
  | pex isDelta peers          =>
    decode f.1 f.2 = some (some (.pex (if isDelta then 1 else 0) peers))

end Built

section Frames

variable {id : P2PMsgId} {body : List UInt8}

def frame (id : P2PMsgId) (body : List UInt8) : List UInt8 :=
  be32 (1 + .ofNat body.length) ++ [id.toByte] ++ body

@[simp]
theorem length_be32 : (be32 v).length = 4 :=
  length_leBytes

theorem write_u8 : Codec.u8.write b = [b] := by
  change [UInt8.ofNat b.toNat] = [b]
  rw [UInt8.ofNat_toNat]

theorem read_be32 : Codec.u32.read (be32 v ++ rest) = some (hton32 v, rest) :=
  Codec.u32.read_write ..

theorem read_u8 : Codec.u8.read (b :: rest) = some (b, rest) := by
  have h := Codec.u8.read_write b rest
  rwa [write_u8] at h

theorem eq_frame_of_buildMessage (h : buildMessage id payload = some bs) : bs = frame id payload := by
  simp only [buildMessage] at h
  split at h
  case isTrue  => exact (Option.some.inj h).symm
  case isFalse => cases h

theorem Built.eq_frame {m : Built} (h : m.bytes = some bs) : bs = frame m.id m.body := by
  cases m
  case bitfield bits =>
    obtain ⟨bf, hb, h⟩ := Option.bind_eq_some_iff.mp h
    rw [eq_frame_of_buildMessage h, body, hb]
    rfl
  case piece index begin data =>
    simp only [bytes, buildPiece] at h
    split at h
    case isFalse => cases h
    case isTrue =>
      have hl : (1 + 8 + .ofNat data.length : UInt32) =
          1 + .ofNat (be32 index ++ be32 begin ++ data).length := by
        simp only [List.length_append, length_be32, UInt32.ofNat_add]
        rw [UInt32.add_assoc]
        rfl
      rw [← Option.some.inj h, hl]
      simp only [frame, body, id, List.append_assoc]
  case pex isDelta peers =>
    simp only [bytes, buildPex] at h
    split at h
    case isTrue  => exact eq_frame_of_buildMessage h
    case isFalse => cases h
  all_goals exact eq_frame_of_buildMessage h

theorem length_frame : (frame id body).length = 5 + body.length := by
  simp [frame]
  omega

theorem drop_frame : (frame id body ++ rest).drop 5 = body ++ rest := by
  have h5 : (be32 (1 + .ofNat body.length) ++ [id.toByte]).length = 5 := by simp
  rw [frame, List.append_assoc, List.drop_left' h5]

theorem parseMessageHeader_frame (h : body.length + 1 < 2 ^ 32) :
    parseMessageHeader ((frame id body ++ rest).take 5) = some (1 + .ofNat body.length, id.toByte) := by
  have hn : (UInt32.ofNat body.length).toNat = body.length := UInt32.toNat_ofNat_of_lt' (by
    rw [UInt32.size]
    omega)
  have h5 : (be32 (1 + .ofNat body.length) ++ [id.toByte]).length = 5 := by simp
  have h1 : (1 : UInt32) ≤ 1 + .ofNat body.length := by
    rw [UInt32.le_iff_toNat_le, UInt32.toNat_add, hn]
    have : (1 : UInt32).toNat = 1 := rfl
    omega
  rw [frame, List.append_assoc, List.take_left' h5]
  simp only [parseMessageHeader, read_be32, read_u8, Option.bind_eq_bind, Option.bind_some,
    ntoh32_hton32, if_pos h1]

-- The message is read if the session accepts its length.
theorem readMessage_frame_eq (h : body.length + 1 < 2 ^ 32) :
    readMessage (frame id body ++ rest) =
      if body.length ≤ maxMsgSize then some ((id.toByte, body), rest) else none := by
  have hs : (1 + .ofNat body.length - 1 : UInt32).toNat = body.length := by
    rw [UInt32.add_comm, UInt32.add_sub_cancel]
    exact UInt32.toNat_ofNat_of_lt' (by rw [UInt32.size]; omega)
  have hl : (frame id body ++ rest).length = 5 + body.length + rest.length := by
    rw [List.length_append, length_frame]
  simp only [readMessage, parseMessageHeader_frame h, Option.bind_eq_bind, Option.bind_some, hs, hl,
    drop_frame, List.take_left' rfl, List.drop_left' rfl]
  exact if_congr (and_iff_left (by omega)) rfl rfl

theorem readMessage_frame (h : body.length ≤ maxMsgSize) :
    readMessage (frame id body ++ rest) = some ((id.toByte, body), rest) := by
  have hb : body.length ≤ 65536 := h
  rw [readMessage_frame_eq (by omega), if_pos h]

theorem readMessages_frames {ms : List Built} (h : ∀ m ∈ ms, m.body.length ≤ maxMsgSize)
    (hf : ms.length ≤ fuel) :
    readMessages fuel (ms.flatMap fun m => frame m.id m.body) =
      some (ms.map fun m => (m.id.toByte, m.body)) := by
  induction ms generalizing fuel
  case nil => cases fuel <;> rfl
  case cons m ms hi =>
    have ⟨hm, hs⟩ := List.forall_mem_cons.mp h
    obtain ⟨fuel, rfl⟩ : ∃ n, fuel = n + 1 := Nat.exists_eq_add_one.mpr (by
      rw [List.length_cons] at hf
      omega)
    have hne : frame m.id m.body ++ (ms.flatMap fun m => frame m.id m.body) ≠ [] := by
      rw [Ne, List.append_eq_nil_iff, ← List.length_eq_zero_iff, length_frame]
      omega
    obtain ⟨b, bytes, hb⟩ := List.exists_cons_of_ne_nil hne
    rw [List.flatMap_cons, hb, readMessages, ← hb, readMessage_frame hm]
    simp only [Option.bind_eq_bind, Option.bind_some]
    rw [hi hs (Nat.le_of_succ_le_succ hf)]
    rfl

end Frames

section Fields

theorem field32_zero : field32 (be32 v ++ rest) 0 = some v := by
  rw [field32, List.drop_zero, read_be32, Option.map_some, ntoh32_hton32]

theorem field32_self : field32 (be32 v) 0 = some v := by
  have h : field32 (be32 v ++ []) 0 = some v := field32_zero
  rwa [List.append_nil] at h

theorem field32_add : field32 (be32 v ++ rest) (4 + n) = field32 rest n := by
  rw [field32, field32, ← List.drop_drop, List.drop_left' length_be32]

theorem field32_four : field32 (be32 v ++ be32 w ++ rest) 4 = some w := by
  rw [List.append_assoc, show 4 = 4 + 0 from rfl, field32_add, field32_zero]

theorem field32_eight : field32 (be32 u ++ be32 v ++ be32 w) 8 = some w := by
  rw [List.append_assoc, show 8 = 4 + (4 + 0) from rfl, field32_add, field32_add, field32_self]

theorem length_pexPeers {peers : List PexPeer} :
    (peers.flatMap PexPeer.image.write).length = peers.length * 8 := by
  induction peers
  case nil => rfl
  case cons p peers hi =>
    rw [List.flatMap_cons, List.length_append, hi, List.length_cons, Nat.succ_mul, Nat.add_comm]
    rfl

theorem Built.length_body_pex : (Built.pex isDelta peers).body.length = 3 + peers.length * 8 := by
  rw [body, List.length_append, length_pexPeers]
  rfl

-- The receiver's view of every kind of message.
theorem Built.received {m : Built} (h : m.bytes = some bs) (hl : m.body.length ≤ maxMsgSize)
    (hb : ∀ bits, m = .bitfield bits → bits.length + 7 < 2 ^ 32) :
    m.Received (m.id.toByte, m.body) := by
  refine ⟨rfl, ?_⟩
  cases m
  case message => rfl
  case interested | notInterested => rfl
  case haveChunk ci =>
    simp only [decode, id, P2PMsgId.toByte, body, field32_self]
    rfl
  case bitfield bits =>
    obtain ⟨bf, hbf, _⟩ := Option.bind_eq_some_iff.mp h
    refine ⟨bf, ?_, Bitfield.record_build hbf (hb bits rfl)⟩
    simp only [decode, id, P2PMsgId.toByte, body, hbf, Option.getD_some, List.map_map]
    simp [Function.comp_def]
  case request index begin length =>
    have h0 : field32 (be32 index ++ be32 begin ++ be32 length) 0 = some index := by
      rw [List.append_assoc, field32_zero]
    simp only [decode, id, P2PMsgId.toByte, body, h0, field32_four, field32_eight]
    rfl
  case piece index begin data =>
    have h0 : field32 (be32 index ++ be32 begin ++ data) 0 = some index := by
      rw [List.append_assoc, field32_zero]
    have h8 : (be32 index ++ be32 begin).length = 8 := by simp
    have hn : ¬(be32 index ++ be32 begin ++ data).length < 8 := by
      rw [List.length_append, h8]
      omega
    simp only [decode, id, P2PMsgId.toByte, body, if_neg hn, h0, field32_four,
      List.drop_left' h8]
    rfl
  case cancel index begin length =>
    have h0 : field32 (be32 index ++ be32 begin ++ be32 length) 0 = some index := by
      rw [List.append_assoc, field32_zero]
    simp only [decode, id, P2PMsgId.toByte, body, h0, field32_four]
    rfl
  case pex isDelta peers =>
    have hr : PexPeer.image.readN peers.length (peers.flatMap PexPeer.image.write ++ []) =
        some (peers, []) := Codec.readN_flatMap
    rw [List.append_nil] at hr
    have hs : ([if isDelta then (1 : UInt8) else 0] ++
        Codec.u16.write (hton16 (.ofNat peers.length)) ++
        peers.flatMap PexPeer.image.write).length = 3 + peers.length * 8 := length_body_pex
    have hn : (ntoh16 (hton16 (.ofNat peers.length))).toNat = peers.length := by
      have hl : 3 + peers.length * 8 ≤ 65536 := hs ▸ hl
      rw [ntoh16_hton16]
      exact UInt16.toNat_ofNat_of_lt' (by rw [UInt16.size]; omega)
    simp only [decode, id, P2PMsgId.toByte, body, hs]
    rw [if_neg (by omega), List.append_assoc, List.singleton_append, read_u8]
    simp only [Option.bind_eq_bind, Option.bind_some, Codec.u16.read_write, hn, Nat.lt_irrefl, if_false,
      hr]
    rfl

end Fields

section Streams

theorem length_serializeHandshake {h : Handshake} : (serializeHandshake h).length = 67 := by
  change (h.protocolId.val ++ (h.reserved.val ++ (leBytes 4 _ ++
    (h.infoHash.val ++ h.peerId.val)))).length = 67
  simp [h.protocolId.property, h.reserved.property, h.infoHash.property, h.peerId.property]

theorem parseHandshake_build {h : Handshake} :
    ∃ h', parseHandshake (serializeHandshake (h.build infoHash speed port)) = some h' ∧
      h'.infoHash = infoHash ∧ h'.speedMbps = speed ∧ h'.listenPort = port := by
  refine ⟨{ h.build infoHash speed port with speedMbps := speed }, ?_, rfl, rfl, ?_⟩
  · rw [parseHandshake, if_neg (by rw [length_serializeHandshake]; omega), serializeHandshake,
      Codec.read_self]
    simp only [Option.bind_eq_bind, Option.bind_some]
    rw [if_pos (show (h.build infoHash speed port).validateProtocolId = true from rfl)]
    simp only [Handshake.build, ntoh32_hton32]
  · have hb : (leBytes 2 (hton16 port).toNat ++ List.replicate 2 0).take 2 =
        leBytes 2 (hton16 port).toNat := List.take_left' length_leBytes
    simp only [Handshake.listenPort, Handshake.build]
    rw [hb, leNat_leBytes (hton16 port).toNat_lt, UInt16.ofNat_toNat, ntoh16_hton16]

theorem length_le_frames {ms : List Built} :
    ms.length ≤ (ms.flatMap fun m => frame m.id m.body).length := by
  induction ms
  case nil          => exact Nat.le_refl _
  case cons m ms hi =>
    rw [List.flatMap_cons, List.length_append, length_frame, List.length_cons]
    omega

-- A stream of built messages is read back message by message.
theorem stream_round_trip (h : Handshake) (infoHash : Sha1Digest) (speed : UInt32) (port : UInt16)
    (ms : List Built)
    (hm : ∀ m ∈ ms, ∃ bs, m.bytes = some bs ∧ bs.length ≤ 5 + maxMsgSize)
    (hb : ∀ bits, Built.bitfield bits ∈ ms → bits.length + 7 < 2 ^ 32) :
    ∃ h' frames,
      readStream (serializeHandshake (h.build infoHash speed port) ++
        ms.flatMap fun m => m.bytes.getD []) = some (h', frames) ∧
      h'.infoHash = infoHash ∧ h'.speedMbps = speed ∧ h'.listenPort = port ∧
      List.Forall₂ Built.Received ms frames := by
  have hframe (m) (hmem : m ∈ ms) : m.bytes.getD [] = frame m.id m.body ∧
      m.body.length ≤ maxMsgSize := by
    obtain ⟨bs, hbs, hl⟩ := hm m hmem
    rw [hbs, Option.getD_some, m.eq_frame hbs]
    rw [m.eq_frame hbs, length_frame] at hl
    exact ⟨rfl, by omega⟩
  have hs : (ms.flatMap fun m => m.bytes.getD []) = ms.flatMap fun m => frame m.id m.body :=
    List.flatMap_congr fun m hmem => (hframe m hmem).left
  obtain ⟨h', hh, hi, hsp, hpt⟩ : ∃ h',
      parseHandshake (serializeHandshake (h.build infoHash speed port)) = some h' ∧ _ :=
    parseHandshake_build
  refine ⟨h', ms.map fun m => (m.id.toByte, m.body), ?_, hi, hsp, hpt, ?_⟩
  · rw [hs, readStream, List.take_left' length_serializeHandshake,
      List.drop_left' length_serializeHandshake, hh, Option.bind_eq_bind, Option.bind_some,
      readMessages_frames (fun m hmem => (hframe m hmem).right)]
    · rfl
    · rw [List.length_append]
      exact Nat.le_add_left_of_le length_le_frames
  · rw [List.forall₂_map_right_iff, List.forall₂_same]
    intro m hmem
    obtain ⟨bs, hbs, _⟩ := hm m hmem
    exact m.received hbs (hframe m hmem).right fun bits he => hb bits (he ▸ hmem)

-- A session that announces a chunk, asks for one and answers with two bytes.
theorem short_stream_round_trip :
    ∃ h' frames,
      readStream (serializeHandshake (({} : Handshake).build ⟨.replicate 20 3, rfl⟩ 1000 16889) ++
        [.bitfield [true, false, true], .request 1 0 16384, .piece 0 0 [8, 9],
          .pex true [⟨1, 2, 3, 0⟩]].flatMap fun m : Built => m.bytes.getD []) = some (h', frames) ∧
      h'.speedMbps = 1000 ∧ frames.length = 4 := by
  have ⟨h', frames, hr, _, hs, _, hf⟩ := stream_round_trip {} ⟨.replicate 20 3, rfl⟩ 1000 16889
    [.bitfield [true, false, true], .request 1 0 16384, .piece 0 0 [8, 9], .pex true [⟨1, 2, 3, 0⟩]]
    (by
      simp only [List.forall_mem_cons]
      refine ⟨⟨_, rfl, by decide⟩, ⟨_, rfl, by decide⟩, ⟨_, rfl, by decide⟩, ⟨_, rfl, by decide⟩, ?_⟩
      exact List.forall_mem_nil _)
    (by
      intro bits hb
      simp only [List.mem_cons, Built.bitfield.injEq, reduceCtorEq, List.not_mem_nil, or_false] at hb
      rw [hb]
      decide)
  exact ⟨h', frames, hr, hs, hf.length_eq.symm⟩

-- The number of bytes of a bitfield is computed modulo `2 ^ 32`.
theorem wide_bitfield_is_lost :
    ∃ bs, (Built.bitfield (.replicate (2 ^ 32 - 1) false)).bytes = some bs ∧
      bs.length ≤ 5 + maxMsgSize ∧ readMessage bs = some ((5, []), []) ∧
      ¬(Built.bitfield (.replicate (2 ^ 32 - 1) false)).Received (5, []) := by
  have hb : Bitfield.build (.replicate (2 ^ 32 - 1) false) = some [] := by
    have h0 : ((UInt32.ofNat (2 ^ 32 - 1) + 7) / 8).toNat = 0 := by decide
    rw [Bitfield.build, List.length_replicate, h0]
    exact Bitfield.pack_replicate_false
  refine ⟨frame .bitfield [], ?_, by decide, ?_, ?_⟩
  · rw [Built.bytes, buildBitfield, hb]
    rfl
  · have h : readMessage (frame .bitfield [] ++ []) = some ((5, []), []) :=
      readMessage_frame (by decide)
    rwa [List.append_nil] at h
  · rintro ⟨_, bf, hd, n, _, hr, _⟩
    obtain rfl : [] = bf := by simpa [decode] using hd
    have hl := congrArg List.length hr
    rw [List.length_append, List.length_replicate] at hl
    have h0 : (Bitfield.record []).length = 0 := rfl
    omega

end Streams
end ThinBT
