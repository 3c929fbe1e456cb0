import ThinBT.Session.Socket
import ThinBT.Node.Theorems.Acts

namespace ThinBT

section Encoding

variable {hello : Nat → List UInt8} {m : Msg} {ms : List Msg}

theorem Msg.encode_built (h : m.Compact bits) (hb : m.built bits = some b) :
    m.encode hello = b.bytes := by
  cases m
  case handshake => cases hb
  case bitfield bf =>
    have h : Bitfield.build bits = some bf := h
    rw [← Option.some.inj hb, Built.bytes, buildBitfield, h]
    rfl
  all_goals
    rw [← Option.some.inj hb]
    rfl

-- The bytes of a message as the peer reads them.
inductive Msg.Framed (hello : Nat → List UInt8) : Msg → List UInt8 → Prop
  | handshake {speed : Nat} : speed < 2 ^ 32 → Framed hello (.handshake speed) (hello speed)
  | message {id : P2PMsgId} {body : List UInt8} {m : Msg} : (∀ speed, m ≠ .handshake speed) →
    body.length ≤ maxMsgSize → decode id.toByte body = some (some m) →
    Framed hello m (frame id body)

theorem Msg.Compact.framed (h : m.Compact bits) (hb : bits.length ≤ 8 * maxMsgSize)
    (hm : ∀ speed, m ≠ .handshake speed) :
    ∃ bytes, m.encode hello = some bytes ∧ m.Framed hello bytes := by
  obtain ⟨hl, b, bytes, hbt, hbs, _⟩ := h.accepted hb hm
  have hbody : b.body.length ≤ maxMsgSize := (length_built hbt h).trans_le hl
  refine ⟨bytes, (encode_built h hbt).trans hbs, ?_⟩
  rw [b.eq_frame hbs]
  exact .message hm hbody (decode_built hbt h hbody hbs)

theorem encodeAll_append :
    encodeAll hello (ms ++ ms') = some bytes ↔ ∃ b b', encodeAll hello ms = some b ∧
      encodeAll hello ms' = some b' ∧ bytes = b ++ b' := by
  induction ms generalizing bytes
  case nil => simp [encodeAll, eq_comm]
  case cons m ms hi =>
    simp only [List.cons_append, encodeAll, Option.bind_eq_bind, Option.bind_eq_some_iff, hi]
    constructor
    · rintro ⟨x, hx, _, ⟨b, b', hb, hb', rfl⟩, h⟩
      refine ⟨x ++ b, b', ⟨x, hx, b, hb, rfl⟩, hb', ?_⟩
      rw [List.append_assoc]
      exact (Option.some.inj h).symm
    · rintro ⟨_, b', ⟨x, hx, b, hb, h⟩, hb', rfl⟩
      obtain rfl := Option.some.inj h
      exact ⟨x, hx, b ++ b', ⟨b, b', hb, hb', rfl⟩, congrArg some (List.append_assoc ..).symm⟩

theorem encodeAll_cons :
    encodeAll hello (m :: ms) = some bytes ↔ ∃ b b', m.encode hello = some b ∧
      encodeAll hello ms = some b' ∧ bytes = b ++ b' := by
  simp only [encodeAll, Option.bind_eq_bind, Option.bind_eq_some_iff, Option.pure_def,
    Option.some.injEq]
  grind

theorem encodeAll_defined (h : ∀ m ∈ ms, ∃ bytes, m.encode hello = some bytes) :
    ∃ bytes, encodeAll hello ms = some bytes := by
  induction ms
  case nil => exact ⟨[], rfl⟩
  case cons m ms hi =>
    obtain ⟨⟨b, hb⟩, hs⟩ := List.forall_mem_cons.mp h
    obtain ⟨b', hb'⟩ := hi hs
    exact ⟨b ++ b', encodeAll_cons.mpr ⟨b, b', hb, hb', rfl⟩⟩

theorem be32_cons (h : v.toNat < 2 ^ 24) : ∃ bytes, be32 v = 0 :: bytes := by
  have hs : (hton32 v).toNat = byteSwap 4 v.toNat := UInt32.toNat_ofNat_of_lt' byteSwap_lt
  have hz : v.toNat / 256 / 256 / 256 = 0 := by omega
  change ∃ bytes, leBytes 4 (hton32 v).toNat = 0 :: bytes
  rw [hs, leBytes_byteSwap]
  simp [leBytes, hz]

-- The length of a message is a small number.
theorem toNat_msgLen (h : n ≤ maxMsgSize) : (1 + .ofNat n : UInt32).toNat = 1 + n := by
  have h : n ≤ 65536 := h
  have h1 : (1 : UInt32).toNat = 1 := rfl
  have hn : (UInt32.ofNat n).toNat = n := UInt32.toNat_ofNat_of_lt' (by rw [UInt32.size]; omega)
  rw [UInt32.toNat_add, hn, h1]
  omega

theorem be32_msgLen (h : n ≤ maxMsgSize) : ∃ bytes, be32 (1 + .ofNat n) = 0 :: bytes := by
  have h' : n ≤ 65536 := h
  exact be32_cons (by rw [toNat_msgLen h]; omega)

theorem be32_append_inj (h : be32 v ++ l = be32 w ++ l') : v = w ∧ l = l' := by
  obtain ⟨hv, hl⟩ := Codec.append_inj h
  refine ⟨?_, hl⟩
  rw [← ntoh32_hton32 (v := v), hv, ntoh32_hton32]

theorem frame_cons {id : P2PMsgId} (h : body.length ≤ maxMsgSize) :
    ∃ bytes, frame id body = 0 :: bytes := by
  obtain ⟨bytes, hb⟩ := be32_msgLen h
  rw [frame, hb]
  exact ⟨_, rfl⟩

-- The first byte of a message is zero, and the one of a handshake is not.
theorem parseHandshake_zero : parseHandshake (0 :: bytes) = none := by
  rw [parseHandshake]
  split
  case isTrue  => rfl
  case isFalse =>
    cases hr : Handshake.image.read (0 :: bytes)
    case none   => rfl
    case some x =>
      have hw : 0 :: bytes = x.1.protocolId.val ++ _ :=
        (Handshake.image.write_read hr).trans (List.append_assoc ..)
      refine if_neg fun hv => ?_
      have hv : x.1.protocolId.val.take 15 = Handshake.protocolName :=
        of_decide_eq_true (Bool.and_eq_true_iff.mp hv).left
      cases hp : x.1.protocolId.val
      case nil       => rw [hp] at hv; cases hv
      case cons c cs =>
        rw [hp] at hv hw
        have h₁ : c = 116 := (List.cons.inj hv).left
        have h₂ : 0 = c := (List.cons.inj hw).left
        rw [h₁] at h₂
        cases h₂

theorem parseMessageHeader_hello {h : Handshake} :
    parseMessageHeader ((serializeHandshake (h.build infoHash speed port) ++ rest).take 5) =
      some (0x7468696E, 0x42) := by
  change parseMessageHeader [116, 104, 105, 110, 66] = _
  decide

end Encoding

namespace Socket

-- The bytes of the header that has been read.
def headerBytes (k : Socket) : List UInt8 :=
  k.header.elim [] fun h => be32 (1 + .ofNat h.2) ++ [h.1]

-- What has arrived are the messages that were received, a header, and the bytes that are not read yet.
structure Tracks (hello : Nat → List UInt8) (k : Socket) (got pending : List Msg) : Prop where
  received : ∃ bytes, encodeAll hello got = some bytes ∧
    k.arrived = bytes.length + (k.headerBytes ++ k.unread).length
  pending  : ∃ bytes, encodeAll hello pending = some bytes ∧ k.headerBytes ++ k.unread <+: bytes
  short    : ∀ h ∈ k.header, h.2 ≤ maxMsgSize

-- The session takes the message.
def Expects (s : PeerSession) (m : Msg) : Prop :=
  s.reading = .handshake ∧ (∃ speed, m = .handshake speed) ∨
    s.reading = .message ∧ ∀ speed, m ≠ .handshake speed

-- The session hangs up on the message.
def Refuses (s : PeerSession) (m : Msg) : Prop :=
  s.reading = .handshake ∧ (∀ speed, m ≠ .handshake speed) ∨
    s.reading = .message ∧ ∃ speed, m = .handshake speed

-- What the handler of a read may do, if the peer has sent the messages `got ++ pending`.
inductive Polled (hello : Nat → List UInt8) (s : PeerSession) (got pending : List Msg) :
    Event → Socket → Prop
  | wait {k : Socket} : k.Tracks hello got pending → Polled hello s got pending .wait k
  | next {k : Socket} : k.Tracks hello got pending → Polled hello s got pending .next k
  | message {m : Msg} {ms : List Msg} {k : Socket} : pending = m :: ms → Expects s m →
    k.Tracks hello (got ++ [m]) ms → Polled hello s got pending (.message m) k
  | closed {k : Socket} : k.Tracks hello got pending → s.closed = true →
    Polled hello s got pending .fail k
  | refuse {m : Msg} {ms : List Msg} {k : Socket} : k.Tracks hello got pending →
    pending = m :: ms → Refuses s m → Polled hello s got pending .fail k

variable {hello : Nat → List UInt8} {k k' : Socket} {s : PeerSession} {got pending : List Msg} {m : Msg}
variable {id : UInt8} {infoHash : Sha1Digest}

theorem headerBytes_none (h : k.header = none) : k.headerBytes = [] := by
  rw [headerBytes, h]
  rfl

theorem headerBytes_some (h : k.header = some (id, n)) :
    k.headerBytes = be32 (1 + .ofNat n) ++ [id] := by
  rw [headerBytes, h]
  rfl

-- If bytes are pending, they are the first ones of a message.
theorem Tracks.head (h : k.Tracks hello got pending) (hn : k.headerBytes ++ k.unread ≠ []) :
    ∃ m ms b b', pending = m :: ms ∧ m.encode hello = some b ∧ encodeAll hello ms = some b' ∧
      k.headerBytes ++ k.unread <+: b ++ b' := by
  obtain ⟨bytes, hb, hp⟩ := h.pending
  cases pending
  case nil =>
    obtain rfl := Option.some.inj hb
    exact absurd (List.prefix_nil.mp hp) hn
  case cons m ms =>
    obtain ⟨b, b', hm, hms, rfl⟩ := encodeAll_cons.mp hb
    exact ⟨m, ms, b, b', rfl, hm, hms, hp⟩

theorem Tracks.advance (h : k.Tracks hello got (m :: ms)) (hm : m.encode hello = some b)
    (hms : encodeAll hello ms = some b') (hu : k.headerBytes ++ k.unread = b ++ rest)
    (hr : rest <+: b') (ha : k'.arrived = k.arrived) (hu' : k'.unread = rest)
    (hh : k'.header = none) : k'.Tracks hello (got ++ [m]) ms where
  received := by
    obtain ⟨bytes, hb, he⟩ := h.received
    refine ⟨bytes ++ b, encodeAll_append.mpr ⟨bytes, b, hb, ?_, rfl⟩, ?_⟩
    · exact encodeAll_cons.mpr ⟨b, [], hm, rfl, (List.append_nil b).symm⟩
    · rw [ha, he, hu, headerBytes_none hh, hu']
      simp only [List.length_append, List.nil_append]
      omega
  pending  := ⟨b', hms, by rwa [headerBytes_none hh, hu']⟩
  short    := by simp [hh]

theorem dispatch_eq (h : decode id body = some (some m)) : dispatch s id body = some (.message m) := by
  have hd : ∃ x, dispatchBytes s.chokingPeer id body = some x := by
    rw [dispatchBytes, h]
    split <;> exact ⟨_, rfl⟩
  obtain ⟨x, hx⟩ := hd
  rw [dispatch, hx, h]
  rfl

theorem pollHandshake_hello {h : Handshake} (hs : speed < 2 ^ 32)
    (hu : k.unread = serializeHandshake (h.build infoHash (.ofNat speed) port) ++ rest) :
    k.pollHandshake infoHash = (.message (.handshake speed), { k with unread := rest }) := by
  obtain ⟨h', hp, hi, hv, _⟩ : ∃ h',
      parseHandshake (serializeHandshake (h.build infoHash (.ofNat speed) port)) = some h' ∧ _ :=
    parseHandshake_build
  have hl : ¬k.unread.length < 67 := by
    rw [hu, List.length_append, length_serializeHandshake]
    omega
  rw [pollHandshake, if_neg hl, hu, List.take_left' length_serializeHandshake,
    List.drop_left' length_serializeHandshake, hp]
  simp only [hi, if_pos, hv, UInt32.toNat_ofNat_of_lt' hs]

theorem pollBody_eq (hd : decode id body = some (some m)) (hu : k.unread = body ++ rest) :
    k.pollBody s id body.length = some (.message m, { k with unread := rest, header := none }) := by
  have hl : ¬k.unread.length < body.length := by
    rw [hu, List.length_append]
    omega
  rw [pollBody, if_neg hl, hu, List.take_left' rfl, List.drop_left' rfl, dispatch_eq hd]
  rfl

theorem pollHeader_frame {id : P2PMsgId} (hb : body.length ≤ maxMsgSize)
    (hd : decode id.toByte body = some (some m))
    (hu : k.unread = be32 (1 + .ofNat body.length) ++ [id.toByte] ++ rest) :
    k.pollHeader s = if body = [] then some (.message m, { k with unread := rest, header := none })
      else some (startRead s, { k with unread := rest, header := some (id.toByte, body.length) }) := by
  have h5 : (be32 (1 + .ofNat body.length) ++ [id.toByte]).length = 5 := by simp
  have hl : ¬k.unread.length < 5 := by
    rw [hu, List.length_append, h5]
    omega
  have hp : parseMessageHeader (be32 (1 + .ofNat body.length) ++ [id.toByte]) =
      some (1 + .ofNat body.length, id.toByte) := by
    have h : parseMessageHeader ((frame id body ++ []).take 5) = _ :=
      parseMessageHeader_frame (Nat.lt_of_le_of_lt (Nat.add_le_add_right hb 1) (by decide))
    rwa [List.append_nil, frame, List.take_left' h5] at h
  have hs : (1 + .ofNat body.length - 1 : UInt32).toNat = body.length := by
    rw [UInt32.add_comm, UInt32.add_sub_cancel, toNat_ofNat_length hb]
  rw [pollHeader, if_neg hl, hu, List.take_left' h5, List.drop_left' h5, hp]
  simp only [hs]
  rw [if_neg (Nat.not_lt.mpr hb)]
  by_cases hz : body = []
  case pos =>
    rw [if_pos (List.length_eq_zero_iff.mpr hz), if_pos hz]
    rw [hz] at hd
    exact pollBody_eq hd rfl
  case neg => rw [if_neg (fun h => hz (List.length_eq_zero_iff.mp h)), if_neg hz]

-- The handshakes of a session differ in the speed only.
def Greets (infoHash : Sha1Digest) (hello : Nat → List UInt8) : Prop :=
  ∃ (h : Handshake) (port : UInt16), ∀ speed,
    hello speed = serializeHandshake (h.build infoHash (.ofNat speed) port)

-- Each message has its own bytes.
def Readable (hello : Nat → List UInt8) (ms : List Msg) : Prop :=
  ∀ m ∈ ms, ∃ b, m.encode hello = some b ∧ m.Framed hello b

theorem Readable.framed (h : Readable hello (m :: ms)) (hb : m.encode hello = some b) :
    m.Framed hello b := by
  obtain ⟨b', hb', hf⟩ := h m List.mem_cons_self
  rwa [Option.some.inj (hb.symm.trans hb')]

theorem Tracks.extend (h : k.Tracks hello got pending)
    (hm : ∃ bytes, ThinBT.encodeAll hello more = some bytes) : k.Tracks hello got (pending ++ more) where
  received := h.received
  pending  := by
    obtain ⟨bytes, hb, hp⟩ := h.pending
    obtain ⟨bytes', hb'⟩ := hm
    exact ⟨bytes ++ bytes', encodeAll_append.mpr ⟨bytes, bytes', hb, hb', rfl⟩,
      hp.trans (List.prefix_append ..)⟩
  short    := h.short

-- The bytes that have not arrived yet follow those that are not read yet.
theorem Tracks.drop_arrived (h : k.Tracks hello got pending)
    (hb : encodeAll hello (got ++ pending) = some bytes) :
    encodeAll hello pending = some (k.headerBytes ++ k.unread ++ bytes.drop k.arrived) := by
  obtain ⟨old, hold, ha⟩ := h.received
  obtain ⟨more, hmore, v, hv⟩ := h.pending
  obtain ⟨old', more', ho, hm, rfl⟩ := encodeAll_append.mp hb
  obtain rfl := Option.some.inj (hold.symm.trans ho)
  obtain rfl := Option.some.inj (hmore.symm.trans hm)
  rw [hmore, ha, ← List.drop_drop, List.drop_left' rfl, ← hv, List.drop_left' rfl]

theorem Tracks.arrive (h : k.Tracks hello got pending)
    (hb : encodeAll hello (got ++ pending) = some bytes) :
    Tracks hello (k.push ((bytes.drop k.arrived).take n)) got pending where
  received := by
    obtain ⟨old, hold, ha⟩ := h.received
    refine ⟨old, hold, ?_⟩
    simp only [push, headerBytes, List.length_append, ha]
    omega
  pending  := by
    refine ⟨_, h.drop_arrived hb, (bytes.drop k.arrived).drop n, ?_⟩
    change k.headerBytes ++ (k.unread ++ _) ++ _ = _
    simp only [List.append_assoc, List.take_append_drop]
  short    := h.short

theorem Readable.encodeAll (h : Readable hello ms) (hs : ms' ⊆ ms) :
    ∃ bytes, ThinBT.encodeAll hello ms' = some bytes :=
  encodeAll_defined fun m hm => (h m (hs hm)).imp fun _ hb => hb.left

theorem pollHandshake_spec (hg : Greets infoHash hello) (hf : Readable hello pending)
    (h : k.Tracks hello got pending) (hk : k.header = none) (hr : s.reading = .handshake) :
    Polled hello s got pending (k.pollHandshake infoHash).1 (k.pollHandshake infoHash).2 ∧
      (k.pollHandshake infoHash).2.header = none := by
  by_cases hl : k.unread.length < 67
  case pos =>
    rw [pollHandshake, if_pos hl]
    exact ⟨.wait h, hk⟩
  case neg =>
    have hne : k.unread ≠ [] := fun he => hl (by rw [he]; decide)
    obtain ⟨m, ms, b, b', rfl, hm, hms, hp⟩ := h.head (by rwa [headerBytes_none hk])
    rw [headerBytes_none hk, List.nil_append] at hp
    cases hf.framed hm
    case handshake speed hs =>
      obtain ⟨g, port, hello_eq⟩ := hg
      rw [hello_eq] at hp hm
      obtain ⟨rest, hu, hrest⟩ := List.exists_of_prefix_append hp (by rw [length_serializeHandshake]; omega)
      rw [pollHandshake_hello hs hu]
      refine ⟨.message rfl (.inl ⟨hr, speed, rfl⟩) (h.advance hm hms ?_ hrest rfl rfl hk), hk⟩
      rw [headerBytes_none hk, List.nil_append, hu]
    case message id body hbody hn hd =>
      obtain ⟨bytes, hz⟩ : ∃ bytes, frame id body = 0 :: bytes := frame_cons hbody
      have hz' : ∃ bytes, k.unread.take 67 = 0 :: bytes := by
        obtain ⟨c, cs, hc⟩ := List.exists_cons_of_ne_nil hne
        rw [hz, hc, List.cons_append, List.cons_prefix_cons] at hp
        rw [hc, hp.left]
        exact ⟨_, rfl⟩
      obtain ⟨bytes', hz'⟩ := hz'
      rw [pollHandshake, if_neg hl, hz', parseHandshake_zero]
      exact ⟨.refuse h rfl (.inl ⟨hr, hn⟩), hk⟩

theorem pollHeader_spec (hg : Greets infoHash hello) (hf : Readable hello pending)
    (h : k.Tracks hello got pending) (hk : k.header = none) (hr : s.reading = .message) :
    ∃ ev k', k.pollHeader s = some (ev, k') ∧ Polled hello s got pending ev k' := by
  by_cases hl : k.unread.length < 5
  case pos =>
    rw [pollHeader, if_pos hl]
    exact ⟨_, _, rfl, .wait h⟩
  case neg =>
    have hne : k.unread ≠ [] := fun he => hl (by rw [he]; decide)
    obtain ⟨m, ms, b, b', rfl, hm, hms, hp⟩ := h.head (by rwa [headerBytes_none hk])
    rw [headerBytes_none hk, List.nil_append] at hp
    cases hf.framed hm
    case handshake speed hs =>
      obtain ⟨g, port, hello_eq⟩ := hg
      rw [hello_eq] at hp
      rw [pollHeader, if_neg hl, List.take_eq_of_prefix hp (Nat.le_of_not_lt hl), parseMessageHeader_hello]
      exact ⟨_, _, rfl, .refuse h rfl (.inr ⟨hr, speed, rfl⟩)⟩
    case message id body hbody hn hd =>
      have h5 : (be32 (1 + .ofNat body.length) ++ [id.toByte]).length = 5 := by simp
      rw [frame, List.append_assoc] at hp
      obtain ⟨rest, hu, hrest⟩ := List.exists_of_prefix_append hp (h5.trans_le (Nat.le_of_not_lt hl))
      rw [pollHeader_frame hbody hd hu]
      split
      case isTrue hz =>
        refine ⟨_, _, rfl, .message rfl (.inr ⟨hr, hn⟩)
          (h.advance hm hms ?_ (by rwa [hz] at hrest) rfl rfl rfl)⟩
        rw [headerBytes_none hk, List.nil_append, hu, frame, hz, List.append_nil]
      case isFalse hz =>
        have ht : Tracks hello
            { k with unread := rest, header := some (id.toByte, body.length) } got (m :: ms) := by
          have he : headerBytes { k with unread := rest, header := some (id.toByte, body.length) } ++
              rest = k.headerBytes ++ k.unread := by
            rw [headerBytes_none hk, List.nil_append, hu, headerBytes_some rfl]
          refine ⟨?_, ?_, ?_⟩
          · obtain ⟨bytes, hb, ha⟩ := h.received
            exact ⟨bytes, hb, by rw [he]; exact ha⟩
          · obtain ⟨bytes, hb, hp⟩ := h.pending
            exact ⟨bytes, hb, by rw [he]; exact hp⟩
          · intro x hx
            rw [← Option.some.inj hx]
            exact hbody
        refine ⟨_, _, rfl, ?_⟩
        rw [startRead]
        split
        case isTrue hc => exact .closed ht hc
        case isFalse   => exact .next ht

-- A header that has been read is the one of the next message.
theorem header_match {id' : P2PMsgId} (hn : n ≤ maxMsgSize) (hb : body.length ≤ maxMsgSize)
    (h : be32 (1 + .ofNat n) ++ [id] ++ u <+: frame id' body ++ b') :
    id = id'.toByte ∧ n = body.length ∧ u <+: body ++ b' := by
  obtain ⟨t, ht⟩ := h
  rw [frame] at ht
  simp only [List.append_assoc] at ht
  obtain ⟨hlen, ht⟩ := be32_append_inj ht
  obtain ⟨hid, ht⟩ := List.cons.inj ht
  refine ⟨hid, ?_, t, ht⟩
  have he := congrArg UInt32.toNat hlen
  rw [toNat_msgLen hn, toNat_msgLen hb] at he
  omega

-- There is no handshake after a header.
theorem header_hello {h : Handshake} (hn : n ≤ maxMsgSize) :
    ¬be32 (1 + .ofNat n) ++ [id] ++ u <+: serializeHandshake (h.build infoHash speed port) ++ b' := by
  rintro ⟨t, ht⟩
  obtain ⟨bytes, hz⟩ := be32_msgLen hn
  rw [hz] at ht
  cases (List.cons.inj ht).left

theorem pollBody_spec (hg : Greets infoHash hello) (hf : Readable hello pending)
    (h : k.Tracks hello got pending) (hk : k.header = some (id, n)) (hr : s.reading = .message) :
    ∃ ev k', k.pollBody s id n = some (ev, k') ∧ Polled hello s got pending ev k' := by
  by_cases hl : k.unread.length < n
  case pos =>
    rw [pollBody, if_pos hl]
    exact ⟨_, _, rfl, .wait h⟩
  case neg =>
    have hn : n ≤ maxMsgSize := h.short (id, n) hk
    have hh := headerBytes_some hk
    obtain ⟨m, ms, b, b', rfl, hm, hms, hp⟩ := h.head (by simp [hh])
    rw [hh] at hp
    cases hf.framed hm
    case handshake speed hs =>
      obtain ⟨g, port, hello_eq⟩ := hg
      rw [hello_eq] at hp
      exact absurd hp (header_hello hn)
    case message id' body hbody hne hd =>
      obtain ⟨rfl, rfl, hbp⟩ := header_match hn hbody hp
      obtain ⟨rest, hu, hrest⟩ := List.exists_of_prefix_append hbp (Nat.le_of_not_lt hl)
      rw [pollBody_eq hd hu]
      refine ⟨_, _, rfl, .message rfl (.inr ⟨hr, hne⟩) (h.advance hm hms ?_ hrest rfl rfl rfl)⟩
      simp only [hh, hu, frame, List.append_assoc]

-- The handler of a read is defined, and it does what the messages of the peer tell.
theorem poll_spec (hg : Greets infoHash hello) (hf : Readable hello pending)
    (h : k.Tracks hello got pending) (he : Node.Early s → k.header = none) :
    ∃ ev k', k.poll infoHash s = some (ev, k') ∧ Polled hello s got pending ev k' ∧
      (Node.Early s → k'.header = none) := by
  rw [poll]
  split
  case h_1 hr =>
    obtain ⟨hp, hn⟩ := pollHandshake_spec hg hf h (he (.inr hr)) hr
    exact ⟨_, _, rfl, hp, fun _ => hn⟩
  case h_2 hr =>
    have hne : ¬Node.Early s := by simp [Node.Early, hr]
    split
    case h_1 hk =>
      obtain ⟨ev, k', hp, hs⟩ := pollHeader_spec hg hf h hk hr
      exact ⟨ev, k', hp, hs, fun h => absurd h hne⟩
    case h_2 id n hk =>
      obtain ⟨ev, k', hp, hs⟩ := pollBody_spec hg hf h hk hr
      exact ⟨ev, k', hp, hs, fun h => absurd h hne⟩
  case h_3 => exact ⟨_, _, rfl, .wait h, he⟩

theorem poll_empty : ({} : Socket).poll infoHash s = some (.wait, {}) := by
  rw [poll]
  split
  all_goals rfl

-- If all bytes of the next message have arrived, it is read at once or after its header.
theorem poll_full (hg : Greets infoHash hello) (hf : m.Framed hello b) (hs : ∀ h ∈ k.header, h.2 ≤ maxMsgSize)
    (he : Node.Early s → k.header = none) (hu : k.headerBytes ++ k.unread = b ++ b')
    (hx : Expects s m) (hc : s.closed = false) :
    (∃ k', k.poll infoHash s = some (.message m, k')) ∨
      ∃ k₁ k', k.poll infoHash s = some (.next, k₁) ∧ k₁.poll infoHash s = some (.message m, k') := by
  obtain ⟨hr, speed, rfl⟩ | ⟨hr, hm⟩ := hx
  case inl =>
    rw [headerBytes_none (he (.inr hr)), List.nil_append] at hu
    cases hf
    case handshake hlt =>
      obtain ⟨g, port, hello_eq⟩ := hg
      rw [hello_eq] at hu
      refine .inl ⟨{ k with unread := b' }, ?_⟩
      simp only [poll, hr, pollHandshake_hello hlt hu]
    case message hn _ => exact absurd rfl (hn speed)
  case inr =>
    cases hf
    case handshake => exact absurd rfl (hm _)
    case message id body hbody _ hd =>
      cases hk : k.header
      case none =>
        rw [headerBytes_none hk, List.nil_append, frame, List.append_assoc] at hu
        have hp : k.poll infoHash s = k.pollHeader s := by simp only [poll, hr, hk]
        rw [hp, pollHeader_frame hbody hd hu]
        split
        case isTrue => exact .inl ⟨_, rfl⟩
        case isFalse =>
          rw [startRead, hc]
          refine .inr ⟨_, { k with unread := b', header := none }, rfl, ?_⟩
          simp only [poll, hr]
          exact pollBody_eq hd rfl
      case some x =>
        rw [headerBytes_some hk] at hu
        obtain ⟨hid, hn, hp⟩ := header_match (hs x hk) hbody ⟨[], (List.append_nil _).trans hu⟩
        have hu' : k.unread = body ++ b' := by
          rw [hid, hn, frame] at hu
          simpa only [List.append_assoc, List.append_cancel_left_eq] using hu
        refine .inl ⟨{ k with unread := b', header := none }, ?_⟩
        simp only [poll, hr, hk, hid, hn]
        exact pollBody_eq hd hu'

end Socket

end ThinBT
