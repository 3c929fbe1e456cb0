import ThinBT.Node.Theorems.Disclosure
import ThinBT.Session.Theorems.Streams

namespace ThinBT

section Messages

variable {bits : List Bool} {m : Msg} {b : Built}

-- The call that builds a message, where `bits` are the ones that are announced by a bitfield.
def Msg.built (bits : List Bool) : Msg → Option Built
  | handshake _                => none
  | choke                      => some (.message .choke [])
  | unchoke                    => some (.message .unchoke [])
  | interested                 => some .interested
  | notInterested              => some .notInterested
  | haveChunk ci               => some (.haveChunk ci)
  | bitfield _                 => some (.bitfield bits)
  | request index begin length => some (.request index begin length)
  | piece index begin data     => some (.piece index begin data)
  | cancel index begin         => some (.cancel index begin (.ofNat subBlockSize))
  | pex op peers               => some (.pex (op = 1) peers)

-- The message is built, and it passes the checks of `start_read_header` with all of its fields.
def Msg.Accepted (bits : List Bool) (m : Msg) : Prop :=
  m.bodyLen ≤ maxMsgSize ∧ ∃ b bytes, m.built bits = some b ∧ b.bytes = some bytes ∧
    ∀ rest, ∃ f, readMessage (bytes ++ rest) = some (f, rest) ∧ decode f.1 f.2 = some (some m)

-- The sizes of the messages that a node sends.
def Msg.Compact (bits : List Bool) : Msg → Prop
  | bitfield bf       => Bitfield.build bits = some bf
  | request _ _ len   => len = .ofNat subBlockSize
  | piece _ _ data    => data.length ≤ subBlockSize
  | pex op peers      => (op = 0 ∨ op = 1) ∧ peers.length ≤ 2 * maxPeers
  | _                 => True

theorem toNat_ofNat_length {l : List α} (h : l.length ≤ maxMsgSize) :
    (UInt32.ofNat l.length).toNat = l.length := by
  have h : l.length ≤ 65536 := h
  exact UInt32.toNat_ofNat_of_lt' (by rw [UInt32.size]; omega)

theorem isSome_buildMessage {id : P2PMsgId} (h : payload.length + 5 < 2 ^ 32) :
    (buildMessage id payload).isSome := by
  have h5 : (5 : UInt32).toNat = 5 := rfl
  have hn : (UInt32.ofNat payload.length).toNat = payload.length := UInt32.toNat_ofNat_of_lt' (by
    rw [UInt32.size]
    omega)
  rw [buildMessage, if_pos]
  case hc => rw [UInt32.toNat_add, hn, h5]; omega
  rfl

-- Builders do not leave their buffers if the body is short enough.
theorem Built.bytes_eq (h : b.body.length ≤ maxMsgSize)
    (hb : ∀ bits, b = .bitfield bits → (Bitfield.build bits).isSome) :
    b.bytes = some (frame b.id b.body) := by
  have hl : b.body.length + 5 < 2 ^ 32 :=
    Nat.lt_of_le_of_lt (Nat.add_le_add_right h 5) (show maxMsgSize + 5 < 2 ^ 32 by decide)
  have hs : b.bytes.isSome := by
    cases b
    case bitfield bits =>
      obtain ⟨bf, hbf⟩ := Option.isSome_iff_exists.mp (hb bits rfl)
      rw [body, hbf] at hl
      rw [bytes, buildBitfield, hbf]
      exact isSome_buildMessage hl
    case piece index begin data =>
      have hl : data.length + 8 ≤ 65536 := by
        simp only [body, List.length_append, length_be32] at h
        rw [Nat.add_comm]
        exact h
      have hd : data.length ≤ maxMsgSize := Nat.le_trans (Nat.le_add_right _ 8) hl
      have h9 : (4 + (1 + 8 + .ofNat data.length) : UInt32) = 13 + .ofNat data.length := by
        rw [← UInt32.add_assoc]
        rfl
      have h13 : (13 : UInt32).toNat = 13 := rfl
      rw [bytes, buildPiece]
      simp only [h9]
      rw [if_pos]
      case hc => rw [UInt32.toNat_add, toNat_ofNat_length hd, h13]; omega
      rfl
    case pex isDelta peers =>
      have hp : 3 + peers.length * 8 ≤ 65536 := length_body_pex ▸ h
      have hn : (UInt32.ofNat peers.length).toNat = peers.length :=
        toNat_ofNat_length (Nat.le_trans (by omega) hp)
      have h3 : (3 : UInt32).toNat = 3 := rfl
      have h8 : (8 : UInt32).toNat = 8 := rfl
      rw [bytes, buildPex, if_pos]
      case hc => rw [UInt32.toNat_add, UInt32.toNat_mul, hn, h3, h8]; omega
      exact isSome_buildMessage hl
    all_goals exact isSome_buildMessage hl
  obtain ⟨bs, hbs⟩ := Option.isSome_iff_exists.mp hs
  rw [hbs, b.eq_frame hbs]

theorem Msg.length_built (h : m.built bits = some b) (hm : m.Compact bits) :
    b.body.length = m.bodyLen := by
  cases m
  case handshake => cases h
  case bitfield bf =>
    have hm : Bitfield.build bits = some bf := hm
    rw [← Option.some.inj h, Built.body, hm]
    exact List.length_map ..
  case piece index begin data =>
    rw [← Option.some.inj h, Built.body, List.length_append]
    rfl
  case pex op peers => rw [← Option.some.inj h, Built.length_body_pex]; rfl
  all_goals
    rw [← Option.some.inj h]
    rfl

-- All fields of the message are decoded.
theorem Msg.decode_built (h : m.built bits = some b) (hm : m.Compact bits)
    (hl : b.body.length ≤ maxMsgSize) (hb : b.bytes = some bytes) :
    decode b.id.toByte b.body = some (some m) := by
  have received (hn : ∀ bits, b ≠ .bitfield bits) : b.Received (b.id.toByte, b.body) :=
    b.received hb hl fun bits he => absurd he (hn bits)
  cases m
  case handshake => cases h
  case bitfield bf =>
    have hm : Bitfield.build bits = some bf := hm
    obtain rfl := Option.some.inj h
    simp only [decode, Built.id, P2PMsgId.toByte, Built.body, hm, Option.getD_some, List.map_map]
    simp [Function.comp_def]
  case pex op peers =>
    obtain rfl := Option.some.inj h
    obtain ⟨_, hd⟩ := received (by simp)
    refine hd.trans ?_
    obtain rfl | rfl := hm.left
    all_goals rfl
  case choke | unchoke =>
    obtain rfl := Option.some.inj h
    rfl
  all_goals
    obtain rfl := Option.some.inj h
    exact (received (by simp)).right

theorem Msg.Compact.bodyLen_le (h : m.Compact bits) (hb : bits.length ≤ 8 * maxMsgSize) :
    m.bodyLen ≤ maxMsgSize := by
  have hs : subBlockSize = 16384 := rfl
  have hp : maxPeers = 60 := rfl
  rw [maxMsgSize] at hb ⊢
  cases m
  case bitfield bf =>
    have hl := Bitfield.length_build h (by omega)
    rw [bodyLen]
    omega
  case piece index begin data =>
    have h : data.length ≤ subBlockSize := h
    rw [bodyLen]
    omega
  case pex op peers =>
    have h := h.right
    rw [bodyLen]
    omega
  all_goals simp [bodyLen]

theorem Msg.Compact.accepted (h : m.Compact bits) (hb : bits.length ≤ 8 * maxMsgSize)
    (hm : ∀ speed, m ≠ .handshake speed) : m.Accepted bits := by
  have hl := h.bodyLen_le hb
  obtain ⟨b, hb'⟩ : ∃ b, m.built bits = some b := by
    cases m
    case handshake speed => exact absurd rfl (hm speed)
    all_goals exact ⟨_, rfl⟩
  have hbody : b.body.length ≤ maxMsgSize := length_built hb' h ▸ hl
  have hbits (bs) (he : b = .bitfield bs) : (Bitfield.build bs).isSome := by
    subst he
    cases m
    case bitfield bf =>
      obtain rfl := Built.bitfield.inj (Option.some.inj hb')
      exact Option.isSome_iff_exists.mpr ⟨bf, h⟩
    all_goals cases hb'
  have hbytes := b.bytes_eq hbody hbits
  exact ⟨hl, b, _, hb', hbytes, fun rest => ⟨_, readMessage_frame hbody,
    decode_built hb' h hbody hbytes⟩⟩

end Messages

-- A session whose messages, and those that are still to be sent, are compact.
structure PeerSession.Compact (bits : List Bool) (s : PeerSession) : Prop where
  stream : ∀ m ∈ s.stream, m.Compact bits
  posted : ∀ m ∈ s.posted, m.Compact bits
  reads  : ∀ j ∈ s.reads, j.len = .ofNat subBlockSize

theorem PeerSession.Compact.apply {s : PeerSession} {bits : List Bool} (h : s.Compact bits)
    (hm : ∀ m ∈ s.sends u, m.Compact bits)
    (hf : ∀ k data, u = .finishRead k data → ∃ j file, s.reads[k]? = some j ∧ data = j.pread file)
    (hd : ∀ offsets m, u = .dispatch offsets m →
      ∀ index begin length, m = .request index begin length → length = .ofNat subBlockSize) :
    (s.apply now u).Compact bits where
  stream := forall_stream_apply h.stream hm
  posted := by
    refine forall_posted_apply h.posted fun k data j hu hj => ?_
    obtain ⟨j', file, hj', rfl⟩ := hf k data hu
    obtain rfl := Option.some.inj (hj.symm.trans hj')
    have hl : j.len.toNat = subBlockSize := by
      rw [h.reads j (List.mem_of_getElem? hj)]
      rfl
    change (j.pread file).length ≤ subBlockSize
    rw [← hl]
    exact List.length_take_le ..
  reads  := by
    refine forall_reads_apply h.reads fun offsets index begin length j hu hj => ?_
    rw [handleRequestMsg_eq_some hj]
    exact hd offsets _ hu index begin length rfl

namespace Node

variable {δ : Type} {n n' n₀ : Node δ} {now : UInt64} {a : Action} {op : Op} {std : StdSort}

-- A node that announces `total` chunks and sends compact messages.
structure Compact (total : Nat) (n : Node δ) : Prop where
  initial  : n.task.initialBitfield.length = total
  sessions : ∀ s ∈ n.sessions, s.Compact n.task.initialBitfield

-- The lists of peers are those of the sessions. A delta lists those that came and those that left.
def Op.ShortPex : Op → Prop
  | .receive _ _ peers => peers.length ≤ maxPeers
  | .tickPex delta     => delta.length ≤ 2 * maxPeers
  | _                  => True

-- Requests that are received are for whole sub-blocks.
def Op.AsksSubBlock (op : Op) : Prop :=
  ∀ k index begin length peers, op = .receive k (.request index begin length) peers →
    length = .ofNat subBlockSize

theorem mem_onSession : a ∈ n.onSession k f ↔ ∃ s, n.sessions[k]? = some s ∧ a ∈ f s := by
  unfold onSession
  split
  case h_1 hk   => simp [hk]
  case h_2 s hk => simp [hk]

-- The only messages that a step itself sends are its lists of peers.
theorem pex_of_mem_actions (h : .session k (.send m) ∈ n.actions std now op) :
    (∃ m' peers, op = .receive k m' peers ∧ m = .pex 0 peers) ∨
      ∃ delta, op = .tickPex delta ∧ m = .pex 1 delta := by
  have hup {j : Nat} : .session k (.send m) ∉ hangUp j := by simp [hangUp]
  cases op
  case tickPex delta =>
    simp only [actions] at h
    split at h
    case isTrue  => cases h
    case isFalse =>
      obtain ⟨j, _, he⟩ := List.mem_map.mp h
      cases he
      exact .inr ⟨delta, rfl, rfl⟩
  case receive j m' peers =>
    obtain ⟨s, _, h⟩ := mem_onSession.mp h
    unfold receive at h
    split at h
    case isTrue =>
      split at h
      case h_2       => exact absurd h hup
      case h_1 speed =>
        simp only [handleHandshake, sendHandshakeIfNeeded, readNext] at h
        simp at h
        obtain ⟨_, rfl, rfl⟩ := h
        exact .inl ⟨_, peers, rfl, rfl⟩
    case isFalse =>
      split at h
      case isFalse => cases h
      case isTrue =>
        split at h
        case h_1 => exact absurd h hup
        case h_2 =>
          split at h
          case isTrue  => exact absurd h hup
          case isFalse =>
            have hn : .session k (.send m) ∉ answer std now j m' n s := by
              cases m' <;> simp only [answer, interestIf, List.not_mem_nil, not_false_eq_true]
              all_goals split <;> simp
            simp [hn, readNext] at h
  case evalTick j fast rtt =>
    obtain ⟨s, _, h⟩ := mem_onSession.mp h
    unfold evalTick at h
    split at h
    case isTrue => cases h
    case isFalse =>
      cases List.mem_append.mp h
      case inl h => simp at h
      case inr h => split at h <;> simp at h
  all_goals
    simp [actions, openSession, mem_onSession, established, readError, read, readNext, hup] at h

theorem length_of_issueRequest {n : Node δ} (h : .issueRequest slot c b len ∈ n.calls std top) :
    len = subBlockSize := by
  obtain ⟨op, _, τ, a, _, σ, hx⟩ := Scheduler.exists_of_mem_callbacks h
  have request {i c' b' : Nat} (hx : .issueRequest slot c b len ∈ σ.requestTo i c' b') :
      len = subBlockSize := by
    obtain ⟨_, _, he⟩ := List.mem_map.mp hx
    cases he
    rfl
  cases a <;> simp only [Scheduler.calls] at hx
  case assign => exact request hx
  case move =>
    cases List.mem_append.mp hx
    case inl hx => simp [Scheduler.cancelFrom] at hx
    case inr hx => exact request hx
  case redundant =>
    obtain ⟨i, _, hx⟩ := List.mem_flatMap.mp hx
    exact request hx
  case complete => simp [Scheduler.cancelsForChunk] at hx
  case settle   => simp at hx
  all_goals simp at hx

theorem compact_sends {s : PeerSession} (hs : s.Compact n.task.initialBitfield)
    (hg : Guard op n₀ n a) (ha : a ∈ n₀.actions std now op) (hp : op.ShortPex)
    (ht : n.Touches std now a k s u) (hm : m ∈ s.sends u) : m.Compact n.task.initialBitfield := by
  cases ht
  case session hk he =>
    subst he
    have hsg := (hg s hk).right
    cases PeerSession.sends_of_mem hm
    case send      =>
      obtain ⟨_, peers, rfl, rfl⟩ | ⟨delta, rfl, rfl⟩ := pex_of_mem_actions ha
      · exact ⟨.inl rfl, Nat.le_trans hp (by decide)⟩
      · exact ⟨.inr rfl, hp⟩
    case request   => cases hsg
    case posted hm => exact hs.posted m hm
    all_goals trivial
  case dispatch => cases hm
  case close    => cases hm
  case announce bf _ hb _ =>
    rw [List.mem_singleton.mp hm]
    exact hb
  case call top call ho hc hr =>
    cases call
    case issueRequest slot c b len =>
      rw [List.mem_singleton.mp hm, length_of_issueRequest hc]
      rfl
    case notInterested =>
      cases PeerSession.sends_of_mem hm
      trivial
    all_goals
      rw [List.mem_singleton.mp hm]
      trivial

section Step

variable [DecidableEq δ] {sha256 : List UInt8 → δ}

theorem Compact.apply (h : n.Compact total) (hg : Guard op n₀ n a) (ha : a ∈ n₀.actions std now op)
    (hp : op.ShortPex) (hq : op.AsksSubBlock) (hn : n.apply sha256 std now a = some n') :
    n'.Compact total := by
  have hbf := (constants_apply hn).right
  refine ⟨hbf ▸ h.initial, fun s' hs' => ?_⟩
  obtain ⟨k, hk'⟩ := List.getElem?_of_mem hs'
  rw [hbf]
  obtain ⟨s, hk, he⟩ | ⟨r, _, _, rfl⟩ := session_of_apply hn hk'
  case inr => exact ⟨List.forall_mem_nil _, List.forall_mem_nil _, List.forall_mem_nil _⟩
  case inl =>
    refine he.invariant (PeerSession.Compact n.task.initialBitfield) (fun t u hc ht => ?_)
      (h.sessions s (List.mem_of_getElem? hk))
    refine hc.apply (fun m hm => compact_sends hc hg ha hp ht hm) (fun j data hu => ?_) fun offsets m hu => ?_
    · cases ht
      case session hk he =>
        subst hu he
        obtain ⟨job, hj, hd⟩ := (hg t hk).right
        exact ⟨job, _, hj, hd⟩
      case call call _ _ _ => cases call <;> cases hu
      all_goals cases hu
    · cases ht
      case session hk he =>
        subst hu he
        cases (hg t hk).right
      case dispatch he hk =>
        cases hu
        subst he
        rintro index begin length rfl
        obtain ⟨⟨peers, ho⟩, _⟩ := hg.left
        exact hq k index begin length peers ho
      case call call _ _ _ => cases call <;> cases hu
      all_goals cases hu

theorem Compact.step {x : UInt64 × Op} (h : n.Compact total) (hb : n.Basic) (hp : x.2.ShortPex)
    (hq : x.2.AsksSubBlock) (hs : n.step sha256 std x = some n') : n'.Compact total :=
  step_invariant (Compact total) (fun _ _ _ ha _ hg hn hc => hc.apply hg ha hp hq hn) hb h hs

end Step

-- The peers of a node accept the bitfield of its handshakes, and everything that it has sent to them.
structure Accepted (n : Node δ) : Prop where
  bitfield : n.task.initialBitfield ≠ [] → ∃ bf, Bitfield.build n.task.initialBitfield = some bf ∧
    (Msg.bitfield bf).Accepted n.task.initialBitfield
  sent     : ∀ s ∈ n.sessions, ∀ m ∈ s.stream,
    (∃ speed, m = .handshake speed) ∨ m.Accepted n.task.initialBitfield

theorem Compact.accepted (h : n.Compact total) (ht : total ≤ 8 * maxMsgSize) : n.Accepted := by
  have hl : n.task.initialBitfield.length ≤ 8 * maxMsgSize := h.initial ▸ ht
  refine ⟨fun _ => ?_, fun s hs m hm => ?_⟩
  · have hd : n.task.initialBitfield.length + 7 < 2 ^ 32 := by
      rw [maxMsgSize] at hl
      omega
    obtain ⟨bf, hb⟩ := Option.isSome_iff_exists.mp (Bitfield.build_defined hd)
    exact ⟨bf, hb, Msg.Compact.accepted hb hl nofun⟩
  · by_cases hh : ∃ speed, m = .handshake speed
    case pos => exact .inl hh
    case neg =>
      have hc := (h.sessions s hs).stream m hm
      exact .inr (hc.accepted hl fun speed he => hh ⟨speed, he⟩)

-- A node with many chunks announces them with a bitfield that is too long for a message, or whose
-- number of bytes overflows.
theorem Accepted.length_le (h : n.Accepted) (hb : ∀ b ∈ n.task.initialBitfield, b = true)
    (hl : n.task.initialBitfield.length < 2 ^ 32) :
    n.task.initialBitfield.length ≤ 8 * maxMsgSize := by
  by_contra hw
  have hne : n.task.initialBitfield ≠ [] := fun hn => hw (hn ▸ Nat.zero_le _)
  obtain ⟨bf, hbf, hs, _⟩ := h.bitfield hne
  have hs : bf.length ≤ maxMsgSize := hs
  by_cases hd : n.task.initialBitfield.length + 7 < 2 ^ 32
  case pos =>
    have := Bitfield.length_build hbf hd
    omega
  case neg =>
    obtain ⟨b, bits, hbits⟩ := List.exists_cons_of_ne_nil hne
    rw [hbits] at hb hl hd hbf
    obtain rfl := hb b List.mem_cons_self
    rw [Bitfield.build_eq_none (Nat.le_of_not_lt hd) hl] at hbf
    cases hbf

end Node
end ThinBT
