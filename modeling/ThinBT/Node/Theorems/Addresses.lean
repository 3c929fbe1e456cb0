import ThinBT.Node.PeerManager
import ThinBT.Node.Theorems.Traffic

namespace ThinBT

namespace PeerManager

variable {α δ : Type} {fmt : AddressFormat α} {m m' : PeerManager α δ} {ip : String} {port : UInt16}

-- The addresses of the other ends of `sessions_`.
def addresses (m : PeerManager α δ) : List α :=
  m.openRemotes.map (·.address)

-- The checks of `connect_to` that do not look at other sessions.
structure Admits (fmt : AddressFormat α) (m : PeerManager α δ) (ip : String) (port : UInt16) :
    Prop where
  room        : m.node.peerCount < maxPeers
  connectable : isConnectablePeerIp fmt ip = true
  notSelf     : isSelfPeerEndpoint m.localPeerIps m.p2pPort ip port = false

-- A new session is to an address without a session, or the session to it is known.
def Unshared (fmt : AddressFormat α) (m : PeerManager α δ) : Op α → Prop
  | .connectTo ip port | .onPexPeer ip port =>
    m.Admits fmt ip port → ∀ r ∈ m.openRemotes, r.address = fmt.host ip → r.remoteIp fmt = ip
  | .accept address                         =>
    m.node.peerCount < maxPeers → ∀ r ∈ m.openRemotes, r.address ≠ address
  | _                                       => True

structure Aligned (m : PeerManager α δ) : Prop where
  basic  : m.node.Basic
  length : m.remotes.length = m.node.sessions.length

theorem addresses_eq : m.addresses =
    (((m.node.sessions.map (·.closed)).zip (m.remotes.map (·.address))).filter (!·.1)).map (·.2) := by
  rw [addresses, openRemotes, List.zip_map, List.filter_map, List.map_map, List.map_map]
  rfl

theorem remoteIp_eq_iff {r : Remote α} (h : isConnectablePeerIp fmt ip) :
    r.remoteIp fmt = ip ↔ r.connected = true ∧ fmt.text r.address = ip := by
  have hne : "unknown" ≠ ip := by
    rintro rfl
    simp [isConnectablePeerIp] at h
  unfold Remote.remoteIp
  split
  case isTrue hc  => exact (and_iff_right hc).symm
  case isFalse hc => exact iff_of_false hne fun h => hc h.left

theorem addresses_setConnected : addresses
    { m with remotes := m.remotes.modify k ({ · with connected := b }) } = m.addresses := by
  have hr : (m.remotes.modify k ({ · with connected := b })).map (·.address) =
      m.remotes.map (·.address) := by
    refine List.ext_getElem? fun j => ?_
    rw [List.getElem?_map, List.getElem?_map, List.getElem?_modify]
    cases m.remotes[j]?
    case none => rfl
    case some r =>
      simp only [Option.map_eq_map, Option.map_some, Option.some.injEq]
      split <;> rfl
  rw [addresses_eq, addresses_eq, hr]

-- A new session is the last one.
theorem addresses_append (h : m.Aligned) {n : Node δ} {s : PeerSession} {r : Remote α}
    (hn : n.sessions = m.node.sessions ++ [s]) (hs : s.closed = false) :
    addresses { m with node := n, remotes := m.remotes ++ [r] } = m.addresses ++ [r.address] := by
  have hl : (m.node.sessions.map (·.closed)).length = (m.remotes.map (·.address)).length := by
    rw [List.length_map, List.length_map, h.length]
  rw [addresses_eq, addresses_eq, hn, List.map_append, List.map_append, List.zip_append hl,
    List.filter_append, List.map_append]
  simp [hs]

theorem mem_addresses : a ∈ m.addresses ↔ ∃ r ∈ m.openRemotes, r.address = a :=
  List.mem_map

theorem nodup_append_iff {l : List α} (h : l.Nodup) : (l ++ [a]).Nodup ↔ a ∉ l := by
  rw [← List.concat_eq_append, List.nodup_concat, and_iff_left h]

-- A step creates a session to the address.
def Opens (fmt : AddressFormat α) (m : PeerManager α δ) (a : α) : Op α → Prop
  | .connectTo ip port | .onPexPeer ip port =>
    m.Admits fmt ip port ∧ m.isDuplicate fmt ip = false ∧ fmt.host ip = a
  | .accept address                         => m.node.peerCount < maxPeers ∧ address = a
  | _                                       => False

theorem isDuplicate_eq_false_iff :
    m.isDuplicate fmt ip = false ↔ ∀ r ∈ m.openRemotes, r.remoteIp fmt ≠ ip := by
  simp [isDuplicate]

-- The duplicates that `connect_to` finds are the only ones exactly if it makes no other one.
theorem known_iff (hn : m.addresses.Nodup) (hc : isConnectablePeerIp fmt ip) :
    (∀ r ∈ m.openRemotes, r.address = fmt.host ip → r.remoteIp fmt = ip) ↔
      (m.isDuplicate fmt ip = false → fmt.host ip ∉ m.addresses) := by
  rw [isDuplicate_eq_false_iff, mem_addresses]
  constructor
  · rintro h hd ⟨r, hr, ha⟩
    exact hd r hr (h r hr ha)
  · intro h r hr ha
    by_contra hne
    refine h (fun r' hr' he => ?_) ⟨r, hr, ha⟩
    -- A session with the text has the address, so that it is the same one.
    have ha' : r'.address = fmt.host ip := by
      rw [← ((remoteIp_eq_iff hc).mp he).right, fmt.host_text]
    obtain rfl := List.inj_on_of_nodup_map hn hr hr' (ha.trans ha'.symm)
    exact hne he

theorem unshared_iff (hn : m.addresses.Nodup) :
    m.Unshared fmt op ↔ ∀ a, m.Opens fmt a op → a ∉ m.addresses := by
  cases op
  case connectTo ip port | onPexPeer ip port =>
    constructor
    · rintro h _ ⟨hm, hd, rfl⟩
      exact (known_iff hn hm.connectable).mp (h hm) hd
    · exact fun h hm => (known_iff hn hm.connectable).mpr fun hd => h _ ⟨hm, hd, rfl⟩
  case accept a =>
    constructor
    · rintro h _ ⟨hc, rfl⟩ hm
      obtain ⟨r, hr, ha⟩ := mem_addresses.mp hm
      exact h hc r hr ha
    · exact fun h hc r hr ha => h a ⟨hc, rfl⟩ (mem_addresses.mpr ⟨r, hr, ha⟩)
  case setConnected | node => exact iff_of_true trivial fun _ => False.elim

section Steps

variable [DecidableEq δ] {sha256 : List UInt8 → δ} {std : StdSort} {now : UInt64} {op : Node.Op}

-- The checks of `on_pex_peer_` are those of `connect_to`.
theorem onPexPeer_eq :
    m.onPexPeer fmt sha256 std now ip port = m.connectTo fmt sha256 std now ip port := by
  unfold onPexPeer
  split
  case isTrue h => rw [connectTo, if_pos h]
  case isFalse hm =>
    split
    case isTrue h => rw [connectTo, if_neg hm, if_pos h]
    case isFalse hc =>
      split
      case isFalse  => rfl
      case isTrue h => simp [connectTo, h]

-- There is a new session if there is room.
theorem openSession_of_room {r : Remote α} (h : m.Aligned) (hc : m.node.peerCount < maxPeers)
    (ho : op.opens) : ∃ n, m.openSession sha256 std now op r =
      some { m with node := n, remotes := m.remotes ++ [r] } ∧
      Aligned { m with node := n, remotes := m.remotes ++ [r] } ∧
      addresses { m with node := n, remotes := m.remotes ++ [r] } = m.addresses ++ [r.address] := by
  obtain ⟨n, rd, hs, hn⟩ := Node.step_open hc ho
  refine ⟨n, by rw [openSession, hs]; rfl, ⟨h.basic.step hs, ?_⟩, addresses_append h hn rfl⟩
  rw [hn, List.length_append, List.length_append, h.length]
  rfl

theorem connectTo_spec (h : m.Aligned) :
    ∃ m', m.connectTo fmt sha256 std now ip port = some m' ∧ m'.Aligned ∧
      ((m.Admits fmt ip port ∧ m.isDuplicate fmt ip = false) ∧
          m'.addresses = m.addresses ++ [fmt.host ip] ∨
        ¬(m.Admits fmt ip port ∧ m.isDuplicate fmt ip = false) ∧ m' = m) := by
  unfold connectTo
  split
  case isTrue hm => exact ⟨m, rfl, h, .inr ⟨fun ha => Nat.not_le.mpr ha.left.room hm, rfl⟩⟩
  case isFalse hm =>
    split
    case isTrue hc => exact ⟨m, rfl, h, .inr ⟨fun ha => by simp [ha.left.connectable] at hc, rfl⟩⟩
    case isFalse hc =>
      split
      case isTrue hs => exact ⟨m, rfl, h, .inr ⟨fun ha => by simp [ha.left.notSelf] at hs, rfl⟩⟩
      case isFalse hs =>
        split
        case isTrue hd => exact ⟨m, rfl, h, .inr ⟨fun ha => by simp [ha.right] at hd, rfl⟩⟩
        case isFalse hd =>
          have hm := Nat.lt_of_not_le hm
          have ho : Node.Op.connect.opens := rfl
          obtain ⟨n, he, ha, hr⟩ := openSession_of_room h hm ho
          refine ⟨_, he, ha, .inl ⟨⟨⟨hm, ?_, ?_⟩, ?_⟩, hr⟩⟩
          · simpa using hc
          · simpa using hs
          · simpa using hd

theorem accept_spec (h : m.Aligned) :
    ∃ m', m.accept sha256 std now address = some m' ∧ m'.Aligned ∧
      (m.node.peerCount < maxPeers ∧ m'.addresses = m.addresses ++ [address] ∨
        ¬m.node.peerCount < maxPeers ∧ m' = m) := by
  unfold accept
  split
  case isTrue hm => exact ⟨m, rfl, h, .inr ⟨Nat.not_lt.mpr hm, rfl⟩⟩
  case isFalse hm =>
    have hm := Nat.lt_of_not_le hm
    have ho : Node.Op.accept.opens := rfl
    obtain ⟨n, he, ha, hr⟩ := openSession_of_room h hm ho
    exact ⟨_, he, ha, .inl ⟨hm, hr⟩⟩

-- Sessions only leave when no session is opened.
theorem addresses_node (h : m.Aligned) (ho : op.opens = false)
    (hs : m.node.step sha256 std (now, op) = some n) :
    Aligned { m with node := n } ∧ (addresses { m with node := n }).Sublist m.addresses := by
  have hl := Node.length_step h.basic hs ho
  refine ⟨⟨h.basic.step hs, h.length.trans hl.symm⟩, ?_⟩
  rw [addresses_eq, addresses_eq]
  refine List.filter_zip_sublist ?_
  rw [List.forall₂_iff_get]
  refine ⟨by simp [hl], fun k hk hk' => ?_⟩
  rw [List.length_map] at hk
  obtain ⟨s', hs', he⟩ := Node.session_step h.basic hs (List.getElem?_eq_getElem hk)
  obtain ⟨_, rfl⟩ := List.getElem?_eq_some_iff.mp hs'
  simpa using he.follows.closed

theorem step_cases (h : m.Aligned) (hs : m.step fmt sha256 std (now, op') = some m') :
    m'.Aligned ∧ ((∃ a, m.Opens fmt a op' ∧ m'.addresses = m.addresses ++ [a]) ∨
      (∀ a, ¬m.Opens fmt a op') ∧ m'.addresses.Sublist m.addresses) := by
  cases op'
  case connectTo ip port | onPexPeer ip port =>
    have hs : m.connectTo fmt sha256 std now ip port = some m' := by
      first | exact hs | exact onPexPeer_eq.symm.trans hs
    obtain ⟨m₁, h₁, ha, hc⟩ := connectTo_spec h
    obtain rfl := Option.some.inj (hs.symm.trans h₁)
    refine ⟨ha, hc.imp ?_ ?_⟩
    · rintro ⟨⟨hm, hd⟩, hr⟩
      exact ⟨_, ⟨hm, hd, rfl⟩, hr⟩
    · rintro ⟨hn, rfl⟩
      exact ⟨fun a ho => hn ⟨ho.left, ho.right.left⟩, .refl _⟩
  case accept address =>
    obtain ⟨m₁, h₁, ha, hc⟩ := accept_spec h
    obtain rfl := Option.some.inj (hs.symm.trans h₁)
    refine ⟨ha, hc.imp ?_ ?_⟩
    · rintro ⟨hm, hr⟩
      exact ⟨_, ⟨hm, rfl⟩, hr⟩
    · rintro ⟨hn, rfl⟩
      exact ⟨fun a ho => hn ho.left, .refl _⟩
  case setConnected k b =>
    obtain rfl := Option.some.inj hs
    refine ⟨⟨h.basic, (List.length_modify ..).trans h.length⟩, .inr ⟨fun _ => id, ?_⟩⟩
    rw [addresses_setConnected]
  case node op hn =>
    obtain ⟨n, ht, rfl⟩ := Option.map_eq_some_iff.mp hs
    have ho : op.opens = false := by
      cases op
      case connect => exact absurd rfl hn.left
      case accept  => exact absurd rfl hn.right
      all_goals rfl
    have ⟨ha, hl⟩ := addresses_node h ho ht
    exact ⟨ha, .inr ⟨fun _ => id, hl⟩⟩

theorem nodup_step_iff (h : m.Aligned) (hn : m.addresses.Nodup)
    (hs : m.step fmt sha256 std (now, op') = some m') :
    m'.addresses.Nodup ↔ m.Unshared fmt op' := by
  rw [unshared_iff hn]
  obtain ⟨a, ho, ha⟩ | ⟨ho, hl⟩ := (step_cases h hs).right
  case inr => exact iff_of_true (hn.sublist hl) fun a h => absurd h (ho a)
  case inl =>
    rw [ha, nodup_append_iff hn]
    refine ⟨fun hm b hb => ?_, fun hm => hm a ho⟩
    have he : b = a := by
      cases op'
      case connectTo | onPexPeer => exact hb.right.right.symm.trans ho.right.right
      case accept                => exact hb.right.symm.trans ho.right
      case setConnected | node   => cases ho
    rwa [he]

theorem unshared_of_undefined (h : m.Aligned) (hs : m.step fmt sha256 std (now, op') = none) :
    m.Unshared fmt op' := by
  cases op'
  case connectTo ip port =>
    obtain ⟨m', h', _⟩ := connectTo_spec h
    cases hs.symm.trans h'
  case onPexPeer ip port =>
    obtain ⟨m', h', _⟩ := connectTo_spec h
    cases hs.symm.trans (onPexPeer_eq.trans h')
  case accept address =>
    obtain ⟨m', h', _⟩ := accept_spec h
    cases hs.symm.trans h'
  case setConnected | node => trivial

-- All sessions are to different addresses at every moment exactly if no session is created while
-- there is one to the address, unless `connect_to` sees it.
theorem one_session_per_address_iff {τ : Task δ} {localPeerIps : List String} {p2pPort : UInt16}
    {ops : List (UInt64 × Op α)} :
    (∀ before, before <+: ops → ∀ m, Machine.run (step fmt sha256 std)
        { node := { task := τ }, localPeerIps := localPeerIps, p2pPort := p2pPort } before = some m →
        m.addresses.Nodup) ↔
      Machine.AllAt (step fmt sha256 std) (fun m x => m.Unshared fmt x.2)
        { node := { task := τ }, localPeerIps := localPeerIps, p2pPort := p2pPort } ops :=
  Machine.forall_prefix_iff Aligned (·.addresses.Nodup) (fun _ _ _ h hs => (step_cases h hs).left)
    (fun _ _ h hs => unshared_of_undefined h hs) (fun _ _ _ h hn hs => nodup_step_iff h hn hs)
    ⟨Node.basic_start, rfl⟩ List.nodup_nil

end Steps

section Runs

-- Addresses that are their own texts.
def plainFormat : AddressFormat String :=
  ⟨id, id, fun _ => true, fun _ => rfl⟩

def hostSeed : TSeedFile Unit where
  fileSize := 6
  config   := {}
  chunks   := [⟨0, 6, ()⟩]
  countLt  := by decide

def hostStart : PeerManager String Unit where
  node         := { task := Task.cmdSeed .stable hostSeed [1, 2, 3, 4, 5, 6] 2 1000 }
  localPeerIps := ["127.0.0.1", "10.0.0.1"]
  p2pPort      := 6881

-- The tracker gives the peer again before the connection to it is there.
def impatientRun : List (UInt64 × Op String) := [
  (1, .connectTo "10.0.0.2" 6881), (2, .connectTo "10.0.0.2" 6881), (3, .setConnected 0 true),
  (4, .node (.established 0) (by decide)), (5, .setConnected 1 true),
  (6, .node (.established 1) (by decide))
]

theorem pending_connect_is_repeated :
    (Machine.run (step plainFormat (fun _ => ()) .stable) hostStart impatientRun).map
        (·.openRemotes.map (·.remoteIp plainFormat)) =
      some ["10.0.0.2", "10.0.0.2"] := by
  decide +kernel

end Runs
end PeerManager
end ThinBT
