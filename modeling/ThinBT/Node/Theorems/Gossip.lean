import ThinBT.Node.Gossip
import ThinBT.Node.Theorems.Addresses

namespace ThinBT.Gossip

section Steps

variable {α δ : Type} [DecidableEq δ] (fmt : AddressFormat α) (inetAddr : String → UInt32)
variable (ports : Nat → UInt16) (sha256 : List UInt8 → δ) (std : StdSort)

def Op.isTickPex : Op α → Bool
  | .tickPex => true
  | _        => false

-- A run in which a session with a completed handshake is disconnected less than 60 seconds before the
-- next `tick_pex`.
structure Departs (m : PeerManager α δ) (xs : List (UInt64 × Op α)) (g : Gossip α δ)
    (x : UInt64 × Op α) (g' : Gossip α δ) (ys : List (UInt64 × Op α)) (g'' : Gossip α δ) (k : Nat)
    (ip : String) (port : UInt16) (now : UInt64) : Prop where
  before      : Machine.run (step fmt inetAddr ports sha256 std) { manager := m } xs = some g
  connected   : ∃ s, g.manager.node.sessions[k]? = some s ∧ s.closed = false ∧ s.state = .connected
  remoteIp    : g.remoteIp fmt k = ip
  connectable : PeerManager.isConnectablePeerIp fmt ip = true
  listenPort  : (g.hellos k).remoteListenPort = port ∧ port ≠ 0
  step        : g.step fmt inetAddr ports sha256 std x = some g'
  closed      : ∃ s, g'.manager.node.sessions[k]? = some s ∧ s.closed = true
  after       : Machine.run (Gossip.step fmt inetAddr ports sha256 std) g' ys = some g''
  untold      : ∀ y ∈ ys, y.2.isTickPex = false
  inTime      : now.toNat < x.1.toNat + 60000

-- The peers are told that the address has left.
def Tells (peers : List PexPeer) (ip : String) (port : UInt16) : Prop :=
  ∃ p ∈ peers, p.ip = inetAddr ip ∧ p.port = hton16 port ∧ p.flags &&& 0x80 ≠ 0

end Steps

variable {α δ : Type} {fmt : AddressFormat α} {inetAddr : String → UInt32} {ports : Nat → UInt16}
variable {now : UInt64} {g g' : Gossip α δ} {k : Nat}

-- A closed socket has no address any more.
theorem remoteIp_closeSocket : (g.closeSocket k).remoteIp fmt k = "unknown" := by
  change ((g.manager.remotes.modify k _)[k]?).elim _ _ = _
  rw [List.getElem?_modify_eq]
  cases g.manager.remotes[k]? <;> rfl

theorem disconnect_eq_closeSocket : g.disconnect fmt ports now k = g.closeSocket k := by
  have hn : (g.closeSocket k).note fmt ports now k (g.closeSocket k).recentDisconnects =
      (g.closeSocket k).recentDisconnects := by
    rw [note, remoteIp_closeSocket]
    exact if_neg Bool.false_ne_true
  rw [disconnect, noteRecentDisconnect, hn]

-- No peer is noted as one that has left.
structure Hushed (g : Gossip α δ) : Prop where
  connects    : ∀ e ∈ g.recentConnects.entries, e.2.flags &&& 0x80 = 0
  disconnects : g.recentDisconnects = ∅

theorem hushed_start {m : PeerManager α δ} : Hushed { manager := m } :=
  ⟨List.forall_mem_nil _, rfl⟩

theorem peerFlags_and : g.peerFlags k &&& 0x80 = 0 := by
  unfold peerFlags
  split <;> rfl

theorem Hushed.noteRecentConnect (h : Hushed g) :
    Hushed (g.noteRecentConnect fmt ports now k) := by
  refine ⟨?_, h.disconnects⟩
  change ∀ e ∈ (g.note fmt ports now k g.recentConnects).entries, _
  unfold note
  split
  case isFalse => exact h.connects
  case isTrue =>
    rintro ⟨ip, r⟩ he
    have hf := SortedMap.find?_eq_some.mpr he
    rw [SortedMap.find?_upsert] at hf
    split at hf
    case isTrue  => exact Option.some.inj hf ▸ peerFlags_and
    case isFalse => exact h.connects _ (SortedMap.find?_eq_some.mp hf)

theorem Hushed.erase (h : Hushed g) (ip : String) :
    Hushed { g with recentConnects := g.recentConnects.erase ip } := by
  refine ⟨?_, h.disconnects⟩
  rintro ⟨ip', r⟩ he
  have hf := SortedMap.find?_eq_some.mpr he
  rw [SortedMap.find?_erase] at hf
  split at hf
  case isTrue  => cases hf
  case isFalse => exact h.connects _ (SortedMap.find?_eq_some.mp hf)

theorem Hushed.foldl_disconnect (h : Hushed g) {ks : List Nat} :
    Hushed (ks.foldl (disconnect fmt ports now) g) := by
  induction ks generalizing g
  case nil          => exact h
  case cons k ks hi =>
    rw [List.foldl_cons, disconnect_eq_closeSocket]
    exact hi ⟨h.connects, h.disconnects⟩

theorem Hushed.not_left (h : Hushed g) (hp : p ∈ g.delta fmt inetAddr now) :
    p.flags &&& 0x80 = 0 := by
  rw [delta, h.disconnects] at hp
  have hp : p ∈ (g.recentConnects.entries.filter _).map _ :=
    (List.append_nil _) ▸ hp
  obtain ⟨e, he, rfl⟩ := List.mem_map.mp hp
  have hf := h.connects e (List.mem_filter.mp he).left
  rwa [pexPeer, UInt8.or_zero]

variable [DecidableEq δ] {sha256 : List UInt8 → δ} {std : StdSort}

theorem Hushed.managerStep (h : Hushed g)
    (hs : g.managerStep fmt ports sha256 std now op = some g') : Hushed g' := by
  obtain ⟨m, _, rfl⟩ := Option.map_eq_some_iff.mp hs
  have hm : Hushed { g with manager := m } := ⟨h.connects, h.disconnects⟩
  exact hm.foldl_disconnect

theorem Hushed.step (h : Hushed g) (hs : g.step fmt inetAddr ports sha256 std x = some g') :
    Hushed g' := by
  obtain ⟨now, op⟩ := x
  cases op
  case manager op _ => exact h.managerStep hs
  case onPexRemove ip =>
    obtain rfl := Option.some.inj hs
    exact h.erase ip
  case tickPex =>
    obtain ⟨g₁, _, rfl⟩ := Option.map_eq_some_iff.mp hs
    exact ⟨List.forall_mem_nil _, rfl⟩
  case handshake k speed port =>
    obtain ⟨g₁, h₁, rfl⟩ := Option.map_eq_some_iff.mp hs
    have hg := h.managerStep h₁
    split
    case isFalse => exact hg
    case isTrue =>
      have hu : Hushed { g₁ with hellos := Function.update g₁.hellos k ⟨speed, port⟩ } :=
        ⟨hg.connects, hg.disconnects⟩
      exact hu.noteRecentConnect

theorem Hushed.run (h : Hushed g)
    (hr : Machine.run (Gossip.step fmt inetAddr ports sha256 std) g xs = some g') : Hushed g' :=
  Machine.run_invariant Hushed (fun _ _ _ h hs => h.step hs) h hr

-- However a session ends, the next `tick_pex` does not tell that its peer has left.
theorem departure_not_told
    (h : Departs fmt inetAddr ports sha256 std m xs g x g' ys g'' k ip port now) :
    ¬Tells inetAddr (g''.delta fmt inetAddr now) ip port := by
  rintro ⟨p, hp, _, _, hf⟩
  have hg : Hushed g'' := ((hushed_start.run h.before).step h.step).run h.after
  exact hf (hg.not_left hp)

section Runs

-- The addresses 10.0.0.2 and 10.0.0.3 in network byte order.
def plainInetAddr (ip : String) : UInt32 :=
  if ip = "10.0.0.2" then 0x0200000a else if ip = "10.0.0.3" then 0x0300000a else 0xffffffff

def plainStep : Gossip String Unit → UInt64 × Op String → Option (Gossip String Unit) :=
  step PeerManager.plainFormat plainInetAddr (fun _ => 40000) (fun _ => ()) .stable

-- Two peers connect, and the first one is told of by a `tick_pex` already.
def meetingRun : List (UInt64 × Op String) := [
  (1, .manager (.accept "10.0.0.2") rfl), (2, .handshake 0 1000 6881), (3, .tickPex),
  (4, .manager (.accept "10.0.0.3") rfl), (5, .handshake 1 100 6882)
]

def met : Gossip String Unit :=
  (Machine.run plainStep { manager := PeerManager.hostStart } meetingRun).get (by decide +kernel)

-- The read of the first session fails.
def hangUp : UInt64 × Op String :=
  (6, .manager (.node (.readError 0) (by decide)) rfl)

def parted : Gossip String Unit :=
  (plainStep met hangUp).get (by decide +kernel)

theorem parted_departs :
    Departs PeerManager.plainFormat plainInetAddr (fun _ => 40000) (fun _ => ()) .stable
      PeerManager.hostStart meetingRun met hangUp parted [] parted 0 "10.0.0.2" 6881 7 where
  before      := (Option.some_get _).symm
  connected   := ⟨(met.manager.node.sessions[0]?).get (by decide +kernel),
    (Option.some_get _).symm, by decide +kernel, by decide +kernel⟩
  remoteIp    := by decide +kernel
  connectable := by decide +kernel
  listenPort  := by decide +kernel
  step        := (Option.some_get _).symm
  closed      := ⟨(parted.manager.node.sessions[0]?).get (by decide +kernel),
    (Option.some_get _).symm, by decide +kernel⟩
  after       := rfl
  untold      := List.forall_mem_nil _
  inTime      := by decide

theorem parted_not_told :
    ¬Tells plainInetAddr (parted.delta PeerManager.plainFormat plainInetAddr 7) "10.0.0.2" 6881 :=
  departure_not_told parted_departs

-- The next `tick_pex` tells of the second peer only.
theorem only_arrival_told :
    (met.remoteIp PeerManager.plainFormat 0, (met.hellos 0).remoteListenPort) = ("10.0.0.2", 6881) ∧
    (parted.manager.node.sessions.map (·.closed)) = [true, false] ∧
    parted.delta PeerManager.plainFormat plainInetAddr 7 = [⟨0x0300000a, hton16 6882, 0, 0⟩] := by
  decide +kernel

end Runs

end ThinBT.Gossip
