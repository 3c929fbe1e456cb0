import ThinBT.Swarm.Bytes
import ThinBT.Swarm.Theorems.Acceptance
import ThinBT.Swarm.Theorems.Sockets
import ThinBT.Util.Simulation

namespace ThinBT

namespace Node

variable {δ : Type} {n n' : Node δ} {now : UInt64} {s s' : PeerSession} {std : StdSort}
variable [DecidableEq δ] {sha256 : List UInt8 → δ}

theorem received_run {as : List Action} {k : Nat}
    (h : Machine.run (apply sha256 std now) n as = some n') (hk : n.sessions[k]? = some s) :
    ∃ s', n'.sessions[k]? = some s' ∧ s.received <+: s'.received := by
  refine Machine.run_invariant (fun n => ∃ s', n.sessions[k]? = some s' ∧ s.received <+: s'.received)
    (fun n₁ a n₂ h₁ ha => ?_) ⟨s, hk, List.prefix_rfl⟩ h
  obtain ⟨t, ht, hp⟩ := h₁
  obtain ⟨t', ht', he⟩ := session_apply ha ht
  refine ⟨t', ht', he.invariant (fun t => s.received <+: t.received) (fun t u hi _ => ?_) hp⟩
  rw [PeerSession.received_apply]
  exact hi.trans (List.prefix_append ..)

theorem received_receive (hb : n.Basic) (hk : n.sessions[k]? = some s) (he : Socket.Expects s m)
    (hl : m.bodyLen ≤ maxMsgSize) (h : n.step sha256 std (now, .receive k m peers) = some n') :
    ∃ s', n'.sessions[k]? = some s' ∧ s'.received = s.received ++ [m] := by
  obtain ⟨s', hk', hx⟩ := session_step hb h hk
  refine ⟨s', hk', ?_⟩
  suffices hp : s.received ++ [m] <+: s'.received by
    obtain hr | ⟨m', peers', ho, hr⟩ := hx.received
    case inl =>
      have hl := hp.length_le
      rw [hr, List.length_append, List.length_singleton] at hl
      omega
    case inr =>
      cases ho
      exact hr
  have hrun : Machine.run (apply sha256 std now) n (receive std now k m peers n s) = some n' := by
    rwa [step, actions, onSession, hk] at h
  unfold receive at hrun
  obtain ⟨hr, speed, rfl⟩ | ⟨hr, hm⟩ := he
  case inl =>
    rw [if_pos hr] at hrun
    simp only [handleHandshake, List.append_assoc, List.cons_append] at hrun
    obtain ⟨n₁, h₁, hrun⟩ := Machine.run_cons.mp hrun
    obtain rfl := Option.some.inj h₁
    obtain ⟨t, ht, hp⟩ := received_run hrun (session_modify_self hk)
    rw [PeerSession.received_apply] at hp
    rwa [Option.some.inj (hk'.symm.trans ht)]
  case inr =>
    rw [if_neg (by simp [hr]), if_pos hr] at hrun
    split at hrun
    case h_1 speed => exact absurd rfl (hm speed)
    case h_2 =>
      rw [if_neg (Nat.not_lt.mpr hl), List.append_assoc, List.singleton_append] at hrun
      obtain ⟨n₁, h₁, hrun⟩ := Machine.run_cons.mp hrun
      obtain ⟨n₂, h₂, hn₁⟩ := apply_eq_some.mp h₁
      obtain rfl := Option.some.inj h₂
      obtain ⟨t, ht, hrt⟩ : ∃ t, n₁.sessions[k]? = some t ∧ t.received = s.received ++ [m] := by
        have hd : (s.apply now (.dispatch n.chunkOffsets m)).received = s.received ++ [m] :=
          PeerSession.received_apply
        obtain ⟨_, rfl⟩ | ⟨op, _, hn₁⟩ := hn₁
        case inl => exact ⟨_, session_modify_self hk, hd⟩
        case inr =>
          obtain ⟨τ, _, rfl⟩ := taskStep_eq_some.mp hn₁
          obtain ⟨t, ht, hst⟩ := callbacks_frame (session_modify_self hk)
          exact ⟨t, ht, hst.received.trans hd⟩
      obtain ⟨t', ht', hp⟩ := received_run hrun ht
      rwa [Option.some.inj (hk'.symm.trans ht'), ← hrt]

omit [DecidableEq δ] in
-- Messages that are refused are errors.
theorem actions_refused (hk : n.sessions[k]? = some s) (hr : Socket.Refuses s m) :
    n.actions std now (.receive k m peers) = n.actions std now (.readError k) := by
  simp only [actions, onSession, hk, receive, readError]
  obtain ⟨hr, hm⟩ | ⟨hr, speed, rfl⟩ := hr
  case inl =>
    rw [if_pos hr, if_neg (by simp [hr])]
    split
    case h_1 speed => exact absurd rfl (hm speed)
    case h_2       => rfl
  case inr => rw [if_neg (by simp [hr]), if_pos hr, if_neg (by simp [hr])]

end Node

theorem End.ext {e d : End} (hn : e.node = d.node) (hs : e.session = d.session) : e = d := by
  obtain ⟨_, _⟩ := e
  cases hn
  cases hs
  rfl

namespace Swarm

variable {δ : Type} {w w' : Swarm δ} {e d : End} {s s' t : PeerSession} {std : StdSort}
variable [DecidableEq δ] {sha256 : List UInt8 → δ} {x : UInt64 × Op}

-- Messages are only received when they are delivered.
theorem received_step (hb : ∀ n ∈ w.nodes, n.Basic) (h : w.step sha256 std x = some w')
    (hs : w.session e = some s) (hs' : w'.session e = some s') (hx : ∀ peers, x.2 ≠ .deliver e peers) :
    s'.received = s.received := by
  obtain ⟨n', hn', hk'⟩ := session_eq_some.mp hs'
  obtain ⟨n, hn, hstep⟩ := node_step h hn'
  rw [session_eq hn] at hs
  obtain rfl | ⟨op, hev, hstep⟩ := hstep
  case inl => rw [Option.some.inj (hs.symm.trans hk')]
  case inr =>
    obtain ⟨t, ht, hex⟩ := Node.session_step (hb n (List.mem_of_getElem? hn)) hstep hs
    obtain rfl := Option.some.inj (hk'.symm.trans ht)
    obtain hr | ⟨m, peers, rfl, _⟩ := hex.received
    case inl => exact hr
    case inr =>
      cases ho : x.2
      case deliver e' peers' =>
        rw [ho] at hev
        obtain ⟨_, _, he⟩ := Option.map_eq_some_iff.mp hev
        obtain ⟨hi, he⟩ := Prod.mk.inj he
        obtain ⟨hj, _, _⟩ := Node.Op.receive.inj he
        obtain rfl : e' = e := End.ext hi hj
        exact absurd ho (hx peers')
      all_goals
        rw [ho] at hev
        simp only [event] at hev
      case accept b =>
        obtain ⟨_, _, he⟩ := Option.map_eq_some_iff.mp hev
        cases (Prod.mk.inj he).right
      case connect i j => split at hev <;> cases hev
      case node i op =>
        split at hev
        case isTrue hl  => cases hev; cases hl
        case isFalse => cases hev

theorem early_of_step (hb : ∀ n ∈ w.nodes, n.Basic) (h : w.step sha256 std x = some w')
    (hs : w.session e = some s) (hs' : w'.session e = some s') (he : Node.Early s') : Node.Early s := by
  obtain ⟨n', hn', hk'⟩ := session_eq_some.mp hs'
  obtain ⟨n, hn, hstep⟩ := node_step h hn'
  rw [session_eq hn] at hs
  obtain rfl | ⟨op, _, hstep⟩ := hstep
  case inl => rwa [Option.some.inj (hs.symm.trans hk')]
  case inr => exact Node.early_of_step (hb n (List.mem_of_getElem? hn)) hstep hs hk' he

end Swarm

namespace ByteSwarm

open Socket

variable {δ : Type}

-- The nodes at the start have no sessions.
def start (tasks : List (Task δ)) : ByteSwarm δ :=
  { swarm := .start tasks }

def Op.ShortPex : Op → Prop
  | .arrive ..     => True
  | .read _ peers  => peers.length ≤ maxPeers
  | .swarm op      => op.ShortPex

-- The steps with whole messages that a step stands for.
inductive Op.Matches : UInt64 × Op → List (UInt64 × Swarm.Op) → Prop
  | arrive {now : UInt64} : Matches (now, .arrive e n) []
  | wait {now : UInt64} : Matches (now, .read e peers) []
  | deliver {now : UInt64} : Matches (now, .read e peers) [(now, .deliver e peers)]
  | abort {now : UInt64} :
    Matches (now, .read e peers) [(now, .node e.node (.readError e.session))]
  | swarm {now : UInt64} : isDeliver op = false → Matches (now, .swarm op) [(now, op)]
  | skip {now : UInt64} : isDeliver op = true → Matches (now, .swarm op) []

variable {b b' : ByteSwarm δ} {w w' : Swarm δ} {e d : End} {s s' t : PeerSession}
variable {std : StdSort} {p : Identity} {total : Nat}

-- What the sockets have to do with the messages.
structure Faithful (p : Identity) (total : Nat) (b : ByteSwarm δ) : Prop where
  paired  : b.swarm.Paired
  compact : ∀ n ∈ b.swarm.nodes, n.Basic ∧ n.Compact total
  speaks  : ∀ n ∈ b.swarm.nodes, ∃ speed < 2 ^ 32, n.Speaks speed
  idle    : ∀ {e}, b.swarm.mate e = none → b.socket e = {}
  tracks  : ∀ {e d s t}, b.swarm.mate e = some d → b.swarm.session e = some s →
    b.swarm.session d = some t → ∃ pending, t.stream = s.received ++ pending ∧
      (b.socket e).Tracks (p.hello d) s.received pending
  early   : ∀ {e s}, b.swarm.session e = some s → Node.Early s → (b.socket e).header = none

theorem faithful_start {tasks : List (Task δ)}
    (hτ : ∀ τ ∈ tasks, τ.initialBitfield.length = total ∧ τ.scheduler.localSpeedMbps < 2 ^ 32) :
    (start tasks).Faithful p total where
  paired  := Swarm.paired_start
  compact n hn := by
    obtain ⟨τ, hm, rfl⟩ := List.mem_map.mp hn
    exact ⟨Node.basic_start, (hτ τ hm).left, List.forall_mem_nil _⟩
  speaks n hn := by
    obtain ⟨τ, hm, rfl⟩ := List.mem_map.mp hn
    exact ⟨_, (hτ τ hm).right, rfl, List.forall_mem_nil _, List.forall_mem_nil _⟩
  idle _  := rfl
  tracks hm := by cases hm
  early _ _ := rfl

theorem greets_hello : Greets p.infoHash (p.hello d) :=
  ⟨_, _, fun _ => rfl⟩

theorem readable (hc : ∀ n ∈ w.nodes, n.Basic ∧ n.Compact total)
    (hv : ∀ n ∈ w.nodes, ∃ speed < 2 ^ 32, n.Speaks speed) (ht : total ≤ 8 * maxMsgSize)
    (hs : w.session d = some t) : Readable (p.hello d) t.stream := by
  intro m hm
  obtain ⟨n, hn, hk⟩ := Swarm.session_eq_some.mp hs
  have hn := List.mem_of_getElem? hn
  have hk := List.mem_of_getElem? hk
  by_cases hh : ∃ speed, m = .handshake speed
  case pos =>
    obtain ⟨speed, rfl⟩ := hh
    obtain ⟨v, hlt, hsp⟩ := hv n hn
    obtain rfl := hsp.stream t hk _ hm speed rfl
    exact ⟨_, rfl, .handshake hlt⟩
  case neg =>
    have hb : n.task.initialBitfield.length ≤ 8 * maxMsgSize := (hc n hn).right.initial ▸ ht
    have hm := ((hc n hn).right.sessions t hk).stream m hm
    exact hm.framed hb fun speed he => hh ⟨speed, he⟩

-- The swarm does not change.
theorem Faithful.update {k : Socket} (h : b.Faithful p total) (hm : b.swarm.mate e = some d)
    (he : b.swarm.session e = some s) (hd : b.swarm.session d = some t)
    (hst : t.stream = s.received ++ pending) (hk : k.Tracks (p.hello d) s.received pending)
    (hy : Node.Early s → k.header = none) :
    Faithful p total { b with socket := Function.update b.socket e k } where
  paired  := h.paired
  compact := h.compact
  speaks  := h.speaks
  idle {e'} hn := by
    have hne : e' ≠ e := by
      rintro rfl
      rw [hm] at hn
      cases hn
    exact (Function.update_of_ne hne ..).trans (h.idle hn)
  tracks {e' d' s' t'} hm' he' hd' := by
    by_cases heq : e' = e
    case neg =>
      obtain ⟨pending', hst', hk'⟩ := h.tracks hm' he' hd'
      exact ⟨pending', hst', by simpa only [Function.update_of_ne heq] using hk'⟩
    case pos =>
      subst heq
      obtain rfl := Option.some.inj (hm.symm.trans hm')
      obtain rfl := Option.some.inj (he.symm.trans he')
      obtain rfl := Option.some.inj (hd.symm.trans hd')
      exact ⟨pending, hst, by simpa only [Function.update_self] using hk⟩
  early {e' s'} he' hy' := by
    by_cases heq : e' = e
    case neg =>
      simp only [Function.update_of_ne heq]
      exact h.early he' hy'
    case pos =>
      subst heq
      simp only [Function.update_self]
      exact hy (Option.some.inj (he.symm.trans he') ▸ hy')

theorem nextMessage_eq (hm : w.mate e = some d) (hs : w.session e = some s) (ht : w.session d = some t)
    (hst : t.stream = s.received ++ m :: ms) : w.nextMessage e = some m := by
  refine Swarm.nextMessage_eq_some.mpr ⟨d, s, t, hm, hs, ht, ?_⟩
  rw [hst, List.getElem?_append_right (Nat.le_refl _), Nat.sub_self]
  rfl

theorem bodyLen_le (hc : ∀ n ∈ w.nodes, n.Basic ∧ n.Compact total) (ht : total ≤ 8 * maxMsgSize)
    (hd : w.session d = some t) (hm : m ∈ t.stream) : m.bodyLen ≤ maxMsgSize := by
  obtain ⟨n, hn, hk⟩ := Swarm.session_eq_some.mp hd
  have hn := (hc n (List.mem_of_getElem? hn)).right
  exact ((hn.sessions t (List.mem_of_getElem? hk)).stream m hm).bodyLen_le (hn.initial ▸ ht)

theorem written_eq (hm : w.mate e = some d) (ht : w.session d = some t) :
    written p w e = encodeAll (p.hello d) t.stream := by
  rw [written, hm]
  simp only [ht]
  rfl

theorem Faithful.arrive (h : b.Faithful p total) (ha : b.arrive p e n = some b') :
    b'.Faithful p total ∧ b'.swarm = b.swarm := by
  obtain ⟨bytes, hw, ha⟩ := Option.bind_eq_some_iff.mp ha
  obtain rfl := Option.some.inj ha
  refine ⟨?_, rfl⟩
  cases hm : b.swarm.mate e
  case none =>
    rw [written, hm] at hw
    obtain rfl := Option.some.inj hw
    have hi := h.idle hm
    have hsame : Function.update b.socket e
        ((b.socket e).push (([].drop (b.socket e).arrived).take n)) = b.socket := by
      rw [Function.update_eq_self_iff, hi]
      simp [push]
    rwa [hsame]
  case some d =>
    obtain ⟨s, hs⟩ := h.paired.live hm
    obtain ⟨t, ht⟩ := h.paired.live (h.paired.symm hm)
    obtain ⟨pending, hst, hk⟩ := h.tracks hm hs ht
    rw [written_eq hm ht, hst] at hw
    exact h.update hm hs ht hst (Tracks.arrive hk hw) (h.early hs)

-- All bytes that were sent may arrive.
theorem Faithful.arrive_all (h : b.Faithful p total) (ht : total ≤ 8 * maxMsgSize)
    (hm : b.swarm.mate e = some d) (hs : b.swarm.session e = some s) (hd : b.swarm.session d = some t)
    (hst : t.stream = s.received ++ pending) :
    ∃ n k, b.arrive p e n = some { b with socket := Function.update b.socket e k } ∧
      k.header = (b.socket e).header ∧ encodeAll (p.hello d) pending = some (k.headerBytes ++ k.unread) := by
  obtain ⟨pending', hst', hk⟩ := h.tracks hm hs hd
  obtain rfl := List.append_cancel_left (hst.symm.trans hst')
  have hread : Readable (p.hello d) t.stream := readable h.compact h.speaks ht hd
  obtain ⟨bytes, hb⟩ := hread.encodeAll (List.Subset.refl _)
  refine ⟨(bytes.drop (b.socket e).arrived).length, (b.socket e).push (bytes.drop (b.socket e).arrived),
    ?_, rfl, ?_⟩
  · rw [ByteSwarm.arrive, written_eq hm hd, hb]
    simp only [Option.bind_eq_bind, Option.bind_some, List.take_length]
    rfl
  · rw [hk.drop_arrived (hst ▸ hb), List.append_assoc]
    rfl

section Step

variable [DecidableEq δ] {sha256 : List UInt8 → δ}

-- A step of the swarm, after which the sockets are `k`.
theorem Faithful.next {x : UInt64 × Swarm.Op} {k : End → Socket} (h : b.Faithful p total)
    (ht : total ≤ 8 * maxMsgSize) (hs : b.swarm.step sha256 std x = some w') (hx : x.2.ShortPex)
    (idle : ∀ {e}, b.swarm.mate e = none → k e = {})
    (tracks : ∀ {e d s t s'}, b.swarm.mate e = some d → b.swarm.session e = some s →
      b.swarm.session d = some t → w'.session e = some s' →
      ∃ pending, t.stream = s'.received ++ pending ∧ (k e).Tracks (p.hello d) s'.received pending)
    (early : ∀ {e s}, b.swarm.session e = some s → Node.Early s → (k e).header = none) :
    Faithful p total { swarm := w', socket := k } := by
  have hb := h.paired.basic
  have hr := Swarm.relinks hs
  have hp := h.paired.step hs
  have hc : ∀ n ∈ w'.nodes, n.Basic ∧ n.Compact total := Swarm.compact_step h.compact hx hs
  have hv : ∀ n ∈ w'.nodes, ∃ speed < 2 ^ 32, n.Speaks speed := by
    refine Swarm.nodes_step (fun n => ∃ speed < 2 ^ 32, n.Speaks speed) h.speaks
      (fun i op n n' _ hi hn hs => ?_) hs
    obtain ⟨speed, hlt, hn⟩ := hn
    exact ⟨speed, hlt, hn.step (hb n (List.mem_of_getElem? hi)) hs⟩
  refine ⟨hp, hc, hv, fun {e} hm => idle ?_, fun {e d s t} hm he hd => ?_, fun {e s} he hy => ?_⟩
  · refine Option.eq_none_iff_forall_ne_some.mpr fun d hd => ?_
    rw [h.paired.mate_step hr hd] at hm
    cases hm
  · have hread : Readable (p.hello d) t.stream := readable hc hv ht hd
    -- Nothing has arrived on a new connection.
    have fresh (hn : b.swarm.mate e = none) : ∃ pending, t.stream = s.received ++ pending ∧
        (k e).Tracks (p.hello d) s.received pending := by
      rw [idle hn, h.paired.received_eq_nil hs hn he]
      obtain ⟨bytes, hb⟩ := hread.encodeAll (List.Subset.refl _)
      exact ⟨t.stream, rfl, ⟨[], rfl, rfl⟩, ⟨bytes, hb, List.nil_prefix⟩, nofun⟩
    obtain hm | hj | hj := h.paired.mate_cases hr hm
    case inl =>
      obtain ⟨s₀, hs₀⟩ := h.paired.live hm
      obtain ⟨t₀, ht₀⟩ := h.paired.live (h.paired.symm hm)
      obtain ⟨pending, hst, htr⟩ := tracks hm hs₀ ht₀ he
      obtain ⟨t', ht', hmv⟩ := Swarm.session_step hb hs ht₀
      obtain rfl := Option.some.inj (hd.symm.trans ht')
      obtain ⟨more, hmore⟩ := hmv.stream
      refine ⟨pending ++ more, by rw [← hmore, hst, List.append_assoc], htr.extend ?_⟩
      exact hread.encodeAll (hmore ▸ List.subset_append_right ..)
    case inr.inl => exact fresh hj.free
    case inr.inr =>
      refine fresh (Option.eq_none_iff_forall_ne_some.mpr fun d' hd' => ?_)
      obtain ⟨_, hlive⟩ := h.paired.live hd'
      rw [hj.server] at hlive
      cases hlive
  · obtain ⟨s₀, hs₀, _⟩ | ⟨hn, _⟩ := Swarm.session_of_step hb hs he
    case inl => exact early hs₀ (Swarm.early_of_step hb hs hs₀ he hy)
    case inr =>
      refine congrArg Socket.header (idle (Option.eq_none_iff_forall_ne_some.mpr fun d' hd' => ?_))
      obtain ⟨_, hlive⟩ := h.paired.live hd'
      rw [hn] at hlive
      cases hlive

theorem step_deliver {x : UInt64} {m : Msg} (h : w.nextMessage e = some m) :
    w.step sha256 std (x, .deliver e peers) =
      nodeStep sha256 std w x e.node (.receive e.session m peers) := by
  simp only [Swarm.step, Swarm.event, h, Option.map_some, nodeStep]
  rfl

theorem step_readError {x : UInt64} :
    w.step sha256 std (x, .node e.node (.readError e.session)) =
      nodeStep sha256 std w x e.node (.readError e.session) := by
  simp only [Swarm.step, Swarm.event, Swarm.isLocal, nodeStep]
  rfl

-- A step of the swarm that concerns one socket.
theorem Faithful.next_at {x : UInt64 × Swarm.Op} {k : Socket} (h : b.Faithful p total)
    (ht : total ≤ 8 * maxMsgSize) (hs : b.swarm.step sha256 std x = some w') (hx : x.2.ShortPex)
    (hm : b.swarm.mate e = some d) (he : b.swarm.session e = some s) (hd : b.swarm.session d = some t)
    (ho : ∀ e' peers, x.2 = .deliver e' peers → e' = e)
    (hk : ∀ s', w'.session e = some s' → ∃ pending, t.stream = s'.received ++ pending ∧
      k.Tracks (p.hello d) s'.received pending)
    (hy : Node.Early s → k.header = none) :
    Faithful p total { swarm := w', socket := Function.update b.socket e k } := by
  refine h.next ht hs hx (fun {e'} hn => ?_) (fun {e' d' s' t' s''} hm' he' hd' hs' => ?_)
    fun {e' s'} he' hy' => ?_
  all_goals by_cases heq : e' = e
  case pos =>
    subst heq
    rw [hm] at hn
    cases hn
  case neg => rw [Function.update_of_ne heq, h.idle hn]
  case pos =>
    subst heq
    obtain rfl := Option.some.inj (hm.symm.trans hm')
    obtain rfl := Option.some.inj (hd.symm.trans hd')
    simpa only [Function.update_self] using hk s'' hs'
  case neg =>
    obtain ⟨pending, hst, hk'⟩ := h.tracks hm' he' hd'
    have hr := Swarm.received_step h.paired.basic hs he' hs' fun peers hx => heq (ho e' peers hx)
    rw [Function.update_of_ne heq, hr]
    exact ⟨pending, hst, hk'⟩
  case pos =>
    subst heq
    rw [Function.update_self]
    exact hy (Option.some.inj (he.symm.trans he') ▸ hy')
  case neg =>
    rw [Function.update_of_ne heq]
    exact h.early he' hy'

theorem read_eq_some {now : UInt64} (h : b.read sha256 std p now e peers = some b') :
    b' = b ∨ ∃ s ev k w', b.swarm.session e = some s ∧ (b.socket e).poll p.infoHash s = some (ev, k) ∧
      handle sha256 std b.swarm now e peers ev = some w' ∧
      b' = { swarm := w', socket := Function.update b.socket e k } := by
  rw [read] at h
  split at h
  case h_1 => exact .inl (Option.some.inj h).symm
  case h_2 s hs =>
    obtain ⟨⟨ev, k⟩, hx, h⟩ := Option.bind_eq_some_iff.mp h
    obtain ⟨w', hw, h⟩ := Option.bind_eq_some_iff.mp h
    exact .inr ⟨s, ev, k, w', hs, hx, hw, (Option.some.inj h).symm⟩

-- Hanging up on a message is what a node does when the message is delivered.
theorem nodeStep_refused {now : UInt64} {m : Msg} (hs : w.session e = some s) (hr : Refuses s m) :
    nodeStep sha256 std w now e.node (.receive e.session m peers) =
      nodeStep sha256 std w now e.node (.readError e.session) := by
  obtain ⟨n, hn, hk⟩ := Swarm.session_eq_some.mp hs
  simp only [nodeStep, hn, Node.step, Node.actions_refused hk hr]

theorem received_nodeStep {now : UInt64} (hb : ∀ n ∈ w.nodes, n.Basic) (hs : w.session e = some s)
    (hx : Expects s m) (hl : m.bodyLen ≤ maxMsgSize)
    (h : nodeStep sha256 std w now e.node (.receive e.session m peers) = some w')
    (hs' : w'.session e = some s') : s'.received = s.received ++ [m] := by
  obtain ⟨n, hn, hk⟩ := Swarm.session_eq_some.mp hs
  simp only [nodeStep, hn] at h
  obtain ⟨n', hstep, h⟩ := Option.bind_eq_some_iff.mp h
  obtain rfl := Option.some.inj h
  obtain ⟨t, ht, hr⟩ := Node.received_receive (hb n (List.mem_of_getElem? hn)) hk hx hl hstep
  have hn' : (w.nodes.set e.node n')[e.node]? = some n' :=
    List.getElem?_set_self (List.getElem?_eq_some_iff.mp hn).choose
  rw [Swarm.session_eq hn'] at hs'
  rw [Option.some.inj (hs'.symm.trans ht), hr]

-- What a read does to the swarm.
inductive Effect (sha256 : List UInt8 → δ) (std : StdSort) (now : UInt64) (e : End)
    (peers : List PexPeer) (w w' : Swarm δ) : Prop
  | none : w' = w → Effect sha256 std now e peers w w'
  | deliver : w.step sha256 std (now, .deliver e peers) = some w' → Effect sha256 std now e peers w w'
  -- The socket was closed before the read was started.
  | abort {s : PeerSession} : w.session e = some s → s.closed = true →
    w.step sha256 std (now, .node e.node (.readError e.session)) = some w' →
    Effect sha256 std now e peers w w'

theorem Faithful.read {now : UInt64} (h : b.Faithful p total) (htotal : total ≤ 8 * maxMsgSize)
    (hp : peers.length ≤ maxPeers) (hb : b.read sha256 std p now e peers = some b') :
    b'.Faithful p total ∧ Effect sha256 std now e peers b.swarm b'.swarm := by
  obtain rfl | ⟨s, ev, k, w', hs, hpoll, hw, rfl⟩ := read_eq_some hb
  case inl => exact ⟨h, .none rfl⟩
  case inr =>
    clear hb
    cases hm : b.swarm.mate e
    case none =>
      rw [h.idle hm, poll_empty] at hpoll
      obtain ⟨rfl, rfl⟩ := Prod.mk.inj (Option.some.inj hpoll)
      obtain rfl := Option.some.inj hw
      rw [Function.update_eq_self_iff.mpr (h.idle hm).symm]
      exact ⟨h, .none rfl⟩
    case some d =>
      obtain ⟨t, ht⟩ := h.paired.live (h.paired.symm hm)
      obtain ⟨pending, hst, hk⟩ := h.tracks hm hs ht
      have hread : Readable (p.hello d) pending := fun m hmem =>
        readable h.compact h.speaks htotal ht m (hst ▸ List.mem_append_right _ hmem)
      obtain ⟨ev', k', hpoll', hpd, hy⟩ := poll_spec greets_hello hread hk (h.early hs)
      obtain ⟨rfl, rfl⟩ := Prod.mk.inj (Option.some.inj (hpoll.symm.trans hpoll'))
      -- The sockets after a read that fails.
      have failed (hk' : k.Tracks (p.hello d) s.received pending)
          (hw : nodeStep sha256 std b.swarm now e.node (.readError e.session) = some w') :
          Faithful p total { swarm := w', socket := Function.update b.socket e k } := by
        have hw := step_readError.trans hw
        refine h.next_at htotal hw trivial hm hs ht nofun (fun s' hs' => ?_) hy
        rw [Swarm.received_step h.paired.basic hw hs hs' nofun]
        exact ⟨pending, hst, hk'⟩
      cases hpd with
      | wait hk' =>
        obtain rfl := Option.some.inj hw
        exact ⟨h.update hm hs ht hst hk' hy, .none rfl⟩
      | next hk' =>
        obtain rfl := Option.some.inj hw
        exact ⟨h.update hm hs ht hst hk' hy, .none rfl⟩
      | closed hk' hc => exact ⟨failed hk' hw, .abort hs hc (step_readError.trans hw)⟩
      | refuse hk' he hr =>
        refine ⟨failed hk' hw, .deliver ?_⟩
        rw [step_deliver (nextMessage_eq hm hs ht (he ▸ hst)), nodeStep_refused hs hr]
        exact hw
      | @message m ms k he hx hk' =>
        have hw' : b.swarm.step sha256 std (now, .deliver e peers) = some w' :=
          (step_deliver (nextMessage_eq hm hs ht (he ▸ hst))).trans hw
        refine ⟨?_, .deliver hw'⟩
        refine h.next_at htotal hw' hp hm hs ht (fun _ _ ho => by cases ho; rfl) (fun s' hs' => ?_) hy
        have hmem : m ∈ t.stream := by rw [hst, he]; simp
        have hr := received_nodeStep h.paired.basic hs hx (bodyLen_le h.compact htotal ht hmem) hw hs'
        exact ⟨ms, by rw [hst, he, hr, List.append_assoc]; rfl, by rwa [hr]⟩

-- Each step on bytes is one on messages, or it only moves bytes.
theorem simulates (ht : total ≤ 8 * maxMsgSize) :
    Machine.Simulates (step sha256 std p) (Swarm.step sha256 std) (·.2.ShortPex) Op.Matches
      fun b w => b.Faithful p total ∧ b.swarm = w := by
  rintro b ⟨now, op⟩ b' _ ⟨h, rfl⟩ hp hs
  cases op
  case arrive e n =>
    obtain ⟨h', hsw⟩ := h.arrive hs
    exact ⟨[], _, .arrive, rfl, h', hsw⟩
  case read e peers =>
    obtain ⟨h', heff⟩ := h.read ht hp hs
    cases heff
    case none he     => exact ⟨[], _, .wait, rfl, h', he⟩
    case deliver he  => exact ⟨_, _, .deliver, Machine.run_cons.mpr ⟨_, he, rfl⟩, h', rfl⟩
    case abort he    => exact ⟨_, _, .abort, Machine.run_cons.mpr ⟨_, he, rfl⟩, h', rfl⟩
  case swarm op =>
    simp only [step] at hs
    split at hs
    case isTrue hd =>
      obtain rfl := Option.some.inj hs
      exact ⟨[], _, .skip hd, rfl, h, rfl⟩
    case isFalse hd =>
      have hd := eq_false_of_ne_true hd
      obtain ⟨w', hw, rfl⟩ := Option.map_eq_some_iff.mp hs
      refine ⟨_, _, .swarm hd, Machine.run_cons.mpr ⟨w', hw, rfl⟩, ?_, rfl⟩
      refine h.next ht hw hp h.idle (fun {e d s t s'} hm he hd' hs' => ?_) h.early
      have hr : s'.received = s.received := by
        refine Swarm.received_step h.paired.basic hw he hs' fun peers ho => ?_
        cases ho
        cases hd
      rw [hr]
      exact h.tracks hm he hd'

theorem step_read {now : UInt64} {f : End → Socket} (hs : w.session e = some s)
    (hp : k.poll p.infoHash s = some (ev, k')) (hw : handle sha256 std w now e peers ev = some w') :
    step sha256 std p { swarm := w, socket := Function.update f e k } (now, .read e peers) =
      some { swarm := w', socket := Function.update f e k' } := by
  simp only [step, read, hs, Function.update_self, hp, hw, Option.bind_eq_bind, Option.bind_some,
    Function.update_idem]
  rfl

-- A message that the session expects is read when its bytes have arrived.
theorem Faithful.progress {now : UInt64} (h : b.Faithful p total) (ht : total ≤ 8 * maxMsgSize)
    (hn : b.swarm.nextMessage e = some m) (hs : b.swarm.session e = some s) (hc : s.closed = false)
    (hx : Expects s m) (hw : b.swarm.step sha256 std (now, .deliver e peers) = some w') :
    ∃ n reads b', reads ≤ 2 ∧ Machine.run (step sha256 std p) b
      ((now, .arrive e n) :: .replicate reads (now, .read e peers)) = some b' ∧ b'.swarm = w' := by
  obtain ⟨d, s', t, hm, hs', hd, hnext⟩ := Swarm.nextMessage_eq_some.mp hn
  obtain rfl := Option.some.inj (hs.symm.trans hs')
  obtain ⟨pending, hst, hk⟩ := h.tracks hm hs hd
  obtain ⟨ms, rfl⟩ : ∃ ms, pending = m :: ms := by
    rw [hst, List.getElem?_append_right (Nat.le_refl _), Nat.sub_self] at hnext
    cases pending
    case nil       => cases hnext
    case cons c cs => exact ⟨cs, congrArg (· :: cs) (Option.some.inj hnext)⟩
  obtain ⟨n, k, ha, hh, hb⟩ := h.arrive_all ht hm hs hd hst
  obtain ⟨bm, rest, hbm, _, hu⟩ := encodeAll_cons.mp hb
  have hf : m.Framed (p.hello d) bm := by
    obtain ⟨bm', hbm', hf⟩ : ∃ b, m.encode (p.hello d) = some b ∧ m.Framed (p.hello d) b :=
      readable h.compact h.speaks ht hd m (by rw [hst]; simp)
    rwa [Option.some.inj (hbm.symm.trans hbm')]
  rw [step_deliver hn] at hw
  have hpoll := poll_full greets_hello hf (by rw [hh]; exact hk.short) (by rw [hh]; exact h.early hs) hu hx hc
  obtain ⟨k', hk'⟩ | ⟨k₁, k', hk₁, hk'⟩ := hpoll
  case inl =>
    have hr := step_read (f := b.socket) hs hk' hw
    exact ⟨n, 1, _, by decide, Machine.run_cons.mpr ⟨_, ha, Machine.run_cons.mpr ⟨_, hr, rfl⟩⟩, rfl⟩
  case inr =>
    have hr := step_read (f := b.socket) hs hk' hw
    have hr₁ := step_read (f := b.socket) hs hk₁ (show handle sha256 std b.swarm now e peers _ = _ from rfl)
    exact ⟨n, 2, _, by decide, Machine.run_cons.mpr ⟨_, ha, Machine.run_cons.mpr ⟨_, hr₁,
      Machine.run_cons.mpr ⟨_, hr, rfl⟩⟩⟩, rfl⟩

-- Connections that carry bytes are connections that carry messages: whatever the pieces are in which
-- the bytes arrive, the swarm makes the steps that it makes if messages are delivered as a whole, and
-- a message that has been sent can be delivered.
theorem bytes_carry_messages (sha256 : List UInt8 → δ) (std : StdSort) (p : Identity)
    (tasks : List (Task δ)) (ops : List (UInt64 × Op)) (b : ByteSwarm δ)
    (hτ : ∀ τ ∈ tasks, τ.initialBitfield.length = total ∧ τ.scheduler.localSpeedMbps < 2 ^ 32)
    (ht : total ≤ 8 * maxMsgSize) (hp : ∀ x ∈ ops, x.2.ShortPex)
    (hr : Machine.run (step sha256 std p) (start tasks) ops = some b) :
    (∃ opss, List.Forall₂ Op.Matches ops opss ∧
      Machine.run (Swarm.step sha256 std) (.start tasks) opss.flatten = some b.swarm) ∧
    ∀ e m s now peers w', b.swarm.nextMessage e = some m → b.swarm.session e = some s →
      s.closed = false → Expects s m → b.swarm.step sha256 std (now, .deliver e peers) = some w' →
      ∃ n reads b', reads ≤ 2 ∧ Machine.run (step sha256 std p) b
        ((now, .arrive e n) :: .replicate reads (now, .read e peers)) = some b' ∧ b'.swarm = w' := by
  obtain ⟨opss, w, hm, hw, h, rfl⟩ := (simulates ht).run hp ⟨faithful_start hτ, rfl⟩ hr
  exact ⟨⟨opss, hm, hw⟩, fun e m s now peers w' hn hs hc hx hw => h.progress ht hn hs hc hx hw⟩

end Step

section Runs

def duetSeed : TSeedFile Unit where
  fileSize := 8
  config   := {}
  chunks   := [⟨0, 8, ()⟩]
  countLt  := by decide

def duetTasks : List (Task Unit) :=
  .replicate 2 (Task.cmdSeed .stable duetSeed [1, 2, 3, 4, 5, 6, 7, 8] 4 1000)

def duetIdentity : Identity where
  infoHash     := ⟨.replicate 20 3, rfl⟩
  listenPort _ := 16889
  peerId _     := ⟨.replicate 20 7, rfl⟩

-- The handshake of the second node arrives in two pieces.
def helloRun : List (UInt64 × Op) := [
  (1, .swarm (.connect 1 0)), (2, .swarm (.accept 0)), (3, .swarm (.node 1 (.established 0))),
  (4, .arrive ⟨0, 0⟩ 40), (5, .read ⟨0, 0⟩ []), (6, .arrive ⟨0, 0⟩ 100), (7, .read ⟨0, 0⟩ [])
]

def helloSwarm : ByteSwarm Unit :=
  (Machine.run (step (fun _ => ()) .stable duetIdentity) (start duetTasks) helloRun).get
    (by decide +kernel)

-- The answer to the handshake can be read.
theorem hello_is_answered :
    helloSwarm.swarm.nextMessage ⟨1, 0⟩ = some (.handshake 1000) ∧
      ∃ n reads b', reads ≤ 2 ∧ Machine.run (step (fun _ => ()) .stable duetIdentity) helloSwarm
        ((8, .arrive ⟨1, 0⟩ n) :: .replicate reads (8, .read ⟨1, 0⟩ [])) = some b' ∧
        some b'.swarm = helloSwarm.swarm.step (fun _ => ()) .stable (8, .deliver ⟨1, 0⟩ []) := by
  have hτ : ∀ τ ∈ duetTasks, τ.initialBitfield.length = 1 ∧ τ.scheduler.localSpeedMbps < 2 ^ 32 := by
    intro τ hτ
    rw [List.eq_of_mem_replicate hτ]
    decide +kernel
  have hp : ∀ x ∈ helloRun, x.2.ShortPex := by
    simp [helloRun, Op.ShortPex, Swarm.Op.ShortPex, Node.Op.ShortPex, maxPeers]
  have h := bytes_carry_messages (fun _ => ()) .stable duetIdentity duetTasks helloRun helloSwarm hτ
    (by decide) hp (Option.some_get _).symm
  have hn : helloSwarm.swarm.nextMessage ⟨1, 0⟩ = some (.handshake 1000) := by decide +kernel
  refine ⟨hn, ?_⟩
  obtain ⟨n, reads, b', hl, hr, hb⟩ := h.right ⟨1, 0⟩ (.handshake 1000) _ 8 [] _ hn
    (Option.some_get (show (helloSwarm.swarm.session ⟨1, 0⟩).isSome by decide +kernel)).symm
    (by decide +kernel) (.inl ⟨by decide +kernel, 1000, rfl⟩)
    (Option.some_get (show (helloSwarm.swarm.step (fun _ => ()) .stable
      (8, .deliver ⟨1, 0⟩ [])).isSome by decide +kernel)).symm
  exact ⟨n, reads, b', hl, hr, by rw [hb, Option.some_get]⟩

end Runs
end ByteSwarm
end ThinBT
