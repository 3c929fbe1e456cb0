import ThinBT.Node.Theorems.Wired
import ThinBT.Session.Theorems.Log

namespace ThinBT

-- The value that a message gives to the choke flag.
def Msg.chokes : Msg → Option Bool
  | choke   => some true
  | unchoke => some false
  | _       => none

-- The value that a message gives to the interest flag.
def Msg.interests : Msg → Option Bool
  | interested    => some true
  | notInterested => some false
  | _             => none

theorem Msg.flags_of_piece {m : Msg} (h : m.isPiece) : m.chokes = none ∧ m.interests = none := by
  cases m <;> first | exact ⟨rfl, rfl⟩ | cases h

-- The value of a flag after a sequence of messages.
def lastFlag (f : Msg → Option Bool) (b : Bool) (ms : List Msg) : Bool :=
  ms.foldl (fun b m => (f m).getD b) b

theorem lastFlag_append : lastFlag f b (ms ++ ns) = lastFlag f (lastFlag f b ms) ns :=
  List.foldl_append

theorem lastFlag_of_none {ms : List Msg} (h : ∀ m ∈ ms, f m = none) : lastFlag f b ms = b := by
  induction ms
  case nil => rfl
  case cons m ms hi =>
    have ⟨hm, hms⟩ := List.forall_mem_cons.mp h
    rw [lastFlag, List.foldl_cons, hm]
    exact hi hms

namespace PeerSession

variable {s : PeerSession} {u : Update} {now : UInt64}

-- The flags are those of the last messages that were sent and received.
structure Flags (s : PeerSession) : Prop where
  choking    : s.closed = false → s.chokingPeer = lastFlag Msg.chokes true s.stream
  choked     : s.peerChokingMe = lastFlag Msg.chokes true s.received
  interested : s.peerInterested = lastFlag Msg.interests false s.received
  posted     : ∀ m ∈ s.posted, m.isPiece

def Interest (s : PeerSession) : Prop :=
  s.closed = false → s.amInterested = lastFlag Msg.interests false s.stream

-- The update does not send the flags itself.
def Tame : Update → Prop
  | .send m    => m.chokes = none
  | .receive m => ∃ speed, m = .handshake speed
  | _          => True

-- The last message about the interest of the session remains right.
def Earnest (s : PeerSession) : Update → Prop
  | .send m => m.interests = none ∨ (m = .notInterested ∧ s.amInterested = false)
  | _       => True

-- Only these updates send messages with flags.
theorem flags_of_sends (hp : ∀ m ∈ s.posted, m.isPiece) (hu : ∀ m, u ≠ .send m)
    (hm : m ∈ s.sends u) :
    ((∃ b, u = .choke b) ∨ m.chokes = none) ∧
      (u = .sendInterested ∨ u = .sendNotInterested ∨ m.interests = none) := by
  cases sends_of_mem hm
  case send          => exact absurd rfl (hu m)
  case interested    => exact ⟨.inr rfl, .inl rfl⟩
  case notInterested => exact ⟨.inr rfl, .inr (.inl rfl)⟩
  case choke         => exact ⟨.inl ⟨_, rfl⟩, .inr (.inr rfl)⟩
  case unchoke       => exact ⟨.inl ⟨_, rfl⟩, .inr (.inr rfl)⟩
  case posted hm     =>
    obtain ⟨hk, hi⟩ := Msg.flags_of_piece (hp m hm)
    exact ⟨.inr hk, .inr (.inr hi)⟩
  all_goals exact ⟨.inr rfl, .inr (.inr rfl)⟩

theorem chokingPeer_eq (h : ∀ b, u ≠ .choke b) : (s.apply now u).chokingPeer = s.chokingPeer := by
  cases u
  case dispatch offsets m => cases m <;> rfl
  case choke b            => exact absurd rfl (h b)
  all_goals first | rfl | simp

theorem amInterested_eq (hi : u ≠ .sendInterested) (hn : u ≠ .sendNotInterested) :
    (s.apply now u).amInterested = s.amInterested := by
  cases u
  case dispatch offsets m => cases m <;> rfl
  case sendInterested     => exact absurd rfl hi
  case sendNotInterested  => exact absurd rfl hn
  all_goals first | rfl | simp

theorem Flags.apply (h : s.Flags) (hu : Tame u) : (s.apply now u).Flags where
  posted     := posted_pieces_apply h.posted
  choking    := by
    intro hc
    have hc := not_closed_of_apply hc
    rw [stream_apply, if_neg (by simp [hc]), lastFlag_append, ← h.choking hc]
    by_cases hk : ∃ b, u = .choke b
    case pos =>
      obtain ⟨b, rfl⟩ := hk
      cases b <;> rfl
    case neg =>
      rw [chokingPeer_eq fun b he => hk ⟨b, he⟩, lastFlag_of_none fun m hm => ?_]
      by_cases hs : ∃ m, u = .send m
      case pos =>
        obtain ⟨_, rfl⟩ := hs
        exact List.mem_singleton.mp hm ▸ hu
      case neg => exact (flags_of_sends h.posted (fun m he => hs ⟨m, he⟩) hm).left.resolve_left hk
  choked     := by
    rw [received_apply, lastFlag_append, ← h.choked]
    cases u
    case dispatch offsets m => cases m <;> rfl
    case receive m          => obtain ⟨_, rfl⟩ := hu; rfl
    all_goals first | rfl | simp [lastFlag, takes]
  interested := by
    rw [received_apply, lastFlag_append, ← h.interested]
    cases u
    case dispatch offsets m => cases m <;> rfl
    case receive m          => obtain ⟨_, rfl⟩ := hu; rfl
    all_goals first | rfl | simp [lastFlag, takes]

theorem Interest.apply (h : s.Interest) (hp : ∀ m ∈ s.posted, m.isPiece) (hu : s.Earnest u) :
    (s.apply now u).Interest := by
  intro hc
  have hc := not_closed_of_apply hc
  rw [stream_apply, if_neg (by simp [hc]), lastFlag_append, ← h hc]
  by_cases hi : u = .sendInterested
  case pos =>
    subst hi
    cases hi : s.amInterested <;> simp [sends, hi, lastFlag, Msg.interests]
  case neg =>
    by_cases hn : u = .sendNotInterested
    case pos =>
      subst hn
      cases hi : s.amInterested <;> simp [sends, hi, lastFlag, Msg.interests]
    case neg =>
      rw [amInterested_eq hi hn]
      by_cases hs : ∃ m, u = .send m
      case pos =>
        obtain ⟨m, rfl⟩ := hs
        obtain hm | ⟨rfl, hf⟩ := hu
        case inl => simp [sends, lastFlag, hm]
        case inr => simp [sends, lastFlag, hf, Msg.interests]
      case neg =>
        rw [lastFlag_of_none fun m hm => ?_]
        have hm := (flags_of_sends hp (fun m he => hs ⟨m, he⟩) hm).right
        exact (hm.resolve_left hi).resolve_left hn

end PeerSession

namespace Node

open PeerSession

variable {δ : Type} {n n' n₀ : Node δ} {now : UInt64} {k : Nat} {s s₀ : PeerSession} {a : Action}
variable {op : Op} {std : StdSort}

def Flagged (n : Node δ) : Prop :=
  ∀ s ∈ n.sessions, s.Flags

theorem tame (hg : Guard op n₀ n a) (ht : n.Touches std now a k s u) : Tame u := by
  cases ht
  case session hk ha =>
    subst ha
    have hs := (hg s hk).right
    cases u
    case receive m => exact hs.right.right
    case send m    => obtain ⟨⟨_, _, rfl⟩, _⟩ := hs; rfl
    all_goals trivial
  case call call _ _ _ => cases call <;> trivial
  case announce        => rfl
  all_goals trivial

-- When the end of the download is announced, no session has told its peer that it is interested.
def Quiet (std : StdSort) (n : Node δ) (x : UInt64 × Op) : Prop :=
  ∀ dead ∈ x.2.ticks, .broadcastNotInterested ∈ n.calls std (.tick x.1 dead) →
    ∀ s ∈ n.sessions, s.closed = false → s.amInterested = false

instance {x : UInt64 × Op} : Decidable (n.Quiet std x) :=
  inferInstanceAs (Decidable (∀ dead ∈ x.2.ticks, _ → ∀ s ∈ n.sessions, _))

-- The interest of a session that is announced to all peers at the end.
theorem not_interested_of_broadcast {x : UInt64 × Op} (hq : n.Quiet std x)
    (hm : a ∈ n.actions std x.1 x.2) (hg : Guard x.2 n n₁ a) (ho : n₁.taskOp x.1 a = some top)
    (hc : .broadcastNotInterested ∈ n₁.calls std top) (hk : n₁.sessions[k]? = some s)
    (hs : s.closed = false) : s.amInterested = false ∧ ∀ j u, a ≠ .session j u := by
  obtain ⟨now, op⟩ := x
  obtain ⟨t, dead, rfl, rfl, rfl, rfl, _⟩ := tick_of_broadcast hg ho hc rfl
  cases List.mem_singleton.mp hm
  exact ⟨hq dead rfl hc s (List.mem_of_getElem? hk) hs, fun _ _ => Action.noConfusion⟩

theorem earnest (hg : Guard op n₀ n a) (ht : n.Touches std now a k s u)
    (hq : ∀ top, n.taskOp now a = some top → .broadcastNotInterested ∈ n.calls std top →
      s.closed = false → s.amInterested = false) : s.Earnest u := by
  cases ht
  case session hk ha =>
    subst ha
    have hs := (hg s hk).right
    cases u
    case send m => obtain ⟨⟨_, _, rfl⟩, _⟩ := hs; exact .inl rfl
    all_goals trivial
  case call top call ho hc hr =>
    cases call
    case broadcastNotInterested => exact .inr ⟨rfl, hq top ho hc hr.left⟩
    case cancelRequest          => exact .inl rfl
    case broadcastHave          => exact .inl rfl
    all_goals trivial
  case announce => exact .inl rfl
  all_goals trivial

-- A session is interested because its own actions say so.
theorem amInterested_of_touches (ht : n.Touches std now a k s u)
    (h : (s.apply now u).amInterested = true) :
    s.amInterested = true ∨ ∃ j u, a = .session j u := by
  by_cases hi : u = .sendInterested
  case pos =>
    cases ht
    case session hk ha       => exact .inr ⟨_, _, ha⟩
    case call top call _ _ _ => cases call <;> cases hi
    all_goals cases hi
  case neg =>
    by_cases hn : u = .sendNotInterested
    case pos => subst hn; simp at h
    case neg => exact .inl (amInterested_eq hi hn ▸ h)

section Step

variable [DecidableEq δ] {sha256 : List UInt8 → δ} {x : UInt64 × Op}

theorem Flagged.step (h : n.Flagged) (hb : n.Basic) (hs : n.step sha256 std x = some n') :
    n'.Flagged := by
  refine step_invariant Flagged (fun n₁ a n₂ _ _ hg ha h₁ s' hs' => ?_) hb h hs
  obtain ⟨k, hk'⟩ := List.getElem?_of_mem hs'
  obtain ⟨s, hk, he⟩ | ⟨r, _, _, rfl⟩ := session_of_apply ha hk'
  case inl =>
    exact he.invariant Flags (fun _ _ h ht => h.apply (tame hg ht)) (h₁ s (List.mem_of_getElem? hk))
  case inr => exact ⟨fun _ => rfl, rfl, rfl, List.forall_mem_nil _⟩

def Interested (n : Node δ) : Prop :=
  ∀ s ∈ n.sessions, s.Interest ∧ ∀ m ∈ s.posted, m.isPiece

theorem Interested.step (h : n.Interested) (hb : n.Basic) (hq : n.Quiet std x)
    (hs : n.step sha256 std x = some n') : n'.Interested := by
  refine step_invariant Interested (fun n₁ a n₂ hm hb₁ hg ha h₁ s' hs' => ?_) hb h hs
  obtain ⟨k, hk'⟩ := List.getElem?_of_mem hs'
  obtain ⟨s, hk, _⟩ | ⟨r, _, _, rfl⟩ := session_of_apply ha hk'
  case inr => exact ⟨fun _ => rfl, List.forall_mem_nil _⟩
  case inl =>
    have hi := h₁ s (List.mem_of_getElem? hk)
    have step (t : PeerSession) (u : Update) (_ : t.Basic) (hF : s.Follows t)
        (ht : n₁.Touches std x.1 a k t u)
        (h : (t.Interest ∧ ∀ m ∈ t.posted, m.isPiece) ∧
          (t.amInterested = true → s.amInterested = true ∨ ∃ j u, a = .session j u)) :
        ((t.apply x.1 u).Interest ∧ ∀ m ∈ (t.apply x.1 u).posted, m.isPiece) ∧
          ((t.apply x.1 u).amInterested = true → s.amInterested = true ∨ ∃ j u, a = .session j u) := by
      refine ⟨⟨h.left.left.apply h.left.right (earnest hg ht fun top ho hc ho' => ?_),
        posted_pieces_apply h.left.right⟩, fun ha => ?_⟩
      · obtain ⟨hf, hn⟩ := not_interested_of_broadcast hq hm hg ho hc hk (hF.closed ho')
        refine eq_false_of_ne_true fun ht => ?_
        obtain hs | ⟨j, u, rfl⟩ := h.right ht
        case inl => rw [hf] at hs; cases hs
        case inr => exact hn j u rfl
      · obtain ha | ha := amInterested_of_touches ht ha
        case inl => exact h.right ha
        case inr => exact .inr ha
    exact (session_invariant _ hb₁ hg ha hk hk' step ⟨hi, .inl⟩).left

end Step
end Node
end ThinBT
