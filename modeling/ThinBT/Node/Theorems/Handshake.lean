import ThinBT.Node.Choke
import ThinBT.Node.Theorems.Wired
import ThinBT.Session.Theorems.Log
import ThinBT.Session.Theorems.Sendfile

namespace ThinBT

namespace Msg

def isHandshake : Msg → Bool
  | handshake _ => true
  | _           => false

theorem not_isHandshake {m : Msg} (h : m.isPiece) : m.isHandshake = false := by
  cases m <;> first | rfl | cases h

-- The call of a builder with which a message is sent.
def BuiltBy : Msg → Built → Prop
  | handshake _, _                => False
  | choke, b                      => b = .message .choke []
  | unchoke, b                    => b = .message .unchoke []
  | interested, b                 => b = .interested
  | notInterested, b              => b = .notInterested
  | haveChunk ci, b               => b = .haveChunk ci
  | bitfield bf, b                => ∃ bits, b = .bitfield bits ∧ Bitfield.build bits = some bf
  | request index begin length, b => b = .request index begin length
  | piece index begin data, b     => b = .piece index begin data
  | cancel index begin, b         => ∃ length, b = .cancel index begin length
  | pex op peers, b               => ∃ isDelta, b = .pex isDelta peers ∧ op = if isDelta then 1 else 0

-- The bytes with which a message is sent.
def Serialized : Msg → List UInt8 → Prop
  | handshake speed, bs => ∃ h infoHash port, bs = serializeHandshake (.build h infoHash (.ofNat speed) port)
  | m, bs               => ∃ b, m.BuiltBy b ∧ b.bytes = some bs

theorem Serialized.framed {m : Msg} (h : m.Serialized bs) (hm : m.isHandshake = false) : Framed bs := by
  cases m
  case handshake => cases hm
  all_goals
    obtain ⟨b, _, hb⟩ := h
    exact b.framed hb

theorem framed_flatten {ms : List Msg} (h : List.Forall₂ Serialized ms buffers)
    (hm : ∀ m ∈ ms, m.isHandshake = false) : Framed buffers.flatten := by
  induction h
  case nil => exact .nil
  case cons hb _ hi =>
    have ⟨h, hs⟩ := List.forall_mem_cons.mp hm
    rw [List.flatten_cons]
    exact (hb.framed h).append (hi hs)

end Msg

-- The first 67 bytes are a handshake, and only whole messages follow.
def HandshakeFirst (speed : Nat) (bs : List UInt8) : Prop :=
  (∃ h infoHash port, bs.take 67 = serializeHandshake (.build h infoHash (.ofNat speed) port)) ∧
    Framed (bs.drop 67)

namespace PeerSession

variable {s : PeerSession} {u : Update} {now : UInt64}

-- The stream is empty or starts with a handshake, and no other message is one.
structure Opening (s : PeerSession) : Prop where
  silent : s.handshakeSent = false → s.stream = []
  first  : s.handshakeSent = true → (s.closed = true ∧ s.stream = []) ∨
    ∃ speed ms, s.stream = .handshake speed :: ms ∧ ∀ m ∈ ms, m.isHandshake = false
  posted : ∀ m ∈ s.posted, m.isPiece

-- The handshake is sent once and before all other messages.
def Introduces (s : PeerSession) (u : Update) : Prop :=
  (∃ speed, u = .sendHandshake speed ∧ s.handshakeSent = false) ∨
    ∀ m ∈ s.sends u, s.handshakeSent = true ∧ m.isHandshake = false

theorem Opening.apply (h : s.Opening) (hu : s.closed = false → s.Introduces u) :
    (s.apply now u).Opening := by
  have hp : ∀ m ∈ (s.apply now u).posted, m.isPiece := posted_pieces_apply h.posted
  by_cases hc : s.closed = true
  case pos =>
    have hst : (s.apply now u).stream = s.stream := stream_apply_of_closed hc
    have hc' : (s.apply now u).closed = true := closed_apply hc
    refine ⟨fun hn => ?_, fun _ => ?_, hp⟩
    · rw [hst]
      exact h.silent (eq_false_of_ne_true fun hs => by simp [handshakeSent_apply hs] at hn)
    · rw [hst, hc']
      by_cases hs : s.handshakeSent = true
      case pos => exact (h.first hs).imp (fun h => ⟨rfl, h.right⟩) id
      case neg => exact .inl ⟨rfl, h.silent (eq_false_of_ne_true hs)⟩
  case neg =>
    have hst : (s.apply now u).stream = s.stream ++ s.sends u := by rw [stream_apply, if_neg hc]
    obtain ⟨speed, rfl, hs⟩ | hm := hu (eq_false_of_ne_true hc)
    case inl =>
      refine ⟨(fun hn => by cases hn), fun _ => .inr ⟨speed, [], ?_, List.forall_mem_nil _⟩, hp⟩
      rw [hst, h.silent hs]
      rfl
    case inr =>
      by_cases hs : s.handshakeSent = true
      case pos =>
        obtain ⟨speed, ms, he, hms⟩ := (h.first hs).resolve_left fun h => hc h.left
        refine ⟨fun hn => ?_, fun _ => .inr ⟨speed, ms ++ s.sends u, by rw [hst, he]; rfl, ?_⟩, hp⟩
        · simp [handshakeSent_apply hs] at hn
        · intro m hmem
          cases List.mem_append.mp hmem
          case inl hmem => exact hms m hmem
          case inr hmem => exact (hm m hmem).right
      case neg =>
        have hnil : s.sends u = [] :=
          List.eq_nil_iff_forall_not_mem.mpr fun m hmem => hs (hm m hmem).left
        have hne (speed) : u ≠ .sendHandshake speed := by
          rintro rfl
          cases hnil
        have hs := eq_false_of_ne_true hs
        have hs' : (s.apply now u).handshakeSent = false := (handshakeSent_eq hne).trans hs
        refine ⟨fun _ => ?_, fun ht => absurd ht (hs' ▸ Bool.false_ne_true), hp⟩
        rw [hst, hnil, h.silent hs]
        rfl

theorem Opening.flatten {buffers : List (List UInt8)} (h : s.Opening)
    (hb : List.Forall₂ Msg.Serialized s.stream buffers) :
    buffers.flatten = [] ∨
      ∃ speed, s.stream.head? = some (.handshake speed) ∧ HandshakeFirst speed buffers.flatten := by
  have hs : s.stream = [] ∨ ∃ speed ms, s.stream = .handshake speed :: ms ∧
      ∀ m ∈ ms, m.isHandshake = false := by
    by_cases hs : s.handshakeSent = true
    case pos => exact (h.first hs).imp And.right id
    case neg => exact .inl (h.silent (eq_false_of_ne_true hs))
  obtain he | ⟨speed, ms, he, hms⟩ := hs
  all_goals rw [he] at hb ⊢
  case inl =>
    cases hb
    exact .inl rfl
  case inr =>
    cases hb
    case cons b bs hb hbs =>
      obtain ⟨h, infoHash, port, rfl⟩ := hb
      refine .inr ⟨speed, rfl, ⟨h, infoHash, port, ?_⟩, ?_⟩
      · rw [List.flatten_cons, List.take_left' length_serializeHandshake]
      · rw [List.flatten_cons, List.drop_left' length_serializeHandshake]
        exact Msg.framed_flatten hbs hms

end PeerSession

namespace Node

open PeerSession

variable {δ : Type} {n n' n₀ : Node δ} {now : UInt64} {k : Nat} {s s₀ : PeerSession} {a : Action}
variable {op : Op} {std : StdSort}

-- The steps that send something to all open sessions.
def Broadcasts (n : Node δ) : Op → Bool
  | .tick _ => n.task.passedMsgs ≠ []
  | op      => op.isBroadcast

theorem broadcasts_of_isBroadcast (h : op.isBroadcast) : n.Broadcasts op := by
  cases op
  case tick => cases h
  all_goals exact h

theorem opens_of_broadcasts (h : n.Broadcasts op) : op.opens = false := by
  cases op
  case connect | accept => cases h
  all_goals rfl

def AllIntroduced (n : Node δ) : Prop :=
  ∀ s ∈ n.sessions, s.closed = false → s.handshakeSent = true

-- Nothing is broadcast while an open session has not sent its handshake, and new sessions get slots
-- that are not in use.
def Greets (n : Node δ) (x : UInt64 × Op) : Prop :=
  (x.2.opens → n.FreshSlot) ∧ (n.Broadcasts x.2 → n.AllIntroduced)

instance : Decidable n.AllIntroduced :=
  inferInstanceAs (Decidable (∀ s ∈ n.sessions, _))

instance {x : UInt64 × Op} : Decidable (n.Greets x) :=
  inferInstanceAs (Decidable (_ ∧ _))

structure Greeting (n : Node δ) : Prop where
  wired   : n.Wired fun k _ => n.Introduced k
  opening : ∀ s ∈ n.sessions, s.Opening

theorem Greeting.introduces (h : n.Greeting) (hg : Guard op n₀ n a) (hf : op.opens → n₀.FreshSlot)
    (hbr : n₀.Broadcasts op → n.AllIntroduced) (ht : n.Told (fun k _ => n.Introduced k) a)
    (hk : n.sessions[k]? = some s₀) (hb : s.Basic) (hF : s₀.Follows s) (ho : s.Opening)
    (htouch : n.Touches std now a k s u) (hc : s.closed = false) : s.Introduces u := by
  have known (hi : n.Introduced k) : s.handshakeSent = true := by
    obtain ⟨t, ht, hs⟩ := hi
    exact hF.handshakeSent (Option.some.inj (ht.symm.trans hk) ▸ hs)
  have all (hop : n₀.Broadcasts op) : s.handshakeSent = true :=
    hF.handshakeSent (hbr hop s₀ (List.mem_of_getElem? hk) (hF.closed hc))
  cases htouch
  case session hk' ha =>
    subst ha
    obtain ⟨hp, hs⟩ := hg s hk'
    cases u
    case dispatch | sendNotInterested | issueRequest | close => cases hs
    case send m =>
      obtain ⟨⟨o, peers, rfl⟩, hs⟩ := hs
      exact .inr (List.forall_mem_singleton.mpr
        ⟨hs.elim id fun h => all (broadcasts_of_isBroadcast h), rfl⟩)
    case sendHandshake speed => exact .inl ⟨speed, rfl, hp.left⟩
    case sendInterested =>
      refine .inr fun m hm => ?_
      simp only [sends] at hm
      split at hm
      case isTrue  => cases hm
      case isFalse => rw [List.mem_singleton.mp hm]; exact ⟨hp, rfl⟩
    case choke choking =>
      refine .inr (List.forall_mem_singleton.mpr
        ⟨hs.elim id fun h => all (broadcasts_of_isBroadcast h), ?_⟩)
      cases choking <;> rfl
    case runPosted =>
      refine .inr fun m hm => ?_
      have hm := List.mem_of_mem_take hm
      have hne : s.posted ≠ [] := List.ne_nil_of_mem hm
      exact ⟨hb.introduced (.inr (.inr (.inr (.inr hne)))), Msg.not_isHandshake (ho.posted m hm)⟩
    case requestTimedOut => exact .inr (List.forall_mem_singleton.mpr ⟨hs, rfl⟩)
    all_goals exact .inr (List.forall_mem_nil _)
  case announce ha _ hk' =>
    subst ha
    exact .inr (List.forall_mem_singleton.mpr ⟨hg.right s hk', rfl⟩)
  case call top call hop hcall hr =>
    have hB := h.wired.backed_at hg hf ht hop hcall hk hb hF hr
    have one (m : Msg) (hs : s.handshakeSent = true) (hm : m.isHandshake = false) :
        ∀ m' ∈ [m], s.handshakeSent = true ∧ m'.isHandshake = false :=
      List.forall_mem_singleton.mpr ⟨hs, hm⟩
    have broadcast (ht : target call = none) : s.handshakeSent = true := by
      obtain ⟨_, dead, rfl, rfl, rfl, rfl, hne⟩ := tick_of_broadcast hg hop hcall ht
      exact all (decide_eq_true hne)
    cases call
    case issueRequest => exact .inr (one _ (known hB.left) rfl)
    case cancelRequest => exact .inr (one _ (known hB) rfl)
    case broadcastHave => exact .inr (one _ (broadcast rfl) rfl)
    case broadcastNotInterested => exact .inr (one _ (broadcast rfl) rfl)
    case notInterested =>
      refine .inr fun m hm => ?_
      simp only [update, sends] at hm
      split at hm
      case isFalse => cases hm
      case isTrue hi =>
        rw [List.mem_singleton.mp hm]
        exact ⟨hb.introduced (.inr (.inr (.inl hi))), rfl⟩
  all_goals exact .inr (List.forall_mem_nil _)

section Apply

variable [DecidableEq δ] {sha256 : List UInt8 → δ}

theorem AllIntroduced.apply (h : n.AllIntroduced) (hg : Guard op n₀ n a) (ho : op.opens = false)
    (ha : n.apply sha256 std now a = some n') : n'.AllIntroduced := by
  intro s' hs' hc
  obtain ⟨k, hk'⟩ := List.getElem?_of_mem hs'
  obtain ⟨s, hk, he⟩ | ⟨r, rfl, _⟩ := session_of_apply ha hk'
  case inl =>
    have hF := he.invariant s.Follows (fun _ _ hF _ => hF.apply) .refl
    exact hF.handshakeSent (h s (List.mem_of_getElem? hk) (hF.closed hc))
  case inr =>
    rw [hg.right.left] at ho
    cases ho

theorem Greeting.apply (h : n.Greeting) (hg : Guard op n₀ n a) (hf : op.opens → n₀.FreshSlot)
    (hbr : n₀.Broadcasts op → n.AllIntroduced) (ha : n.apply sha256 std now a = some n') :
    n'.Greeting := by
  have ht : n.Told (fun k _ => n.Introduced k) a := by
    intro k m s he hk
    subst he
    have hi : n.Introduced k :=
      ⟨s, hk, (h.wired.basic s (List.mem_of_getElem? hk)).introduced (.inl (hg.right.right.right s hk))⟩
    cases m
    case haveChunk => exact fun _ => hi
    case bitfield  => exact fun _ _ _ => hi
    all_goals trivial
  refine ⟨(h.wired.apply hg hf ht ha).mono fun _ _ _ hi => hi.apply ha, fun s' hs' => ?_⟩
  obtain ⟨k, hk'⟩ := List.getElem?_of_mem hs'
  obtain ⟨s, hk, _⟩ | ⟨r, rfl, _, rfl⟩ := session_of_apply ha hk'
  case inl =>
    refine session_invariant Opening h.wired.basic hg ha hk hk' (fun t u hb hF htouch ho => ?_)
      (h.opening s (List.mem_of_getElem? hk))
    exact ho.apply (h.introduces hg hf hbr ht hk hb hF ho htouch)
  case inr => exact ⟨fun _ => rfl, (fun hs => by cases hs), List.forall_mem_nil _⟩

theorem Greeting.step (h : n.Greeting) (hx : n.Greets x) (hs : n.step sha256 std x = some n') :
    n'.Greeting := by
  refine (step_invariant (fun n₁ => n₁.Greeting ∧ (n.Broadcasts x.2 → n₁.AllIntroduced)) ?_ h.wired.basic
    ⟨h, hx.right⟩ hs).left
  intro n₁ a n₂ _ _ hg ha ⟨h₁, hb⟩
  exact ⟨h₁.apply hg hx.left hb ha, fun ho => (hb ho).apply hg (opens_of_broadcasts ho) ha⟩

-- Nothing is sent before the connection is established, and then the handshake is sent first.
theorem handshake_is_first {τ : Task δ} (hτ : τ.Started sha256 std)
    (hg : Machine.AllAt (step sha256 std) Greets { task := τ } ops)
    (hr : Machine.run (step sha256 std) { task := τ } ops = some n) (hs : s ∈ n.sessions) :
    (s.reading = .connect → s.stream = []) ∧
    ∀ buffers, List.Forall₂ Msg.Serialized s.stream buffers → buffers.flatten = [] ∨
      ∃ speed, s.stream.head? = some (.handshake speed) ∧ HandshakeFirst speed buffers.flatten := by
  have h₀ : ({ task := τ } : Node δ).Greeting := ⟨wired_start hτ, List.forall_mem_nil _⟩
  have h := hg.invariant Greeting (fun _ _ _ h hx hs => h.step hx hs) h₀ hr
  have ho := h.opening s hs
  exact ⟨fun hc => ho.silent ((h.wired.basic s hs).connecting hc), fun _ => ho.flatten⟩

end Apply

section Runs

def aloneSeed : TSeedFile Unit where
  fileSize := 5
  config   := {}
  chunks   := [⟨0, 5, ()⟩]
  countLt  := by decide

def aloneNode : Node Unit :=
  { task := Task.cmdSeed .stable aloneSeed [1, 2, 3, 4, 5] 4 1000 }

-- `tick_choke` when nothing has been transferred yet, and every session has reported this speed.
def firstChoke (n : Node Unit) (linkSpeed : UInt32) : Op :=
  n.tickChoke 1000 (fun _ => ⟨0, 0, linkSpeed⟩) default

def greeted : List (UInt64 × Op) := [
  (1, .accept), (2, .receive 0 (.handshake 100) [])
]

def greetedNode : Node Unit :=
  (Machine.run (step (fun _ => ()) .stable) aloneNode greeted).get (by decide +kernel)

def politeRun : List (UInt64 × Op) :=
  greeted ++ [(3, greetedNode.firstChoke 100), (4, .connect), (5, .established 1)]

def politeNode : Node Unit :=
  (Machine.run (step (fun _ => ()) .stable) aloneNode politeRun).get (by decide +kernel)

def politeSession : PeerSession :=
  politeNode.sessions.head (by decide +kernel)

theorem politeSession_introduces :
    politeSession.stream = [.handshake 1000, .bitfield [0x80], .unchoke] ∧
      (politeSession.reading = .connect → politeSession.stream = []) ∧
      ∀ buffers, List.Forall₂ Msg.Serialized politeSession.stream buffers → buffers.flatten = [] ∨
        ∃ speed, politeSession.stream.head? = some (.handshake speed) ∧
          HandshakeFirst speed buffers.flatten := by
  have hr : Machine.run (step (fun _ => ()) .stable) aloneNode politeRun = some politeNode :=
    (Option.some_get _).symm
  exact ⟨by decide +kernel, handshake_is_first .cmdSeed (by decide +kernel) hr (List.head_mem _)⟩

-- Before either session has sent its handshake, both are told that they are not choked: they have
-- places left among the optimistic ones. One of them has no connection yet.
def hasty : List (UInt64 × Op) := [
  (1, .accept), (2, .connect)
]

def hastyNode : Node Unit :=
  (Machine.run (step (fun _ => ()) .stable) aloneNode hasty).get (by decide +kernel)

def hastyRun : List (UInt64 × Op) :=
  hasty ++ [(3, hastyNode.firstChoke 0)]

theorem unchoke_precedes_handshake :
    ∃ n, Machine.run (step (fun _ => ()) .stable) aloneNode hastyRun = some n ∧
      (∃ s ∈ n.sessions, s.reading = .connect ∧ s.stream = [.unchoke]) ∧
      ∃ s ∈ n.sessions, s.reading = .handshake ∧ s.stream = [.unchoke] :=
  ⟨(Machine.run (step (fun _ => ()) .stable) aloneNode hastyRun).get (by decide +kernel),
    (Option.some_get _).symm, by decide +kernel⟩

end Runs
end Node
end ThinBT
