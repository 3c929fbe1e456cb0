import ThinBT.Node.Theorems.Sessions

namespace ThinBT

namespace PeerSession

variable {s s' : PeerSession} {now : UInt64} {u : Update}

-- What the stages of a session have to do with each other.
structure Basic (s : PeerSession) : Prop where
  disconnected : s.state = .disconnected → s.closed = true
  reading      : s.state ≠ .disconnected → s.reading ≠ .nothing
  connecting   : s.reading = .connect → s.handshakeSent = false
  introduced   : s.reading = .message ∨ s.state = .connected ∨ s.amInterested = true ∨ s.reads ≠ [] ∨
    s.posted ≠ [] → s.handshakeSent = true

-- When the updates of a session are made.
def Proper (s : PeerSession) : Update → Prop
  | .dispatch ..     => s.handshakeSent = true
  | .sendHandshake _ => s.handshakeSent = false ∧ s.reading ≠ .connect
  | .sendInterested  => s.handshakeSent = true
  | .setReading r    =>
    r ≠ .connect ∧ (r = .nothing → s.state = .disconnected) ∧ (r = .message → s.handshakeSent = true)
  | .connected       => s.handshakeSent = true ∧ s.reading ≠ .nothing
  | _                => True

theorem handshakeSent_eq (h : ∀ speed, u ≠ .sendHandshake speed) :
    (s.apply now u).handshakeSent = s.handshakeSent := by
  cases u
  case dispatch offsets m  => cases m <;> rfl
  case sendHandshake speed => exact absurd rfl (h speed)
  all_goals first | rfl | simp

theorem handshakeSent_apply (h : s.handshakeSent = true) : (s.apply now u).handshakeSent = true := by
  cases u
  case sendHandshake => rfl
  all_goals rwa [handshakeSent_eq fun _ => Update.noConfusion]

theorem closed_apply (h : s.closed = true) : (s.apply now u).closed = true := by
  cases u
  case dispatch offsets m => cases m <;> exact h
  case close              => rfl
  all_goals first | exact h | simpa using h

theorem not_closed_of_apply (h : (s.apply now u).closed = false) : s.closed = false :=
  eq_false_of_ne_true fun hc => by simp [closed_apply hc] at h

-- Something is read while the socket is open.
theorem Basic.live (h : s.Basic) (hc : s.closed = false) : s.reading ≠ .nothing :=
  h.reading fun hd => by simp [h.disconnected hd] at hc

theorem Basic.apply (h : s.Basic) (hp : s.Proper u) : (s.apply now u).Basic := by
  have hd := h.disconnected
  have hr := h.reading
  have hc := h.connecting
  have hi := h.introduced
  cases u
  case dispatch offsets m =>
    have hs : s.handshakeSent = true := hp
    have hn : s.reading ≠ .connect := fun he => by simp [hc he] at hs
    cases m <;> exact ⟨hd, hr, fun he => absurd he hn, fun _ => hs⟩
  case sendHandshake => exact ⟨hd, hr, fun he => absurd he hp.right, fun _ => rfl⟩
  case sendInterested =>
    have hs : s.handshakeSent = true := hp
    simp only [PeerSession.apply, sendInterested]
    split
    case isTrue  => exact h
    case isFalse => exact ⟨hd, hr, hc, fun _ => hs⟩
  case sendNotInterested =>
    simp only [PeerSession.apply, sendNotInterested]
    split
    case isTrue ha => exact ⟨hd, hr, hc, fun _ => hi (.inr (.inr (.inl ha)))⟩
    case isFalse   => exact h
  case setReading r =>
    obtain ⟨hn, hcl, hm⟩ := hp
    simp only [PeerSession.apply]
    split
    case isTrue => exact h
    case isFalse =>
      refine ⟨hd, fun ho he => ?_, fun he => absurd he hn, ?_⟩
      · exact ho (hcl he)
      · rintro (he | he)
        · exact hm he
        · exact hi (.inr he)
  case connected =>
    exact ⟨(fun he => by cases he), fun _ => hp.right, hc, fun _ => hp.left⟩
  case close =>
    refine ⟨fun _ => rfl, fun hn => absurd rfl hn, hc, ?_⟩
    rintro (he | he | he)
    · exact hi (.inl he)
    · cases he
    · exact hi (.inr (.inr he))
  case finishRead k data =>
    simp only [PeerSession.apply, finishRead]
    split
    case h_1 => exact h
    case h_2 j hj =>
      have hne : s.reads ≠ [] := fun he => by simp [he] at hj
      exact ⟨hd, hr, hc, fun _ => hi (.inr (.inr (.inr (.inl hne))))⟩
  case runPosted =>
    simp only [PeerSession.apply, runPosted]
    split
    case h_1 => exact h
    case h_2 m ms hm =>
      have hne : s.posted ≠ [] := fun he => by simp [he] at hm
      exact ⟨hd, hr, hc, fun _ => hi (.inr (.inr (.inr (.inr hne))))⟩
  all_goals exact ⟨hd, hr, hc, hi⟩

end PeerSession

namespace Node

open PeerSession

variable {δ : Type} {n n' : Node δ} {now : UInt64} {k : Nat} {s : PeerSession} {a : Action}

def Basic (n : Node δ) : Prop :=
  ∀ s ∈ n.sessions, s.Basic

theorem basic_start {τ : Task δ} : ({ task := τ } : Node δ).Basic :=
  List.forall_mem_nil _

-- Messages that are not caused by a session.
def Op.isBroadcast : Op → Bool
  | .tickChoke _   => true
  | .tickPex delta => delta ≠ []
  | _              => false

-- New sessions.
def Op.opens : Op → Bool
  | .connect | .accept => true
  | _                  => false

-- Handshakes.
def Op.greets : Op → Bool
  | .receive _ (.handshake _) _ => true
  | _                           => false

def Op.ticks : Op → Option Bool
  | .tick dead => some dead
  | _          => none

-- The steps of a task that are no reaction to a message.
def Routine : Task.Op → Prop
  | .io _ | .verify _ | .tick .. => True
  | .session op =>
    match op with
    | .onPeerSpeed .. | .evalTick .. | .onSubblockTimeout .. => True
    | _                                                      => False
  | .piece .. => False

-- What is known when a step updates the session at position `k`, where `n₀` is the state before it.
def SessionGuard (op : Op) (n₀ n : Node δ) (k : Nat) (s : PeerSession) : Update → Prop
  | .receive m          => (∃ peers, op = .receive k m peers) ∧ n = n₀ ∧ ∃ speed, m = .handshake speed
  | .send m             => (∃ o peers, m = .pex o peers) ∧ (s.handshakeSent = true ∨ op.isBroadcast)
  | .choke _            => s.handshakeSent = true ∨ op.isBroadcast
  | .connected          => s.closed = true ∨ n.task.initialBitfield = [] ∨ ∃ bf, .bitfield bf ∈ s.stream
  | .requestTimedOut .. => s.handshakeSent = true
  | .finishRead j data  => ∃ job, s.reads[j]? = some job ∧ data = job.pread n.task.file
  | .dispatch .. | .sendNotInterested | .issueRequest .. | .close => False
  | _                   => True

-- What is known when an action of a step is executed.
def Guard (op : Op) (n₀ n : Node δ) : Action → Prop
  | .task top     => Routine top ∧ ∀ t dead, top = .tick t dead → op = .tick dead ∧ n = n₀
  | .attach r     => (r = .connect ∨ r = .handshake) ∧ op.opens ∧ n = n₀
  | .detach _     => True
  | .announce k   => op.greets ∧ ∀ s, n.sessions[k]? = some s → s.handshakeSent = true
  | .dispatch k m => ((∃ peers, op = .receive k m peers) ∧ n = n₀) ∧ (∀ speed, m ≠ .handshake speed) ∧
    m.bodyLen ≤ maxMsgSize ∧ ∀ s, n.sessions[k]? = some s → s.reading = .message
  | .session k u  => ∀ s, n.sessions[k]? = some s → s.Proper u ∧ SessionGuard op n₀ n k s u

-- The session at position `k` has sent its handshake, and will have in the future.
def Introduced (n : Node δ) (k : Nat) : Prop :=
  ∃ s, n.sessions[k]? = some s ∧ s.handshakeSent = true

variable {op : Op} {std : StdSort} {n₀ : Node δ}

theorem guard_routine (h : Routine top) (ht : ∀ t dead, top ≠ .tick t dead) :
    Guard op n₀ n (.task top) :=
  ⟨h, fun t dead he => absurd he (ht t dead)⟩

theorem guard_of_introduced (h : n.Introduced k)
    (hu : ∀ s : PeerSession, s.handshakeSent = true →
      s.Proper u ∧ SessionGuard op n₀ n k s u) : Guard op n₀ n (.session k u) := by
  obtain ⟨s, hk, hs⟩ := h
  intro t ht
  rw [Option.some.inj (ht.symm.trans hk)]
  exact hu s hs

theorem guard_readNext (h : n.Introduced k) : Guard op n₀ n (readNext k s .message) := by
  refine guard_of_introduced h fun t ht => ⟨?_, trivial⟩
  split
  case isTrue  => exact ⟨Reading.noConfusion, Reading.noConfusion, Reading.noConfusion⟩
  case isFalse => exact ⟨Reading.noConfusion, Reading.noConfusion, fun _ => ht⟩

theorem guard_interestIf (h : n.Introduced k) (ha : a ∈ interestIf k wanted) : Guard op n₀ n a := by
  unfold interestIf at ha
  split at ha
  case isFalse => cases ha
  case isTrue =>
    rw [List.mem_singleton.mp ha]
    exact guard_of_introduced h fun t ht => ⟨ht, trivial⟩

theorem guard_answer {m : Msg} {n₁ : Node δ} (h : n.Introduced k) (ha : a ∈ answer std now k m n₁ s) :
    Guard op n₀ n a := by
  cases m <;> simp only [answer, List.not_mem_nil] at ha
  case interested =>
    split at ha
    case isFalse => cases ha
    case isTrue =>
      rw [List.mem_singleton.mp ha]
      exact guard_of_introduced h fun t ht => ⟨trivial, .inl ht⟩
  all_goals exact guard_interestIf h ha

-- Every update of a session is proper.
theorem Touches.proper (h : n.Touches std now a k s u) (hb : n.Basic) (hg : Guard op n₀ n a) :
    s.Proper u := by
  cases h
  case session hk ha =>
    subst ha
    exact (hg s hk).left
  case dispatch ha hk =>
    subst ha
    exact (hb s (List.mem_of_getElem? hk)).introduced (.inl (hg.right.right.right s hk))
  case call call _ _ _ => cases call <;> trivial
  all_goals trivial

section Guarded

variable [DecidableEq δ] {sha256 : List UInt8 → δ}

-- The actions are guarded, one after the other.
abbrev Guarded (sha256 : List UInt8 → δ) (std : StdSort) (now : UInt64) (op : Op) (n₀ n : Node δ)
    (as : List Action) : Prop :=
  Machine.AllAt (apply sha256 std now) (Guard op n₀) n as

theorem guarded_session (hk : n.sessions[k]? = some s)
    (hu : s.Proper u ∧ SessionGuard op n₀ n k s u)
    (hs : Guarded sha256 std now op n₀ (n.modify now k u) as) :
    Guarded sha256 std now op n₀ n (.session k u :: as) := by
  refine ⟨fun t ht => Option.some.inj (hk.symm.trans ht) ▸ hu, fun n' hn' => ?_⟩
  exact Option.some.inj hn' ▸ hs

theorem Introduced.apply (h : n.Introduced k) (ha : n.apply sha256 std now a = some n') :
    n'.Introduced k := by
  obtain ⟨s, hk, hs⟩ := h
  obtain ⟨s', hk', he⟩ := session_apply ha hk
  exact ⟨s', hk', he.invariant (·.handshakeSent = true) (fun _ _ h _ => handshakeSent_apply h) hs⟩

theorem state_detach (h : n.apply sha256 std now (.detach k) = some n')
    (hk : n.sessions[k]? = some s) : ∃ s', n'.sessions[k]? = some s' ∧ s'.state = .disconnected := by
  obtain ⟨n₁, h₁, h⟩ := apply_eq_some.mp h
  obtain rfl := Option.some.inj h₁
  have h₁ : ∃ s₁, (if n.isDisconnected k then n else n.modify now k .close).sessions[k]? = some s₁ ∧
      s₁.state = .disconnected := by
    split
    case isTrue hd =>
      rw [isDisconnected, hk, Option.all_some, decide_eq_true_eq] at hd
      exact ⟨s, hk, hd⟩
    case isFalse => exact ⟨_, session_modify_self hk, rfl⟩
  obtain ⟨s₁, hs₁, hd⟩ := h₁
  obtain ⟨_, rfl⟩ | ⟨op, _, h⟩ := h
  case inl => exact ⟨s₁, hs₁, hd⟩
  case inr =>
    obtain ⟨τ, _, rfl⟩ := taskStep_eq_some.mp h
    obtain ⟨s', hs', he⟩ := callbacks_frame hs₁
    exact ⟨s', hs', he.state.trans hd⟩

theorem guarded_hangUp (hk : n.sessions[k]? = some s) :
    Guarded sha256 std now op n₀ n (hangUp k) := by
  refine ⟨trivial, fun n' hn' => ?_⟩
  obtain ⟨s', hk', hd⟩ := state_detach hn' hk
  exact guarded_session hk' ⟨⟨Reading.noConfusion, fun _ => hd, Reading.noConfusion⟩, trivial⟩ trivial

theorem guarded_of_introduced (h : n.Introduced k)
    (ha : ∀ a ∈ as, ∀ n' : Node δ, n'.Introduced k → Guard op n₀ n' a) :
    Guarded sha256 std now op n₀ n as :=
  Machine.allAt_of_invariant (·.Introduced k) (fun _ _ _ h ha => h.apply ha) h ha

theorem guarded_established (hb : n.Basic) (hk : n.sessions[k]? = some s) :
    Guarded sha256 std now op n₀ n (established k n s) := by
  unfold established
  split
  case isFalse => trivial
  case isTrue hr =>
    have hs := (hb s (List.mem_of_getElem? hk)).connecting hr
    have hn : s.reading ≠ .nothing := hr ▸ Reading.noConfusion
    refine guarded_session hk ⟨?_, trivial⟩
      (guarded_session (session_modify_self hk) ⟨?_, trivial⟩ trivial)
    · split <;> exact ⟨Reading.noConfusion, Reading.noConfusion, Reading.noConfusion⟩
    · rw [PeerSession.apply, if_neg hn]
      refine ⟨hs, ?_⟩
      change (if s.closed then Reading.failure else Reading.handshake) ≠ .connect
      split <;> exact Reading.noConfusion

theorem reading_task (h : n.apply sha256 std now (.task top) = some n') (hk : n.sessions[k]? = some s)
    (hk' : n'.sessions[k]? = some s') : s'.reading = s.reading := by
  obtain ⟨n₁, h₁, ⟨ho, _⟩ | ⟨op, _, h⟩⟩ := apply_eq_some.mp h
  case inl => cases ho
  case inr =>
    obtain rfl := Option.some.inj h₁
    obtain ⟨τ, _, rfl⟩ := taskStep_eq_some.mp h
    obtain ⟨t, ht, he⟩ := callbacks_frame hk
    rw [Option.some.inj (hk'.symm.trans ht), he.reading]

theorem announced (hk : n.sessions[k]? = some s) (h : n.apply sha256 std now (.announce k) = some n') :
    ∃ s', n'.sessions[k]? = some s' ∧ (s.handshakeSent = true → s'.handshakeSent = true) ∧
      s'.reading = s.reading ∧
      (s'.closed = true ∨ n'.task.initialBitfield = [] ∨ ∃ bf, .bitfield bf ∈ s'.stream) := by
  obtain ⟨n₁, h₁, ⟨_, rfl⟩ | ⟨_, ho, _⟩⟩ := apply_eq_some.mp h
  case inr => cases ho
  case inl =>
    simp only [onSessions] at h₁
    split at h₁
    case isTrue hb =>
      obtain rfl := Option.some.inj h₁
      exact ⟨s, hk, id, rfl, .inr (.inl hb)⟩
    case isFalse =>
      obtain ⟨bf, _, h₁⟩ := Option.bind_eq_some_iff.mp h₁
      obtain rfl := Option.some.inj h₁
      refine ⟨_, session_modify_self hk, handshakeSent_apply, rfl, ?_⟩
      by_cases hc : s.closed = true
      case pos => exact .inl (closed_apply hc)
      case neg =>
        refine .inr (.inr ⟨bf, ?_⟩)
        have hst : (s.apply now (.send (.bitfield bf))).stream = _ :=
          stream_send (eq_false_of_ne_true hc)
        rw [hst]
        exact List.mem_append_right _ (List.mem_singleton_self _)

theorem guarded_handleHandshake (hr : s.reading = .handshake) (hk : n.sessions[k]? = some s) :
    Guarded sha256 std now (.receive k (.handshake speed) peers) n n
      (handleHandshake k speed peers n s) := by
  have rest (n' : Node δ) (hn : n'.Introduced k) :
      Guarded sha256 std now (.receive k (.handshake speed) peers) n n'
        (readNext k s .message :: if peers = [] then [] else [.session k (.send (.pex 0 peers))]) := by
    refine guarded_of_introduced hn fun a ha n' hn => ?_
    cases List.mem_cons.mp ha
    case inl ha => exact ha ▸ guard_readNext hn
    case inr ha =>
      split at ha
      case isTrue => cases ha
      case isFalse =>
        rw [List.mem_singleton.mp ha]
        exact guard_of_introduced hn fun t ht => ⟨trivial, ⟨_, _, rfl⟩, .inl ht⟩
  -- Once the handshake is sent, the bitfield follows.
  have tail (n' : Node δ) (t : PeerSession) (ht : n'.sessions[k]? = some t)
      (hs : t.handshakeSent = true) (hr : t.reading = .handshake) :
      Guarded sha256 std now (.receive k (.handshake speed) peers) n n'
        (.task (.session (.onPeerSpeed s.slotId.toNat speed)) :: .announce k :: .session k .connected ::
          readNext k s .message :: if peers = [] then [] else [.session k (.send (.pex 0 peers))]) := by
    refine ⟨guard_routine trivial fun _ _ => Task.Op.noConfusion, fun n₁ h₁ => ?_⟩
    obtain ⟨t₁, ht₁, hs₁⟩ := Introduced.apply ⟨t, ht, hs⟩ h₁
    have hr₁ : t₁.reading = .handshake := (reading_task h₁ ht ht₁).trans hr
    refine ⟨⟨rfl, fun t' ht' => Option.some.inj (ht₁.symm.trans ht') ▸ hs₁⟩, fun n₂ h₂ => ?_⟩
    obtain ⟨t₂, ht₂, hs₂, hr₂, ha⟩ := announced ht₁ h₂
    refine guarded_session ht₂ ⟨⟨hs₂ hs₁, ?_⟩, ha⟩ (rest _ ⟨_, session_modify_self ht₂, hs₂ hs₁⟩)
    rw [hr₂, hr₁]
    exact Reading.noConfusion
  simp only [handleHandshake, sendHandshakeIfNeeded, List.append_assoc, List.cons_append,
    List.nil_append]
  refine guarded_session hk ⟨trivial, ⟨peers, rfl⟩, rfl, _, rfl⟩ ?_
  have hk' : (n.modify now k (.receive (.handshake speed))).sessions[k]? = some _ :=
    session_modify_self hk
  split
  case isTrue hs => exact tail _ _ hk' hs hr
  case isFalse hs =>
    refine guarded_session hk' ⟨⟨eq_false_of_ne_true hs, ?_⟩, trivial⟩ ?_
    · change s.reading ≠ .connect
      rw [hr]
      exact Reading.noConfusion
    · exact tail _ _ (session_modify_self hk') rfl hr

theorem guarded_receive (hb : n.Basic) (hk : n.sessions[k]? = some s) :
    Guarded sha256 std now (.receive k m peers) n n (receive std now k m peers n s) := by
  unfold receive
  split
  case isTrue hr =>
    split
    case h_1 => exact guarded_handleHandshake hr hk
    case h_2 => exact guarded_hangUp hk
  case isFalse =>
    split
    case isFalse => trivial
    case isTrue hr =>
      split
      case h_1 => exact guarded_hangUp hk
      case h_2 hm =>
        split
        case isTrue     => exact guarded_hangUp hk
        case isFalse hl =>
          have hs : n.Introduced k :=
            ⟨s, hk, (hb s (List.mem_of_getElem? hk)).introduced (.inl hr)⟩
          refine ⟨⟨⟨⟨peers, rfl⟩, rfl⟩, hm, Nat.le_of_not_lt hl, fun t ht => ?_⟩, fun n' hn' => ?_⟩
          · exact Option.some.inj (hk.symm.trans ht) ▸ hr
          · refine guarded_of_introduced (hs.apply hn') fun a ha n'' hn => ?_
            cases List.mem_append.mp ha
            case inl ha => exact guard_answer hn ha
            case inr ha =>
              rw [List.mem_singleton.mp ha]
              exact guard_readNext hn

theorem guarded_evalTick (hb : n.Basic) (hk : n.sessions[k]? = some s) :
    Guarded sha256 std now op n₀ n (evalTick now k fast rtt s) := by
  unfold evalTick
  split
  case isTrue => trivial
  case isFalse hc =>
    have hs : n.Introduced k :=
      ⟨s, hk, (hb s (List.mem_of_getElem? hk)).introduced (.inr (.inl (not_not.mp hc)))⟩
    refine guarded_of_introduced hs fun a ha n' hn => ?_
    cases List.mem_append.mp ha
    case inl ha =>
      obtain ⟨x, _, ha⟩ := List.mem_flatMap.mp ha
      simp only [List.mem_cons, List.not_mem_nil, or_false] at ha
      obtain rfl | rfl := ha
      · exact guard_of_introduced hn fun t ht => ⟨trivial, ht⟩
      · exact guard_routine trivial fun _ _ => Task.Op.noConfusion
    case inr ha =>
      split at ha
      case isTrue =>
        rw [List.mem_singleton.mp ha]
        trivial
      case isFalse =>
        simp only [List.mem_cons, List.not_mem_nil, or_false] at ha
        obtain rfl | rfl := ha
        · exact guard_of_introduced hn fun t ht => ⟨trivial, trivial⟩
        · exact guard_routine trivial fun _ _ => Task.Op.noConfusion

-- Every step only makes guarded actions.
theorem guarded_actions (hb : n.Basic) : Guarded sha256 std now op n n (n.actions std now op) := by
  have onSession {f : PeerSession → List Action} (k : Nat)
      (h : ∀ s, n.sessions[k]? = some s → Guarded sha256 std now op n n (f s)) :
      Guarded sha256 std now op n n (n.onSession k f) := by
    unfold Node.onSession
    split
    case h_1      => trivial
    case h_2 s hk => exact h s hk
  have always {as : List Action} (h : ∀ a ∈ as, ∀ n' : Node δ, Guard op n n' a) :
      Guarded sha256 std now op n n as :=
    Machine.allAt_of_invariant (fun _ => True) (fun _ _ _ _ _ => trivial) trivial
      fun a ha n' _ => h a ha n'
  cases op
  case connect | accept =>
    simp only [actions, openSession]
    split
    case isTrue  => trivial
    case isFalse => exact ⟨⟨by simp, rfl, rfl⟩, fun _ _ => trivial⟩
  case established k  => exact onSession k fun s hk => guarded_established hb hk
  case receive k m ps => exact onSession k fun s hk => guarded_receive hb hk
  case readError k    =>
    refine onSession k fun s hk => ?_
    unfold readError
    split
    case isTrue  => trivial
    case isFalse => exact guarded_hangUp hk
  case read k j =>
    refine onSession k fun s hk => ?_
    unfold read
    match hj : s.reads[j]? with
    | none     => trivial
    | some job => exact guarded_session hk ⟨trivial, job, hj, rfl⟩ trivial
  case evalTick k fast rtt => exact onSession k fun s hk => guarded_evalTick hb hk
  case tickChoke choked =>
    refine always fun a ha n' => ?_
    obtain ⟨k, _, rfl⟩ := List.mem_map.mp ha
    exact fun t _ => ⟨trivial, .inr rfl⟩
  case tickPex delta =>
    simp only [actions]
    split
    case isTrue => trivial
    case isFalse hd =>
      refine always fun a ha n' => ?_
      obtain ⟨k, _, rfl⟩ := List.mem_map.mp ha
      exact fun t _ => ⟨trivial, ⟨_, _, rfl⟩, .inr (decide_eq_true hd)⟩
  case post k =>
    refine always fun a ha n' => ?_
    rw [List.mem_singleton.mp ha]
    exact fun t _ => ⟨trivial, trivial⟩
  case writeError k => exact always fun a ha n' => by rw [List.mem_singleton.mp ha]; trivial
  case io | verify =>
    refine always fun a ha n' => ?_
    rw [List.mem_singleton.mp ha]
    exact guard_routine trivial fun _ _ => Task.Op.noConfusion
  case tick dead => exact ⟨⟨trivial, fun _ _ he => by cases he; exact ⟨rfl, rfl⟩⟩, fun _ _ => trivial⟩

theorem Basic.apply (hb : n.Basic) (hg : Guard op n₀ n a) (h : n.apply sha256 std now a = some n') :
    n'.Basic := by
  intro s' hs'
  obtain ⟨k, hk⟩ := List.getElem?_of_mem hs'
  obtain ⟨s, hk, he⟩ | ⟨r, rfl, _, rfl⟩ := session_of_apply h hk
  case inl =>
    exact he.invariant PeerSession.Basic (fun _ _ h ht => h.apply (ht.proper hb hg))
      (hb s (List.mem_of_getElem? hk))
  case inr =>
    obtain rfl | rfl := hg.left
    · exact ⟨SessionState.noConfusion, fun _ => Reading.noConfusion, fun _ => rfl, by simp⟩
    · exact ⟨SessionState.noConfusion, fun _ => Reading.noConfusion, fun _ => rfl, by simp⟩

theorem Basic.step (hb : n.Basic) (h : n.step sha256 std x = some n') : n'.Basic :=
  Machine.AllAt.invariant Basic (fun _ _ _ hb hg h => hb.apply hg h) hb (guarded_actions hb) h

-- An invariant of the guarded actions of a step is an invariant of the step.
theorem step_invariant (Inv : Node δ → Prop)
    (hi : ∀ n₁ a n₂, a ∈ n.actions std x.1 x.2 → n₁.Basic → Guard x.2 n n₁ a →
      n₁.apply sha256 std x.1 a = some n₂ → Inv n₁ → Inv n₂)
    (hb : n.Basic) (hn : Inv n) (h : n.step sha256 std x = some n') : Inv n' := by
  have hg : Guarded sha256 std x.1 x.2 n n (n.actions std x.1 x.2) := guarded_actions hb
  have hs := hg.strengthen Basic (fun _ _ _ hb hg h => hb.apply hg h) hb
  exact (hs.and_mem).invariant Inv
    (fun n a n' hn hg h => hi n a n' hg.right hg.left.left hg.left.right h hn) hn h

end Guarded
end Node
end ThinBT
