import ThinBT.Node.Theorems.Acceptance

namespace ThinBT

namespace Scheduler

variable {σ : Scheduler} {std : StdSort}

theorem localSpeedMbps_apply : (σ.apply a).localSpeedMbps = σ.localSpeedMbps := by
  cases a
  case removePeer slot =>
    obtain ⟨_, _, _, _, _, h⟩ := σ.released_eq slot
    simp only [apply, removePeer_eq, h]
  case redundant => rw [redundant_eq]
  case arrive    => simp only [apply, markDone]; split <;> rfl
  case timeout   => simp only [apply]; split <;> rfl
  case complete  => simp only [apply, sendCancelForChunk]; split <;> rfl
  all_goals rfl

theorem localSpeedMbps_run {ops : List Op} : (run std σ ops).localSpeedMbps = σ.localSpeedMbps := by
  rw [run, ← Actions.exec_perform]
  generalize Actions.perform apply (actions std) σ ops = as
  induction as generalizing σ
  case nil          => rfl
  case cons a as hi => rw [Actions.exec_cons, hi, localSpeedMbps_apply]

end Scheduler

namespace Node

variable {δ : Type}

-- Everything that the steps of a node are made of.
inductive Acts (now : UInt64) (n : Node δ) : Op → Action → Prop
  | attach {r : Reading} : op.opens → n.peerCount < maxPeers → Acts now n op (.attach r)
  | detach : Acts now n op (.detach k)
  | announce : n.sessions[k]? = some s → s.reading = .handshake →
    Acts now n (.receive k (.handshake speed) peers) (.announce k)
  | dispatch : n.sessions[k]? = some s → s.reading = .message → (∀ speed, m ≠ .handshake speed) →
    m.bodyLen ≤ maxMsgSize → Acts now n (.receive k m peers) (.dispatch k m)
  | peerSpeed : n.sessions[k]? = some s → Acts now n (.receive k (.handshake speed) peers)
    (.task (.session (.onPeerSpeed s.slotId.toNat speed)))
  | timeout : n.sessions[k]? = some s → s.state = .connected → x ∈ timedOut now s →
    Acts now n (.evalTick k fast rtt) (.task (.session (.onSubblockTimeout x.1 x.2)))
  | eval : n.sessions[k]? = some s → s.state = .connected →
    s.consecutiveTimeouts + (timedOut now s).length < requestTimeoutLimit →
    Acts now n (.evalTick k fast rtt) (.task (.session (.evalTick s.slotId.toNat
      (newPipelineCap now s fast) (s.consecutiveTimeouts + (timedOut now s).length) rtt)))
  | io : Acts now n (.io w) (.task (.io w))
  | verify : Acts now n (.verify k) (.task (.verify k))
  | tick : Acts now n (.tick dead) (.task (.tick now dead))
  -- Handshakes are read by sessions that have connected.
  | reading : (r = .handshake → ∃ s, n.sessions[k]? = some s ∧ s.reading = .connect) →
    Acts now n op (.session k (.setReading r))
  | greet : Acts now n op (.session k (.sendHandshake n.task.scheduler.localSpeedMbps))
  | receive : Acts now n (.receive k (.handshake speed) peers)
    (.session k (.receive (.handshake speed)))
  | connected : Acts now n (.receive k (.handshake speed) peers) (.session k .connected)
  | peers : Acts now n (.receive k (.handshake speed) peers) (.session k (.send (.pex 0 peers)))
  | interested : Acts now n op (.session k .sendInterested)
  | unchoke : Acts now n (.receive k .interested peers) (.session k (.choke false))
  | read : n.sessions[k]? = some s → s.reads[j]? = some job →
    Acts now n (.read k j) (.session k (.finishRead j (job.pread n.task.file)))
  | post : Acts now n (.post k) (.session k .runPosted)
  | timedOut : n.sessions[k]? = some s → s.state = .connected → x ∈ timedOut now s →
    Acts now n (.evalTick k fast rtt) (.session k (.requestTimedOut x.1 x.2))
  | pipelineCap : n.sessions[k]? = some s → s.state = .connected →
    s.consecutiveTimeouts + (Node.timedOut now s).length < requestTimeoutLimit →
    Acts now n (.evalTick k fast rtt) (.session k (.setPipelineCap (newPipelineCap now s fast)))
  | choke : k ∈ n.openSessions →
    Acts now n (.tickChoke choked) (.session k (.choke (choked.getD k true)))
  | delta : k ∈ n.openSessions →
    Acts now n (.tickPex delta) (.session k (.send (.pex 1 delta)))

variable {n n' n₀ : Node δ} {now : UInt64} {a : Action} {op : Op} {std : StdSort} {s s' : PeerSession}

theorem acts_hangUp (h : a ∈ hangUp k) : n.Acts now op a := by
  simp only [hangUp, List.mem_cons, List.not_mem_nil, or_false] at h
  obtain rfl | rfl := h
  · exact .detach
  · exact .reading fun hr => by cases hr

theorem acts_readNext : n.Acts now op (readNext k s .message) := by
  refine .reading fun hr => ?_
  split at hr
  all_goals cases hr

theorem acts_interestIf (h : a ∈ interestIf k wanted) : n.Acts now op a := by
  unfold interestIf at h
  split at h
  case isTrue  => rw [List.mem_singleton.mp h]; exact .interested
  case isFalse => cases h

theorem acts_answer (h : a ∈ answer std now k m n s) : n.Acts now (.receive k m peers) a := by
  cases m
  case interested =>
    simp only [answer] at h
    split at h
    case isTrue  => rw [List.mem_singleton.mp h]; exact .unchoke
    case isFalse => cases h
  case unchoke | haveChunk | bitfield => exact acts_interestIf h
  all_goals cases h

theorem acts_handleHandshake (hk : n.sessions[k]? = some s) (hr : s.reading = .handshake)
    (h : a ∈ handleHandshake k speed peers n s) :
    n.Acts now (.receive k (.handshake speed) peers) a := by
  unfold handleHandshake sendHandshakeIfNeeded at h
  simp only [List.mem_append, List.mem_cons, List.not_mem_nil, or_false] at h
  obtain ((rfl | h) | rfl | rfl | rfl | rfl) | h := h
  · exact .receive
  · split at h
    case isTrue  => cases h
    case isFalse => rw [List.mem_singleton.mp h]; exact .greet
  · exact .peerSpeed hk
  · exact .announce hk hr
  · exact .connected
  · exact acts_readNext
  · split at h
    case isTrue  => cases h
    case isFalse => rw [List.mem_singleton.mp h]; exact .peers

theorem acts_receive (hk : n.sessions[k]? = some s) (h : a ∈ receive std now k m peers n s) :
    n.Acts now (.receive k m peers) a := by
  unfold receive at h
  split at h
  case isTrue hr =>
    split at h
    case h_1 => exact acts_handleHandshake hk hr h
    case h_2 => exact acts_hangUp h
  case isFalse =>
    split at h
    case isFalse => cases h
    case isTrue hr =>
      split at h
      case h_1       => exact acts_hangUp h
      case h_2 hm =>
        split at h
        case isTrue => exact acts_hangUp h
        case isFalse hl =>
          simp only [List.mem_append, List.mem_cons, List.not_mem_nil, or_false] at h
          obtain (rfl | h) | rfl := h
          · exact .dispatch hk hr (fun speed he => hm speed he) (Nat.le_of_not_lt hl)
          · exact acts_answer h
          · exact acts_readNext

theorem acts_evalTick (hk : n.sessions[k]? = some s) (h : a ∈ evalTick now k fast rtt s) :
    n.Acts now (.evalTick k fast rtt) a := by
  unfold evalTick at h
  split at h
  case isTrue => cases h
  case isFalse hc =>
    have hc := of_not_not hc
    cases List.mem_append.mp h
    case inl h =>
      obtain ⟨x, hx, h⟩ := List.mem_flatMap.mp h
      simp only [List.mem_cons, List.not_mem_nil, or_false] at h
      obtain rfl | rfl := h
      · exact .timedOut hk hc hx
      · exact .timeout hk hc hx
    case inr h =>
      split at h
      case isTrue  => rw [List.mem_singleton.mp h]; exact .detach
      case isFalse hl =>
        have hl := Nat.lt_of_not_le hl
        simp only [List.mem_cons, List.not_mem_nil, or_false] at h
        obtain rfl | rfl := h
        · exact .pipelineCap hk hc hl
        · exact .eval hk hc hl

theorem acts_openSession (ho : op.opens) (h : a ∈ n.openSession r) : n.Acts now op a := by
  unfold openSession at h
  split at h
  case isTrue     => cases h
  case isFalse hc => rw [List.mem_singleton.mp h]; exact .attach ho (Nat.lt_of_not_le hc)

theorem acts_of_mem (h : a ∈ n.actions std now op) : n.Acts now op a := by
  cases op
  case connect | accept => exact acts_openSession rfl h
  case established k =>
    obtain ⟨s, hk, h⟩ := mem_onSession.mp h
    unfold established at h
    split at h
    case isFalse => cases h
    case isTrue hr =>
      simp only [List.mem_cons, List.not_mem_nil, or_false] at h
      obtain rfl | rfl := h
      · exact .reading fun _ => ⟨s, hk, hr⟩
      · exact .greet
  case receive k m peers =>
    obtain ⟨s, hk, h⟩ := mem_onSession.mp h
    exact acts_receive hk h
  case readError k =>
    obtain ⟨s, hk, h⟩ := mem_onSession.mp h
    unfold readError at h
    split at h
    case isTrue  => cases h
    case isFalse => exact acts_hangUp h
  case writeError k => rw [List.mem_singleton.mp h]; exact .detach
  case read k j =>
    obtain ⟨s, hk, h⟩ := mem_onSession.mp h
    obtain ⟨job, hj, rfl⟩ := List.mem_map.mp h
    exact .read hk (Option.mem_toList.mp hj)
  case post k => rw [List.mem_singleton.mp h]; exact .post
  case evalTick k fast rtt =>
    obtain ⟨s, hk, h⟩ := mem_onSession.mp h
    exact acts_evalTick hk h
  case tickChoke choked =>
    obtain ⟨k, hk, rfl⟩ := List.mem_map.mp h
    exact .choke hk
  case tickPex delta =>
    simp only [actions] at h
    split at h
    case isTrue  => cases h
    case isFalse =>
      obtain ⟨k, hk, rfl⟩ := List.mem_map.mp h
      exact .delta hk
  case io     => rw [List.mem_singleton.mp h]; exact .io
  case verify => rw [List.mem_singleton.mp h]; exact .verify
  case tick   => rw [List.mem_singleton.mp h]; exact .tick

section Handshakes

-- The session has not read the handshake of its peer yet.
def Early (s : PeerSession) : Prop :=
  s.reading = .connect ∨ s.reading = .handshake

-- The speed of a node does not change, and this is what its handshakes tell.
structure Speaks (speed : Nat) (n : Node δ) : Prop where
  own    : n.task.scheduler.localSpeedMbps = speed
  stream : ∀ s ∈ n.sessions, ∀ m ∈ s.stream, ∀ v, m = .handshake v → v = speed
  posted : ∀ s ∈ n.sessions, ∀ m ∈ s.posted, ∀ v, m ≠ .handshake v

theorem early_of_apply (h : Early (s.apply now u)) :
    Early s ∨ ∃ r, u = .setReading r ∧ (r = .connect ∨ r = .handshake) := by
  have hw : (s.apply now u).reading = (s.wire.apply u).reading :=
    congrArg Wire.reading PeerSession.wire_apply
  rw [Early, hw] at h
  cases u
  case setReading r =>
    simp only [Wire.apply] at h
    split at h
    case isTrue  => exact .inl h
    case isFalse => exact .inr ⟨r, rfl, h⟩
  all_goals exact .inl h

-- The handshakes that an action sends.
theorem speed_of_sends (ha : n₀.Acts now op a) (hg : Guard op n₀ n a)
    (hs : n₀.task.scheduler.localSpeedMbps = speed) (hp : ∀ m ∈ s.posted, ∀ v, m ≠ .handshake v)
    (ht : n.Touches std now a k s u) (hm : .handshake v ∈ s.sends u) : v = speed := by
  cases ht
  case session hk he =>
    subst he
    cases PeerSession.sends_of_mem hm
    case send =>
      obtain ⟨⟨_, _, he⟩, _⟩ := (hg s hk).right
      cases he
    case handshake => cases ha; exact hs
    case posted hm => exact absurd rfl (hp _ hm v)
  case dispatch => cases hm
  case close    => cases hm
  case announce => cases List.mem_singleton.mp hm
  case call call _ _ _ =>
    cases call
    case notInterested => cases PeerSession.sends_of_mem hm
    all_goals cases List.mem_singleton.mp hm

section Step

variable [DecidableEq δ] {sha256 : List UInt8 → δ} {x : UInt64 × Op}

theorem localSpeedMbps_apply (h : n.apply sha256 std now a = some n') :
    n'.task.scheduler.localSpeedMbps = n.task.scheduler.localSpeedMbps := by
  obtain ⟨_, ht⟩ | ⟨top, _, ht⟩ := task_apply h
  case inl => rw [ht]
  case inr => rw [Task.scheduler_step ht, Scheduler.localSpeedMbps_run]

theorem Speaks.step (h : n.Speaks speed) (hb : n.Basic) (hs : n.step sha256 std x = some n') :
    n'.Speaks speed := by
  refine step_invariant (Speaks speed) (fun n₁ a n₂ ha _ hg hn h₁ => ?_) hb h hs
  have session (s') (hs' : s' ∈ n₂.sessions) :
      (∀ m ∈ s'.stream, ∀ v, m = .handshake v → v = speed) ∧
        ∀ m ∈ s'.posted, ∀ v, m ≠ .handshake v := by
    obtain ⟨k, hk'⟩ := List.getElem?_of_mem hs'
    obtain ⟨s, hk, he⟩ | ⟨r, _, _, rfl⟩ := session_of_apply hn hk'
    case inr => exact ⟨List.forall_mem_nil _, List.forall_mem_nil _⟩
    case inl =>
      have hm := List.mem_of_getElem? hk
      refine he.invariant (fun s => (∀ m ∈ s.stream, ∀ v, m = .handshake v → v = speed) ∧
        ∀ m ∈ s.posted, ∀ v, m ≠ .handshake v) (fun t u hi ht => ⟨?_, ?_⟩)
        ⟨h₁.stream s hm, h₁.posted s hm⟩
      · refine PeerSession.forall_stream_apply hi.left fun m hm v he => ?_
        exact speed_of_sends (acts_of_mem ha) hg h.own hi.right ht (he ▸ hm)
      · exact PeerSession.forall_posted_apply hi.right fun _ _ _ _ _ _ => Msg.noConfusion
  exact ⟨(localSpeedMbps_apply hn).trans h₁.own, fun s hs => (session s hs).left,
    fun s hs => (session s hs).right⟩

-- Once the handshake has been read, it is not read again.
theorem early_of_step {k : Nat} (hb : n.Basic) (hs : n.step sha256 std x = some n')
    (hk : n.sessions[k]? = some s) (hk' : n'.sessions[k]? = some s') (he : Early s') : Early s := by
  obtain ⟨now, op⟩ := x
  suffices h : ∃ t, n'.sessions[k]? = some t ∧ (Early t → Early s) by
    obtain ⟨t, ht, h⟩ := h
    exact h (Option.some.inj (hk'.symm.trans ht) ▸ he)
  refine step_invariant (fun n => ∃ t, n.sessions[k]? = some t ∧ (Early t → Early s))
    (fun n₁ a n₂ ha _ hg hn h₁ => ?_) hb ⟨s, hk, id⟩ hs
  obtain ⟨t, ht, h₁⟩ := h₁
  obtain ⟨t', ht', hev⟩ := session_apply hn ht
  refine ⟨t', ht', hev.invariant (fun t => Early t → Early s) (fun t u hi hu he => ?_) h₁⟩
  obtain he | ⟨r, hr, hcr⟩ := early_of_apply he
  case inl => exact hi he
  case inr =>
    cases hu
    case session hj hu =>
      subst hr hu
      obtain rfl := hcr.resolve_left (hg t hj).left.left
      cases acts_of_mem ha
      case reading h =>
        obtain ⟨s₀, hs₀, hc⟩ := h rfl
        rw [Option.some.inj (hk.symm.trans hs₀)]
        exact .inl hc
    case call call _ _ _ => cases call <;> cases hr
    all_goals cases hr

end Step

end Handshakes

end Node
end ThinBT
