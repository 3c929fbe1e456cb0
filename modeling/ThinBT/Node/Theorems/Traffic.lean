import ThinBT.Node.Theorems.Wired
import ThinBT.Session.Theorems.Log

namespace ThinBT

-- What a step does to the traffic of the session at position `k`.
structure PeerSession.Exchange (op : Node.Op) (k : Nat) (s s' : PeerSession) : Prop where
  follows  : s.Follows s'
  stream   : s.stream <+: s'.stream
  received : s'.received = s.received ∨
    ∃ m peers, op = .receive k m peers ∧ s'.received = s.received ++ [m]

namespace Node

open PeerSession

variable {δ : Type} {n n' n₀ : Node δ} {now : UInt64} {k : Nat} {s s₀ : PeerSession} {a : Action}
variable {op : Op} {std : StdSort}

-- A step takes at most one message, and this is the first thing it does.
theorem Touches.takes (h : n.Touches std now a k s u) (hg : Guard op n₀ n a) :
    takes u = [] ∨ ∃ m peers, op = .receive k m peers ∧ n = n₀ ∧ takes u = [m] ∧
      n.sessions[k]? = some s := by
  cases h
  case session hk ha =>
    subst ha
    have hs := (hg s hk).right
    cases u
    case receive m =>
      obtain ⟨⟨peers, ho⟩, hn, _⟩ := hs
      exact .inr ⟨m, peers, ho, hn, rfl, hk⟩
    case dispatch => cases hs
    all_goals exact .inl rfl
  case dispatch m ha hk =>
    subst ha
    obtain ⟨⟨⟨peers, ho⟩, hn⟩, _⟩ := hg
    exact .inr ⟨m, peers, ho, hn, rfl, hk⟩
  case call call _ _ _ => cases call <;> exact .inl rfl
  all_goals exact .inl rfl

theorem Exchange.touch (h : s₀.Exchange op k s) (hk : n₀.sessions[k]? = some s₀)
    (hg : Guard op n₀ n a) (ht : n.Touches std now a k s u) : s₀.Exchange op k (s.apply now u) where
  follows  := h.follows.apply
  stream   := by
    rw [stream_apply]
    exact h.stream.trans (List.prefix_append ..)
  received := by
    rw [received_apply]
    obtain he | ⟨m, peers, ho, rfl, he, hk'⟩ := ht.takes hg
    case inl =>
      rw [he, List.append_nil]
      exact h.received
    case inr =>
      obtain rfl := Option.some.inj (hk.symm.trans hk')
      exact .inr ⟨m, peers, ho, by rw [he]⟩

section Step

variable [DecidableEq δ] {sha256 : List UInt8 → δ} {x : UInt64 × Op}

theorem session_step (hb : n.Basic) (h : n.step sha256 std x = some n') (hk : n.sessions[k]? = some s) :
    ∃ s', n'.sessions[k]? = some s' ∧ s.Exchange x.2 k s' := by
  refine step_invariant (fun n₁ => ∃ s', n₁.sessions[k]? = some s' ∧ s.Exchange x.2 k s') ?_ hb
    ⟨s, hk, .refl, List.prefix_rfl, .inl rfl⟩ h
  intro n₁ a n₂ _ _ hg ha ⟨t, ht, he⟩
  obtain ⟨t', ht', hev⟩ := session_apply ha ht
  exact ⟨t', ht', hev.invariant (s.Exchange x.2 k)
    (fun _ _ he htouch => Exchange.touch he hk hg htouch) he⟩

theorem length_step (hb : n.Basic) (h : n.step sha256 std x = some n') (ho : x.2.opens = false) :
    n'.sessions.length = n.sessions.length := by
  refine step_invariant (fun n₁ => n₁.sessions.length = n.sessions.length) ?_ hb rfl h
  intro n₁ a n₂ _ _ hg ha hl
  refine (length_apply ha fun r he => ?_).trans hl
  subst he
  rw [hg.right.left] at ho
  cases ho

-- A new session is the last one.
theorem sessions_open (h : n.step sha256 std x = some n') (ho : x.2.opens) :
    n'.sessions = n.sessions ∨
      ∃ r, n'.sessions = n.sessions ++ [{ slotId := n.nextSlotId, reading := r }] := by
  obtain ⟨now, op⟩ := x
  have attach {r : Reading} (h : Machine.run (apply sha256 std now) n (n.openSession r) = some n') :
      n'.sessions = n.sessions ∨
        ∃ r, n'.sessions = n.sessions ++ [{ slotId := n.nextSlotId, reading := r }] := by
    unfold openSession at h
    split at h
    case isTrue => exact .inl (congrArg _ (Option.some.inj h).symm)
    case isFalse =>
      obtain ⟨n₁, h₁, h⟩ := Machine.run_cons.mp h
      exact .inr ⟨r, Option.some.inj h ▸ apply_attach h₁⟩
  cases op
  case connect | accept => exact attach h
  all_goals cases ho

-- There is a new session if there is room for it.
theorem step_open (hc : n.peerCount < maxPeers) (ho : op.opens) :
    ∃ n' r, n.step sha256 std (now, op) = some n' ∧
      n'.sessions = n.sessions ++ [{ slotId := n.nextSlotId, reading := r }] := by
  have attach (r : Reading) :
      ∃ n', Machine.run (apply sha256 std now) n (n.openSession r) = some n' ∧
        n'.sessions = n.sessions ++ [{ slotId := n.nextSlotId, reading := r }] := by
    obtain ⟨n', ha⟩ : ∃ n', n.apply sha256 std now (.attach r) = some n' := ⟨_, rfl⟩
    rw [openSession, if_neg (Nat.not_le.mpr hc)]
    exact ⟨n', Machine.run_cons.mpr ⟨n', ha, rfl⟩, apply_attach ha⟩
  cases op
  case connect => exact ⟨_, _, (attach .connect).choose_spec⟩
  case accept  => exact ⟨_, _, (attach .handshake).choose_spec⟩
  all_goals cases ho

end Step
end Node
end ThinBT
