import ThinBT.Tracker.Client

namespace ThinBT.TrackerClient

-- An announce is only made while no other one is live.
def Idle (c : TrackerClient) : Op → Prop
  | .announce resolves => resolves = true → c.chains = []
  | _                  => True

variable {c c' : TrackerClient}

theorem length_moveChain : (c.moveChain k x).chains.length = c.chains.length :=
  List.length_set

theorem length_endChain : (c.endChain k).chains.length ≤ c.chains.length :=
  List.length_eraseIdx_le ..

theorem chains_signalDead : c.signalDead.chains = c.chains := by
  unfold signalDead
  split <;> rfl

theorem length_scheduleRetry : (c.scheduleRetry k).chains.length ≤ c.chains.length := by
  unfold scheduleRetry
  split
  case isTrue  => rw [chains_signalDead]; exact length_endChain
  case isFalse => exact Nat.le_of_eq length_moveChain

theorem length_scheduleEmptyPoll : (c.scheduleEmptyPoll k).chains.length ≤ c.chains.length := by
  unfold scheduleEmptyPoll
  split
  case isTrue  => exact length_endChain
  case isFalse => exact Nat.le_of_eq length_moveChain

theorem length_doAnnounce : (c.doAnnounce k resolves).chains.length ≤ c.chains.length := by
  unfold doAnnounce
  split
  case isTrue  => exact Nat.le_of_eq length_moveChain
  case isFalse => exact length_endChain

theorem length_of_handle {d : TrackerClient} (hs : c.handle k x d = some c')
    (hd : d.chains.length ≤ c.chains.length) : c'.chains.length ≤ c.chains.length := by
  unfold handle at hs
  split at hs
  case isTrue  => exact Option.some.inj hs ▸ hd
  case isFalse => cases hs

-- Only an announce of a host that can be resolved starts a chain.
theorem length_step (hs : c.step op = some c') (hn : op ≠ .announce true) :
    c'.chains.length ≤ c.chains.length := by
  cases op
  case setRetryEnabled | setOnDead => cases hs; exact Nat.le_refl _
  case announce resolves =>
    cases hs
    cases resolves
    case true  => exact absurd rfl hn
    case false => exact Nat.le_refl _
  case connected k ok | written k ok =>
    refine length_of_handle hs ?_
    cases ok
    case true  => exact Nat.le_of_eq length_moveChain
    case false => exact length_scheduleRetry
  case response k peers =>
    cases peers
    case none => exact length_of_handle hs length_scheduleRetry
    case some n =>
      cases n
      case zero => exact length_of_handle hs length_scheduleEmptyPoll
      case succ => exact length_of_handle hs length_endChain
  case retryExpired => exact length_of_handle hs length_doAnnounce
  case pollExpired k ok resolves =>
    refine length_of_handle hs ?_
    cases ok
    case true  => exact length_doAnnounce
    case false => exact length_endChain

theorem length_announce : (c.announce true).chains.length = c.chains.length + 1 :=
  List.length_append

-- A second chain shows up right after the announce that starts it.
theorem length_step_iff (hc : c.chains.length ≤ 1) (hs : c.step op = some c') :
    c'.chains.length ≤ 1 ↔ c.Idle op := by
  by_cases hn : op = .announce true
  case neg =>
    refine iff_of_true (Nat.le_trans (length_step hs hn) hc) ?_
    cases op
    case announce => exact fun he => absurd (congrArg Op.announce he) hn
    all_goals trivial
  case pos =>
    subst hn
    cases hs
    rw [length_announce, Nat.add_le_add_iff_right, Nat.le_zero, List.length_eq_zero_iff]
    exact ⟨fun he _ => he, fun he => he rfl⟩

-- There is at most one live chain at every moment exactly if every announce is made without one.
theorem one_chain_iff {ops : List Op} :
    (∀ before, before <+: ops → ∀ c, Machine.run step {} before = some c → c.chains.length ≤ 1) ↔
      Machine.AllAt step Idle {} ops := by
  have h₀ : ({} : TrackerClient).chains.length ≤ 1 := Nat.zero_le 1
  refine Machine.forall_prefix_iff (fun _ => True) (·.chains.length ≤ 1) (fun _ _ _ _ _ => trivial)
    (fun c op _ hs => ?_) (fun _ _ _ _ hc hs => length_step_iff hc hs) trivial h₀
  cases op
  case announce => cases hs
  all_goals trivial

-- An announce is polling a tracker without peers, when the next one is made.
theorem second_announce_adds_chain :
    (Machine.run step {} [.announce true, .connected 0 true, .written 0 true,
        .response 0 (some 0), .announce true]).map (·.chains) =
      some [.emptyPollTimer, .connecting] := by
  decide

end ThinBT.TrackerClient
