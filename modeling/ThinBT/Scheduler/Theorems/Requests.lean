import ThinBT.Scheduler.Theorems.Rebalance
import ThinBT.Scheduler.Theorems.Runs

namespace ThinBT

namespace PeerSlot

def healthy (p : PeerSlot) : Prop :=
  p.amChoking = false ∧ p.consecutiveTimeouts < 3

theorem healthy_untrack {p : PeerSlot} : (p.untrack c b).healthy ↔ p.healthy := by
  unfold untrack
  split <;> exact Iff.rfl

end PeerSlot

namespace Scheduler

variable {σ : Scheduler}

-- A requested chunk is open, and the peer has it, does not choke us and answers in time.
def Served (σ : Scheduler) : Call → Prop
  | .issueRequest slot c _ _ =>
    ¬σ.closed c ∧ ∃ p ∈ σ.peerSlots, p.slotId = slot ∧ p.has c = true ∧ p.amChoking = false ∧
      p.consecutiveTimeouts < 3
  | _                        => True

instance : (x : Call) → Decidable (Served σ x)
  | .issueRequest slot c _ _ => inferInstanceAs (Decidable (¬σ.closed c ∧ ∃ p ∈ σ.peerSlots,
      p.slotId = slot ∧ p.has c = true ∧ p.amChoking = false ∧ p.consecutiveTimeouts < 3))
  | .cancelRequest .. | .broadcastHave _ | .broadcastNotInterested | .notInterested _ =>
    .isTrue trivial

def CallsServed (σ : Scheduler) (a : Action) : Prop :=
  ∀ x ∈ σ.calls a, σ.Served x

instance : Decidable (CallsServed σ a) :=
  inferInstanceAs (Decidable (∀ x ∈ σ.calls a, σ.Served x))

-- Every request of the actions is served at the moment it is issued.
abbrev AllServed (σ : Scheduler) : List Action → Prop :=
  Actions.AllAt apply CallsServed σ

def Healthy (σ : Scheduler) (i : Nat) : Prop :=
  ∀ p, σ.peerSlots[i]? = some p → p.healthy

theorem served_request (hc : ¬σ.closed c) (hp : σ.peerSlots[i]? = some p) (he : p.eligible c) :
    ∀ x ∈ σ.requestTo i c b, σ.Served x := by
  intro x hx
  simp only [requestTo, slotIdAt, hp, Option.map_some, Option.toList_some, List.map_cons,
    List.map_nil, List.mem_singleton] at hx
  subst hx
  exact ⟨hc, p, List.mem_of_getElem? hp, rfl, PeerSlot.eligible_iff.mp he⟩

theorem served_assigning (h : σ.Assigning a) : σ.CallsServed a := by
  cases a
  case assign =>
    have ⟨hc, _, _, p, hp, he⟩ := h
    exact served_request hc hp he
  case beginDownload => simp [CallsServed, calls]
  all_goals cases h

theorem served_duplicating (hs : σ.Shape) (h : σ.Duplicating a) : σ.CallsServed a := by
  cases a
  case redundant =>
    have ⟨hc, _, _, primary, hi⟩ := h
    intro x hx
    have ⟨i, him, hx⟩ := List.mem_flatMap.mp hx
    have ⟨p, hp, hr⟩ := (redundantPeers_spec hs hi).right.right i him
    refine served_request hc hp ?_ x hx
    simp only [redundantCandidate, Bool.and_eq_true] at hr
    exact hr.left.right
  all_goals cases h

-- The filter of `rebalance_seed_requests_for_peer` checks everything but the health of the peer.
theorem served_rebalancing_iff (hs : σ.Shape) (h : Rebalancing k σ a) :
    σ.CallsServed a ↔ (a.isMove → σ.Healthy k) := by
  cases a
  case dropDone => simp [CallsServed, calls, Action.isMove]
  case move j i c b now =>
    obtain ⟨rfl, hc, _, p, q, hp, _, _, hh, _⟩ := h
    simp only [Action.isMove, true_imp_iff]
    constructor
    case mp =>
      intro hx p' hp'
      cases hp.symm.trans hp'
      have hm : Call.issueRequest p.slotId c b subBlockSize ∈ σ.calls (.move j i c b now) := by
        simp [calls, requestTo, slotIdAt, hp]
      obtain ⟨_, p', hp', he, hs'⟩ := hx _ hm
      have hpp := hs.find?_slot hp'
      rw [he, hs.find?_slot (List.mem_of_getElem? hp)] at hpp
      cases hpp
      exact hs'.right
    case mpr =>
      intro hk x hx
      cases List.mem_append.mp hx
      case inl hx =>
        simp only [cancelFrom] at hx
        split at hx
        case isTrue =>
          obtain ⟨_, _, he⟩ := List.mem_map.mp hx
          exact he ▸ trivial
        case isFalse => cases hx
      case inr hx => exact served_request hc hp (PeerSlot.eligible_iff.mpr ⟨hh, hk p hp⟩) x hx
  all_goals cases h

theorem healthy_onPeer {p : PeerSlot} (h : Rebalancing k σ a) :
    (σ.onPeer a i p).healthy ↔ p.healthy := by
  cases a
  case dropDone =>
    simp only [onPeer]
    split <;> exact Iff.rfl
  case move =>
    simp only [onPeer]
    split <;> split <;> first | exact Iff.rfl | exact PeerSlot.healthy_untrack
  all_goals cases h

theorem healthy_rebalancing (h : Rebalancing k σ a) : (σ.apply a).Healthy i ↔ σ.Healthy i := by
  unfold Healthy
  rw [getElem?_apply (by rintro _ _ rfl; cases h) (by rintro _ rfl; cases h)]
  cases σ.peerSlots[i]? <;> simp [healthy_onPeer h]

theorem allServed_rebalancing (hs : σ.Shape) (h : σ.AllRebalancing k as) :
    σ.AllServed as ↔ (as.any Action.isMove → σ.Healthy k) := by
  induction as generalizing σ
  case nil => simp
  case cons a as hi =>
    have hg := (Rebalancing.reaction h.left).traffic.guard
    refine (and_congr (served_rebalancing_iff hs h.left) (hi (hs.apply hg) h.right)).trans ?_
    rw [healthy_rebalancing h.left, List.any_cons, Bool.or_eq_true, or_imp]

theorem allServed_assigning (h : σ.AllAssigning as) : σ.AllServed as :=
  h.mono fun _ _ => served_assigning

theorem allServed_duplicating (hs : σ.Shape) (h : σ.AllDuplicating as) : σ.AllServed as := by
  have h : Actions.AllAt apply (fun σ a => σ.Shape ∧ σ.Duplicating a) σ as :=
    h.strengthen (fun _ _ hs ha => hs.apply ha.traffic.guard) hs
  exact h.mono fun _ _ ha => served_duplicating ha.left ha.right

-- The states in which a method is called for each element of a list.
def visits (f : Nat → Scheduler → List Action) : List Nat → Scheduler → List (Scheduler × Nat)
  | [], _      => []
  | x :: xs, σ => (σ, x) :: visits f xs (σ.exec (f x σ))

theorem allAt_forEach_iff {f : Nat → Scheduler → List Action} :
    Actions.AllAt apply P σ (forEach f xs σ) ↔
      ∀ v ∈ visits f xs σ, Actions.AllAt apply P v.1 (f v.2 v.1) := by
  induction xs generalizing σ <;> simp only [forEach, visits]
  case nil => simp
  case cons x xs hi => rw [Actions.allAt_append, hi, List.forall_mem_cons]

theorem shape_visits {f : Nat → Scheduler → List Action} (hs : σ.Shape)
    (hf : ∀ x (σ : Scheduler), σ.AllReaction (f x σ)) : ∀ v ∈ visits f xs σ, v.1.Shape := by
  induction xs generalizing σ <;> simp only [visits]
  case nil => simp
  case cons x xs hi => exact List.forall_mem_cons.mpr ⟨hs, hi (hs.exec (hf x σ).traffic.guarded)⟩

-- The calls of `rebalance_seed_requests_for_peer` that an operation makes, each given by the state
-- it is made in and the position of the peer.
def rebalanceCalls : Op → Scheduler → List (Scheduler × Nat)
  | .tick now, σ             =>
    if σ.phase = .done then []
    else visits (rebalanceSeedRequestsForPeer · now 4) (.range σ.peerSlots.length) σ
  | .onBitfield slot bf _, σ =>
    (σ.peerSlot slot).toList.map fun i => (σ.apply (.setBitfield i bf), i)
  | .onHave slot c _, σ      =>
    match σ.peerSlot slot with
    | none   => []
    | some i =>
      match σ.peerSlots[i]? with
      | none   => []
      | some p =>
        if p.remoteBitfield.length ≤ c then []
        else [(σ.exec (if p.has c then [] else [.recordHave i c]), i)]
  | _, _                     => []

theorem allServed_rebalance_iff (hs : σ.Shape) :
    σ.AllServed (rebalanceSeedRequestsForPeer i now (n + 1) σ) ↔ (σ.Movable i → σ.Healthy i) := by
  rw [allServed_rebalancing hs rebalancing_rebalanceSeedRequestsForPeer,
    any_isMove_rebalanceSeedRequestsForPeer hs.activeNodup]

theorem allServed_checked_rebalance_iff (hs : σ.Shape) :
    σ.AllServed (checkPeerInterest slot σ ++ rebalanceSeedRequestsForPeer i now (n + 1) σ) ↔
      (σ.Movable i → σ.Healthy i) := by
  have hc : σ.AllServed (checkPeerInterest slot σ) := by
    unfold checkPeerInterest
    split <;> simp [CallsServed, calls, Served]
  refine Actions.allAt_append.trans ((and_iff_right hc).trans ?_)
  rw [exec_checkPeerInterest]
  exact allServed_rebalance_iff hs

theorem allServed_onBitfield_iff (hs : σ.Shape) :
    σ.AllServed (onBitfield slot bf now σ) ↔
      ∀ x ∈ rebalanceCalls (.onBitfield slot bf now) σ, x.1.Movable x.2 → x.1.Healthy x.2 := by
  simp only [onBitfield, rebalanceCalls]
  cases σ.peerSlot slot <;> dsimp only
  case none => simp
  case some i =>
    have hc : σ.CallsServed (.setBitfield i bf) := by simp [CallsServed, calls]
    have hs' : (σ.apply (.setBitfield i bf)).Shape := hs.apply trivial
    refine Actions.allAt_cons.trans ((and_iff_right hc).trans ?_)
    refine (allServed_checked_rebalance_iff hs').trans ?_
    simp

theorem allServed_onHave_iff (hs : σ.Shape) :
    σ.AllServed (onHave slot c now σ) ↔
      ∀ x ∈ rebalanceCalls (.onHave slot c now) σ, x.1.Movable x.2 → x.1.Healthy x.2 := by
  simp only [onHave, rebalanceCalls]
  cases σ.peerSlot slot <;> dsimp only
  case none => simp
  case some i =>
    cases σ.peerSlots[i]? <;> dsimp only
    case none => simp
    case some p =>
      split
      case isTrue => simp
      case isFalse =>
        have hg : σ.Guarded (if p.has c then [] else [.recordHave i c]) := by
          split <;> simp [Guard, Traffic, Reaction]
        have hc : σ.AllServed (if p.has c then [] else [.recordHave i c]) := by
          split <;> simp [CallsServed, calls]
        rw [List.append_assoc]
        refine Actions.allAt_append.trans ((and_iff_right hc).trans ?_)
        refine (allServed_checked_rebalance_iff (hs.exec hg)).trans ?_
        simp

theorem allServed_rebalanceAll_iff (hs : σ.Shape) :
    σ.AllServed (rebalanceAll now σ) ↔
      ∀ v ∈ visits (rebalanceSeedRequestsForPeer · now 4) (.range σ.peerSlots.length) σ,
        v.1.Movable v.2 → v.1.Healthy v.2 := by
  refine allAt_forEach_iff.trans (forall_congr' fun v => forall_congr' fun hv => ?_)
  have hs := shape_visits hs (fun _ _ => rebalancing_rebalanceSeedRequestsForPeer.reaction) v hv
  exact allServed_rebalance_iff hs

theorem allServed_tick_iff {std : StdSort} (hs : σ.Shape) :
    σ.AllServed (tick std now σ) ↔
      ∀ x ∈ rebalanceCalls (.tick now) σ, x.1.Movable x.2 → x.1.Healthy x.2 := by
  simp only [tick, rebalanceCalls]
  split
  case isTrue => simp
  case isFalse =>
    rw [List.append_assoc]
    refine Actions.allAt_append.trans ((and_iff_left ?_).trans (allServed_rebalanceAll_iff hs))
    have hs := hs.exec (reaction_rebalanceAll now).traffic.guarded
    refine Actions.allAt_append.mpr ⟨allServed_assigning (assigning_scheduleAll now), ?_⟩
    split
    case isTrue =>
      have hs := hs.exec (assigning_scheduleAll now).reaction.traffic.guarded
      exact allServed_duplicating hs duplicating_tickEndgame
    case isFalse => trivial

theorem allServed_decPeerPending : σ.AllServed (decPeerPending slot c b now σ) := by
  unfold decPeerPending
  split
  case h_1 => trivial
  case h_2 =>
    split
    case h_1 => trivial
    case h_2 =>
      split
      case isTrue => trivial
      case isFalse =>
        refine ⟨by simp [CallsServed, calls], ?_⟩
        split
        case isTrue  => exact allServed_assigning assigning_tryScheduleForPeer
        case isFalse => trivial

theorem served_of_isRequest (h : a.isRequest = false) : σ.CallsServed a := by
  intro x hx
  cases a
  case assign | move | redundant => cases h
  case complete =>
    cases List.mem_append.mp hx
    case inl hx =>
      simp only [cancelsForChunk] at hx
      split at hx
      case isTrue =>
        have ⟨_, _, hx⟩ := List.mem_flatMap.mp hx
        have ⟨_, _, he⟩ := List.mem_map.mp hx
        exact he ▸ trivial
      case isFalse => cases hx
    case inr hx => exact List.mem_singleton.mp hx ▸ trivial
  case settle =>
    simp only [calls] at hx
    split at hx
    case isTrue  => exact List.mem_singleton.mp hx ▸ trivial
    case isFalse => cases hx
  case notInterested => exact List.mem_singleton.mp hx ▸ trivial
  all_goals cases hx

-- Exactly the calls of `rebalance_seed_requests_for_peer` for unhealthy peers are at fault.
theorem allServed_actions_iff {std : StdSort} (hs : σ.Shape) :
    σ.AllServed (actions std op σ) ↔
      ∀ x ∈ rebalanceCalls op σ, x.1.Movable x.2 → x.1.Healthy x.2 := by
  cases op
  case tick           => exact allServed_tick_iff hs
  case onBitfield     => exact allServed_onBitfield_iff hs
  case onHave         => exact allServed_onHave_iff hs
  case decPeerPending => exact iff_of_true allServed_decPeerPending (by simp [rebalanceCalls])
  all_goals
    refine iff_of_true ?_ (by simp [rebalanceCalls])
    exact Actions.allAt_of_forall fun a ha _ => served_of_isRequest (isRequest_of_mem rfl ha)

variable {std : StdSort} {ops : List Op} {total : UInt32} {speed : Nat} {sizes : List UInt32}

theorem requests_served_iff (hl : AllOps std Legal (start total speed sizes) ops) :
    (run std (start total speed sizes) ops).AllServed
        (actions std op (run std (start total speed sizes) ops)) ↔
      ∀ x ∈ rebalanceCalls op (run std (start total speed sizes) ops),
        x.1.Movable x.2 → x.1.Healthy x.2 :=
  allServed_actions_iff (shape_run hl)

-- A full source serves all requests before a second peer connects, which still chokes us.
def chokingPartialPeer : List Op := [
  .setCancelIssuer,
  .onPeerAdded 1 1000, .onBitfield 1 [true, true] 5, .onChokeChange 1 false, .tick 10,
  .onPeerAdded 2 1000
]

theorem chokingPartialPeer_tick_served_iff :
    (run .stable (start 2 1000 [16384, 100]) chokingPartialPeer).AllServed
        (actions .stable (.tick 20) (run .stable (start 2 1000 [16384, 100]) chokingPartialPeer)) ↔
      ∀ x ∈ rebalanceCalls (.tick 20) (run .stable (start 2 1000 [16384, 100]) chokingPartialPeer),
        x.1.Movable x.2 → x.1.Healthy x.2 :=
  requests_served_iff (by decide +kernel)

-- Its bitfield triggers a rebalancing that requests a sub-block from it.
theorem choking_peer_is_requested :
    ¬(run .stable (start 2 1000 [16384, 100]) chokingPartialPeer).AllServed
      (actions .stable (.onBitfield 2 [true, false] 20)
        (run .stable (start 2 1000 [16384, 100]) chokingPartialPeer)) := by
  decide +kernel

end Scheduler
end ThinBT
