import ThinBT.Scheduler.Theorems.Runs

namespace ThinBT

namespace PeerSlot

variable {p : PeerSlot}

-- Every pending request is listed as an active sub-block and vice versa.
def Balanced (p : PeerSlot) : Prop :=
  p.pendingRequests = p.activeTotal

instance : Decidable p.Balanced :=
  inferInstanceAs (Decidable (p.pendingRequests = p.activeTotal))

theorem Balanced.track (h : p.Balanced) (hb : b ∉ p.begins c) : (p.track c b).Balanced := by
  unfold Balanced at h ⊢
  rw [pendingRequests_track, activeTotal_track_of_not_mem hb, h]

theorem Balanced.settled (h : p.Balanced) (hb : b ∈ p.begins c) :
    (p.decPending.untrack c b).Balanced := by
  unfold Balanced at h ⊢
  have ht := activeTotal_untrack_of_mem (p := p.decPending) hb
  have he : p.decPending.activeTotal = p.activeTotal := rfl
  rw [pendingRequests_untrack, pendingRequests_decPending]
  omega

end PeerSlot

namespace Scheduler

variable {σ : Scheduler}

-- An action for which the listed begin offsets follow the pending requests: a piece arrives for a
-- listed sub-block, and a peer is not asked again for a sub-block it lists. The cleanup of finished
-- sub-blocks never does.
def Matched (σ : Scheduler) : Action → Prop
  | .arrive i c b   => ∀ p, σ.peerSlots[i]? = some p → b ∈ p.begins c
  | .assign i c s _ => ∀ p, σ.peerSlots[i]? = some p → s * subBlockSize ∉ p.begins c
  | .move _ i c b _ => ∀ p, σ.peerSlots[i]? = some p → b ∉ p.begins c
  | .dropDone ..    => False
  | _               => True

instance : (a : Action) → Decidable (Matched σ a)
  | .arrive i c b   => inferInstanceAs (Decidable (∀ p, σ.peerSlots[i]? = some p → b ∈ p.begins c))
  | .assign i c s _ =>
    inferInstanceAs (Decidable (∀ p, σ.peerSlots[i]? = some p → s * subBlockSize ∉ p.begins c))
  | .move _ i c b _ => inferInstanceAs (Decidable (∀ p, σ.peerSlots[i]? = some p → b ∉ p.begins c))
  | .dropDone ..    => .isFalse id
  | .setCancelIssuer | .setNotInterestedIssuer | .shuffle _ | .addPeer .. | .setSpeed ..
  | .setChoking .. | .setEval .. | .removePeer _ | .setBitfield .. | .recordHave ..
  | .notInterested _ | .beginDownload _ | .redundant .. | .complete .. | .settle _
  | .verifyFailed _ | .timeout .. | .markComplete _ => .isTrue trivial

theorem balanced_onPeer (hs : σ.Shape) (hg : σ.Guard a) (hm : σ.Matched a)
    (hp : σ.peerSlots[k]? = some p) (h : p.Balanced) : (σ.onPeer a k p).Balanced := by
  cases a
  case dropDone => cases hm
  case complete =>
    simp only [onPeer]
    split
    case isTrue  => exact PeerSlot.activeTotal_cancelChunk h
    case isFalse => exact h
  case arrive =>
    simp only [onPeer]
    split
    case isTrue hk => exact h.settled (hm p (hk ▸ hp))
    case isFalse   => exact h
  case assign =>
    simp only [onPeer]
    split
    case isTrue hk => exact h.track (hm p (hk ▸ hp))
    case isFalse   => exact h
  case move j i c b now =>
    obtain ⟨_, _, _, _, q, _, hq, hne, _, hb⟩ := hg
    simp only [onPeer]
    split
    case isTrue hk =>
      rw [if_neg (hk ▸ hne)]
      exact h.track (hm p (hk ▸ hp))
    case isFalse =>
      split
      case isTrue hk =>
        subst hk
        cases hp.symm.trans hq
        exact h.settled hb
      case isFalse => exact h
  case redundant c s is =>
    obtain ⟨_, _, _, primary, hi⟩ := hg
    obtain ⟨_, hn, hc⟩ := redundantPeers_spec hs hi
    simp only [onPeer]
    by_cases hk : k ∈ is
    case pos =>
      rw [List.count_eq_one_of_mem hn hk]
      obtain ⟨q, hq, hr⟩ := hc k hk
      cases hp.symm.trans hq
      refine h.track fun hb => ?_
      have hz := SortedSet.size_pos_of_mem hb
      simp only [redundantCandidate, Bool.and_eq_true, decide_eq_true_eq] at hr
      omega
    case neg =>
      rw [List.count_eq_zero_of_not_mem hk]
      exact h
  case setSpeed | setChoking | setEval | setBitfield | recordHave =>
    simp only [onPeer]
    split <;> exact h
  all_goals exact h

structure Consistent (σ : Scheduler) : Prop where
  shape    : σ.Shape
  balanced : ∀ p ∈ σ.peerSlots, p.Balanced

theorem Consistent.apply (h : σ.Consistent) (hg : σ.Guard a) (hm : σ.Matched a) :
    (σ.apply a).Consistent where
  shape      := h.shape.apply hg
  balanced p hp := by
    obtain ⟨k, q, hq, rfl⟩ | ⟨slot, speed, rfl, rfl⟩ := mem_peerSlots_apply hp
    · exact balanced_onPeer h.shape hg hm hq (h.balanced q (List.mem_of_getElem? hq))
    · rfl

variable {std : StdSort} {ops : List Op} {total : UInt32} {speed : Nat} {sizes : List UInt32}

-- If all actions of a run are matched, the accounting of all peers is exact.
theorem pending_requests_exact (hl : AllOps std Legal (start total speed sizes) ops)
    (hm : Actions.AllAt apply Matched (start total speed sizes)
      (history std (start total speed sizes) ops)) :
    ∀ p ∈ (run std (start total speed sizes) ops).peerSlots, p.pendingRequests = p.activeTotal := by
  have h : ((start total speed sizes).exec (history std (start total speed sizes) ops)).Consistent :=
    (guarded_history hl).and hm |>.invariant (fun _ _ hi hg => hi.apply hg.left hg.right)
      ⟨shape_start, fun _ hp => absurd hp List.not_mem_nil⟩
  rw [exec_history] at h
  exact h.balanced

-- A peer delivers its pieces in order while the other one takes over from it.
def orderlyDownload : List Op := [
  .setCancelIssuer,
  .onPeerAdded 1 1000, .onBitfield 1 [true, true] 5, .onChokeChange 1 false, .tick 10,
  .decPeerPending 1 0 0 12,
  .onPeerAdded 2 1000, .onChokeChange 2 false, .onBitfield 2 [true, false] 15,
  .decPeerPending 2 0 16384 20
]

theorem orderlyDownload_pending_requests :
    (run .stable (start 2 1000 [65536, 100]) orderlyDownload).peerSlots.map (·.pendingRequests) =
      (run .stable (start 2 1000 [65536, 100]) orderlyDownload).peerSlots.map (·.activeTotal) :=
  List.map_congr_left (pending_requests_exact (by decide +kernel) (by decide +kernel))

-- The requests that a list of actions issues, as slots, chunks and begin offsets.
def requests (σ : Scheduler) (as : List Action) : List (Nat × Nat × Nat) :=
  (Actions.trace apply σ as).flatMap fun x =>
    (x.1.calls x.2).filterMap fun
      | .issueRequest slot c b _ => some (slot, c, b)
      | _                        => none

-- A scheduler together with the requests that have not been answered so far.
def nextAnswered (std : StdSort) (x : Scheduler × List (Nat × Nat × Nat)) (op : Op) :
    Scheduler × List (Nat × Nat × Nat) :=
  let unanswered :=
    match op with
    | .decPeerPending slot c b _ => x.2.erase (slot, c, b)
    | _                          => x.2
  (next std x.1 op, unanswered ++ requests x.1 (actions std op x.1))

-- A piece answers an earlier request of its peer that has not been answered yet.
def Answers (x : Scheduler × List (Nat × Nat × Nat)) (op : Op) : Bool :=
  match op with
  | .decPeerPending slot c b _ => (slot, c, b) ∈ x.2
  | _                          => true

-- Sub-blocks are moved to the second peer. The piece of the first peer crosses its cancellation.
def crossingCancel : List Op := [
  .setCancelIssuer,
  .onPeerAdded 1 1000, .onBitfield 1 [true, true] 5, .onChokeChange 1 false, .tick 10,
  .onPeerAdded 2 1000, .onChokeChange 2 false, .onBitfield 2 [true, false] 15,
  .decPeerPending 1 0 0 20
]

theorem crossing_cancel_breaks_accounting :
    AllOps .stable Legal (start 2 1000 [32768, 100]) crossingCancel ∧
      Actions.AllAt (nextAnswered .stable) (Answers · ·) (start 2 1000 [32768, 100], [])
        crossingCancel ∧
      ∃ p ∈ (run .stable (start 2 1000 [32768, 100]) crossingCancel).peerSlots,
        p.pendingRequests ≠ p.activeTotal := by
  decide +kernel

end Scheduler
end ThinBT
