import ThinBT.Scheduler.Theorems.Apply

namespace ThinBT.Scheduler

variable {σ : Scheduler}

-- Some current peer lists the begin offset as an active sub-block of the chunk.
def Tracked (σ : Scheduler) (c b : Nat) : Prop :=
  ∃ p ∈ σ.peerSlots, b ∈ p.begins c

def IsSubBlock (σ : Scheduler) (c s : Nat) : Prop :=
  c < σ.totalChunks ∧ s < σ.subTotal c

-- What is known when `try_schedule_for_peer` performs an action.
def Assigning (σ : Scheduler) : Action → Prop
  | .beginDownload c      => ¬σ.closed c
  | .assign i c s _       =>
    ¬σ.closed c ∧ ¬σ.subReq c s ∧ s < σ.subTotal c ∧
      ∃ p, σ.peerSlots[i]? = some p ∧ p.eligible c
  | _                     => False

-- What is known when `rebalance_seed_requests_for_peer` performs an action for the peer `k`.
def Rebalancing (k : Nat) (σ : Scheduler) : Action → Prop
  | .dropDone j c b       =>
    σ.subDone c (b / subBlockSize) ∧ ∃ q, σ.peerSlots[j]? = some q ∧ b ∈ q.begins c
  | .move j i c b _       =>
    i = k ∧ ¬σ.closed c ∧ ¬σ.subDone c (b / subBlockSize) ∧
      ∃ p q, σ.peerSlots[i]? = some p ∧ σ.peerSlots[j]? = some q ∧ i ≠ j ∧ p.has c ∧
        b ∈ q.begins c
  | _                     => False

-- What is known when `tick_endgame` performs an action.
def Duplicating (σ : Scheduler) : Action → Prop
  | .redundant c s is     =>
    ¬σ.closed c ∧ σ.subReq c s ∧ ¬σ.subDone c s ∧
      ∃ primary, is = (σ.findRedundantPeers c primary maxRedundantPeers).filterMap σ.peerSlot
  | _                     => False

-- What is known when a message of a peer performs an action.
def Reaction (σ : Scheduler) : Action → Prop
  | .setBitfield _ _      => True
  | .recordHave _ _       => True
  | .notInterested _      => True
  | .arrive i _ _         => ∃ p, σ.peerSlots[i]? = some p ∧ 0 < p.pendingRequests
  | .beginDownload c      => σ.Assigning (.beginDownload c)
  | .assign i c s now     => σ.Assigning (.assign i c s now)
  | .dropDone j c b       => Rebalancing j σ (.dropDone j c b)
  | .move j i c b now     => Rebalancing i σ (.move j i c b now)
  | _                     => False

-- What is known when a message of a peer or a tick performs an action.
def Traffic (σ : Scheduler) : Action → Prop
  | .redundant c s is     => σ.Duplicating (.redundant c s is)
  | a                     => σ.Reaction a

-- What is known when any method of the scheduler performs an action.
def Guard (σ : Scheduler) : Action → Prop
  | .shuffle order        => order.Perm σ.activeChunks
  | .addPeer slot _       => ∀ p ∈ σ.peerSlots, p.slotId ≠ slot
  | .complete c _         => c < σ.totalChunks
  | .verifyFailed c       => c < σ.totalChunks
  | .timeout c _          => ¬σ.closed c
  | .markComplete c       => ¬σ.closed c
  | .setCancelIssuer | .setNotInterestedIssuer | .setSpeed .. | .setChoking .. | .setEval ..
  | .removePeer _ | .settle _ => True
  | a                     => σ.Traffic a

-- What is known if the slots of new peers are not checked.
def GuardOrAdd (σ : Scheduler) (a : Action) : Prop :=
  σ.Guard a ∨ ∃ slot speed, a = .addPeer slot speed

-- What is requested or listed exists.
structure Blocks (σ : Scheduler) : Prop where
  reqExists   : σ.subReq c s → σ.IsSubBlock c s
  beginExists : p ∈ σ.peerSlots → b ∈ p.begins c → ∃ s, b = s * subBlockSize ∧ σ.IsSubBlock c s

structure Shape (σ : Scheduler) : Prop where
  activeNodup : σ.activeChunks.Nodup
  slotsNodup  : (σ.peerSlots.map (·.slotId)).Nodup
  doneRow     : c < σ.totalChunks → σ.chunkSubDone.rowLength c = σ.subTotal c
  reqExists   : σ.subReq c s → σ.IsSubBlock c s
  beginExists : p ∈ σ.peerSlots → b ∈ p.begins c → ∃ s, b = s * subBlockSize ∧ σ.IsSubBlock c s
  -- A requested sub-block that is not done yet has an owner.
  owned       : ¬σ.closed c → σ.subReq c s → ¬σ.subDone c s → σ.Tracked c (s * subBlockSize)

theorem mul_subBlockSize_div : s * subBlockSize / subBlockSize = s :=
  Nat.mul_div_cancel _ (by decide)

theorem isSubBlock_apply : (σ.apply a).IsSubBlock c s ↔ σ.IsSubBlock c s := by
  simp only [IsSubBlock, totalChunks_apply, subTotal_apply]

section Peers

@[simp]
theorem slotId_iterate_track {p : PeerSlot} : ((·.track c b)^[n] p).slotId = p.slotId := by
  induction n generalizing p
  case zero      => rfl
  case succ n hi => exact hi

theorem remoteBitfield_iterate_track {p : PeerSlot} :
    ((·.track c b)^[n] p).remoteBitfield = p.remoteBitfield := by
  induction n generalizing p
  case zero      => rfl
  case succ n hi => exact hi

theorem mem_begins_iterate_track {p : PeerSlot} :
    b' ∈ ((·.track c b)^[n] p).begins c' ↔ (0 < n ∧ c' = c ∧ b' = b) ∨ b' ∈ p.begins c' := by
  induction n generalizing p
  case zero      => simp
  case succ n hi =>
    rw [Function.iterate_succ_apply, hi, PeerSlot.mem_begins_track]
    simp only [Nat.zero_lt_succ, true_and]
    tauto

@[simp]
theorem slotId_onPeer {p : PeerSlot} : (σ.onPeer a k p).slotId = p.slotId := by
  cases a
  case redundant => exact slotId_iterate_track
  all_goals simp only [onPeer]
  case move => split <;> split <;> simp
  all_goals split <;> simp

-- Only its messages change what a peer is known to have.
theorem remoteBitfield_onPeer {p : PeerSlot} :
    (σ.onPeer a k p).remoteBitfield =
      match a with
      | .setBitfield i bf => if k = i then bf else p.remoteBitfield
      | .recordHave i c   => if k = i then p.remoteBitfield.set c true else p.remoteBitfield
      | _                 => p.remoteBitfield := by
  cases a
  case redundant => exact remoteBitfield_iterate_track
  all_goals simp only [onPeer]
  case setBitfield | recordHave => split <;> rfl
  case move => split <;> split <;> simp [PeerSlot.track, PeerSlot.decPending]
  all_goals split <;> simp [PeerSlot.track, PeerSlot.decPending, PeerSlot.drop]

-- A begin offset that a peer lists after an action was listed before or is requested by it.
theorem mem_begins_onPeer {p : PeerSlot} (h : b ∈ (σ.onPeer a k p).begins c) :
    b ∈ p.begins c ∨
      (∃ s now, a = .assign k c s now ∧ b = s * subBlockSize) ∨
      (∃ j now, a = .move j k c b now) ∨
      (∃ s is, a = .redundant c s is ∧ k ∈ is ∧ b = s * subBlockSize) := by
  cases a <;> simp only [onPeer] at h
  case setSpeed | setChoking | setEval | setBitfield | recordHave => split at h <;> exact .inl h
  case arrive =>
    split at h
    case isTrue  => exact .inl (PeerSlot.mem_begins_untrack.mp h).right
    case isFalse => exact .inl h
  case dropDone =>
    split at h
    case isTrue  => exact .inl (PeerSlot.mem_begins_drop.mp h).right
    case isFalse => exact .inl h
  case complete =>
    split at h
    case isTrue  => exact .inl (PeerSlot.mem_begins_cancelChunk.mp h).right
    case isFalse => exact .inl h
  case assign i c' s' now =>
    split at h
    case isTrue hk =>
      refine (PeerSlot.mem_begins_track.mp h).elim (fun hb => .inr (.inl ⟨s', now, ?_, hb.right⟩)) .inl
      rw [hk, hb.left]
    case isFalse => exact .inl h
  case move j i c' b' now =>
    split at h
    case isTrue hk =>
      cases PeerSlot.mem_begins_track.mp h
      case inl hb => exact .inr (.inr (.inl ⟨j, now, by rw [hk, hb.left, hb.right]⟩))
      case inr hb =>
        split at hb
        case isTrue  => exact .inl (PeerSlot.mem_begins_untrack.mp hb).right
        case isFalse => exact .inl hb
    case isFalse =>
      split at h
      case isTrue  => exact .inl (PeerSlot.mem_begins_untrack.mp h).right
      case isFalse => exact .inl h
  case redundant c' s' is =>
    cases mem_begins_iterate_track.mp h
    case inl hb =>
      obtain ⟨hn, hc, hb⟩ := hb
      exact .inr (.inr (.inr ⟨s', is, by rw [hc], List.count_pos_iff.mp hn, hb⟩))
    case inr hb => exact .inl hb
  all_goals exact .inl h

-- Conversely, only four kinds of actions take a begin offset away from a peer.
theorem mem_begins_onPeer_of_mem {p : PeerSlot} (h : b ∈ p.begins c) :
    b ∈ (σ.onPeer a k p).begins c ∨ a = .arrive k c b ∨ a = .dropDone k c b ∨
      (∃ i now, a = .move k i c b now) ∨ (∃ winner, a = .complete c winner) := by
  cases a <;> simp only [onPeer]
  case setSpeed | setChoking | setEval | setBitfield | recordHave => split <;> exact .inl h
  case assign =>
    split
    case isTrue  => exact .inl (PeerSlot.mem_begins_track.mpr (.inr h))
    case isFalse => exact .inl h
  case redundant => exact .inl (mem_begins_iterate_track.mpr (.inr h))
  case arrive i c' b' =>
    split
    case isTrue hk =>
      by_cases hb : c = c' ∧ b = b'
      case pos => exact .inr (.inl (by rw [hk, hb.left, hb.right]))
      case neg => exact .inl (PeerSlot.mem_begins_untrack.mpr ⟨hb, h⟩)
    case isFalse => exact .inl h
  case dropDone j c' b' =>
    split
    case isTrue hk =>
      by_cases hb : c = c' ∧ b = b'
      case pos => exact .inr (.inr (.inl (by rw [hk, hb.left, hb.right])))
      case neg => exact .inl (PeerSlot.mem_begins_drop.mpr ⟨hb, h⟩)
    case isFalse => exact .inl h
  case complete c' winner =>
    split
    case isTrue =>
      by_cases hc : c' = c
      case pos => exact .inr (.inr (.inr (.inr ⟨winner, by rw [hc]⟩)))
      case neg => exact .inl (PeerSlot.mem_begins_cancelChunk.mpr ⟨fun he => hc he.right, h⟩)
    case isFalse => exact .inl h
  case move j i c' b' now =>
    by_cases hb : k = j ∧ c = c' ∧ b = b'
    case pos => exact .inr (.inr (.inr (.inl ⟨i, now, by rw [hb.left, hb.right.left, hb.right.right]⟩)))
    case neg =>
      have hu : b ∈ (if k = j then p.decPending.untrack c' b' else p).begins c := by
        split
        case isTrue hk => exact PeerSlot.mem_begins_untrack.mpr ⟨fun he => hb ⟨hk, he⟩, h⟩
        case isFalse   => exact h
      split
      case isTrue  => exact .inl (PeerSlot.mem_begins_track.mpr (.inr hu))
      case isFalse => exact .inl hu
  all_goals exact .inl h

theorem mem_peerSlots_apply (h : p' ∈ (σ.apply a).peerSlots) :
    (∃ k p, σ.peerSlots[k]? = some p ∧ p' = σ.onPeer a k p) ∨
      ∃ slot speed, a = .addPeer slot speed ∧ p' = σ.newPeer slot speed := by
  rw [peerSlots_apply] at h
  split at h
  case h_1 slot speed =>
    cases List.mem_append.mp h
    case inl hp =>
      have ⟨k, hk⟩ := List.mem_iff_getElem?.mp hp
      exact .inl ⟨k, p', hk, rfl⟩
    case inr hp => exact .inr ⟨slot, speed, rfl, List.mem_singleton.mp hp⟩
  case h_2 =>
    have ⟨k, hk⟩ := List.mem_iff_getElem?.mp (List.mem_filter.mp h).left
    exact .inl ⟨k, p', hk, rfl⟩
  case h_3 =>
    have ⟨k, hk⟩ := List.mem_iff_getElem?.mp h
    rw [List.getElem?_mapIdx] at hk
    have ⟨p, hp, he⟩ := Option.map_eq_some_iff.mp hk
    exact .inl ⟨k, p, hp, he.symm⟩

theorem onPeer_mem_peerSlots (h : σ.peerSlots[k]? = some p) :
    σ.onPeer a k p ∈ (σ.apply a).peerSlots ∨ a = .removePeer p.slotId := by
  rw [peerSlots_apply]
  split
  case h_1 => exact .inl (List.mem_append_left _ (List.mem_of_getElem? h))
  case h_2 slot =>
    by_cases hs : p.slotId = slot
    case pos => exact .inr (by rw [hs])
    case neg => exact .inl (List.mem_filter.mpr ⟨List.mem_of_getElem? h, by simpa using hs⟩)
  case h_3 =>
    refine .inl (List.mem_of_getElem? (i := k) ?_)
    rw [List.getElem?_mapIdx, h, Option.map_some]

theorem map_slotId_mapIdx :
    (σ.peerSlots.mapIdx (σ.onPeer a)).map (·.slotId) = σ.peerSlots.map (·.slotId) := by
  apply List.ext_getElem? fun k => ?_
  rw [List.getElem?_map, List.getElem?_mapIdx, List.getElem?_map, Option.map_map]
  congr 1
  exact funext fun p => slotId_onPeer

end Peers

-- A sub-block that is marked as requested was marked before or is requested by the action.
theorem subReq_of_apply (hr : (σ.apply a).subReq c s) :
    σ.subReq c s ∨ (∃ i now, a = .assign i c s now) ∨
      (∃ j i b now, a = .move j i c b now ∧ b / subBlockSize = s) := by
  rw [subReq_apply] at hr
  split at hr
  case h_1 c' s' now =>
    cases Bool.or_eq_true_iff.mp hr
    case inl hr => exact .inl hr
    case inr hr =>
      have ⟨⟨hc, hs⟩, _⟩ := of_decide_eq_true hr
      exact .inr (.inl ⟨_, now, by rw [hc, hs]⟩)
  case h_2 c' b now =>
    cases Bool.or_eq_true_iff.mp hr
    case inl hr => exact .inl hr
    case inr hr =>
      have ⟨⟨hc, hs⟩, _⟩ := of_decide_eq_true hr
      exact .inr (.inr ⟨_, _, b, now, by rw [hc], hs⟩)
  case h_3 => exact .inl (Bool.and_eq_true_iff.mp hr).left
  case h_4 => exact .inl (Bool.and_eq_true_iff.mp hr).left
  case h_5 => exact .inl (subReq_released hr).left
  case h_6 => exact .inl hr

theorem GuardOrAdd.guard (h : σ.GuardOrAdd a) (ha : ∀ slot speed, a ≠ .addPeer slot speed) :
    σ.Guard a := by
  refine h.resolve_right ?_
  rintro ⟨slot, speed, he⟩
  exact ha slot speed he

theorem nodup_activeChunks_apply (h : σ.activeChunks.Nodup) (hg : σ.GuardOrAdd a) :
    (σ.apply a).activeChunks.Nodup := by
  rw [activeChunks_apply]
  cases a
  case shuffle                 => exact (hg.guard (by simp)).nodup_iff.mpr h
  case complete | markComplete => exact h.swapRemove
  case verifyFailed c =>
    dsimp only
    split
    case isTrue     => exact h
    case isFalse hc => exact List.concat_eq_append ▸ h.concat hc
  all_goals exact h

namespace Blocks

theorem reqExists_apply (h : σ.Blocks) (hg : σ.GuardOrAdd a) (hr : (σ.apply a).subReq c s) :
    (σ.apply a).IsSubBlock c s := by
  rw [isSubBlock_apply]
  obtain hr | ⟨i, now, rfl⟩ | ⟨j, i, b, now, rfl, hb⟩ := subReq_of_apply hr
  · exact h.reqExists hr
  · have ⟨hc, _, hs, _⟩ := hg.guard (by simp)
    exact ⟨lt_totalChunks_of_not_closed hc, hs⟩
  · have ⟨_, _, _, p, q, _, hq, _, _, hm⟩ := hg.guard (by simp)
    have ⟨s', hs, he⟩ := h.beginExists (List.mem_of_getElem? hq) hm
    rw [← hb, hs, mul_subBlockSize_div]
    exact he

theorem beginExists_apply (h : σ.Blocks) (hg : σ.GuardOrAdd a) (hp : p ∈ (σ.apply a).peerSlots)
    (hb : b ∈ p.begins c) : ∃ s, b = s * subBlockSize ∧ (σ.apply a).IsSubBlock c s := by
  simp only [isSubBlock_apply]
  obtain ⟨k, q, hk, rfl⟩ | ⟨slot, speed, rfl, rfl⟩ := mem_peerSlots_apply hp
  · obtain hb | ⟨s, now, rfl, hs⟩ | ⟨j, now, rfl⟩ | ⟨s, is, rfl, hi, hs⟩ := mem_begins_onPeer hb
    · exact h.beginExists (List.mem_of_getElem? hk) hb
    · have ⟨hc, _, hl, _⟩ := hg.guard (by simp)
      exact ⟨s, hs, lt_totalChunks_of_not_closed hc, hl⟩
    · have ⟨_, _, _, _, q, _, hq, _, _, hm⟩ := hg.guard (by simp)
      exact h.beginExists (List.mem_of_getElem? hq) hm
    · exact ⟨s, hs, h.reqExists (hg.guard (by simp)).right.left⟩
  · exact absurd hb SortedSet.not_mem_empty

theorem apply (h : σ.Blocks) (hg : σ.GuardOrAdd a) : (σ.apply a).Blocks where
  reqExists   := h.reqExists_apply hg
  beginExists := h.beginExists_apply hg

end Blocks

namespace Shape

theorem blocks (h : σ.Shape) : σ.Blocks :=
  ⟨h.reqExists, h.beginExists⟩

theorem slotsNodup_apply (h : σ.Shape) (hg : σ.Guard a) :
    ((σ.apply a).peerSlots.map (·.slotId)).Nodup := by
  rw [peerSlots_apply]
  split
  case h_1 slot _ =>
    rw [List.map_append, List.map_singleton, ← List.concat_eq_append]
    refine h.slotsNodup.concat ?_
    intro hm
    have ⟨p, hp, he⟩ := List.mem_map.mp hm
    exact hg p hp he
  case h_2 => exact h.slotsNodup.sublist (List.filter_sublist.map _)
  case h_3 => rw [map_slotId_mapIdx]; exact h.slotsNodup

theorem doneRow_apply (h : σ.Shape) (hc : c < (σ.apply a).totalChunks) :
    (σ.apply a).chunkSubDone.rowLength c = (σ.apply a).subTotal c := by
  rw [rowLength_subDone_apply, subTotal_apply]
  exact h.doneRow (totalChunks_apply ▸ hc)

theorem find?_slot (h : σ.Shape) (hp : p ∈ σ.peerSlots) :
    σ.peerSlots.find? (·.slotId = p.slotId) = some p := by
  have hn := h.slotsNodup
  generalize σ.peerSlots = l at hp hn
  induction l
  case nil => cases hp
  case cons q l hi =>
    have ⟨hq, hl⟩ := List.nodup_cons.mp hn
    cases List.mem_cons.mp hp
    case inl he => simp [he]
    case inr hm =>
      have hs : q.slotId ≠ p.slotId := fun he => hq (List.mem_map.mpr ⟨p, hm, he.symm⟩)
      rw [List.find?_cons_of_neg (by simpa using hs)]
      exact hi hm hl

theorem tracked_assign (hg : σ.Guard (.assign i c s now)) :
    (σ.apply (.assign i c s now)).Tracked c (s * subBlockSize) := by
  have ⟨_, _, _, p, hp, _⟩ := hg
  refine ⟨_, (onPeer_mem_peerSlots hp).resolve_right (by simp), ?_⟩
  simp only [onPeer, if_true]
  exact PeerSlot.mem_begins_track.mpr (.inl ⟨rfl, rfl⟩)

theorem tracked_move (hg : σ.Guard (.move j i c b now)) :
    (σ.apply (.move j i c b now)).Tracked c b := by
  have ⟨_, _, _, p, _, hp, _⟩ := hg
  refine ⟨_, (onPeer_mem_peerSlots hp).resolve_right (by simp), ?_⟩
  simp only [onPeer, if_true]
  exact PeerSlot.mem_begins_track.mpr (.inl ⟨rfl, rfl⟩)

-- A sub-block of an open chunk that is requested and not done after an action, and was requested
-- before, was so in an open chunk.
theorem open_of_apply (hg : σ.Guard a) (hc : ¬(σ.apply a).closed c) (hr : (σ.apply a).subReq c s)
    (hd : ¬(σ.apply a).subDone c s) : ¬σ.closed c ∧ ¬σ.subDone c s := by
  rw [closed_apply] at hc
  rw [subReq_apply] at hr
  rw [subDone_apply] at hd
  cases a
  case complete | markComplete =>
    exact ⟨fun h => hc (Bool.or_eq_true_iff.mpr (.inl h)), hd⟩
  case arrive => exact ⟨hc, fun h => hd (Bool.or_eq_true_iff.mpr (.inl h))⟩
  case beginDownload c' =>
    refine ⟨fun h => ?_, hd⟩
    dsimp only at hc
    split at hc
    case isTrue he => exact hg (he.left ▸ h)
    case isFalse   => exact hc h
  case verifyFailed c' =>
    have ⟨_, hn⟩ := Bool.and_eq_true_iff.mp hr
    have hn := of_decide_eq_true hn
    dsimp only at hc
    rw [if_neg fun he => hn he.left.symm] at hc
    exact ⟨hc, fun h => hd (Bool.and_eq_true_iff.mpr ⟨h, decide_eq_true hn⟩)⟩
  all_goals exact ⟨hc, hd⟩

-- The owner of a sub-block keeps it, hands it over, finishes it or releases it.
theorem owned_apply (h : σ.Shape) (hg : σ.Guard a) (hc : ¬(σ.apply a).closed c)
    (hr : (σ.apply a).subReq c s) (hd : ¬(σ.apply a).subDone c s) :
    (σ.apply a).Tracked c (s * subBlockSize) := by
  obtain hq | ⟨i, now, rfl⟩ | ⟨j, i, b, now, rfl, hb⟩ := subReq_of_apply hr
  case inr.inl => exact tracked_assign hg
  case inr.inr =>
    have ⟨_, _, _, _, q, _, hq, _, _, hm⟩ := hg
    have ⟨s', hs, _⟩ := h.beginExists (List.mem_of_getElem? hq) hm
    have he : s * subBlockSize = b := by rw [← hb, hs, mul_subBlockSize_div]
    rw [he]
    exact tracked_move hg
  case inl =>
    have ⟨ho, hn⟩ := open_of_apply hg hc hr hd
    have ⟨p, hp, hm⟩ := h.owned ho hq hn
    have ⟨k, hk⟩ := List.mem_iff_getElem?.mp hp
    obtain hm' | rfl | rfl | ⟨i, now, rfl⟩ | ⟨w, rfl⟩ :=
      mem_begins_onPeer_of_mem (σ := σ) (a := a) (k := k) hm
    case inl =>
      cases onPeer_mem_peerSlots (a := a) hk
      case inl hp' => exact ⟨_, hp', hm'⟩
      case inr he =>
        subst he
        rw [subReq_apply] at hr
        exact absurd hm ((subReq_released hr).right p (h.find?_slot hp))
    case inr.inl =>
      have ⟨hl, hs⟩ := h.reqExists hq
      rw [subDone_apply] at hd
      refine absurd (Bool.or_eq_true_iff.mpr (.inr (decide_eq_true ⟨⟨rfl, ?_⟩, ?_⟩))) hd
      · exact mul_subBlockSize_div
      · rw [h.doneRow hl]; exact hs
    case inr.inr.inl =>
      have hs := hg.left
      rw [mul_subBlockSize_div] at hs
      exact absurd hs hn
    case inr.inr.inr.inl => exact tracked_move hg
    case inr.inr.inr.inr =>
      rw [closed_apply] at hc
      exact absurd (Bool.or_eq_true_iff.mpr (.inr (decide_eq_true rfl))) hc

theorem apply (h : σ.Shape) (hg : σ.Guard a) : (σ.apply a).Shape where
  activeNodup := nodup_activeChunks_apply h.activeNodup (.inl hg)
  slotsNodup  := h.slotsNodup_apply hg
  doneRow     := h.doneRow_apply
  reqExists   := (h.blocks.apply (.inl hg)).reqExists
  beginExists := (h.blocks.apply (.inl hg)).beginExists
  owned       := h.owned_apply hg

end Shape

section Lookup

theorem getElem?_peerSlot (h : σ.peerSlot slot = some i) :
    ∃ p, σ.peerSlots[i]? = some p ∧ p.slotId = slot := by
  have ⟨hi, hp, _⟩ := List.findIdx?_eq_some_iff_getElem.mp h
  exact ⟨_, List.getElem?_eq_getElem hi, by simpa using hp⟩

theorem Shape.peerSlot_eq (h : σ.Shape) (hp : σ.peerSlots[i]? = some p) :
    σ.peerSlot p.slotId = some i := by
  have ⟨hi, hp⟩ := List.getElem?_eq_some_iff.mp hp
  refine List.findIdx?_eq_some_iff_getElem.mpr ⟨hi, by simp [hp], ?_⟩
  intro j hj he
  have hn := List.pairwise_iff_getElem.mp h.slotsNodup j i (by simp; omega) (by simpa using hi) hj
  simp only [List.getElem_map, hp] at hn
  exact hn (by simpa using he)

end Lookup

section Redundant

theorem findRedundantPeers_perm :
    ∃ l : List Nat, l.Perm ((σ.peerSlots.filter (redundantCandidate c exclude)).map (·.slotId)) ∧
      σ.findRedundantPeers c exclude n = l.take n := by
  refine ⟨_, ?_, List.map_take⟩
  have hp := (List.perm_insertionSort (· ≤ ·) ((σ.peerSlots.filter (redundantCandidate c exclude)).map
    fun p => toLex (p.pendingRequests, p.slotId))).map fun x => (ofLex x).2
  rwa [List.map_map] at hp

theorem filterMap_peerSlot {l : List Nat} (h : σ.Shape)
    (hl : ∀ s ∈ l, ∃ p ∈ σ.peerSlots.filter f, p.slotId = s) (hn : l.Nodup) :
    (l.filterMap σ.peerSlot).length = l.length ∧ (l.filterMap σ.peerSlot).Nodup ∧
      ∀ i ∈ l.filterMap σ.peerSlot, ∃ p, σ.peerSlots[i]? = some p ∧ f p := by
  refine ⟨?_, ?_, ?_⟩
  · rw [List.length_filterMap_eq_countP, List.countP_eq_length]
    intro s hs
    have ⟨p, hp, he⟩ := hl s hs
    have ⟨i, hi⟩ := List.mem_iff_getElem?.mp (List.mem_filter.mp hp).left
    rw [← he, h.peerSlot_eq hi]
    rfl
  · refine hn.filterMap ?_
    intro s s' i hi hi'
    have ⟨p, hp, he⟩ := getElem?_peerSlot hi
    have ⟨p', hp', he'⟩ := getElem?_peerSlot hi'
    cases hp.symm.trans hp'
    exact he.symm.trans he'
  · intro i hi
    have ⟨s, hs, he⟩ := List.mem_filterMap.mp hi
    have ⟨p, hp, hps⟩ := hl s hs
    have ⟨hp, hf⟩ := List.mem_filter.mp hp
    have ⟨k, hk⟩ := List.mem_iff_getElem?.mp hp
    have hke := h.peerSlot_eq hk
    rw [hps, he] at hke
    cases hke
    exact ⟨p, hk, hf⟩

-- `find_redundant_peers` yields distinct candidates, as many as there are up to the given count.
theorem redundantPeers_spec (h : σ.Shape)
    (he : is = (σ.findRedundantPeers c exclude n).filterMap σ.peerSlot) :
    is.length = min n (σ.peerSlots.filter (redundantCandidate c exclude)).length ∧ is.Nodup ∧
      ∀ i ∈ is, ∃ p, σ.peerSlots[i]? = some p ∧ redundantCandidate c exclude p := by
  subst he
  obtain ⟨l, hl, he⟩ := findRedundantPeers_perm (σ := σ) (c := c) (n := n)
  have hn : ((σ.peerSlots.filter (redundantCandidate c exclude)).map (·.slotId)).Nodup :=
    h.slotsNodup.sublist (List.filter_sublist.map _)
  rw [he]
  have hf := filterMap_peerSlot (l := l.take n) h
    (fun s hs => List.mem_map.mp (hl.mem_iff.mp (List.mem_of_mem_take hs)))
    ((hl.nodup_iff.mpr hn).sublist (List.take_sublist ..))
  rw [hf.left, List.length_take, hl.length_eq, List.length_map]
  exact ⟨rfl, hf.right⟩

end Redundant

end ThinBT.Scheduler
