import ThinBT.Scheduler.Theorems.Callbacks

namespace ThinBT.Scheduler

variable {σ : Scheduler} {std : StdSort}

-- The bitfield of the slot that `peer_slot(id)` points to.
def shown (σ : Scheduler) (slot : Nat) : Option (List Bool) :=
  ((σ.peerSlot slot).bind (σ.peerSlots[·]?)).map (·.remoteBitfield)

section Apply

theorem peerSlot_apply (ha : ∀ slot speed, a ≠ .addPeer slot speed)
    (hr : ∀ slot, a ≠ .removePeer slot) :
    (σ.apply a).peerSlot slot = σ.peerSlot slot := by
  have he : (σ.apply a).peerSlots.map (·.slotId) = σ.peerSlots.map (·.slotId) := by
    rw [peerSlots_apply]
    split
    case h_1 slot speed => exact absurd rfl (ha slot speed)
    case h_2 slot       => exact absurd rfl (hr slot)
    case h_3            => exact map_slotId_mapIdx
  have hf (l : List PeerSlot) :
      l.findIdx? (·.slotId = slot) = (l.map (·.slotId)).findIdx? (· = slot) :=
    by rw [List.findIdx?_map]; rfl
  rw [peerSlot, hf, he, ← hf]
  rfl

theorem peerSlot_inj (h : σ.peerSlot s = some i) : σ.peerSlot slot = some i ↔ s = slot := by
  constructor
  · intro hi
    obtain ⟨p, hp, rfl⟩ := getElem?_peerSlot h
    obtain ⟨q, hq, rfl⟩ := getElem?_peerSlot hi
    rw [Option.some.inj (hp.symm.trans hq)]
  · rintro rfl
    exact h

theorem shown_eq (h : σ.peerSlots[i]? = some p) (hi : σ.peerSlot slot = some i) :
    σ.shown slot = some p.remoteBitfield := by
  simp [shown, h, hi]

theorem shown_eq_none (h : σ.peerSlot slot = none) : σ.shown slot = none := by
  simp [shown, h]

theorem shown_apply (ha : ∀ slot speed, a ≠ .addPeer slot speed) (hr : ∀ slot, a ≠ .removePeer slot) :
    (σ.apply a).shown slot =
      match a with
      | .setBitfield i bf =>
        if σ.peerSlot slot = some i then (σ.shown slot).map fun _ => bf else σ.shown slot
      | .recordHave i c   =>
        if σ.peerSlot slot = some i then (σ.shown slot).map (·.set c true) else σ.shown slot
      | _                 => σ.shown slot := by
  simp only [shown, peerSlot_apply ha hr]
  cases hi : σ.peerSlot slot
  case none   => cases a <;> simp
  case some i =>
    simp only [Option.bind_some, getElem?_apply ha hr]
    obtain ⟨p, hp, _⟩ := getElem?_peerSlot hi
    simp only [hp, Option.map_some, remoteBitfield_onPeer, Option.some.injEq]
    cases a <;> first | rfl | (dsimp only; split <;> rfl)

-- An action that neither changes the slots nor what they show.
def Plain (_ : Scheduler) : Action → Prop
  | .addPeer .. | .removePeer _ | .setBitfield .. | .recordHave .. => False
  | _                                                              => True

abbrev AllPlain (σ : Scheduler) : List Action → Prop :=
  Actions.AllAt apply Plain σ

theorem AllPlain.shown_exec {as : List Action} (h : σ.AllPlain as) :
    (Actions.exec apply σ as).shown slot = σ.shown slot := by
  induction as generalizing σ
  case nil => rfl
  case cons a as hi =>
    have ha := h.left
    rw [Actions.exec_cons, hi h.right, shown_apply (fun _ _ he => by rw [he] at ha; exact ha)
      (fun _ he => by rw [he] at ha; exact ha)]
    cases a <;> first | rfl | cases ha

theorem covers_plain : Covers Plain where
  assigning {_ a} h     := by cases a <;> trivial
  rebalancing {_ _ a} h := by cases a <;> trivial
  notInterested         := trivial

end Apply

theorem shown_onBitfield :
    (next std σ (.onBitfield s bf now)).shown slot =
      if s = slot then (σ.shown slot).map fun _ => bf else σ.shown slot := by
  simp only [next, Actions.after, actions, onBitfield]
  split
  case h_1 hn =>
    split
    case isFalse   => rfl
    case isTrue he => rw [Actions.exec_nil, ← he, shown_eq_none hn]; rfl
  case h_2 i hi =>
    rw [Actions.exec_cons, AllPlain.shown_exec covers_plain.checked_rebalance,
      shown_apply (fun _ _ => Action.noConfusion) fun _ => Action.noConfusion]
    simp only [peerSlot_inj hi]

theorem shown_onHave :
    (next std σ (.onHave s c now)).shown slot =
      if s = slot then (σ.shown slot).map (·.set c true) else σ.shown slot := by
  simp only [next, Actions.after, actions, onHave]
  split
  case h_1 hn =>
    split
    case isFalse   => rfl
    case isTrue he => rw [Actions.exec_nil, ← he, shown_eq_none hn]; rfl
  case h_2 i hi =>
    obtain ⟨p, hp, _⟩ := getElem?_peerSlot hi
    -- The flag is set in all cases, unless there is none.
    have same (h : p.remoteBitfield.set c true = p.remoteBitfield) :
        σ.shown slot = if s = slot then (σ.shown slot).map (·.set c true) else σ.shown slot := by
      split
      case isFalse   => rfl
      case isTrue he => rw [← he, shown_eq hp hi, Option.map_some, h]
    simp only [hp]
    split
    case isTrue hl => exact same (List.set_eq_of_length_le hl)
    case isFalse hl =>
      rw [List.append_assoc, Actions.exec_append, AllPlain.shown_exec covers_plain.checked_rebalance]
      split
      case isTrue hh =>
        have hlt : c < p.remoteBitfield.length := Nat.lt_of_not_le hl
        have hc : p.remoteBitfield[c] = true := by simpa [PeerSlot.has, hlt] using hh
        refine same ?_
        rw [← hc]
        exact List.set_getElem_self _
      case isFalse =>
        rw [Actions.exec_cons, Actions.exec_nil,
          shown_apply (fun _ _ => Action.noConfusion) fun _ => Action.noConfusion]
        simp only [peerSlot_inj hi]

theorem shown_eq_find? :
    σ.shown slot = (σ.peerSlots.find? (·.slotId = slot)).map (·.remoteBitfield) := by
  rw [List.find?_eq_bind_findIdx?_getElem?]
  rfl

theorem shown_onPeerRemoved (std : StdSort) :
    (next std σ (.onPeerRemoved s)).shown slot = if s = slot then none else σ.shown slot := by
  change (σ.apply (.removePeer s)).shown slot = _
  rw [shown_eq_find?, shown_eq_find?, peerSlots_apply, List.find?_filter]
  split
  case isTrue he =>
    rw [List.find?_eq_none.mpr, Option.map_none]
    simp [he]
  case isFalse he =>
    congr 2
    funext p
    by_cases hp : p.slotId = slot
    case pos => simp [hp, Ne.symm he]
    case neg => simp [hp]

theorem shown_onPeerAdded (std : StdSort) :
    (next std σ (.onPeerAdded s speed)).shown slot = (σ.shown slot).or
      (if s = slot then some (.replicate σ.availability.length false) else none) := by
  change (σ.apply (.addPeer s speed)).shown slot = _
  rw [shown_eq_find?, shown_eq_find?, peerSlots_apply, List.find?_append, Option.map_or]
  congr 1
  by_cases he : s = slot
  case pos => simp [newPeer, he]
  case neg => simp [newPeer, he]

-- The operations that tell nothing about a peer.
def Op.isPlain : Op → Bool
  | .onBitfield .. | .onHave .. | .onPeerAdded .. | .onPeerRemoved _ => false
  | _                                                                => true

theorem plain_actions (h : op.isPlain) : σ.AllPlain (actions std op σ) := by
  -- Only ticks and requested sub-blocks look at what peers have.
  have other (ht : op.isTraffic = false) : σ.AllPlain (actions std op σ) := by
    refine Actions.allAt_of_forall fun a ha σ => ?_
    cases makes_of_not_isTraffic ht ha
    case addPeer | removePeer => cases h
    all_goals trivial
  cases op
  case onBitfield | onHave => cases h
  case tick                => exact covers_plain.tick fun {_ a} _ => by cases a <;> trivial
  case decPeerPending      => exact covers_plain.decPeerPending fun _ _ => trivial
  all_goals exact other rfl

theorem shown_run {ops : List Op} (h : ∀ op ∈ ops, op.isPlain) :
    (run std σ ops).shown slot = σ.shown slot := by
  induction ops generalizing σ
  case nil => rfl
  case cons op ops hi =>
    have ⟨ho, hs⟩ := List.forall_mem_cons.mp h
    exact (hi hs).trans (plain_actions ho).shown_exec

theorem withdraw_eq_self {p : PeerSlot} (h : ∀ c, p.has c = false) : σ.withdraw p = σ := by
  have he : (σ.availability.mapIdx fun i n => if p.has i then n - 1 else n) = σ.availability := by
    refine List.ext_getElem? fun i => ?_
    rw [List.getElem?_mapIdx]
    simp [h]
  rw [withdraw, he]

-- A peer that is removed at once leaves no trace.
theorem run_added_removed (h : ∀ p ∈ σ.peerSlots, p.slotId ≠ slot) :
    run std σ [.onPeerAdded slot speed, .onPeerRemoved slot] = σ := by
  change (σ.apply (.addPeer slot speed)).removePeer slot = σ
  have hp : (σ.apply (.addPeer slot speed)).peerSlots = σ.peerSlots ++ [σ.newPeer slot speed] := rfl
  have hfind : (σ.apply (.addPeer slot speed)).peerSlots.find? (·.slotId = slot) =
      some (σ.newPeer slot speed) := by
    rw [hp, List.find?_append, List.find?_eq_none.mpr fun p hp => by simpa using h p hp]
    simp [newPeer]
  have hfilter : (σ.apply (.addPeer slot speed)).peerSlots.filter (·.slotId ≠ slot) = σ.peerSlots := by
    rw [hp, List.filter_append, List.filter_eq_self.mpr fun p hp => by simpa using h p hp]
    simp [newPeer]
  have hhas (c) : (σ.newPeer slot speed).has c = false := List.getElem?_getD_replicate_default_eq ..
  have hactive : (σ.newPeer slot speed).activeSubBlocks.entries = [] := rfl
  simp only [removePeer, hfind, withdraw_eq_self hhas, hactive, List.foldl_nil, hfilter]
  rfl

end ThinBT.Scheduler
