import ThinBT.Scheduler.Theorems.Runs

namespace ThinBT.Scheduler

-- The slots that exist are given as a set, and what is known about the chunks of their peers as a
-- relation between slots and chunks.
variable {S : Nat → Prop} {K : Nat → Nat → Prop} {H : Nat → Prop} {σ : Scheduler} {std : StdSort}

-- The bitfields of the slots only show known chunks, and only those are requested.
structure Listed (S : Nat → Prop) (K : Nat → Nat → Prop) (σ : Scheduler) : Prop where
  slots    : ∀ p ∈ σ.peerSlots, S p.slotId
  chunks   : ∀ p ∈ σ.peerSlots, ∀ c < σ.totalChunks, p.has c → K p.slotId c
  requests : ∀ p ∈ σ.peerSlots, ∀ c b, b ∈ p.begins c → K p.slotId c

-- The action only adds existing slots and only records known chunks.
def Informed (S : Nat → Prop) (K : Nat → Nat → Prop) (σ : Scheduler) : Action → Prop
  | .addPeer slot _   => S slot
  | .setBitfield i bf =>
    ∀ p, σ.peerSlots[i]? = some p → ∀ c < σ.totalChunks, bf.getD c false → K p.slotId c
  | .recordHave i c   =>
    ∀ p, σ.peerSlots[i]? = some p → c < σ.totalChunks → K p.slotId c
  | _                 => True

def Op.Informs (S : Nat → Prop) (K : Nat → Nat → Prop) (total : Nat) : Op → Prop
  | .onPeerAdded slot _   => S slot
  | .onBitfield slot bf _ => ∀ c < total, bf.getD c false → K slot c
  | .onHave slot c _      => c < total → K slot c
  | _                     => True

-- A request is for a sub-block of a chunk that the peer is known to have, and so is its cancellation.
-- Only chunks in `H` are announced.
def Backed (K : Nat → Nat → Prop) (H : Nat → Prop) (σ : Scheduler) : Call → Prop
  | .issueRequest slot c b len =>
    K slot c ∧ len = subBlockSize ∧ ∃ s, b = s * subBlockSize ∧ σ.IsSubBlock c s
  | .cancelRequest slot c _ _  => K slot c
  | .broadcastHave c           => H c
  | _                          => True

theorem Listed.mono (h : σ.Listed S K) (hs : ∀ slot, S slot → S' slot)
    (hk : ∀ slot c, K slot c → K' slot c) : σ.Listed S' K' where
  slots    := fun p hp => hs _ (h.slots p hp)
  chunks   := fun p hp c hc hh => hk _ _ (h.chunks p hp c hc hh)
  requests := fun p hp c b hb => hk _ _ (h.requests p hp c b hb)

section Peers

theorem has_of_onPeer {p : PeerSlot} (h : (σ.onPeer a k p).has c) :
    p.has c ∨ (∃ bf, a = .setBitfield k bf ∧ bf.getD c false) ∨ a = .recordHave k c := by
  rw [PeerSlot.has, remoteBitfield_onPeer] at h
  cases a
  case setBitfield i bf =>
    dsimp only at h
    split at h
    case isTrue hk => exact .inr (.inl ⟨bf, by rw [hk], h⟩)
    case isFalse   => exact .inl h
  case recordHave i d =>
    dsimp only at h
    split at h
    case isFalse => exact .inl h
    case isTrue hk =>
      by_cases hd : d = c
      case pos => exact .inr (.inr (by rw [hk, hd]))
      case neg => exact .inl (by simpa [PeerSlot.has, hd] using h)
  all_goals exact .inl h

-- The peer that a request is for has the chunk.
theorem Guard.requests (hs : σ.Shape) (hg : σ.Guard a) (hp : σ.peerSlots[k]? = some p)
    (hb : b ∈ (σ.onPeer a k p).begins c) : b ∈ p.begins c ∨ (c < σ.totalChunks ∧ p.has c) := by
  obtain hb | ⟨s, now, rfl, _⟩ | ⟨j, now, rfl⟩ | ⟨s, is, rfl, hi, _⟩ := mem_begins_onPeer hb
  · exact .inl hb
  · have ⟨hc, _, _, q, hq, he⟩ : σ.Assigning (.assign k c s now) := hg
    obtain rfl := Option.some.inj (hp.symm.trans hq)
    exact .inr ⟨lt_totalChunks_of_not_closed hc, (PeerSlot.eligible_iff.mp he).left⟩
  · have ⟨_, hc, _, q, _, hq, _, _, hh, _⟩ : Rebalancing k σ (.move j k c b now) := hg
    obtain rfl := Option.some.inj (hp.symm.trans hq)
    exact .inr ⟨lt_totalChunks_of_not_closed hc, hh⟩
  · have ⟨_, hr, _, primary, he⟩ : σ.Duplicating (.redundant c s is) := hg
    have ⟨q, hq, hcand⟩ := (redundantPeers_spec hs he).right.right k hi
    obtain rfl := Option.some.inj (hp.symm.trans hq)
    have hel : p.eligible c := (Bool.and_eq_true_iff.mp (Bool.and_eq_true_iff.mp hcand).left).right
    exact .inr ⟨(hs.reqExists hr).left, (PeerSlot.eligible_iff.mp hel).left⟩

theorem Listed.apply (h : σ.Listed S K) (hs : σ.Shape) (hg : σ.Guard a) (hi : Informed S K σ a) :
    (σ.apply a).Listed S K := by
  refine ⟨fun p' hp' => ?_, fun p' hp' c hc hh => ?_, fun p' hp' c b hb => ?_⟩
  · obtain ⟨k, p, hp, rfl⟩ | ⟨slot, speed, rfl, rfl⟩ := mem_peerSlots_apply hp'
    case inl =>
      rw [slotId_onPeer]
      exact h.slots p (List.mem_of_getElem? hp)
    case inr => exact hi
  · rw [totalChunks_apply] at hc
    obtain ⟨k, p, hp, rfl⟩ | ⟨slot, speed, rfl, rfl⟩ := mem_peerSlots_apply hp'
    case inl =>
      rw [slotId_onPeer]
      obtain hh | ⟨bf, rfl, hb⟩ | rfl := has_of_onPeer hh
      case inl     => exact h.chunks p (List.mem_of_getElem? hp) c hc hh
      case inr.inl => exact hi p hp c hc hb
      case inr.inr => exact hi p hp hc
    case inr =>
      rw [newPeer, PeerSlot.has, List.getD_eq_getElem?_getD,
        List.getElem?_getD_replicate_default_eq] at hh
      cases hh
  · obtain ⟨k, p, hp, rfl⟩ | ⟨slot, speed, rfl, rfl⟩ := mem_peerSlots_apply hp'
    case inl =>
      rw [slotId_onPeer]
      cases hg.requests hs hp hb
      case inl hb => exact h.requests p (List.mem_of_getElem? hp) c b hb
      case inr hh => exact h.chunks p (List.mem_of_getElem? hp) c hh.left hh.right
    case inr => exact absurd hb SortedSet.not_mem_empty

end Peers

section Calls

theorem backed_requestTo (hk : σ.Listed S K) (hp : σ.peerSlots[i]? = some p) (hh : p.has c)
    (hs : σ.IsSubBlock c s) : ∀ x ∈ σ.requestTo i c (s * subBlockSize), σ.Backed K H x := by
  intro x hx
  obtain ⟨slot, hm, rfl⟩ := List.mem_map.mp hx
  rw [slotIdAt, hp, Option.map_some, Option.mem_toList] at hm
  obtain rfl := Option.some.inj hm
  exact ⟨hk.chunks p (List.mem_of_getElem? hp) c hs.left hh, rfl, s, rfl, hs⟩

theorem backed_calls (hs : σ.Shape) (hk : σ.Listed S K) (hg : σ.Guard a)
    (hc : ∀ c, a.completes c → H c) : ∀ x ∈ σ.calls a, σ.Backed K H x := by
  cases a
  case assign i c s now =>
    have ⟨hc, _, hlt, p, hp, he⟩ : σ.Assigning (.assign i c s now) := hg
    exact backed_requestTo hk hp (PeerSlot.eligible_iff.mp he).left
      ⟨lt_totalChunks_of_not_closed hc, hlt⟩
  case move j i c b now =>
    have ⟨_, _, _, p, q, hp, hq, _, hh, hb⟩ : Rebalancing i σ (.move j i c b now) := hg
    obtain ⟨s, rfl, hsub⟩ := hs.beginExists (List.mem_of_getElem? hq) hb
    intro x hx
    cases List.mem_append.mp hx
    case inr hx => exact backed_requestTo hk hp hh hsub x hx
    case inl hx =>
      unfold cancelFrom at hx
      split at hx
      case isFalse => cases hx
      case isTrue =>
        obtain ⟨slot, hm, rfl⟩ := List.mem_map.mp hx
        rw [slotIdAt, hq, Option.map_some, Option.mem_toList] at hm
        obtain rfl := Option.some.inj hm
        exact hk.requests q (List.mem_of_getElem? hq) c _ hb
  case redundant c s is =>
    have ⟨_, hr, _, primary, he⟩ : σ.Duplicating (.redundant c s is) := hg
    intro x hx
    obtain ⟨i, hi, hx⟩ := List.mem_flatMap.mp hx
    have ⟨p, hp, hcand⟩ := (redundantPeers_spec hs he).right.right i hi
    have hel : p.eligible c := (Bool.and_eq_true_iff.mp (Bool.and_eq_true_iff.mp hcand).left).right
    exact backed_requestTo hk hp (PeerSlot.eligible_iff.mp hel).left (hs.reqExists hr) x hx
  case complete c winner =>
    intro x hx
    cases List.mem_append.mp hx
    case inr hx =>
      rw [List.mem_singleton.mp hx]
      exact hc c (decide_eq_true rfl)
    case inl hx =>
      unfold cancelsForChunk at hx
      split at hx
      case isFalse => cases hx
      case isTrue =>
        obtain ⟨p, hp, hx⟩ := List.mem_flatMap.mp hx
        obtain ⟨b, hb, rfl⟩ := List.mem_map.mp hx
        exact hk.requests p (List.mem_filter.mp hp).left c b hb
  case settle =>
    intro x hx
    simp only [calls] at hx
    split at hx
    case isTrue  => rw [List.mem_singleton.mp hx]; trivial
    case isFalse => cases hx
  case notInterested => exact List.forall_mem_singleton.mpr trivial
  all_goals exact List.forall_mem_nil _

end Calls

section Runs

theorem covers_informed : Covers (Informed S K) where
  assigning {_ a} _     := by cases a <;> trivial
  rebalancing {_ _ a} _ := by cases a <;> trivial
  notInterested         := trivial

theorem informed_actions (h : op.Informs S K σ.totalChunks) :
    Actions.AllAt apply (Informed S K) σ (actions std op σ) := by
  have other (ht : op.isTraffic = false) :
      Actions.AllAt apply (Informed S K) σ (actions std op σ) := by
    refine Actions.allAt_of_forall fun a ha _ => ?_
    cases makes_of_not_isTraffic ht ha
    case addPeer => exact h
    all_goals trivial
  cases op
  case onBitfield slot bf now =>
    refine covers_informed.onBitfield fun {i} hi p hp => ?_
    have ⟨p', hp', hs⟩ := getElem?_peerSlot hi
    obtain rfl : p = p' := Option.some.inj (hp.symm.trans hp')
    exact hs.symm ▸ h
  case onHave slot c now =>
    refine covers_informed.onHave fun {i} hi p hp => ?_
    have ⟨p', hp', hs⟩ := getElem?_peerSlot hi
    obtain rfl : p = p' := Option.some.inj (hp.symm.trans hp')
    exact hs.symm ▸ h
  case tick           => exact covers_informed.tick fun {_ a} _ => by cases a <;> trivial
  case decPeerPending => exact covers_informed.decPeerPending fun _ _ => trivial
  all_goals exact other rfl

-- What holds of the states of a run from `σ₀` on.
structure Continues (S : Nat → Prop) (K : Nat → Nat → Prop) (σ₀ σ : Scheduler) : Prop where
  shape       : σ.Shape
  listed      : σ.Listed S K
  totalChunks : σ.totalChunks = σ₀.totalChunks
  subTotal    : σ.subTotal = σ₀.subTotal

theorem Continues.apply (h : Continues S K σ₀ σ) (hg : σ.Guard a) (hi : Informed S K σ a) :
    Continues S K σ₀ (σ.apply a) where
  shape       := h.shape.apply hg
  listed      := h.listed.apply h.shape hg hi
  totalChunks := (totalChunks_apply ..).trans h.totalChunks
  subTotal    := (subTotal_apply ..).trans h.subTotal

theorem Continues.backed (h : Continues S K σ₀ σ) (hb : σ.Backed K H x) : σ₀.Backed K H x := by
  cases x
  case issueRequest =>
    have ⟨hk, hl, s, hs, hc, ht⟩ := hb
    exact ⟨hk, hl, s, hs, h.totalChunks ▸ hc, h.subTotal ▸ ht⟩
  all_goals exact hb

-- A run whose operations only tell what is known only requests what is known.
theorem backed_callbacks {ops : List Op} (hs : σ.Shape) (hk : σ.Listed S K)
    (hl : AllOps std Legal σ ops) (hi : ∀ op ∈ ops, op.Informs S K σ.totalChunks)
    (hc : ∀ op ∈ ops, ∀ c, op.completes c → H c) :
    (run std σ ops).Listed S K ∧ ∀ x ∈ callbacks std σ ops, σ.Backed K H x := by
  have h₀ : Continues S K σ σ := ⟨hs, hk, rfl, rfl⟩
  have hl : AllOps std (fun τ op => τ.Legal op ∧ op ∈ ops) σ ops :=
    hl.and (Actions.allAt_of_forall fun _ hm _ => hm)
  have step (τ : Scheduler) (a : Action) (h : Continues S K σ τ)
      (ha : τ.Guard a ∧ Informed S K τ a ∧ ∀ c, a.completes c → H c) : Continues S K σ (τ.apply a) :=
    h.apply ha.left ha.right.left
  have hp : Actions.AllAt Scheduler.apply
      (fun τ a => τ.Guard a ∧ Informed S K τ a ∧ ∀ c, a.completes c → H c) σ (history std σ ops) := by
    refine Actions.AllAt.perform step (fun τ op h hl => ?_) h₀ hl
    have hf : Actions.AllAt Scheduler.apply (Informed S K) τ (actions std op τ) :=
      informed_actions (h.totalChunks ▸ hi op hl.right)
    have hm : Actions.AllAt Scheduler.apply (fun _ a => ∀ c, a.completes c → H c) τ (actions std op τ) :=
      Actions.allAt_of_forall fun a ha _ c hac => hc op hl.right c (completes_of_mem ha hac)
    exact (guarded_actions hl.left).and (hf.and hm)
  have hfin : Continues S K σ (σ.exec (history std σ ops)) := hp.invariant step h₀
  rw [exec_history] at hfin
  refine ⟨hfin.listed, fun x hx => ?_⟩
  obtain ⟨y, hy, hx⟩ := List.mem_flatMap.mp hx
  have ⟨h, hg, _, hH⟩ := Actions.allAt_iff_trace.mp (hp.strengthen step h₀) y hy
  exact h.backed (backed_calls h.shape h.listed hg hH x hx)

theorem exists_of_mem_callbacks {ops : List Op} (hx : x ∈ callbacks std σ ops) :
    ∃ op ∈ ops, ∃ τ a, a ∈ actions std op τ ∧ ∃ τ' : Scheduler, x ∈ τ'.calls a := by
  obtain ⟨y, hy, hx⟩ := List.mem_flatMap.mp hx
  have hm : Actions.AllAt apply (fun _ a => a ∈ history std σ ops) σ (history std σ ops) :=
    Actions.allAt_of_forall fun _ hm _ => hm
  obtain ⟨op, ho, τ, ha⟩ := Actions.mem_perform (Actions.allAt_iff_trace.mp hm y hy)
  exact ⟨op, ho, τ, y.2, ha, y.1, hx⟩

theorem not_broadcast_of_requestTo (hx : x ∈ σ.requestTo i c b) :
    ¬((∃ c, x = .broadcastHave c) ∨ x = .broadcastNotInterested) := by
  obtain ⟨slot, _, rfl⟩ := List.mem_map.mp hx
  simp

-- Only the completion of chunks is announced to all peers.
theorem completions_of_broadcast {ops : List Op} (hx : x ∈ callbacks std σ ops)
    (hb : (∃ c, x = .broadcastHave c) ∨ x = .broadcastNotInterested) :
    ∃ msgs, .processCompletions msgs ∈ ops := by
  obtain ⟨op, ho, τ, a, ha, τ', hx⟩ := exists_of_mem_callbacks hx
  have hf : a.finishes ∧ ∀ b, a = .settle b → b = true := by
    cases a
    case complete => exact ⟨rfl, fun _ he => by cases he⟩
    case settle b =>
      simp only [calls] at hx
      split at hx
      case isFalse  => cases hx
      case isTrue h => exact ⟨rfl, fun _ he => by cases he; exact h.left⟩
    case assign => exact absurd hb (not_broadcast_of_requestTo hx)
    case move =>
      cases List.mem_append.mp hx
      case inr hx => exact absurd hb (not_broadcast_of_requestTo hx)
      case inl hx =>
        unfold cancelFrom at hx
        split at hx
        case isFalse => cases hx
        case isTrue =>
          obtain ⟨slot, _, rfl⟩ := List.mem_map.mp hx
          simp at hb
    case redundant =>
      obtain ⟨i, _, hx⟩ := List.mem_flatMap.mp hx
      exact absurd hb (not_broadcast_of_requestTo hx)
    case notInterested =>
      rw [List.mem_singleton.mp hx] at hb
      simp at hb
    all_goals cases hx
  obtain ⟨msgs, rfl⟩ | ⟨bf, rfl⟩ := finishes_of_mem ha hf.left
  case inl => exact ⟨msgs, ho⟩
  case inr =>
    cases List.mem_append.mp ha
    case inr ha => exact absurd (hf.right false (List.mem_singleton.mp ha)) Bool.false_ne_true
    case inl ha =>
      obtain ⟨_, _, rfl⟩ := List.mem_map.mp ha
      cases hx

-- Every completion is announced.
theorem broadcastHave_mem {ops : List Op} (ho : .processCompletions msgs ∈ ops) (hm : m ∈ msgs) :
    .broadcastHave m.chunkIdx ∈ callbacks std σ ops := by
  have ha : .complete m.chunkIdx m.winningPeerSlot ∈ history std σ ops :=
    Actions.mem_perform_of_mem ho fun _ => List.mem_append_left _ (List.mem_map.mpr ⟨m, hm, rfl⟩)
  obtain ⟨τ, hτ⟩ := Actions.exists_mem_trace ha
  exact List.mem_flatMap.mpr ⟨_, hτ, List.mem_append_right _ (List.mem_singleton_self _)⟩

-- Only chunks that are open are requested.
theorem Guard.open_of_request (hg : σ.Guard a) (hx : .issueRequest slot c b len ∈ σ.calls a) :
    ¬σ.closed c := by
  have chunk {i c' b' : Nat} (hx : .issueRequest slot c b len ∈ σ.requestTo i c' b') : c' = c := by
    obtain ⟨_, _, he⟩ := List.mem_map.mp hx
    cases he
    rfl
  cases a
  case assign i c' s now =>
    have hg : σ.Assigning (.assign i c' s now) := hg
    exact chunk hx ▸ hg.left
  case move j i c' b' now =>
    have hg : Rebalancing i σ (.move j i c' b' now) := hg
    cases List.mem_append.mp hx
    case inr hx => exact chunk hx ▸ hg.right.left
    case inl hx =>
      unfold cancelFrom at hx
      split at hx
      case isFalse => cases hx
      case isTrue  => obtain ⟨_, _, he⟩ := List.mem_map.mp hx; cases he
  case redundant c' s is =>
    have hg : σ.Duplicating (.redundant c' s is) := hg
    obtain ⟨_, _, hx⟩ := List.mem_flatMap.mp hx
    exact chunk hx ▸ hg.left
  case complete c' winner =>
    cases List.mem_append.mp hx
    case inr hx => cases List.mem_singleton.mp hx
    case inl hx =>
      unfold cancelsForChunk at hx
      split at hx
      case isFalse => cases hx
      case isTrue =>
        obtain ⟨_, _, hx⟩ := List.mem_flatMap.mp hx
        obtain ⟨_, _, he⟩ := List.mem_map.mp hx
        cases he
  case settle announce =>
    simp only [calls] at hx
    split at hx
    case isTrue  => cases List.mem_singleton.mp hx
    case isFalse => cases hx
  case notInterested => cases List.mem_singleton.mp hx
  all_goals cases hx

theorem GuardOrAdd.open_of_request (hg : σ.GuardOrAdd a)
    (hx : .issueRequest slot c b len ∈ σ.calls a) : ¬σ.closed c := by
  obtain hg | ⟨slot, speed, rfl⟩ := hg
  case inl => exact hg.open_of_request hx
  case inr => cases hx

theorem not_requested_of_closed {ops : List Op} (hl : AllOps std InRange σ ops)
    (hr : ∀ op ∈ ops, op.reopens c = false) (h : σ.closed c) :
    .issueRequest slot c b len ∉ callbacks std σ ops := by
  have hl : AllOps std (fun τ op => τ.InRange op ∧ op ∈ ops) σ ops :=
    hl.and (Actions.allAt_of_forall fun _ hm _ => hm)
  have step (τ : Scheduler) (a : Action) (hc : τ.closed c)
      (ha : τ.GuardOrAdd a ∧ a ≠ .verifyFailed c) : (τ.apply a).closed c :=
    ha.left.closed_apply ha.right hc
  have hp : Actions.AllAt Scheduler.apply (fun τ a => τ.GuardOrAdd a ∧ a ≠ .verifyFailed c) σ
      (history std σ ops) := by
    refine Actions.AllAt.perform step (fun τ op _ hl => ?_) h hl
    exact hl.left.allGuardOrAdd.and (allAt_ne_verifyFailed (hr op hl.right))
  intro hx
  obtain ⟨y, hy, hx⟩ := List.mem_flatMap.mp hx
  have ⟨hc, hg, _⟩ := Actions.allAt_iff_trace.mp (hp.strengthen step h) y hy
  exact hg.open_of_request hx hc

end Runs

end ThinBT.Scheduler
