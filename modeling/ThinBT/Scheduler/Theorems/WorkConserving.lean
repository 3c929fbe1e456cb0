import ThinBT.Scheduler.Theorems.Offers

namespace ThinBT.Scheduler

variable {σ τ : Scheduler} {std : StdSort}

-- The peer could be asked for a sub-block of the chunk that nobody was asked for.
def Idle (σ : Scheduler) (i c : Nat) : Prop :=
  ¬σ.closed c ∧ (∃ s < σ.subTotal c, ¬σ.subReq c s) ∧
    ∃ p, σ.peerSlots[i]? = some p ∧ p.eligible c ∧ p.pendingRequests < σ.effectiveCap p

def WorkConserving (σ : Scheduler) : Prop :=
  ∀ i c, ¬σ.Idle i c

theorem idle_iff : σ.Idle i c ↔ ¬σ.closed c ∧ σ.peerSlots[i]?.any (·.eligible c) ∧
    0 < σ.unrequested c ∧ 0 < σ.room i := by
  rw [Idle, unrequested_pos_iff, room]
  obtain hp | ⟨p, hp⟩ := Option.eq_none_or_eq_some σ.peerSlots[i]?
  case inl => simp [hp]
  case inr =>
    simp only [hp, Option.some.injEq, exists_eq_left', Option.any_some, Option.elim_some,
      Nat.sub_pos_iff_lt]
    exact and_congr_right fun _ => and_left_comm

section Visits

variable {f : Nat → Scheduler → List Action}

-- The state in which an element is visited, and what has been done once it has been visited.
theorem exists_visit (hf : ∀ x σ, AllAssigning σ (f x σ)) (hc : σ.CachesOpen) (ht : σ.Tables)
    (hx : x ∈ xs) :
    ∃ τ, (τ, x) ∈ visits f xs σ ∧ τ.CachesOpen ∧ τ.Tables ∧
      (τ.exec (f x τ)).Loads (σ.exec (forEach f xs σ)) := by
  induction xs generalizing σ
  case nil => cases hx
  case cons y ys hi =>
    simp only [visits, forEach, exec, Actions.exec_append]
    have hrest : (σ.exec (f y σ)).Loads ((σ.exec (f y σ)).exec (forEach f ys (σ.exec (f y σ)))) :=
      AllAssigning.loads (allAt_forEach hf)
    cases List.mem_cons.mp hx
    case inl hx =>
      subst hx
      exact ⟨σ, List.mem_cons_self, hc, ht, hrest⟩
    case inr hx =>
      have hc' : (σ.exec (f y σ)).CachesOpen := (hf y σ).invariant
        (fun _ _ hc ha => hc.apply (.inl ha.reaction.traffic.guard)) hc
      obtain ⟨τ, hm, hτ⟩ := hi hc' ((hf y σ).tables ht) hx
      exact ⟨τ, List.mem_cons_of_mem _ hm, hτ⟩

end Visits

-- A peer that stays idle after its refill has refused the chunk.
theorem refuses_of_idle (hc : τ.CachesOpen) (ht : τ.Tables)
    (hl : (τ.exec (tryScheduleForPeer i now τ)).Loads σ) (hi : σ.Idle i c) : τ.Refuses i now c := by
  obtain ⟨ho, ⟨s, hs, hr⟩, q, hq, he, hcap⟩ := hi
  have hl' : τ.Loads σ := assigning_tryScheduleForPeer.loads.trans hl
  obtain ⟨p, hp, hpq⟩ := hl'.peer_of hq
  rw [hl'.closed] at ho
  rw [hl'.subTotal] at hs
  rw [hpq.eligible] at he
  rw [hl'.effectiveCap hpq] at hcap
  have hh := (PeerSlot.eligible_iff.mp he).left
  have hn := ht.subReqCount_lt ho hs fun h => hr (hl'.subReq h)
  obtain ⟨cs, ds, hcs⟩ := List.append_of_mem (hc.mem_pendingChunks.mpr ⟨ho, hh, hn⟩)
  refine refuses_of_unrequested ht hp hcs ho he hs (fun h => hr (hl.subReq h)) fun hsat => ?_
  rw [tryScheduleForPeer_eq hp, hcs, List.append_cons, scheduleLoop_append, exec,
    Actions.exec_append] at hl
  obtain ⟨q', hq', hcap'⟩ := (hsat.loads assigning_scheduleLoop.loads).loads hl
  obtain rfl : q = q' := Option.some.inj (hq.symm.trans hq')
  exact Nat.not_le.mpr hcap hcap'

-- The state in which the tick has scheduled for all peers.
def scheduled (now : UInt64) (σ : Scheduler) : Scheduler :=
  (σ.exec (rebalanceAll now σ)).exec (scheduleAll now (σ.exec (rebalanceAll now σ)))

theorem next_tick (hd : σ.phase ≠ .done) : next std σ (.tick now) = (σ.scheduled now).exec
    (if (σ.scheduled now).phase = .endgame then tickEndgame std now (σ.scheduled now) else []) := by
  simp only [next, Actions.after, actions, tick, if_neg hd, Actions.exec_append]
  rfl

theorem loads_tick (hd : σ.phase ≠ .done) : (σ.scheduled now).Loads (next std σ (.tick now)) := by
  rw [next_tick hd]
  refine .exec ?_
  split
  case isTrue  => exact duplicating_tickEndgame.mono fun _ _ => .inr
  case isFalse => trivial

theorem guardOrAdd_rebalanceAll : Actions.AllAt apply GuardOrAdd σ (rebalanceAll now σ) :=
  (reaction_rebalanceAll now).mono fun _ _ ha => .inl ha.traffic.guard

theorem refuses_of_idle_tick (hc : σ.CachesOpen) (ht : σ.Tables) (hd : σ.phase ≠ .done)
    (hi : (next std σ (.tick now)).Idle i c) :
    ∃ x ∈ σ.refillCalls now, x.2 = i ∧ x.1.Refuses i now c := by
  have hc' : (σ.exec (rebalanceAll now σ)).CachesOpen :=
    guardOrAdd_rebalanceAll.invariant (fun _ _ => CachesOpen.apply) hc
  have ht' : (σ.exec (rebalanceAll now σ)).Tables :=
    guardOrAdd_rebalanceAll.invariant (fun _ _ => Tables.apply) ht
  -- The peer is one of those that are refilled.
  have hm : i ∈ List.range (σ.exec (rebalanceAll now σ)).peerSlots.length := by
    obtain ⟨_, _, q, hq, _⟩ := hi
    obtain ⟨p, hp, _⟩ := ((assigning_scheduleAll now).loads.trans (loads_tick hd)).peer_of hq
    exact List.mem_range.mpr (List.getElem?_eq_some_iff.mp hp).choose
  obtain ⟨τ, hv, hcτ, htτ, hl⟩ := exists_visit (fun _ _ => assigning_tryScheduleForPeer) hc' ht' hm
  exact ⟨(τ, i), hv, rfl, refuses_of_idle hcτ htτ (hl.trans (loads_tick hd)) hi⟩

section Endgame

-- How often an action asks the peer for a sub-block that is requested already.
def Action.duplicates (i : Nat) : Action → Nat
  | .redundant _ _ is => is.count i
  | _                 => 0

-- The redundant requests to the peer at the end of the tick.
def endgameRequests (std : StdSort) (now : UInt64) (σ : Scheduler) (i : Nat) : Nat :=
  if (σ.scheduled now).phase = .endgame then
    ((tickEndgame std now (σ.scheduled now)).map (·.duplicates i)).sum
  else 0

theorem pendingRequests_iterate_track {p : PeerSlot} :
    ((·.track c b)^[n] p).pendingRequests = p.pendingRequests + n := by
  induction n generalizing p
  case zero      => rfl
  case succ n hi =>
    rw [Function.iterate_succ_apply, hi, PeerSlot.pendingRequests_track, Nat.add_right_comm,
      Nat.add_assoc]

theorem Duplicating.room_apply (h : σ.Duplicating a) :
    (σ.apply a).room i = σ.room i - a.duplicates i := by
  have hl : σ.Loads (σ.apply a) := .apply (.inr h)
  cases a
  case redundant c s is =>
    have hp : (σ.apply (.redundant c s is)).peerSlots[i]? =
        σ.peerSlots[i]?.map (σ.onPeer (.redundant c s is) i) :=
      getElem?_apply (by simp) (by simp)
    obtain hn | ⟨p, hs⟩ := Option.eq_none_or_eq_some σ.peerSlots[i]?
    case inl => simp [room, hp, hn]
    case inr =>
      rw [hs, Option.map_some] at hp
      simp only [room, hp, hs, Option.elim_some, onPeer, hl.effectiveCap .iterate_track,
        pendingRequests_iterate_track, Action.duplicates, Nat.sub_sub]
  all_goals cases h

theorem Duplicating.unrequested_apply (h : σ.Duplicating a) :
    (σ.apply a).unrequested c = σ.unrequested c := by
  cases a
  case redundant =>
    rw [unrequested, unrequested, subTotal_apply]
    refine List.countP_congr fun s _ => ?_
    rw [subReq_apply]
  all_goals cases h

theorem exec_duplicating {as : List Action} (h : Actions.AllAt apply Duplicating σ as) :
    (∀ i, (σ.exec as).room i = σ.room i - (as.map (·.duplicates i)).sum) ∧
      ∀ c, (σ.exec as).unrequested c = σ.unrequested c := by
  induction as generalizing σ
  case nil => exact ⟨fun _ => rfl, fun _ => rfl⟩
  case cons a as hi =>
    obtain ⟨hr, hu⟩ := hi h.right
    refine ⟨fun i => ?_, fun c => (hu c).trans h.left.unrequested_apply⟩
    refine (hr i).trans ?_
    rw [h.left.room_apply, List.map_cons, List.sum_cons, Nat.sub_sub]

-- What the end of the tick changes.
theorem tick_of_scheduled (hd : σ.phase ≠ .done) :
    (∀ i, (next std σ (.tick now)).room i =
        (σ.scheduled now).room i - σ.endgameRequests std now i) ∧
      ∀ c, (next std σ (.tick now)).unrequested c = (σ.scheduled now).unrequested c := by
  simp only [next_tick hd, endgameRequests]
  split
  case isTrue  => exact exec_duplicating duplicating_tickEndgame
  case isFalse => exact ⟨fun _ => rfl, fun _ => rfl⟩

end Endgame

section Compensation

-- Every refusal is made up for: the peers that are offered the chunk later and take it have room for
-- all that is missing, or the chunks that the peer takes later, together with the redundant requests,
-- leave it no room.
def Compensated (redundant : Nat → Nat) : List Offer → Prop
  | []      => True
  | o :: os =>
    (o.refused → o.wanted ≤ (os.map (·.supply o.chunk)).sum ∨
      o.room ≤ (os.map (·.demand o.peer)).sum + redundant o.peer) ∧ Compensated redundant os

instance (redundant : Nat → Nat) : (os : List Offer) → Decidable (Compensated redundant os)
  | []      => .isTrue trivial
  | o :: os =>
    have := instDecidableCompensated redundant os
    inferInstanceAs (Decidable ((o.refused → o.wanted ≤ (os.map (·.supply o.chunk)).sum ∨
      o.room ≤ (os.map (·.demand o.peer)).sum + redundant o.peer) ∧ Compensated redundant os))

theorem compensated_iff {redundant : Nat → Nat} {os : List Offer} : Compensated redundant os ↔
    ∀ before o after, os = before ++ o :: after → o.refused →
      o.wanted ≤ (after.map (·.supply o.chunk)).sum ∨
        o.room ≤ (after.map (·.demand o.peer)).sum + redundant o.peer := by
  induction os
  case nil =>
    refine iff_of_true trivial fun before o after h => ?_
    cases before <;> cases h
  case cons o os hi =>
    rw [Compensated, hi]
    constructor
    · rintro ⟨ho, hos⟩ before o' after h
      cases before
      case nil =>
        obtain ⟨rfl, rfl⟩ := List.cons.inj h
        exact ho
      case cons _ before => exact hos before o' after (List.cons.inj h).right
    · intro h
      refine ⟨h [] o os rfl, fun before o' after he => h (o :: before) o' after ?_⟩
      rw [he, List.cons_append]

theorem chain_offers : Chain now (σ.exec (rebalanceAll now σ)) (σ.offers now) (σ.scheduled now) :=
  chain_visits

-- What happens in the tick from an offer on.
theorem chain_of_offer {o : Offer} (ht : σ.Tables) (h : σ.offers now = before ++ o :: later) :
    o.state.Tables ∧ Chain now o.state (o :: later) (σ.scheduled now) := by
  have hc : Chain now _ (before ++ o :: later) (σ.scheduled now) := h ▸ chain_offers
  obtain ⟨τ, hb, ha⟩ := hc.of_append
  have ht' := (hb.loads_tables (guardOrAdd_rebalanceAll.invariant (fun _ _ => Tables.apply) ht)).right
  cases ha
  case cons ha => exact ⟨ht', .cons ha⟩

theorem loads_of_offer {o : Offer} (ht : σ.Tables) (hd : σ.phase ≠ .done)
    (h : σ.offers now = before ++ o :: later) : o.state.Loads (next std σ (.tick now)) := by
  obtain ⟨ht', hc⟩ := chain_of_offer ht h
  exact (hc.loads_tables ht').left.trans (loads_tick hd)

theorem Loads.any_eligible {i : Nat} (h : σ.Loads τ) :
    τ.peerSlots[i]?.any (·.eligible c) = σ.peerSlots[i]?.any (·.eligible c) := by
  obtain hn | ⟨q, hq⟩ := Option.eq_none_or_eq_some τ.peerSlots[i]?
  case inl =>
    obtain hp | ⟨p, hp⟩ := Option.eq_none_or_eq_some σ.peerSlots[i]?
    case inl => rw [hn, hp]
    case inr =>
      obtain ⟨q, hq, _⟩ := h.peer hp
      cases hn.symm.trans hq
  case inr =>
    obtain ⟨p, hp, hl⟩ := h.peer_of hq
    rw [hq, hp, Option.any_some, Option.any_some, hl.eligible]

-- An offer is refused, but stays idle, if it is not made up for.
theorem idle_iff_of_refused {o : Offer} (ht : σ.Tables) (hd : σ.phase ≠ .done)
    (h : σ.offers now = before ++ o :: later) (hr : o.refused) :
    (next std σ (.tick now)).Idle o.peer o.chunk ↔
      ¬(o.wanted ≤ (later.map (·.supply o.chunk)).sum ∨
        o.room ≤ (later.map (·.demand o.peer)).sum + σ.endgameRequests std now o.peer) := by
  have hl : o.state.Loads (next std σ (.tick now)) := loads_of_offer ht hd h
  obtain ⟨ht', hc⟩ := chain_of_offer ht h
  obtain ⟨hroom, hun⟩ := @tick_of_scheduled σ std now hd
  simp only [Offer.refused, Offer.valid, Bool.and_eq_true, Bool.not_eq_true'] at hr
  obtain ⟨⟨ho, he⟩, hb⟩ := hr
  -- The refused offer itself requests nothing.
  have hn : ¬o.accepted := by simp [Offer.accepted, hb]
  have hs : o.supply o.chunk = 0 := if_neg fun h => hn h.left
  have hm : o.demand o.peer = 0 := if_neg fun h => hn h.left
  rw [idle_iff, hl.closed, hl.any_eligible, hun, hroom, hc.unrequested ht', hc.room ht',
    List.map_cons, List.map_cons, List.sum_cons, List.sum_cons, hs, hm]
  simp only [ho, he, Offer.wanted, Offer.room, Bool.false_eq_true, not_false_eq_true, true_and]
  omega

-- Every idle peer was offered the chunk.
theorem offered_of_idle (hc : σ.CachesOpen) (ht : σ.Tables) (hd : σ.phase ≠ .done)
    (hi : (next std σ (.tick now)).Idle i c) :
    ∃ before o later, σ.offers now = before ++ o :: later ∧ o.refused ∧ o.peer = i ∧
      o.chunk = c := by
  obtain ⟨x, hx, rfl, τ, htries, hb⟩ := refuses_of_idle_tick hc ht hd hi
  have hm : ⟨τ, x.2, c⟩ ∈ σ.offers now := List.mem_flatMap.mpr ⟨x, hx, mem_offersTo_of_tries htries⟩
  obtain ⟨before, later, h⟩ := List.append_of_mem hm
  have hl : τ.Loads (next std σ (.tick now)) := loads_of_offer ht hd h
  obtain ⟨ho, he, _⟩ := idle_iff.mp hi
  rw [hl.closed] at ho
  rw [hl.any_eligible] at he
  refine ⟨before, _, later, h, ?_, rfl, rfl⟩
  simp [Offer.refused, Offer.valid, Offer.isBest, ho, he, hb]

end Compensation

-- The slow peer is asked first and refuses the chunk, which the fast peer then takes.
def fasterPeer : List Op := [
  .onPeerAdded 1 100, .onBitfield 1 [true] 5, .onChokeChange 1 false,
  .onPeerAdded 2 1000, .onBitfield 2 [true] 6, .onChokeChange 2 false
]

-- The full source is saturated with its rarest chunk. It is still the best peer for the last chunk,
-- because the partial source has taken all of the first one.
def saturatedSource : List Op := [
  .onPeerAdded 1 1000, .onBitfield 1 [true, true, true] 5, .onChokeChange 1 false,
  .onPeerAdded 2 1000, .onBitfield 2 [true, true, false] 6, .onChokeChange 2 false
]

end ThinBT.Scheduler
