import ThinBT.Scheduler.Theorems.Refill
import ThinBT.Scheduler.Theorems.Requests
import ThinBT.Util.Bitset

namespace ThinBT.Scheduler

variable {σ τ υ : Scheduler}

section Loads

theorem Loads.effectiveCap {p q : PeerSlot} (h : σ.Loads τ) (hp : p.Loads q) :
    τ.effectiveCap q = σ.effectiveCap p := by
  have hpartial : hasPartialSources τ.peerSlots τ.totalChunks =
      hasPartialSources σ.peerSlots σ.totalChunks := by
    have hm (l : List PeerSlot) (n : Nat) : hasPartialSources l n =
        (l.map (·.remoteBitfield)).any fun bf => 0 < bf.count true && bf.count true < n :=
      by rw [List.any_map]; rfl
    rw [hm, hm, h.bitfields, h.totalChunks]
  have hfull : q.isFullSource τ.totalChunks = p.isFullSource σ.totalChunks := by
    rw [PeerSlot.isFullSource, PeerSlot.haveCount, hp.remoteBitfield, h.totalChunks]
    rfl
  rw [Scheduler.effectiveCap, hpartial, hfull, hp.pipelineCap, Scheduler.effectiveCap]

theorem Loads.peer_of {i : Nat} (h : σ.Loads τ) (hq : τ.peerSlots[i]? = some q) :
    ∃ p : PeerSlot, σ.peerSlots[i]? = some p ∧ p.Loads q := by
  have hlen := congrArg List.length h.bitfields
  rw [List.length_map, List.length_map] at hlen
  have hi : i < σ.peerSlots.length := hlen ▸ (List.getElem?_eq_some_iff.mp hq).choose
  obtain ⟨q', hq', hl⟩ := h.peer (List.getElem?_eq_getElem hi)
  obtain rfl : q = q' := Option.some.inj (hq.symm.trans hq')
  exact ⟨_, List.getElem?_eq_getElem hi, hl⟩

end Loads

-- The number of sub-blocks of the chunk that nobody was asked for.
def unrequested (σ : Scheduler) (c : Nat) : Nat :=
  (List.range (σ.subTotal c)).countP (!σ.subReq c ·)

-- The number of requests that may still be sent to the peer.
def room (σ : Scheduler) (i : Nat) : Nat :=
  σ.peerSlots[i]?.elim 0 fun p => σ.effectiveCap p - p.pendingRequests

theorem unrequested_pos_iff : 0 < σ.unrequested c ↔ ∃ s < σ.subTotal c, ¬σ.subReq c s := by
  simp [unrequested, List.countP_pos_iff]

-- A chunk that the loop of `try_schedule_for_peer` reaches while the peer has room.
structure Offer where
  state : Scheduler
  peer  : Nat
  chunk : Nat

namespace Offer

def room (o : Offer) : Nat :=
  o.state.room o.peer

def wanted (o : Offer) : Nat :=
  o.state.unrequested o.chunk

-- `try_schedule_chunk_on_peer` gets to `select_best_peer`.
def valid (o : Offer) : Bool :=
  !o.state.closed o.chunk && o.state.peerSlots[o.peer]?.any (·.eligible o.chunk)

def isBest (o : Offer) : Bool :=
  o.state.selectBestPeer o.chunk = o.state.slotIdAt o.peer

def accepted (o : Offer) : Bool :=
  o.valid && o.isBest

def refused (o : Offer) : Bool :=
  o.valid && !o.isBest

def cap (o : Offer) : Nat :=
  o.state.peerSlots[o.peer]?.elim 0 o.state.effectiveCap

def after (now : UInt64) (o : Offer) : Scheduler :=
  o.state.exec (tryScheduleChunkOnPeer o.peer o.chunk now o.cap o.state)

-- The room that is offered to a chunk, if the offer is accepted.
def supply (c : Nat) (o : Offer) : Nat :=
  if o.accepted ∧ o.chunk = c then o.room else 0

-- The sub-blocks for which a peer is needed, if the offer is accepted.
def demand (i : Nat) (o : Offer) : Nat :=
  if o.accepted ∧ o.peer = i then o.wanted else 0

end Offer

section Offers

variable (i : Nat) (now : UInt64) (cap : Nat)

-- The offers of the loop in `try_schedule_for_peer`.
def loopOffers : List Nat → Scheduler → List Offer
  | [], _      => []
  | c :: cs, σ =>
    match σ.peerSlots[i]? with
    | none   => []
    | some p =>
      if cap ≤ p.pendingRequests then []
      else ⟨σ, i, c⟩ :: loopOffers cs (σ.exec (tryScheduleChunkOnPeer i c now cap σ))

def offersTo (σ : Scheduler) : List Offer :=
  match σ.peerSlots[i]? with
  | none   => []
  | some p => loopOffers i now (σ.effectiveCap p) (σ.pendingChunks p) σ

-- The calls of `try_schedule_for_peer` in a tick.
def refillCalls (σ : Scheduler) : List (Scheduler × Nat) :=
  visits (tryScheduleForPeer · now) (.range (σ.exec (rebalanceAll now σ)).peerSlots.length)
    (σ.exec (rebalanceAll now σ))

-- The offers of a tick.
def offers (σ : Scheduler) : List Offer :=
  (refillCalls now σ).flatMap fun x => offersTo x.2 now x.1

end Offers

section Assigns

-- So many sub-blocks of the chunk have been requested from the peer.
structure Assigns (i c n : Nat) (σ τ : Scheduler) : Prop where
  loads       : σ.Loads τ
  pending {p q : PeerSlot} : σ.peerSlots[i]? = some p → τ.peerSlots[i]? = some q →
    q.pendingRequests = p.pendingRequests + n
  peers {j : Nat} : j ≠ i → τ.peerSlots[j]? = σ.peerSlots[j]?
  unrequested : τ.unrequested c + n = σ.unrequested c
  chunks      : d ≠ c → τ.unrequested d = σ.unrequested d

namespace Assigns

theorem refl : Assigns i c 0 σ σ := by
  refine ⟨.refl, fun {p q} hp hq => ?_, fun _ => rfl, rfl, fun _ => rfl⟩
  rw [Option.some.inj (hp.symm.trans hq), Nat.add_zero]

theorem trans (h : Assigns i c m σ τ) (h' : Assigns i c n τ υ) : Assigns i c (m + n) σ υ where
  loads       := h.loads.trans h'.loads
  pending     := fun {p r} hp hr => by
    obtain ⟨q, hq, _⟩ := h.loads.peer hp
    rw [h'.pending hq hr, h.pending hp hq, Nat.add_assoc]
  peers       := fun hj => (h'.peers hj).trans (h.peers hj)
  unrequested := by
    have := h.unrequested
    have := h'.unrequested
    omega
  chunks      := fun hd => (h'.chunks hd).trans (h.chunks hd)

theorem beginDownload (ho : ¬σ.closed d) : Assigns i c 0 σ (σ.apply (.beginDownload d)) := by
  refine ⟨.apply (.inl ho), fun {p q} hp hq => ?_, fun _ => rfl, rfl, fun _ => rfl⟩
  rw [Option.some.inj (hp.symm.trans hq), Nat.add_zero]

theorem assign (ha : σ.Assigning (.assign i c s now))
    (hr : σ.chunkSubReq.rowLength c = σ.subTotal c) :
    Assigns i c 1 σ (σ.apply (.assign i c s now)) := by
  have hp (k : Nat) : (σ.apply (.assign i c s now)).peerSlots[k]? =
      σ.peerSlots[k]?.map (σ.onPeer (.assign i c s now) k) :=
    getElem?_apply (by simp) (by simp)
  refine ⟨.apply (.inl ha), fun {p q} hk hq => ?_, fun {j} hj => ?_, ?_, fun {d} hd => ?_⟩
  · rw [hp, hk, Option.map_some] at hq
    rw [← Option.some.inj hq]
    simp [onPeer, PeerSlot.track]
  · rw [hp]
    simp [onPeer, hj]
  · obtain ⟨_, hn, hs, _⟩ := ha
    have hf : (!(σ.apply (.assign i c s now)).subReq c s) = false := by
      rw [subReq_apply]
      simp [hr, hs]
    rw [Scheduler.unrequested, Scheduler.unrequested, subTotal_apply,
      ← Bitset.countP_or_beq List.nodup_range (List.mem_range.mpr hs) hf]
    refine List.countP_congr fun t ht => ?_
    rw [subReq_apply]
    by_cases he : t = s
    case pos => simp [he, hn]
    case neg => simp [he, Ne.symm he]
  · rw [Scheduler.unrequested, Scheduler.unrequested, subTotal_apply]
    refine List.countP_congr fun t _ => ?_
    rw [subReq_apply]
    simp [Ne.symm hd]

theorem room (h : Assigns i c n σ τ) : τ.room i = σ.room i - n := by
  cases hp : σ.peerSlots[i]?
  case none =>
    cases hq : τ.peerSlots[i]?
    case none => simp [Scheduler.room, hp, hq]
    case some q =>
      obtain ⟨p, hp', _⟩ := h.loads.peer_of hq
      cases hp.symm.trans hp'
  case some p =>
    obtain ⟨q, hq, hl⟩ := h.loads.peer hp
    simp only [Scheduler.room, hp, hq, Option.elim_some, h.loads.effectiveCap hl, h.pending hp hq]
    omega

theorem room_of_ne (h : Assigns i c n σ τ) (hj : j ≠ i) : τ.room j = σ.room j := by
  rw [Scheduler.room, h.peers hj, Scheduler.room]
  cases σ.peerSlots[j]?
  case none   => rfl
  case some p => simp only [Option.elim_some, h.loads.effectiveCap .refl]

end Assigns

-- The loop over the sub-blocks of a chunk requests as many as it can.
theorem assigns_assignLoop (ho : ¬σ.closed c) (hs : ∀ s ∈ ss, s < σ.subTotal c) (hn : ss.Nodup)
    (hr : σ.chunkSubReq.rowLength c = σ.subTotal c) (hp : σ.peerSlots[i]? = some p)
    (he : p.eligible c) :
    Assigns i c (min (cap - p.pendingRequests) (ss.countP (!σ.subReq c ·))) σ
      (σ.exec (assignLoop i c now cap ss σ)) := by
  induction ss generalizing σ p <;> simp only [assignLoop, hp]
  case nil => simpa using Assigns.refl
  case cons s ss hi =>
    obtain ⟨hsl, hs⟩ := List.forall_mem_cons.mp hs
    obtain ⟨hsn, hn⟩ := List.nodup_cons.mp hn
    split
    case isTrue hc =>
      rw [Nat.sub_eq_zero_of_le hc, Nat.zero_min]
      exact .refl
    case isFalse hc =>
      split
      case isTrue hq =>
        rw [List.countP_cons_of_neg (by simp [hq])]
        exact hi ho hs hn hr hp he
      case isFalse hq =>
        have h₁ : Assigns i c 1 σ (σ.apply (.assign i c s now)) :=
          .assign ⟨ho, hq, hsl, p, hp, he⟩ hr
        obtain ⟨q, hq', hl⟩ := h₁.loads.peer hp
        have h₂ := hi (σ := σ.apply (.assign i c s now)) (p := q) (by rwa [h₁.loads.closed])
          (by rwa [h₁.loads.subTotal]) hn
          (by rw [rowLength_subReq_apply, h₁.loads.subTotal, hr]) hq' (by rwa [hl.eligible])
        -- The sub-block that is requested now is not among those that follow.
        have hc' : ss.countP (!(σ.apply (.assign i c s now)).subReq c ·) =
            ss.countP (!σ.subReq c ·) := by
          refine List.countP_congr fun t ht => ?_
          have hne : s ≠ t := fun hst => hsn (hst ▸ ht)
          rw [subReq_apply]
          simp [hne]
        rw [hc', h₁.pending hp hq'] at h₂
        rw [List.countP_cons_of_pos (by simp [hq])]
        have := h₁.trans h₂
        have hmin : 1 + min (cap - (p.pendingRequests + 1)) (ss.countP (!σ.subReq c ·)) =
            min (cap - p.pendingRequests) (ss.countP (!σ.subReq c ·) + 1) := by
          omega
        rwa [hmin] at this

-- What an offer changes: as many sub-blocks are requested as are wanted and as there is room for.
theorem Offer.assigns {o : Offer} (ht : o.state.Tables) :
    Assigns o.peer o.chunk (if o.accepted then min o.room o.wanted else 0) o.state (o.after now) := by
  obtain ⟨σ, i, c⟩ := o
  simp only [after, accepted, valid, isBest, cap, Offer.room, wanted, Scheduler.room, slotIdAt] at ht ⊢
  obtain hp | ⟨p, hp⟩ := Option.eq_none_or_eq_some σ.peerSlots[i]?
  case inl =>
    simp only [tryScheduleChunkOnPeer, hp]
    simpa using Assigns.refl
  case inr =>
    simp only [tryScheduleChunkOnPeer, hp, Option.any_some, Option.map_some, Option.elim_some]
    by_cases hv : σ.closed c ∨ ¬p.eligible c
    case pos =>
      have hf : (!σ.closed c && p.eligible c) = false := by
        obtain h | h := hv
        all_goals simp [h]
      rw [if_pos hv, hf, Bool.false_and, if_neg Bool.false_ne_true]
      exact .refl
    case neg =>
      obtain ⟨ho, he⟩ := not_or.mp hv
      have he := not_not.mp he
      have htrue : (!σ.closed c && p.eligible c) = true := by simp [ho, he]
      rw [if_neg hv, htrue, Bool.true_and]
      by_cases hb : σ.selectBestPeer c = some p.slotId
      case neg =>
        rw [if_pos hb, if_neg (by simpa using hb)]
        exact .refl
      case pos =>
        rw [if_neg (not_not.mpr hb), if_pos (by simpa using hb)]
        split
        case isTrue hz =>
          rw [unrequested, hz, List.range_zero, List.countP_nil, Nat.min_zero]
          exact .refl
        case isFalse =>
          have hr := ht.reqRow (lt_totalChunks_of_not_closed ho)
          have h₀ : Assigns i c 0 σ (σ.apply (.beginDownload c)) := .beginDownload ho
          have h₁ : Assigns i c _ _ ((σ.apply (.beginDownload c)).exec (assignLoop i c now
              (σ.effectiveCap p) (.range (σ.subTotal c)) (σ.apply (.beginDownload c)))) :=
            assigns_assignLoop (by rwa [h₀.loads.closed])
              (by rw [h₀.loads.subTotal]; exact fun s => List.mem_range.mp) List.nodup_range
              (by rw [rowLength_subReq_apply, h₀.loads.subTotal, hr]) hp he
          have := h₀.trans h₁
          rwa [Nat.zero_add] at this

theorem Offer.tables_after {o : Offer} (ht : o.state.Tables) : (o.after now).Tables :=
  AllAssigning.tables assigning_tryScheduleChunkOnPeer ht

theorem Offer.unrequested_after {o : Offer} (ht : o.state.Tables) :
    (o.after now).unrequested c = o.state.unrequested c - o.supply c := by
  have h : Assigns _ _ _ _ (o.after now) := o.assigns ht
  by_cases hc : o.chunk = c
  case neg => rw [h.chunks (Ne.symm hc), supply, if_neg (fun h => hc h.right), Nat.sub_zero]
  case pos =>
    subst hc
    have hu := h.unrequested
    simp only [supply, and_true]
    split at hu
    case isTrue ha =>
      rw [if_pos ha]
      simp only [wanted] at hu
      omega
    case isFalse ha =>
      rw [if_neg ha]
      omega

theorem Offer.room_after {o : Offer} (ht : o.state.Tables) :
    (o.after now).room i = o.state.room i - o.demand i := by
  have h : Assigns _ _ _ _ (o.after now) := o.assigns ht
  by_cases hi : o.peer = i
  case neg => rw [h.room_of_ne (Ne.symm hi), demand, if_neg (fun h => hi h.right), Nat.sub_zero]
  case pos =>
    subst hi
    rw [h.room]
    simp only [demand, and_true]
    split
    case isTrue  => simp only [Offer.room]; omega
    case isFalse => rfl

end Assigns

section Chains

-- Offers that are made one after the other, with the first and the last state.
inductive Chain (now : UInt64) : Scheduler → List Offer → Scheduler → Prop
  | nil {σ : Scheduler} : Chain now σ [] σ
  | cons {o : Offer} {os : List Offer} {τ : Scheduler} :
    Chain now (o.after now) os τ → Chain now o.state (o :: os) τ

namespace Chain

variable {os os' : List Offer}

theorem append (h : Chain now σ os τ) (h' : Chain now τ os' υ) : Chain now σ (os ++ os') υ := by
  induction h
  case nil       => exact h'
  case cons _ hi => exact .cons (hi h')

theorem of_append (h : Chain now σ (os ++ os') υ) : ∃ τ, Chain now σ os τ ∧ Chain now τ os' υ := by
  induction os generalizing σ
  case nil => exact ⟨σ, .nil, h⟩
  case cons o os hi =>
    cases h
    case cons h =>
      obtain ⟨τ, h₁, h₂⟩ := hi h
      exact ⟨τ, .cons h₁, h₂⟩

theorem loads_tables (h : Chain now σ os τ) (ht : σ.Tables) : σ.Loads τ ∧ τ.Tables := by
  induction h
  case nil => exact ⟨.refl, ht⟩
  case cons o os τ _ hi =>
    have hl : o.state.Loads (o.after now) := (o.assigns ht).loads
    obtain ⟨hl', ht'⟩ := hi (o.tables_after ht)
    exact ⟨hl.trans hl', ht'⟩

theorem unrequested (h : Chain now σ os τ) (ht : σ.Tables) :
    τ.unrequested c = σ.unrequested c - (os.map (·.supply c)).sum := by
  induction h
  case nil => rfl
  case cons o os τ h hi =>
    rw [hi (o.tables_after ht), Offer.unrequested_after ht, List.map_cons, List.sum_cons, Nat.sub_sub]

theorem room (h : Chain now σ os τ) (ht : σ.Tables) :
    τ.room i = σ.room i - (os.map (·.demand i)).sum := by
  induction h
  case nil => rfl
  case cons o os τ h hi =>
    rw [hi (o.tables_after ht), Offer.room_after ht, List.map_cons, List.sum_cons, Nat.sub_sub]

end Chain

theorem chain_loopOffers {p : PeerSlot} (hp : σ.peerSlots[i]? = some p)
    (hc : σ.effectiveCap p = cap) :
    Chain now σ (loopOffers i now cap cs σ) (σ.exec (scheduleLoop i now cap cs σ)) := by
  induction cs generalizing σ p <;> simp only [loopOffers, scheduleLoop, hp]
  case nil => exact .nil
  case cons c cs hi =>
    split
    case isTrue  => exact .nil
    case isFalse =>
      have ha : σ.AllAssigning (tryScheduleChunkOnPeer i c now cap σ) :=
        assigning_tryScheduleChunkOnPeer
      have hl := ha.loads
      obtain ⟨q, hq, hpq⟩ := hl.peer hp
      have h := hi hq ((hl.effectiveCap hpq).trans hc)
      have hcap : (⟨σ, i, c⟩ : Offer).cap = cap := by rw [Offer.cap, hp, Option.elim_some, hc]
      refine .cons (o := ⟨σ, i, c⟩) ?_
      rw [Offer.after, hcap, exec, Actions.exec_append]
      exact h

theorem chain_offersTo : Chain now σ (offersTo i now σ) (σ.exec (tryScheduleForPeer i now σ)) := by
  cases hp : σ.peerSlots[i]?
  case none =>
    simp only [offersTo, tryScheduleForPeer, hp]
    exact .nil
  case some p =>
    rw [tryScheduleForPeer_eq hp]
    simp only [offersTo, hp]
    exact chain_loopOffers hp rfl

theorem chain_visits : Chain now σ
    ((visits (tryScheduleForPeer · now) xs σ).flatMap fun x => offersTo x.2 now x.1)
    (σ.exec (forEach (tryScheduleForPeer · now) xs σ)) := by
  induction xs generalizing σ <;> simp only [visits, forEach]
  case nil => exact .nil
  case cons x xs hi =>
    rw [List.flatMap_cons, exec, Actions.exec_append]
    exact chain_offersTo.append hi

-- The loop offers every chunk that it reaches.
theorem mem_offersTo_of_tries {τ : Scheduler} (h : σ.Tries i now c τ) :
    ⟨τ, i, c⟩ ∈ offersTo i now σ := by
  obtain ⟨p, cs, ds, hp, hd, rfl, hn⟩ := h
  simp only [offersTo, hp, hd]
  generalize σ.effectiveCap p = cap at hn
  clear hd
  induction cs generalizing σ p <;>
    simp only [List.nil_append, List.cons_append, loopOffers, scheduleLoop, hp] at hn ⊢
  case nil =>
    rw [if_neg fun hc => hn ⟨p, hp, hc⟩]
    exact List.mem_cons_self
  case cons d cs hi =>
    split at hn
    case isTrue hc => exact absurd ⟨p, hp, hc⟩ hn
    case isFalse hc =>
      rw [if_neg hc, if_neg hc]
      have ha : σ.AllAssigning (tryScheduleChunkOnPeer i d now cap σ) :=
        assigning_tryScheduleChunkOnPeer
      have hl := ha.loads
      obtain ⟨q, hq, _⟩ := hl.peer hp
      rw [exec, Actions.exec_append] at hn ⊢
      exact List.mem_cons_of_mem _ (hi q hq hn)

end Chains

end ThinBT.Scheduler
