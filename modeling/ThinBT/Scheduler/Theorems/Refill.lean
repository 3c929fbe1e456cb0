import ThinBT.Scheduler.Theorems.Active
import ThinBT.Scheduler.Theorems.Counters

namespace ThinBT

namespace PeerSlot

-- A peer to which more requests have been sent.
structure Loads (p q : PeerSlot) : Prop where
  slotId         : q.slotId = p.slotId
  remoteBitfield : q.remoteBitfield = p.remoteBitfield
  amChoking      : q.amChoking = p.amChoking
  timeouts       : q.consecutiveTimeouts = p.consecutiveTimeouts
  pipelineCap    : q.pipelineCap = p.pipelineCap
  pending        : p.pendingRequests ≤ q.pendingRequests

namespace Loads

variable {p q r : PeerSlot}

theorem refl : p.Loads p :=
  ⟨rfl, rfl, rfl, rfl, rfl, Nat.le_refl _⟩

theorem trans (h : p.Loads q) (h' : q.Loads r) : p.Loads r where
  slotId         := h'.slotId.trans h.slotId
  remoteBitfield := h'.remoteBitfield.trans h.remoteBitfield
  amChoking      := h'.amChoking.trans h.amChoking
  timeouts       := h'.timeouts.trans h.timeouts
  pipelineCap    := h'.pipelineCap.trans h.pipelineCap
  pending        := h.pending.trans h'.pending

theorem track : p.Loads (p.track c b) :=
  ⟨rfl, rfl, rfl, rfl, rfl, Nat.le_succ _⟩

theorem iterate_track : p.Loads ((·.track c b)^[n] p) := by
  induction n generalizing p
  case zero      => exact refl
  case succ n hi => exact track.trans hi

theorem has (h : p.Loads q) : q.has c = p.has c := by
  rw [PeerSlot.has, h.remoteBitfield, PeerSlot.has]

theorem eligible (h : p.Loads q) : q.eligible c = p.eligible c := by
  rw [PeerSlot.eligible, h.has, h.amChoking, h.timeouts, PeerSlot.eligible]

end Loads
end PeerSlot

namespace Scheduler

variable {σ τ υ : Scheduler} {std : StdSort}

-- A state in which more has been requested.
structure Loads (σ τ : Scheduler) : Prop where
  closed      : τ.closed c = σ.closed c
  totalChunks : τ.totalChunks = σ.totalChunks
  subTotal    : τ.subTotal = σ.subTotal
  subReq      : σ.subReq c s → τ.subReq c s
  bitfields   : τ.peerSlots.map (·.remoteBitfield) = σ.peerSlots.map (·.remoteBitfield)
  peer {k : Nat} {p : PeerSlot} :
    σ.peerSlots[k]? = some p → ∃ q, τ.peerSlots[k]? = some q ∧ p.Loads q

-- What is known when sub-blocks are requested, for the first time or redundantly.
def Loading (σ : Scheduler) (a : Action) : Prop :=
  σ.Assigning a ∨ σ.Duplicating a

theorem Loading.traffic (h : σ.Loading a) : σ.Traffic a :=
  h.elim (·.reaction.traffic) (·.traffic)

theorem Loading.onPeer {p : PeerSlot} (h : σ.Loading a) : p.Loads (σ.onPeer a k p) := by
  cases a
  case beginDownload => exact .refl
  case assign =>
    simp only [Scheduler.onPeer]
    split
    case isTrue  => exact .track
    case isFalse => exact .refl
  case redundant => exact .iterate_track
  all_goals exact (h.elim id id).elim

theorem Loading.subReq_apply (h : σ.Loading a) (hr : σ.subReq c s) : (σ.apply a).subReq c s := by
  rw [Scheduler.subReq_apply]
  cases a
  case assign                    => exact Bool.or_eq_true_iff.mpr (.inl hr)
  case beginDownload | redundant => exact hr
  all_goals exact (h.elim id id).elim

namespace Loads

theorem refl : σ.Loads σ :=
  ⟨rfl, rfl, rfl, id, rfl, fun hp => ⟨_, hp, .refl⟩⟩

theorem trans (h : σ.Loads τ) (h' : τ.Loads υ) : σ.Loads υ where
  closed      := h'.closed.trans h.closed
  totalChunks := h'.totalChunks.trans h.totalChunks
  subTotal    := h'.subTotal.trans h.subTotal
  subReq      := fun hr => h'.subReq (h.subReq hr)
  bitfields   := h'.bitfields.trans h.bitfields
  peer        := fun hp => by
    obtain ⟨q, hq, hl⟩ := h.peer hp
    obtain ⟨r, hr, hl'⟩ := h'.peer hq
    exact ⟨r, hr, hl.trans hl'⟩

theorem apply (h : σ.Loading a) : σ.Loads (σ.apply a) := by
  have hg (k : Nat) : (σ.apply a).peerSlots[k]? = σ.peerSlots[k]?.map (σ.onPeer a k) := by
    refine getElem?_apply ?_ ?_
    · rintro slot speed rfl
      exact (h.elim id id).elim
    · rintro slot rfl
      exact (h.elim id id).elim
  exact {
    closed      := h.traffic.closed_apply
    totalChunks := totalChunks_apply
    subTotal    := subTotal_apply
    subReq      := h.subReq_apply
    bitfields   := by
      refine List.ext_getElem? fun k => ?_
      rw [List.getElem?_map, List.getElem?_map, hg, Option.map_map]
      congr 1
      exact funext fun p => h.onPeer.remoteBitfield
    peer        := fun {k p} hp => ⟨σ.onPeer a k p, by rw [hg, hp, Option.map_some], h.onPeer⟩
  }

theorem exec {as : List Action} (h : Actions.AllAt Scheduler.apply Loading σ as) :
    σ.Loads (σ.exec as) := by
  induction as generalizing σ
  case nil          => exact refl
  case cons a as hi => exact (apply h.left).trans (hi h.right)

end Loads

section Saturation

-- The peer has no room for another request.
def Saturated (σ : Scheduler) (i cap : Nat) : Prop :=
  ∃ p, σ.peerSlots[i]? = some p ∧ cap ≤ p.pendingRequests

theorem Saturated.loads (hs : σ.Saturated i cap) (h : σ.Loads τ) : τ.Saturated i cap := by
  obtain ⟨p, hp, hc⟩ := hs
  obtain ⟨q, hq, hl⟩ := h.peer hp
  exact ⟨q, hq, hc.trans hl.pending⟩

theorem AllAssigning.loads {as : List Action} (h : σ.AllAssigning as) : σ.Loads (σ.exec as) :=
  .exec (h.mono fun _ _ => .inl)

-- The loop over the sub-blocks of a chunk only ends early if the peer has no room left.
theorem assignLoop_completes (ho : ¬σ.closed c) (hs : ∀ s ∈ ss, s < σ.subTotal c)
    (hr : ∀ s ∈ ss, s < σ.chunkSubReq.rowLength c) (hp : σ.peerSlots[i]? = some p)
    (he : p.eligible c) :
    (∀ s ∈ ss, (σ.exec (assignLoop i c now cap ss σ)).subReq c s) ∨
      (σ.exec (assignLoop i c now cap ss σ)).Saturated i cap := by
  induction ss generalizing σ p <;> simp only [assignLoop, hp]
  case nil => exact .inl (List.forall_mem_nil _)
  case cons s ss hi =>
    obtain ⟨hsl, hs⟩ := List.forall_mem_cons.mp hs
    obtain ⟨hrl, hr⟩ := List.forall_mem_cons.mp hr
    split
    case isTrue hc => exact .inr ⟨p, hp, hc⟩
    case isFalse =>
      split
      case isTrue hq =>
        have hl : σ.Loads (σ.exec (assignLoop i c now cap ss σ)) := by
          refine (assigning_assignLoop ho hs fun p' hp' => ?_).loads
          rwa [Option.some.inj (hp'.symm.trans hp)]
        refine (hi ho hs hr hp he).imp_left fun h => List.forall_mem_cons.mpr ⟨hl.subReq hq, h⟩
      case isFalse hq =>
        have hl : σ.Loads (σ.apply (.assign i c s now)) := .apply (.inl ⟨ho, hq, hsl, p, hp, he⟩)
        have hrow := rowLength_subReq_apply (σ := σ) (a := .assign i c s now) (c := c)
        have hset : (σ.apply (.assign i c s now)).subReq c s := by
          rw [subReq_apply]
          simp [hrl]
        simp only [exec, Actions.exec_cons]
        generalize σ.apply (.assign i c s now) = τ at hl hrow hset
        obtain ⟨q, hq, hpq⟩ := hl.peer hp
        rw [← hl.closed] at ho
        rw [← hl.subTotal] at hs
        rw [← hrow] at hr
        rw [← hpq.eligible] at he
        have hl' : τ.Loads (τ.exec (assignLoop i c now cap ss τ)) := by
          refine (assigning_assignLoop ho hs fun p' hp' => ?_).loads
          rwa [Option.some.inj (hp'.symm.trans hq)]
        exact (hi ho hs hr hq he).imp_left fun h => List.forall_mem_cons.mpr ⟨hl'.subReq hset, h⟩

theorem tryScheduleChunkOnPeer_completes (h : σ.Tables) (ho : ¬σ.closed c)
    (hp : σ.peerSlots[i]? = some p) (he : p.eligible c) (hb : σ.selectBestPeer c = some p.slotId) :
    (∀ s < σ.subTotal c, (σ.exec (tryScheduleChunkOnPeer i c now cap σ)).subReq c s) ∨
      (σ.exec (tryScheduleChunkOnPeer i c now cap σ)).Saturated i cap := by
  simp only [tryScheduleChunkOnPeer, hp, hb]
  rw [if_neg (not_or.mpr ⟨ho, not_not.mpr he⟩), if_neg (not_not.mpr rfl)]
  split
  case isTrue hz  => exact .inl fun s hs => absurd hs (hz ▸ Nat.not_lt_zero s)
  case isFalse =>
    have hl : σ.Loads (σ.apply (.beginDownload c)) := .apply (.inl ho)
    have ho' : ¬(σ.apply (.beginDownload c)).closed c := by rwa [hl.closed]
    have hs : ∀ s ∈ List.range (σ.subTotal c), s < (σ.apply (.beginDownload c)).subTotal c := by
      rw [hl.subTotal]
      exact fun s => List.mem_range.mp
    have hr : ∀ s ∈ List.range (σ.subTotal c),
        s < (σ.apply (.beginDownload c)).chunkSubReq.rowLength c := by
      rw [rowLength_subReq_apply, h.reqRow (lt_totalChunks_of_not_closed ho)]
      exact fun s => List.mem_range.mp
    exact (assignLoop_completes ho' hs hr hp he).imp_left fun h s hs => h s (List.mem_range.mpr hs)

end Saturation

section Loop

theorem scheduleLoop_eq_nil (h : ∀ p, σ.peerSlots[i]? = some p → cap ≤ p.pendingRequests) :
    scheduleLoop i now cap cs σ = [] := by
  cases cs
  case nil => rfl
  case cons c cs =>
    simp only [scheduleLoop]
    split
    case h_1      => rfl
    case h_2 p hp => rw [if_pos (h p hp)]

theorem scheduleLoop_of_saturated (h : σ.Saturated i cap) : scheduleLoop i now cap cs σ = [] := by
  obtain ⟨q, hq, hc⟩ := h
  refine scheduleLoop_eq_nil fun p hp => ?_
  rwa [Option.some.inj (hp.symm.trans hq)]

theorem scheduleLoop_append : scheduleLoop i now cap (cs ++ ds) σ =
    scheduleLoop i now cap cs σ ++
      scheduleLoop i now cap ds (σ.exec (scheduleLoop i now cap cs σ)) := by
  induction cs generalizing σ
  case nil => rfl
  case cons c cs hi =>
    simp only [List.cons_append, scheduleLoop]
    split
    case h_1 hn => exact (scheduleLoop_eq_nil fun p hp => by cases hn.symm.trans hp).symm
    case h_2 p hp =>
      split
      case isTrue hc => exact (scheduleLoop_of_saturated ⟨p, hp, hc⟩).symm
      case isFalse   => simp only [hi, List.append_assoc, exec, Actions.exec_append]

theorem tryScheduleForPeer_eq (hp : σ.peerSlots[i]? = some p) :
    tryScheduleForPeer i now σ = scheduleLoop i now (σ.effectiveCap p) (σ.pendingChunks p) σ := by
  simp only [tryScheduleForPeer, hp]
  split
  case isTrue hc => exact (scheduleLoop_of_saturated ⟨p, hp, hc⟩).symm
  case isFalse   => rfl

end Loop

section Requests

def Action.request? : Action → Option (Nat × Nat)
  | .assign _ c s _ => some (c, s)
  | _               => none

-- The pairs of chunks and sub-blocks that actions request.
def requestsOf (as : List Action) : List (Nat × Nat) :=
  as.filterMap Action.request?

-- The callbacks that actions invoke.
def callsOf (σ : Scheduler) (as : List Action) : List Call :=
  (Actions.trace apply σ as).flatMap fun x => x.1.calls x.2

theorem requestsOf_append : requestsOf (as ++ bs) = requestsOf as ++ requestsOf bs :=
  List.filterMap_append

theorem requestsOf_assignLoop :
    (requestsOf (assignLoop i c now cap ss σ)).Sublist (ss.map (c, ·)) := by
  induction ss generalizing σ <;> simp only [assignLoop]
  case nil => exact .slnil
  case cons s ss hi =>
    split
    case h_1 => exact List.nil_sublist _
    case h_2 =>
      split
      case isTrue => exact List.nil_sublist _
      case isFalse =>
        split
        case isTrue  => exact hi.cons _
        case isFalse => exact hi.cons_cons _

theorem requestsOf_tryScheduleChunkOnPeer :
    (requestsOf (tryScheduleChunkOnPeer i c now cap σ)).Sublist
      ((List.range (σ.subTotal c)).map (c, ·)) := by
  obtain he | ⟨_, _, _, _, he⟩ := tryScheduleChunkOnPeer_cases (σ := σ) (i := i) (c := c)
  case inl => rw [he]; exact List.nil_sublist _
  case inr => rw [he]; exact requestsOf_assignLoop

-- All sub-blocks of the chunks, chunk by chunk.
def subBlocksOf (σ : Scheduler) (cs : List Nat) : List (Nat × Nat) :=
  cs.flatMap fun c => (List.range (σ.subTotal c)).map (c, ·)

theorem requestsOf_scheduleLoop :
    (requestsOf (scheduleLoop i now cap cs σ)).Sublist (σ.subBlocksOf cs) := by
  induction cs generalizing σ <;> simp only [scheduleLoop]
  case nil => exact .slnil
  case cons c cs hi =>
    split
    case h_1 => exact List.nil_sublist _
    case h_2 =>
      split
      case isTrue  => exact List.nil_sublist _
      case isFalse =>
        rw [requestsOf_append, subBlocksOf, List.flatMap_cons]
        refine requestsOf_tryScheduleChunkOnPeer.append ?_
        have h := hi (σ := σ.exec (tryScheduleChunkOnPeer i c now cap σ))
        rwa [subBlocksOf, subTotal_exec] at h

theorem mem_subBlocksOf : (c, s) ∈ σ.subBlocksOf cs ↔ c ∈ cs ∧ s < σ.subTotal c := by
  simp only [subBlocksOf, List.mem_flatMap, List.mem_map, List.mem_range, Prod.mk.injEq]
  constructor
  · rintro ⟨d, hd, s', hs, rfl, rfl⟩
    exact ⟨hd, hs⟩
  · rintro ⟨hc, hs⟩
    exact ⟨c, hc, s, hs, rfl, rfl⟩

-- The peer that is refilled has room for a request.
def BelowCap (i cap : Nat) (σ : Scheduler) : Action → Prop
  | .assign j _ _ _ => j = i ∧ ∃ p, σ.peerSlots[i]? = some p ∧ p.pendingRequests < cap
  | _               => True

theorem belowCap_assignLoop :
    Actions.AllAt apply (BelowCap i cap) σ (assignLoop i c now cap ss σ) := by
  induction ss generalizing σ <;> simp only [assignLoop]
  case nil => trivial
  case cons s ss hi =>
    split
    case h_1 => trivial
    case h_2 p hp =>
      split
      case isTrue => trivial
      case isFalse hc =>
        split
        case isTrue  => exact hi
        case isFalse => exact ⟨⟨rfl, p, hp, Nat.not_le.mp hc⟩, hi⟩

theorem belowCap_scheduleLoop :
    Actions.AllAt apply (BelowCap i cap) σ (scheduleLoop i now cap cs σ) := by
  refine allAt_scheduleLoop fun c σ => ?_
  obtain he | ⟨_, _, _, _, he⟩ := tryScheduleChunkOnPeer_cases (σ := σ) (i := i) (c := c)
  case inl => rw [he]; trivial
  case inr => rw [he]; exact ⟨trivial, belowCap_assignLoop⟩

-- All requests go to the peer that is refilled.
theorem callsOf_eq {as : List Action} (h : σ.AllAssigning as)
    (hb : Actions.AllAt apply (BelowCap i cap) σ as) (hp : σ.peerSlots[i]? = some p) :
    σ.callsOf as =
      (requestsOf as).map fun x => .issueRequest p.slotId x.1 (x.2 * subBlockSize) subBlockSize := by
  induction as generalizing σ p
  case nil => rfl
  case cons a as hi =>
    obtain ⟨q, hq, hl⟩ := (Loads.apply (.inl h.left)).peer hp
    have hr := hi h.right hb.right hq
    rw [hl.slotId] at hr
    have ha := h.left
    cases a
    case beginDownload => exact hr
    case assign j c s t =>
      obtain rfl := hb.left.left
      have hc : σ.calls (.assign j c s t) =
          [.issueRequest p.slotId c (s * subBlockSize) subBlockSize] := by
        simp [calls, requestTo, slotIdAt, hp]
      exact congrArg₂ (· ++ ·) hc hr
    all_goals cases ha

theorem assigning_of_mem_requestsOf {as : List Action} {P : Scheduler → Action → Prop}
    (h : Actions.AllAt apply P σ as) (hm : (c, s) ∈ requestsOf as) :
    ∃ τ i now, P τ (.assign i c s now) := by
  obtain ⟨a, ha, hr⟩ := List.mem_filterMap.mp hm
  obtain ⟨τ, hτ⟩ := h.exists_of_mem ha
  cases a
  case assign =>
    obtain ⟨rfl, rfl⟩ := Prod.mk.inj (Option.some.inj hr)
    exact ⟨τ, _, _, hτ⟩
  all_goals cases hr

end Requests

section Order

-- The order of `pending`: rarest chunks first, ties in the order of `active_chunks_`.
def Earlier (σ : Scheduler) (c d : Nat) : Prop :=
  σ.availabilityOf c < σ.availabilityOf d ∨
    σ.availabilityOf c = σ.availabilityOf d ∧ σ.activeChunks.idxOf c < σ.activeChunks.idxOf d

theorem Earlier.asymm (h : σ.Earlier c d) : ¬σ.Earlier d c := by
  intro h'
  obtain h | ⟨he, hi⟩ := h <;> obtain h' | ⟨he', hi'⟩ := h'
  · exact UInt32.lt_asymm h h'
  · exact UInt32.lt_irrefl _ (he' ▸ h)
  · exact UInt32.lt_irrefl _ (he ▸ h')
  · exact Nat.lt_asymm hi hi'

theorem pairwise_pendingChunks (h : σ.activeChunks.Nodup) :
    (σ.pendingChunks p).Pairwise σ.Earlier := by
  have total : Std.Total fun c d => σ.availabilityOf c ≤ σ.availabilityOf d :=
    ⟨fun _ _ => UInt32.le_total ..⟩
  have trans : IsTrans Nat fun c d => σ.availabilityOf c ≤ σ.availabilityOf d :=
    ⟨fun _ _ _ => UInt32.le_trans⟩
  refine (List.pairwise_insertionSort_of_pairwise (h.pairwise_idxOf.sublist List.filter_sublist)).imp ?_
  rintro c d ⟨hle, hi⟩
  by_cases hd : σ.availabilityOf d ≤ σ.availabilityOf c
  case pos => exact .inr ⟨UInt32.le_antisymm hle hd, hi hd⟩
  case neg => exact .inl (UInt32.not_le.mp hd)

-- The order of the requests of a refill.
def Precedes (σ : Scheduler) (x y : Nat × Nat) : Prop :=
  σ.Earlier x.1 y.1 ∨ x.1 = y.1 ∧ x.2 < y.2

theorem pairwise_subBlocksOf {cs : List Nat} (h : cs.Pairwise σ.Earlier) :
    (σ.subBlocksOf cs).Pairwise σ.Precedes := by
  refine List.pairwise_flatMap.mpr ⟨fun c _ => ?_, h.imp fun {c d} hcd x hx y hy => ?_⟩
  · exact List.pairwise_map.mpr (List.pairwise_lt_range.imp fun hs => .inr ⟨rfl, hs⟩)
  · obtain ⟨_, _, rfl⟩ := List.mem_map.mp hx
    obtain ⟨_, _, rfl⟩ := List.mem_map.mp hy
    exact .inl hcd

theorem nodup_of_pairwise_precedes {l : List (Nat × Nat)} (h : l.Pairwise σ.Precedes) : l.Nodup := by
  refine h.imp ?_
  rintro x _ hp rfl
  obtain hp | ⟨_, hp⟩ := hp
  · exact hp.asymm hp
  · exact Nat.lt_irrefl _ hp

end Order

section Refill

theorem Tables.subReqCount_lt (h : σ.Tables) (hc : ¬σ.closed c) (hs : s < σ.subTotal c)
    (hr : ¬σ.subReq c s) : σ.subReqCount c < σ.subTotal c := by
  have hrow := h.reqRow (lt_totalChunks_of_not_closed hc)
  rw [← hrow] at hs ⊢
  exact Nat.lt_of_le_of_lt (h.le hc) (List.rowCount_lt_rowLength hs (eq_false_of_ne_true hr))

theorem CachesOpen.mem_pendingChunks (h : σ.CachesOpen) {p : PeerSlot} :
    c ∈ σ.pendingChunks p ↔ ¬σ.closed c ∧ p.has c ∧ σ.subReqCount c < σ.subTotal c := by
  rw [pendingChunks, List.mem_insertionSort, List.mem_filter, h.mem]
  simp only [Bool.and_eq_true, Bool.not_eq_true', decide_eq_true_eq]
  refine ⟨fun hc => ⟨hc.left, hc.right.left.right, hc.right.right⟩, fun hc => ?_⟩
  exact ⟨hc.left, ⟨eq_false_of_ne_true hc.left, hc.right.left⟩, hc.right.right⟩

-- The chunk is tried in the given state when the peer is refilled.
def Tries (σ : Scheduler) (i : Nat) (now : UInt64) (c : Nat) (τ : Scheduler) : Prop :=
  ∃ p cs ds, σ.peerSlots[i]? = some p ∧ σ.pendingChunks p = cs ++ c :: ds ∧
    τ = σ.exec (scheduleLoop i now (σ.effectiveCap p) cs σ) ∧ ¬τ.Saturated i (σ.effectiveCap p)

-- A chunk that is tried is refused if another peer is better for it.
def Refuses (σ : Scheduler) (i : Nat) (now : UInt64) (c : Nat) : Prop :=
  ∃ τ, σ.Tries i now c τ ∧ τ.selectBestPeer c ≠ τ.slotIdAt i

theorem AllAssigning.tables {as : List Action} (h : σ.AllAssigning as) (ht : σ.Tables) :
    (σ.exec as).Tables :=
  h.invariant (fun _ _ ht ha => ht.apply (.inl ha.reaction.traffic.guard)) ht

theorem Loads.slotIdAt (h : σ.Loads τ) (hp : σ.peerSlots[i]? = some p) :
    τ.slotIdAt i = some p.slotId := by
  obtain ⟨q, hq, hl⟩ := h.peer hp
  rw [Scheduler.slotIdAt, hq, Option.map_some, hl.slotId]

-- A chunk with a sub-block that the refill leaves unrequested was refused, unless the peer was
-- saturated right after the chunk was tried.
theorem refuses_of_unrequested (ht : σ.Tables) (hp : σ.peerSlots[i]? = some p)
    (hd : σ.pendingChunks p = cs ++ c :: ds) (hc : ¬σ.closed c) (he : p.eligible c)
    (hs : s < σ.subTotal c) (hr : ¬(σ.exec (tryScheduleForPeer i now σ)).subReq c s)
    (hn : ¬(σ.exec (scheduleLoop i now (σ.effectiveCap p) (cs ++ [c]) σ)).Saturated i
      (σ.effectiveCap p)) :
    σ.Refuses i now c := by
  obtain ⟨τ, hτ⟩ : ∃ τ, τ = σ.exec (scheduleLoop i now (σ.effectiveCap p) cs σ) := ⟨_, rfl⟩
  have hl : σ.Loads τ := hτ ▸ assigning_scheduleLoop.loads
  have ht : τ.Tables := hτ ▸ assigning_scheduleLoop.tables ht
  rw [tryScheduleForPeer_eq hp, hd, scheduleLoop_append] at hr
  rw [scheduleLoop_append] at hn
  simp only [exec, Actions.exec_append] at hr hn hτ
  rw [← hτ] at hr hn
  -- The peer has room when the chunk is tried.
  have hroom : ¬τ.Saturated i (σ.effectiveCap p) := fun hs =>
    hn (hs.loads assigning_scheduleLoop.loads)
  refine ⟨τ, ⟨p, cs, ds, hp, hd, hτ, hroom⟩, fun hb => ?_⟩
  obtain ⟨q, hq, hpq⟩ := hl.peer hp
  have hcap : ¬σ.effectiveCap p ≤ q.pendingRequests := fun hcap => hroom ⟨q, hq, hcap⟩
  simp only [scheduleLoop, hq, if_neg hcap, List.append_nil, Actions.exec_append] at hr hn
  rw [hl.slotIdAt hp, ← hpq.slotId] at hb
  rw [← hl.subTotal] at hs
  rw [← hl.closed] at hc
  rw [← hpq.eligible] at he
  obtain hdone | hsat := tryScheduleChunkOnPeer_completes ht hc hq he hb
  case inl => exact hr (assigning_scheduleLoop.loads.subReq (hdone s hs))
  case inr => exact hn hsat

theorem of_mem_requestsOf (hp : σ.peerSlots[i]? = some p)
    (hm : (c, s) ∈ requestsOf (scheduleLoop i now cap cs σ)) :
    s < σ.subTotal c ∧ ¬σ.subReq c s ∧ ¬σ.closed c ∧ p.eligible c := by
  have hall : Actions.AllAt apply (fun τ a => σ.Loads τ ∧ τ.Assigning a ∧ BelowCap i cap τ a) σ
      (scheduleLoop i now cap cs σ) :=
    (assigning_scheduleLoop.and belowCap_scheduleLoop).strengthen
      (fun _ _ hl ha => hl.trans (.apply (.inl ha.left))) .refl
  obtain ⟨τ, j, t, hl, ⟨hc, hr, hs, q, hq, he⟩, rfl, _⟩ := assigning_of_mem_requestsOf hall hm
  obtain ⟨q', hq', hpq⟩ := hl.peer hp
  obtain rfl : q = q' := Option.some.inj (hq.symm.trans hq')
  exact ⟨hl.subTotal ▸ hs, fun h => hr (hl.subReq h), hl.closed ▸ hc, hpq.eligible ▸ he⟩

-- What the requests of `try_schedule_for_peer` are.
structure RarestFirst (σ : Scheduler) (i : Nat) (p : PeerSlot) (now : UInt64) : Prop where
  calls   : σ.callsOf (tryScheduleForPeer i now σ) =
    (requestsOf (tryScheduleForPeer i now σ)).map fun x =>
      .issueRequest p.slotId x.1 (x.2 * subBlockSize) subBlockSize
  nodup   : (requestsOf (tryScheduleForPeer i now σ)).Nodup
  fresh   : (c, s) ∈ requestsOf (tryScheduleForPeer i now σ) →
    s < σ.subTotal c ∧ ¬σ.subReq c s ∧ ¬σ.closed c ∧ p.has c
  ordered : (requestsOf (tryScheduleForPeer i now σ)).Pairwise σ.Precedes
  capped  : Actions.AllAt apply (BelowCap i (σ.effectiveCap p)) σ (tryScheduleForPeer i now σ)
  passed  : σ.Earlier c d → ¬σ.closed c → p.has c → s < σ.subTotal c →
    ¬(σ.exec (tryScheduleForPeer i now σ)).subReq c s →
    (d, s') ∈ requestsOf (tryScheduleForPeer i now σ) → σ.Refuses i now c

theorem refuses_of_earlier (hc : σ.CachesOpen) (ht : σ.Tables) (hp : σ.peerSlots[i]? = some p)
    (he : σ.Earlier c d) (ho : ¬σ.closed c) (hh : p.has c) (hs : s < σ.subTotal c)
    (hr : ¬(σ.exec (tryScheduleForPeer i now σ)).subReq c s)
    (hd : (d, s') ∈ requestsOf (tryScheduleForPeer i now σ)) : σ.Refuses i now c := by
  have hq : ¬σ.subReq c s := fun h => hr (assigning_tryScheduleForPeer.loads.subReq h)
  obtain ⟨cs, ds, hcs⟩ := List.append_of_mem
    (hc.mem_pendingChunks.mpr ⟨ho, hh, ht.subReqCount_lt ho hs hq⟩)
  have hord := hcs ▸ pairwise_pendingChunks (p := p) hc.nodup
  -- The later chunk is not among those that have been tried so far.
  have hlater : d ∉ cs ++ [c] := by
    intro hm
    cases List.mem_append.mp hm
    case inl hm => exact he.asymm ((List.pairwise_append.mp hord).right.right d hm c List.mem_cons_self)
    case inr hm => exact he.asymm (List.mem_singleton.mp hm ▸ he)
  rw [tryScheduleForPeer_eq hp] at hd
  have hel : p.eligible c := by
    have hel := (of_mem_requestsOf hp hd).right.right.right
    rw [PeerSlot.eligible_iff] at hel ⊢
    exact ⟨hh, hel.right⟩
  refine refuses_of_unrequested ht hp hcs ho hel hs hr fun hsat => ?_
  rw [hcs, List.append_cons, scheduleLoop_append, scheduleLoop_of_saturated hsat, List.append_nil] at hd
  exact hlater (mem_subBlocksOf.mp (requestsOf_scheduleLoop.mem hd)).left

theorem rarestFirst (hc : σ.CachesOpen) (ht : σ.Tables) (hp : σ.peerSlots[i]? = some p) :
    σ.RarestFirst i p now := by
  have hord : (requestsOf (tryScheduleForPeer i now σ)).Pairwise σ.Precedes := by
    rw [tryScheduleForPeer_eq hp]
    exact (pairwise_subBlocksOf (pairwise_pendingChunks hc.nodup)).sublist requestsOf_scheduleLoop
  have hcap : Actions.AllAt apply (BelowCap i (σ.effectiveCap p)) σ (tryScheduleForPeer i now σ) := by
    rw [tryScheduleForPeer_eq hp]
    exact belowCap_scheduleLoop
  exact {
    calls   := callsOf_eq assigning_tryScheduleForPeer hcap hp
    nodup   := nodup_of_pairwise_precedes hord
    fresh   := fun hm => by
      rw [tryScheduleForPeer_eq hp] at hm
      obtain ⟨hs, hr, ho, he⟩ := of_mem_requestsOf hp hm
      exact ⟨hs, hr, ho, (PeerSlot.eligible_iff.mp he).left⟩
    ordered := hord
    capped  := hcap
    passed  := refuses_of_earlier hc ht hp
  }

theorem refill_is_rarest_first {ops : List Op}
    (hr : AllOps std InRange (start total speed sizes) ops)
    (hσ : σ = run std (start total speed sizes) ops) (hp : σ.peerSlots[i]? = some p) :
    σ.RarestFirst i p now := by
  have hc : σ.CachesOpen := hσ ▸ hr.invariant (fun _ _ => CachesOpen.next) cachesOpen_start
  have ht : σ.Tables := hσ ▸ hr.invariant (fun _ _ => Tables.next) tables_start
  exact rarestFirst hc ht hp

-- The second chunk is at two peers.
def twoReplicas : List Op := [
  .onPeerAdded 1 1000, .onBitfield 1 [true, true, true] 5, .onChokeChange 1 false,
  .onPeerAdded 2 1000, .onBitfield 2 [false, true, false] 6
]

theorem twoReplicas_is_rarest_first :
    ∃ p, (run .stable (start 3 1000 [100, 32768, 50]) twoReplicas).peerSlots[0]? = some p ∧
      requestsOf (tryScheduleForPeer 0 10 (run .stable (start 3 1000 [100, 32768, 50]) twoReplicas)) =
        [(0, 0), (2, 0), (1, 0), (1, 1)] ∧
      (run .stable (start 3 1000 [100, 32768, 50]) twoReplicas).RarestFirst 0 p 10 := by
  have hp : (run .stable (start 3 1000 [100, 32768, 50]) twoReplicas).peerSlots[0]?.isSome := by
    decide +kernel
  refine ⟨_, (Option.some_get hp).symm, by decide +kernel, ?_⟩
  refine refill_is_rarest_first ?_ rfl (Option.some_get hp).symm
  exact (by decide +kernel : AllOps .stable Legal _ _).mono fun _ _ => .inl

end Refill

end Scheduler
end ThinBT
