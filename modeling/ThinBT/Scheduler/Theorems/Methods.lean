import ThinBT.Scheduler.Theorems.Guard

namespace ThinBT.Scheduler

variable {σ : Scheduler}

abbrev Guarded (σ : Scheduler) : List Action → Prop :=
  Actions.AllAt apply Guard σ

abbrev AllTraffic (σ : Scheduler) : List Action → Prop :=
  Actions.AllAt apply Traffic σ

abbrev AllAssigning (σ : Scheduler) : List Action → Prop :=
  Actions.AllAt apply Assigning σ

abbrev AllRebalancing (σ : Scheduler) (k : Nat) : List Action → Prop :=
  Actions.AllAt apply (Rebalancing k) σ

abbrev AllDuplicating (σ : Scheduler) : List Action → Prop :=
  Actions.AllAt apply Duplicating σ

abbrev AllReaction (σ : Scheduler) : List Action → Prop :=
  Actions.AllAt apply Reaction σ

theorem Assigning.reaction (h : σ.Assigning a) : σ.Reaction a := by
  cases a <;> first | exact h | cases h

theorem Rebalancing.reaction (h : Rebalancing k σ a) : σ.Reaction a := by
  cases a
  case dropDone => exact h
  case move     => exact ⟨rfl, h.right⟩
  all_goals cases h

theorem Reaction.traffic (h : σ.Reaction a) : σ.Traffic a := by
  cases a <;> first | exact h | cases h

theorem Duplicating.traffic (h : σ.Duplicating a) : σ.Traffic a := by
  cases a <;> first | exact h | cases h

theorem AllAssigning.reaction (h : σ.AllAssigning as) : σ.AllReaction as :=
  h.mono fun _ _ => Assigning.reaction

theorem AllRebalancing.reaction (h : σ.AllRebalancing k as) : σ.AllReaction as :=
  h.mono fun _ _ => Rebalancing.reaction

theorem AllReaction.traffic (h : σ.AllReaction as) : σ.AllTraffic as :=
  h.mono fun _ _ => Reaction.traffic

theorem AllDuplicating.traffic (h : σ.AllDuplicating as) : σ.AllTraffic as :=
  h.mono fun _ _ => Duplicating.traffic

theorem Traffic.guard (h : σ.Traffic a) : σ.Guard a := by
  cases a <;> first | exact h | cases h

theorem AllTraffic.guarded (h : σ.AllTraffic as) : σ.Guarded as :=
  h.mono fun _ _ => Traffic.guard

theorem Shape.exec (h : σ.Shape) (hg : σ.Guarded as) : (σ.exec as).Shape :=
  hg.invariant (fun _ _ => Shape.apply) h

section Lookup

theorem getElem?_apply (ha : ∀ slot speed, a ≠ .addPeer slot speed)
    (hr : ∀ slot, a ≠ .removePeer slot) :
    (σ.apply a).peerSlots[k]? = σ.peerSlots[k]?.map (σ.onPeer a k) := by
  rw [peerSlots_apply]
  split
  case h_1 slot speed => exact absurd rfl (ha slot speed)
  case h_2 slot       => exact absurd rfl (hr slot)
  case h_3            => exact List.getElem?_mapIdx ..

end Lookup

section Scheduling

theorem assigning_assignLoop (hc : ¬σ.closed c) (hs : ∀ s ∈ ss, s < σ.subTotal c)
    (hp : ∀ p, σ.peerSlots[i]? = some p → p.eligible c) :
    σ.AllAssigning (assignLoop i c now cap ss σ) := by
  induction ss generalizing σ <;> simp only [assignLoop]
  case nil => trivial
  case cons s ss hi =>
    have ⟨hl, hs⟩ := List.forall_mem_cons.mp hs
    split
    case h_1 => trivial
    case h_2 p hk =>
      split
      case isTrue => trivial
      case isFalse =>
        split
        case isTrue     => exact hi hc hs hp
        case isFalse hr =>
          refine ⟨⟨hc, hr, hl, p, hk, hp p hk⟩, hi ?_ ?_ ?_⟩
          · rwa [closed_apply]
          · rwa [subTotal_apply]
          · intro q hq
            rw [getElem?_apply (by simp) (by simp), hk, Option.map_some] at hq
            cases hq
            simpa [onPeer] using hp p hk

-- The checks of `try_schedule_chunk_on_peer` pass, or nothing is done.
theorem tryScheduleChunkOnPeer_cases :
    tryScheduleChunkOnPeer i c now cap σ = [] ∨
      ∃ p, σ.peerSlots[i]? = some p ∧ ¬σ.closed c ∧ p.eligible c ∧
        tryScheduleChunkOnPeer i c now cap σ = .beginDownload c ::
          assignLoop i c now cap (.range (σ.subTotal c)) (σ.apply (.beginDownload c)) := by
  unfold tryScheduleChunkOnPeer
  split
  case h_1 => exact .inl rfl
  case h_2 p hp =>
    split
    case isTrue => exact .inl rfl
    case isFalse hn =>
      have ⟨hc, he⟩ := not_or.mp hn
      split
      case isTrue => exact .inl rfl
      case isFalse =>
        split
        case isTrue  => exact .inl rfl
        case isFalse => exact .inr ⟨p, hp, hc, not_not.mp he, rfl⟩

theorem assigning_tryScheduleChunkOnPeer : σ.AllAssigning (tryScheduleChunkOnPeer i c now cap σ) := by
  obtain he | ⟨p, hp, hc, hel, he⟩ := tryScheduleChunkOnPeer_cases (σ := σ) (i := i) (c := c)
  case inl => rw [he]; trivial
  case inr =>
    rw [he]
    refine ⟨hc, assigning_assignLoop ?_ ?_ ?_⟩
    · rw [closed_apply]
      dsimp only
      split
      case isTrue  => exact Bool.false_ne_true
      case isFalse => exact hc
    · rw [subTotal_apply]
      exact fun s hs => List.mem_range.mp hs
    · intro q hq
      rwa [Option.some.inj (hq.symm.trans hp)]

-- What the calls for single chunks do is all that the loop does.
theorem allAt_scheduleLoop {P : Scheduler → Action → Prop}
    (h : ∀ c σ, Actions.AllAt apply P σ (tryScheduleChunkOnPeer i c now cap σ)) :
    Actions.AllAt apply P σ (scheduleLoop i now cap cs σ) := by
  induction cs generalizing σ <;> simp only [scheduleLoop]
  case nil => trivial
  case cons c cs hi =>
    split
    case h_1 => trivial
    case h_2 =>
      split
      case isTrue  => trivial
      case isFalse => exact Actions.allAt_append.mpr ⟨h c σ, hi⟩

theorem assigning_scheduleLoop : σ.AllAssigning (scheduleLoop i now cap cs σ) :=
  allAt_scheduleLoop fun _ _ => assigning_tryScheduleChunkOnPeer

theorem assigning_tryScheduleForPeer : σ.AllAssigning (tryScheduleForPeer i now σ) := by
  unfold tryScheduleForPeer
  split
  case h_1 => trivial
  case h_2 =>
    split
    case isTrue  => trivial
    case isFalse => exact assigning_scheduleLoop

end Scheduling

section Rebalancing

theorem rebalancing_rebalanceSources (hc : ¬σ.closed c)
    (hp : ∀ p, σ.peerSlots[i]? = some p → p.has c) :
    σ.AllRebalancing i (rebalanceSources i c now js σ) := by
  induction js generalizing σ <;> simp only [rebalanceSources]
  case nil => trivial
  case cons j js hi =>
    split
    case h_2 => trivial
    case h_1 p q hk hq =>
      split
      case isTrue     => exact hi hc hp
      case isFalse hn =>
        have ⟨hs, _⟩ := not_or.mp hn
        split
        case h_1 => exact hi hc hp
        case h_2 b hb =>
          have hm := SortedSet.mem_of_first? hb
          split
          case isTrue hd =>
            refine ⟨⟨hd, q, hq, hm⟩, hi ?_ ?_⟩
            · rwa [closed_apply]
            · intro p' hp'
              rw [getElem?_apply (by simp) (by simp), hk, Option.map_some] at hp'
              cases hp'
              simp only [onPeer]
              split <;> exact hp p hk
          case isFalse hd =>
            refine ⟨⟨rfl, hc, hd, p, q, hk, hq, ?_, hp p hk, hm⟩, trivial⟩
            rintro rfl
            cases hk.symm.trans hq
            exact hs rfl

theorem rebalancing_rebalanceChunks : σ.AllRebalancing i (rebalanceChunks i now cs σ) := by
  induction cs generalizing σ <;> simp only [rebalanceChunks]
  case nil => trivial
  case cons c cs hi =>
    split
    case h_1 => trivial
    case h_2 p hp =>
      split
      case isTrue => trivial
      case isFalse =>
        split
        case isTrue     => exact hi
        case isFalse hn =>
          have ⟨hh, hc⟩ := not_or.mp hn
          have hg : σ.AllRebalancing i (rebalanceSources i c now (.range σ.peerSlots.length) σ) := by
            refine rebalancing_rebalanceSources hc ?_
            intro q hq
            cases hp.symm.trans hq
            exact not_not.mp hh
          split
          case isTrue  => exact hg
          case isFalse => exact Actions.allAt_append.mpr ⟨hg, hi⟩

theorem rebalancing_rebalanceLoop : σ.AllRebalancing i (rebalanceLoop i now n σ) := by
  induction n generalizing σ <;> simp only [rebalanceLoop]
  case zero => trivial
  case succ n hi =>
    split
    case h_1 => trivial
    case h_2 =>
      split
      case isTrue => trivial
      case isFalse =>
        split
        case isTrue  => exact Actions.allAt_append.mpr ⟨rebalancing_rebalanceChunks, hi⟩
        case isFalse => exact rebalancing_rebalanceChunks

theorem rebalancing_rebalanceSeedRequestsForPeer :
    σ.AllRebalancing i (rebalanceSeedRequestsForPeer i now n σ) := by
  unfold rebalanceSeedRequestsForPeer
  split
  case h_1 => trivial
  case h_2 =>
    split
    case isTrue  => trivial
    case isFalse => exact rebalancing_rebalanceLoop

end Rebalancing

section Endgame

theorem closed_endgameSubBlocks :
    (σ.exec (endgameSubBlocks c primary threshold now ss σ)).closed c' = σ.closed c' := by
  induction ss generalizing σ <;> simp only [endgameSubBlocks]
  case nil => rfl
  case cons s ss hi =>
    split
    case isTrue  => exact hi.trans closed_apply
    case isFalse => exact hi

theorem of_hungry : σ.hungry c s threshold now → σ.subReq c s ∧ ¬σ.subDone c s := by
  simp only [hungry, Bool.and_eq_true, Bool.not_eq_true', and_imp]
  exact fun hd hr _ _ => ⟨hr, by simp [hd]⟩

theorem duplicating_endgameSubBlocks (hc : ¬σ.closed c) :
    σ.AllDuplicating (endgameSubBlocks c primary threshold now ss σ) := by
  induction ss generalizing σ <;> simp only [endgameSubBlocks]
  case nil => trivial
  case cons s ss hi =>
    split
    case isTrue hh =>
      have ⟨hr, hd⟩ := of_hungry hh
      refine ⟨⟨hc, hr, hd, primary, rfl⟩, hi ?_⟩
      rwa [closed_apply]
    case isFalse => exact hi hc

theorem duplicating_endgameChunks (hc : ∀ c ∈ cs, ¬σ.closed c) :
    σ.AllDuplicating (endgameChunks now n cs σ) := by
  induction cs generalizing σ n <;> simp only [endgameChunks]
  case nil => trivial
  case cons c cs hi =>
    have ⟨hc, hcs⟩ := List.forall_mem_cons.mp hc
    split
    case isTrue => trivial
    case isFalse =>
      split
      case isTrue => exact hi hcs
      case isFalse =>
        refine Actions.allAt_append.mpr ⟨duplicating_endgameSubBlocks hc, hi ?_⟩
        intro c' hc'
        rw [closed_endgameSubBlocks]
        exact hcs c' hc'

theorem not_closed_of_downloading {std : StdSort}
    (h : c ∈ std.sort σ.remaining
      (σ.activeChunks.filter fun c => σ.chunkStates.getD c .complete = .downloading)) :
    ¬σ.closed c := by
  have hd := of_decide_eq_true (List.mem_filter.mp ((std.perm ..).mem_iff.mp h)).right
  simp only [closed, hd]
  decide

theorem duplicating_tickEndgame {std : StdSort} : σ.AllDuplicating (tickEndgame std now σ) :=
  duplicating_endgameChunks fun _ => not_closed_of_downloading

end Endgame

section Methods

theorem allAt_forEach {f : Nat → Scheduler → List Action}
    (hf : ∀ x (σ : Scheduler), Actions.AllAt apply P σ (f x σ)) :
    Actions.AllAt apply P σ (forEach f xs σ) := by
  induction xs generalizing σ <;> simp only [forEach]
  case nil => trivial
  case cons x xs hi => exact Actions.allAt_append.mpr ⟨hf x σ, hi⟩

theorem reaction_rebalanceAll (now : UInt64) : σ.AllReaction (rebalanceAll now σ) :=
  allAt_forEach fun _ _ => rebalancing_rebalanceSeedRequestsForPeer.reaction

theorem assigning_scheduleAll (now : UInt64) : σ.AllAssigning (scheduleAll now σ) :=
  allAt_forEach fun _ _ => assigning_tryScheduleForPeer

-- A property of actions that covers whatever the loops of the scheduler do.
structure Covers (P : Scheduler → Action → Prop) : Prop where
  assigning     : ∀ {σ a}, Assigning σ a → P σ a
  rebalancing   : ∀ {σ k a}, Rebalancing k σ a → P σ a
  notInterested : ∀ {σ slot}, P σ (.notInterested slot)

section Covers

variable {P : Scheduler → Action → Prop}

theorem Covers.rebalance (h : Covers P) :
    Actions.AllAt apply P σ (rebalanceSeedRequestsForPeer i now n σ) :=
  rebalancing_rebalanceSeedRequestsForPeer.mono fun _ _ => h.rebalancing

theorem Covers.schedule (h : Covers P) : Actions.AllAt apply P σ (tryScheduleForPeer i now σ) :=
  assigning_tryScheduleForPeer.mono fun _ _ => h.assigning

theorem Covers.tick {std : StdSort} (h : Covers P) (hd : ∀ {σ a}, Duplicating σ a → P σ a) :
    Actions.AllAt apply P σ (tick std now σ) := by
  unfold Scheduler.tick
  split
  case isTrue => trivial
  case isFalse =>
    simp only [Actions.allAt_append, Actions.exec_append]
    refine ⟨⟨allAt_forEach fun _ _ => h.rebalance, allAt_forEach fun _ _ => h.schedule⟩, ?_⟩
    split
    case isTrue  => exact duplicating_tickEndgame.mono fun _ _ => hd
    case isFalse => trivial

theorem Covers.checkPeerInterest (h : Covers P) :
    Actions.AllAt apply P σ (checkPeerInterest slot σ') := by
  unfold Scheduler.checkPeerInterest
  split
  case isTrue  => exact ⟨h.notInterested, trivial⟩
  case isFalse => trivial

theorem exec_checkPeerInterest : Actions.exec apply σ (checkPeerInterest slot σ') = σ := by
  unfold checkPeerInterest
  split <;> rfl

-- What a message of a peer does besides what is recorded.
theorem Covers.checked_rebalance (h : Covers P) : Actions.AllAt apply P σ
    (Scheduler.checkPeerInterest slot σ ++ rebalanceSeedRequestsForPeer i now n σ) := by
  refine Actions.allAt_append.mpr ⟨h.checkPeerInterest, ?_⟩
  rw [exec_checkPeerInterest]
  exact h.rebalance

theorem Covers.onBitfield (h : Covers P)
    (hb : ∀ {i}, σ.peerSlot slot = some i → P σ (.setBitfield i bf)) :
    Actions.AllAt apply P σ (onBitfield slot bf now σ) := by
  unfold Scheduler.onBitfield
  split
  case h_1 => trivial
  case h_2 hi => exact ⟨hb hi, h.checked_rebalance⟩

theorem Covers.onHave (h : Covers P)
    (hh : ∀ {i}, σ.peerSlot slot = some i → P σ (.recordHave i c)) :
    Actions.AllAt apply P σ (onHave slot c now σ) := by
  unfold Scheduler.onHave
  split
  case h_1 => trivial
  case h_2 i hi =>
    split
    case h_1 => trivial
    case h_2 p _ =>
      split
      case isTrue => trivial
      case isFalse =>
        rw [List.append_assoc]
        refine Actions.allAt_append.mpr ⟨?_, h.checked_rebalance⟩
        split
        case isTrue  => trivial
        case isFalse => exact ⟨hh hi, trivial⟩

theorem Covers.decPeerPending (h : Covers P)
    (ha : ∀ {i p}, σ.peerSlots[i]? = some p → 0 < p.pendingRequests → P σ (.arrive i c b)) :
    Actions.AllAt apply P σ (decPeerPending slot c b now σ) := by
  unfold Scheduler.decPeerPending
  split
  case h_1 => trivial
  case h_2 =>
    split
    case h_1 => trivial
    case h_2 p hp =>
      split
      case isTrue => trivial
      case isFalse hz =>
        refine ⟨ha hp (Nat.pos_of_ne_zero hz), ?_⟩
        split
        case isTrue  => exact h.schedule
        case isFalse => trivial

end Covers

theorem covers_reaction : Covers Reaction :=
  ⟨Assigning.reaction, Rebalancing.reaction, trivial⟩

theorem covers_traffic : Covers Traffic :=
  ⟨(·.reaction.traffic), (·.reaction.traffic), trivial⟩

theorem traffic_tick {std : StdSort} : σ.AllTraffic (tick std now σ) :=
  covers_traffic.tick Duplicating.traffic

theorem reaction_onBitfield : σ.AllReaction (onBitfield slot bf now σ) :=
  covers_reaction.onBitfield fun _ => trivial

theorem reaction_onHave : σ.AllReaction (onHave slot c now σ) :=
  covers_reaction.onHave fun _ => trivial

theorem reaction_decPeerPending : σ.AllReaction (decPeerPending slot c b now σ) :=
  covers_reaction.decPeerPending fun hp h0 => ⟨_, hp, h0⟩

theorem guarded_processCompletions (σ' : Scheduler) (h : ∀ m ∈ msgs, m.chunkIdx < σ.totalChunks) :
    σ.Guarded (processCompletions msgs σ') := by
  refine Actions.allAt_append.mpr ⟨?_, trivial, trivial⟩
  refine Actions.allAt_of_pairwise (List.pairwise_map.mpr ?_) (List.forall_mem_map.mpr h)
  refine List.pairwise_of_forall fun m m' σ (hm : m'.chunkIdx < σ.totalChunks) => ?_
  exact hm.trans_eq totalChunks_apply.symm

theorem guarded_markComplete {cs : List Nat} (h : ∀ c ∈ cs, ¬σ.closed c) (hn : cs.Nodup) :
    σ.Guarded (cs.map .markComplete ++ [.settle false]) := by
  refine Actions.allAt_append.mpr ⟨?_, trivial, trivial⟩
  refine Actions.allAt_of_pairwise (List.pairwise_map.mpr (hn.imp ?_)) (List.forall_mem_map.mpr h)
  intro c c' hne σ (ho : ¬σ.closed c') hc
  rw [closed_apply] at hc
  exact (Bool.or_eq_true_iff.mp hc).elim ho fun he => hne (of_decide_eq_true he)

theorem guarded_markAllComplete : σ.Guarded (markAllComplete bf σ) := by
  refine guarded_markComplete ?_ (List.nodup_range.filter _)
  intro c hc
  have hf := (List.mem_filter.mp hc).right
  simp only [Bool.and_eq_true, Bool.not_eq_true'] at hf
  simp [hf.right]

-- A legal operation performs its actions only when their guards hold.
theorem guarded_actions {std : StdSort} (hl : σ.Legal op) :
    σ.Guarded (actions std op σ) := by
  cases op
  case randomizePieceOrder => exact ⟨hl, trivial⟩
  case onPeerAdded         => exact ⟨hl, trivial⟩
  case onVerifyFailed      => exact ⟨hl, trivial⟩
  case onBitfield          => exact reaction_onBitfield.traffic.guarded
  case onHave              => exact reaction_onHave.traffic.guarded
  case decPeerPending      => exact reaction_decPeerPending.traffic.guarded
  case tick                => exact traffic_tick.guarded
  case processCompletions  => exact guarded_processCompletions σ hl
  case markAllComplete     => exact guarded_markAllComplete
  case onSubblockTimeout   =>
    simp only [actions, onSubblockTimeout]
    split
    case isTrue     => trivial
    case isFalse hc => exact ⟨hc, trivial⟩
  case onPeerSpeed | onChokeChange | evalTick =>
    simp only [actions, onSlot]
    cases σ.peerSlot _ <;> simp [Guard]
  all_goals exact ⟨trivial, trivial⟩

def Action.isRequest : Action → Bool
  | .assign .. | .move .. | .redundant .. => true
  | _                                     => false

def Op.isTraffic : Op → Bool
  | .onBitfield .. | .onHave .. | .decPeerPending .. | .tick _ => true
  | _                                                          => false

-- The actions of the operations that do not look at what peers have.
inductive Op.Makes : Op → Action → Prop
  | setCancelIssuer        : Makes .setCancelIssuer .setCancelIssuer
  | setNotInterestedIssuer : Makes .setNotInterestedIssuer .setNotInterestedIssuer
  | shuffle                : Makes (.randomizePieceOrder order) (.shuffle order)
  | addPeer                : Makes (.onPeerAdded slot speed) (.addPeer slot speed)
  | setSpeed               : Makes (.onPeerSpeed slot speed) (.setSpeed i speed)
  | removePeer             : Makes (.onPeerRemoved slot) (.removePeer slot)
  | setChoking             : Makes (.onChokeChange slot choking) (.setChoking i choking)
  | setEval                : Makes (.evalTick slot cap timeouts rtt) (.setEval i cap timeouts rtt)
  | complete               : m ∈ msgs →
    Makes (.processCompletions msgs) (.complete m.chunkIdx m.winningPeerSlot)
  | completed              : Makes (.processCompletions msgs) (.settle true)
  | verifyFailed           : Makes (.onVerifyFailed c) (.verifyFailed c)
  | timeout                : Makes (.onSubblockTimeout c b) (.timeout c b)
  | markComplete           : bf.getD c false → Makes (.markAllComplete bf) (.markComplete c)
  | marked                 : Makes (.markAllComplete bf) (.settle false)

-- Where an action comes from.
theorem makes_of_mem {std : StdSort} (ha : a ∈ actions std op σ) :
    (op.isTraffic ∧ ∃ τ : Scheduler, τ.Traffic a) ∨ op.Makes a := by
  cases op
  case onBitfield     => exact .inl ⟨rfl, reaction_onBitfield.traffic.exists_of_mem ha⟩
  case onHave         => exact .inl ⟨rfl, reaction_onHave.traffic.exists_of_mem ha⟩
  case decPeerPending => exact .inl ⟨rfl, reaction_decPeerPending.traffic.exists_of_mem ha⟩
  case tick           => exact .inl ⟨rfl, traffic_tick.exists_of_mem ha⟩
  all_goals right
  case onPeerSpeed | onChokeChange | evalTick =>
    obtain ⟨_, _, rfl⟩ := List.mem_map.mp ha
    constructor
  case processCompletions msgs =>
    cases List.mem_append.mp ha
    case inr ha => exact List.mem_singleton.mp ha ▸ .completed
    case inl ha =>
      obtain ⟨m, hm, rfl⟩ := List.mem_map.mp ha
      exact .complete hm
  case markAllComplete bf =>
    cases List.mem_append.mp ha
    case inr ha => exact List.mem_singleton.mp ha ▸ .marked
    case inl ha =>
      obtain ⟨c, hc, rfl⟩ := List.mem_map.mp ha
      exact .markComplete (Bool.and_eq_true_iff.mp (List.mem_filter.mp hc).right).left
  case onSubblockTimeout =>
    simp only [actions, onSubblockTimeout] at ha
    split at ha
    case isTrue  => cases ha
    case isFalse => exact List.mem_singleton.mp ha ▸ .timeout
  all_goals
    rw [List.mem_singleton.mp ha]
    constructor

theorem makes_of_not_isTraffic {std : StdSort} (h : op.isTraffic = false)
    (ha : a ∈ actions std op σ) : op.Makes a :=
  (makes_of_mem ha).resolve_left fun ht => by simp [h] at ht

-- Operations that do not look at what peers have request nothing.
theorem isRequest_of_mem {std : StdSort} (h : op.isTraffic = false) (ha : a ∈ actions std op σ) :
    a.isRequest = false := by
  cases makes_of_not_isTraffic h ha <;> rfl

-- The actions that give a slot to a peer or take it away.
def Action.seats : Action → Bool
  | .addPeer .. | .removePeer _ => true
  | _                           => false

def Op.seats : Op → Bool
  | .onPeerAdded .. | .onPeerRemoved _ => true
  | _                                  => false

theorem seats_of_mem {std : StdSort} (h : op.seats = false) (ha : a ∈ actions std op σ) :
    a.seats = false := by
  obtain ⟨_, _, ht⟩ | hm := makes_of_mem ha
  case inl =>
    cases a
    case addPeer | removePeer => cases ht
    all_goals rfl
  case inr =>
    cases hm
    case addPeer | removePeer => cases h
    all_goals rfl

theorem slotIds_apply (h : a.seats = false) :
    (σ.apply a).peerSlots.map (·.slotId) = σ.peerSlots.map (·.slotId) := by
  rw [peerSlots_apply]
  split
  case h_1 => cases h
  case h_2 => cases h
  case h_3 => exact map_slotId_mapIdx

theorem slotIds_exec {as : List Action} (h : ∀ a ∈ as, a.seats = false) :
    (σ.exec as).peerSlots.map (·.slotId) = σ.peerSlots.map (·.slotId) := by
  induction as generalizing σ
  case nil          => rfl
  case cons a as hi =>
    have ⟨ha, hs⟩ := List.forall_mem_cons.mp h
    exact (hi hs).trans (slotIds_apply ha)

theorem slotIds_run {std : StdSort} {ops : List Op} (h : ∀ op ∈ ops, op.seats = false) :
    (run std σ ops).peerSlots.map (·.slotId) = σ.peerSlots.map (·.slotId) := by
  induction ops generalizing σ
  case nil            => rfl
  case cons op ops hi =>
    have ⟨ho, hs⟩ := List.forall_mem_cons.mp h
    exact (hi hs).trans (slotIds_exec fun _ => seats_of_mem ho)

end Methods

end ThinBT.Scheduler
