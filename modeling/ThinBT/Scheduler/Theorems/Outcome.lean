import ThinBT.Scheduler.Theorems.Methods

namespace ThinBT.Scheduler

variable {σ : Scheduler} {std : StdSort}

theorem totalChunks_exec {as : List Action} :
    (Actions.exec apply σ as).totalChunks = σ.totalChunks := by
  induction as generalizing σ
  case nil          => rfl
  case cons a as hi => rw [Actions.exec_cons, hi, totalChunks_apply]

theorem subTotal_exec {as : List Action} : (Actions.exec apply σ as).subTotal = σ.subTotal := by
  induction as generalizing σ
  case nil          => rfl
  case cons a as hi => rw [Actions.exec_cons, hi, subTotal_apply]

theorem rowLength_subDone_exec {as : List Action} :
    (Actions.exec apply σ as).chunkSubDone.rowLength c = σ.chunkSubDone.rowLength c := by
  induction as generalizing σ
  case nil          => rfl
  case cons a as hi => rw [Actions.exec_cons, hi, rowLength_subDone_apply]

theorem totalChunks_run {ops : List Op} : (run std σ ops).totalChunks = σ.totalChunks := by
  rw [run, ← Actions.exec_perform, totalChunks_exec]

theorem subTotal_run {ops : List Op} : (run std σ ops).subTotal = σ.subTotal := by
  rw [run, ← Actions.exec_perform, subTotal_exec]

theorem rowLength_subDone_run {ops : List Op} :
    (run std σ ops).chunkSubDone.rowLength c = σ.chunkSubDone.rowLength c := by
  rw [run, ← Actions.exec_perform, rowLength_subDone_exec]

section Closed

def Action.completes (c : Nat) : Action → Bool
  | .complete c' _ | .markComplete c' => c' = c
  | _                                 => false

-- The operations that complete a chunk, and those that take this back.
def Op.completes (c : Nat) : Op → Bool
  | .processCompletions msgs => msgs.any (·.chunkIdx = c)
  | .markAllComplete bf      => bf.getD c false
  | _                        => false

def Op.reopens (c : Nat) : Op → Bool
  | .onVerifyFailed c' => c' = c
  | _                  => false

theorem of_closed_apply (h : (σ.apply a).closed c) : σ.closed c ∨ a.completes c := by
  rw [closed_apply] at h
  cases a
  case complete | markComplete => exact Bool.or_eq_true_iff.mp h
  case beginDownload | verifyFailed =>
    dsimp only at h
    split at h
    case isTrue  => cases h
    case isFalse => exact .inl h
  all_goals exact .inl h

theorem of_closed_exec {as : List Action} (h : (Actions.exec apply σ as).closed c) :
    σ.closed c ∨ ∃ a ∈ as, a.completes c := by
  induction as generalizing σ
  case nil => exact .inl h
  case cons a as hi =>
    cases hi h
    case inr h =>
      have ⟨a', ha, hc⟩ := h
      exact .inr ⟨a', List.mem_cons_of_mem _ ha, hc⟩
    case inl h => exact (of_closed_apply h).imp id fun hc => ⟨a, List.mem_cons_self, hc⟩

-- The actions with which chunks are completed.
def Action.finishes : Action → Bool
  | .complete .. | .markComplete _ | .settle _ => true
  | _                                          => false

theorem Action.finishes_of_completes {a : Action} (h : a.completes c) : a.finishes := by
  cases a
  case complete | markComplete => rfl
  all_goals cases h

theorem Traffic.finishes_eq_false (h : σ.Traffic a) : a.finishes = false := by
  cases a
  case complete | markComplete | settle => cases h
  all_goals rfl

theorem finishes_of_mem (ha : a ∈ actions std op σ) (hf : a.finishes) :
    (∃ msgs, op = .processCompletions msgs) ∨ ∃ bf, op = .markAllComplete bf := by
  obtain ⟨_, _, ht⟩ | hm := makes_of_mem ha
  case inl =>
    rw [ht.finishes_eq_false] at hf
    cases hf
  case inr =>
    cases hm
    case complete | completed  => exact .inl ⟨_, rfl⟩
    case markComplete | marked => exact .inr ⟨_, rfl⟩
    all_goals cases hf

theorem completes_of_mem (ha : a ∈ actions std op σ) (hc : a.completes c) : op.completes c := by
  obtain ⟨_, _, ht⟩ | hm := makes_of_mem ha
  case inl =>
    have hf := Action.finishes_of_completes hc
    rw [ht.finishes_eq_false] at hf
    cases hf
  case inr =>
    cases hm
    case complete _ m hm => exact List.any_eq_true.mpr ⟨m, hm, hc⟩
    case markComplete hb => exact of_decide_eq_true hc ▸ hb
    all_goals cases hc

-- A chunk that is complete after an operation was complete before or is completed by it.
theorem of_closed_next (hl : c < σ.totalChunks) (h : (next std σ op).closed c) :
    (σ.closed c ∧ op.reopens c = false) ∨ op.completes c := by
  by_cases hr : op.reopens c
  case neg =>
    refine (of_closed_exec h).imp (⟨·, eq_false_of_ne_true hr⟩) ?_
    rintro ⟨a, ha, hc⟩
    exact completes_of_mem ha hc
  case pos =>
    cases op
    case onVerifyFailed c' =>
      have h : (σ.apply (.verifyFailed c')).closed c := h
      rw [closed_apply] at h
      simp only [of_decide_eq_true hr, hl, and_self, if_true] at h
      cases h
    all_goals cases hr

theorem of_closed_run {ops : List Op} (hl : c < σ.totalChunks) (h : (run std σ ops).closed c) :
    (σ.closed c ∧ ∀ op ∈ ops, op.reopens c = false) ∨ ∃ op ∈ ops, op.completes c := by
  induction ops generalizing σ
  case nil => exact .inl ⟨h, List.forall_mem_nil _⟩
  case cons op ops hi =>
    have hl' : c < (next std σ op).totalChunks := by
      rwa [next, Actions.after, totalChunks_exec]
    cases hi hl' h
    case inr hc =>
      have ⟨op', ho, hc⟩ := hc
      exact .inr ⟨op', List.mem_cons_of_mem _ ho, hc⟩
    case inl hc =>
      cases of_closed_next hl hc.left
      case inl hn => exact .inl ⟨hn.left, List.forall_mem_cons.mpr ⟨hn.right, hc.right⟩⟩
      case inr hn => exact .inr ⟨op, List.mem_cons_self, hn⟩

theorem reopens_of_mem (ha : .verifyFailed c ∈ actions std op σ) : op.reopens c := by
  obtain ⟨_, _, ht⟩ | hm := makes_of_mem ha
  case inl => cases ht
  case inr =>
    cases hm
    exact decide_eq_true rfl

-- A guarded action keeps a complete chunk, unless its verification has failed.
theorem Guard.closed_apply (hg : σ.Guard a) (ha : a ≠ .verifyFailed c) (h : σ.closed c) :
    (σ.apply a).closed c := by
  rw [Scheduler.closed_apply]
  cases a
  case complete | markComplete => exact Bool.or_eq_true_iff.mpr (.inl h)
  case beginDownload c' =>
    have hn : ¬(c' = c ∧ c < σ.totalChunks) := fun he => hg (he.left ▸ h)
    simpa only [if_neg hn] using h
  case verifyFailed c' =>
    have hn : ¬(c' = c ∧ c < σ.totalChunks) := fun he => ha (he.left ▸ rfl)
    simpa only [if_neg hn] using h
  all_goals exact h

theorem allAt_ne_verifyFailed (hr : op.reopens c = false) :
    Actions.AllAt apply (fun _ a => a ≠ .verifyFailed c) σ (actions std op σ) := by
  refine Actions.allAt_of_forall fun a ha _ he => ?_
  subst he
  rw [reopens_of_mem ha] at hr
  cases hr

-- What is legal apart from the slots of new peers, on which the chunks do not depend.
def InRange (σ : Scheduler) (op : Op) : Prop :=
  σ.Legal op ∨ ∃ slot speed, op = .onPeerAdded slot speed

theorem InRange.allGuardOrAdd (h : σ.InRange op) :
    Actions.AllAt apply GuardOrAdd σ (actions std op σ) := by
  obtain hl | ⟨slot, speed, rfl⟩ := h
  case inl => exact (guarded_actions hl).mono fun _ _ hg => .inl hg
  case inr => exact ⟨.inr ⟨slot, speed, rfl⟩, trivial⟩

theorem GuardOrAdd.closed_apply (hg : σ.GuardOrAdd a) (ha : a ≠ .verifyFailed c)
    (h : σ.closed c) : (σ.apply a).closed c := by
  obtain hg | ⟨slot, speed, rfl⟩ := hg
  case inl => exact hg.closed_apply ha h
  case inr => rwa [Scheduler.closed_apply]

-- A chunk that is complete is only opened again by `on_verify_failed`.
theorem closed_next (hl : σ.InRange op) (hr : op.reopens c = false) (h : σ.closed c) :
    (next std σ op).closed c := by
  have step (σ : Scheduler) (a : Action) (hc : σ.closed c)
      (ha : σ.GuardOrAdd a ∧ a ≠ .verifyFailed c) : (σ.apply a).closed c :=
    ha.left.closed_apply ha.right hc
  exact (hl.allGuardOrAdd.and (allAt_ne_verifyFailed hr)).invariant step h

theorem closed_run {ops : List Op} (hl : AllOps std InRange σ ops)
    (hr : ∀ op ∈ ops, op.reopens c = false) (h : σ.closed c) : (run std σ ops).closed c := by
  induction ops generalizing σ
  case nil => exact h
  case cons op ops hi =>
    have ⟨ho, hs⟩ := List.forall_mem_cons.mp hr
    exact hi hl.right hs (closed_next hl.left ho h)

theorem closed_processCompletions :
    (next std σ (.processCompletions msgs)).closed c = (σ.closed c || msgs.any (·.chunkIdx = c)) := by
  simp only [next, Actions.after, actions, processCompletions]
  induction msgs generalizing σ
  case nil =>
    rw [List.map_nil, List.nil_append, Actions.exec_cons, Actions.exec_nil, closed_apply, List.any_nil,
      Bool.or_false]
  case cons m msgs hi =>
    rw [List.map_cons, List.cons_append, Actions.exec_cons, hi, closed_apply, List.any_cons,
      Bool.or_assoc]

theorem closed_markAllComplete (hc : c < σ.totalChunks) :
    (next std σ (.markAllComplete bf)).closed c = (σ.closed c || bf.getD c false) := by
  have mark {σ : Scheduler} {cs : List Nat} :
      (Actions.exec apply σ (cs.map .markComplete)).closed c = (σ.closed c || decide (c ∈ cs)) := by
    induction cs generalizing σ
    case nil => simp
    case cons d cs hi =>
      rw [List.map_cons, Actions.exec_cons, hi, closed_apply, Bool.or_assoc]
      simp [eq_comm]
  simp only [next, Actions.after, actions, markAllComplete]
  rw [Actions.exec_append, Actions.exec_cons, Actions.exec_nil, closed_apply, mark]
  cases hd : σ.closed c <;> simp [hd, hc]

end Closed

section Done

-- An action that leaves the done flags alone.
def Quiet (_ : Scheduler) : Action → Prop
  | .arrive .. | .verifyFailed _ => False
  | _                            => True

abbrev AllQuiet (σ : Scheduler) : List Action → Prop :=
  Actions.AllAt apply Quiet σ

theorem AllQuiet.subDone_exec {as : List Action} (h : σ.AllQuiet as) :
    (Actions.exec apply σ as).subDone c s = σ.subDone c s := by
  induction as generalizing σ
  case nil => rfl
  case cons a as hi =>
    rw [Actions.exec_cons, hi h.right, subDone_apply]
    have ha := h.left
    cases a <;> first | rfl | cases ha

theorem covers_quiet : Covers Quiet where
  assigning {_ a} h     := by cases a <;> trivial
  rebalancing {_ _ a} h := by cases a <;> trivial
  notInterested         := trivial

theorem Duplicating.quiet (h : σ.Duplicating a) : σ.Quiet a := by
  cases a <;> trivial

-- An operation that leaves the done flags of a chunk alone.
def Op.keepsDone (c : Nat) : Op → Bool
  | .decPeerPending .. => false
  | .onVerifyFailed c' => c' ≠ c
  | _                  => true

theorem quiet_actions (h : op.keepsDone c) (hv : ∀ c', op ≠ .onVerifyFailed c') :
    σ.AllQuiet (actions std op σ) := by
  have other (ht : op.isTraffic = false) : σ.AllQuiet (actions std op σ) := by
    refine Actions.allAt_of_forall fun a ha _ => ?_
    cases makes_of_not_isTraffic ht ha
    case verifyFailed => exact absurd rfl (hv _)
    all_goals trivial
  cases op
  case decPeerPending => cases h
  case onBitfield     => exact covers_quiet.onBitfield fun _ => trivial
  case onHave         => exact covers_quiet.onHave fun _ => trivial
  case tick           => exact covers_quiet.tick Duplicating.quiet
  all_goals exact other rfl

theorem subDone_next (h : op.keepsDone c) : (next std σ op).subDone c s = σ.subDone c s := by
  by_cases hv : ∃ c', op = .onVerifyFailed c'
  case pos =>
    obtain ⟨c', rfl⟩ := hv
    have hc : c ≠ c' := Ne.symm (of_decide_eq_true h)
    have ha : (σ.apply (.verifyFailed c')).subDone c s = σ.subDone c s := by
      rw [subDone_apply]
      simp [hc]
    exact ha
  case neg => exact (quiet_actions h fun c' he => hv ⟨c', he⟩).subDone_exec

theorem subDone_run {ops : List Op} (h : ∀ op ∈ ops, op.keepsDone c) :
    (run std σ ops).subDone c s = σ.subDone c s := by
  induction ops generalizing σ
  case nil => rfl
  case cons op ops hi =>
    have ⟨ho, hs⟩ := List.forall_mem_cons.mp h
    exact (hi hs).trans (subDone_next ho)

-- `dec_peer_pending` does not return early.
def credits (σ : Scheduler) (slot : Nat) : Bool :=
  ((σ.peerSlot slot).bind (σ.peerSlots[·]?)).any (0 < ·.pendingRequests)

theorem subDone_decPeerPending :
    (next std σ (.decPeerPending slot c' b now)).subDone c s =
      (σ.subDone c s || (σ.credits slot &&
        decide ((c' = c ∧ b / subBlockSize = s) ∧ s < σ.chunkSubDone.rowLength c))) := by
  simp only [next, Actions.after, actions, decPeerPending, credits]
  split
  case h_1 hp => simp [hp]
  case h_2 i hp =>
    split
    case h_1 hi => simp [hp, hi]
    case h_2 p hi =>
      split
      case isTrue hz => simp [hp, hi, hz]
      case isFalse hz =>
        have hc : (Option.bind (σ.peerSlot slot) (σ.peerSlots[·]?)).any (0 < ·.pendingRequests) := by
          simp [hp, hi, Nat.pos_of_ne_zero hz]
        have hs : (σ.apply (.arrive i c' b)).AllQuiet
            (if (σ.apply (.arrive i c' b)).phase ≠ .done then
              tryScheduleForPeer i now (σ.apply (.arrive i c' b)) else []) := by
          split
          case isTrue  => exact covers_quiet.schedule
          case isFalse => trivial
        rw [hc, Bool.true_and, Actions.exec_cons, hs.subDone_exec, subDone_apply]

end Done

theorem allOps_of_forall {ops : List Op}
    (h : ∀ op ∈ ops, ∀ σ' : Scheduler, σ'.totalChunks = σ.totalChunks → σ'.Legal op) :
    AllOps std Legal σ ops := by
  induction ops generalizing σ
  case nil => trivial
  case cons op ops hi =>
    have ⟨ho, hs⟩ := List.forall_mem_cons.mp h
    refine ⟨ho σ rfl, hi fun o hm σ' ht => hs o hm σ' (ht.trans totalChunks_exec)⟩

theorem Shape.run {ops : List Op} (h : σ.Shape) (hl : AllOps std Legal σ ops) :
    (run std σ ops).Shape :=
  Actions.invariant_of_run (fun _ _ => Shape.apply) (fun _ _ _ => guarded_actions) h hl

end ThinBT.Scheduler
