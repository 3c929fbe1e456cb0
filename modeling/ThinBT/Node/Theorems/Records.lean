import ThinBT.Node.Theorems.Wired
import ThinBT.Scheduler.Theorems.Views

namespace ThinBT

-- What a peer knows after a message.
def Msg.tell (v : List Bool) : Msg → List Bool
  | haveChunk ci => v.set ci.toNat true
  | bitfield bf  => Bitfield.record bf
  | _            => v

-- What a peer knows after a sequence of messages.
def remoteBits (v : List Bool) (ms : List Msg) : List Bool :=
  ms.foldl Msg.tell v

theorem remoteBits_append : remoteBits v (ms ++ ns) = remoteBits (remoteBits v ms) ns :=
  List.foldl_append

namespace Node

open PeerSession

variable {δ : Type} {n n' n₀ : Node δ} {now : UInt64} {k : Nat} {s s' : PeerSession} {a : Action}
variable {op : Op} {std : StdSort}

-- The messages that an action takes from the socket of a session.
def Action.takes (k : Nat) : Action → List Msg
  | .dispatch j m => if j = k then [m] else []
  | .session j u  => if j = k then PeerSession.takes u else []
  | _             => []

theorem received_modify (hk : n.sessions[k]? = some s) :
    ∃ s', (n.modify now j u).sessions[k]? = some s' ∧
      s'.received = s.received ++ if j = k then PeerSession.takes u else [] := by
  rw [modify, List.getElem?_modify, hk, Option.map_eq_map, Option.map_some]
  refine ⟨_, rfl, ?_⟩
  split
  case isTrue  => exact received_apply
  case isFalse => exact (List.append_nil _).symm

theorem received_onSessions (h : n.onSessions now a = some n₁) (hk : n.sessions[k]? = some s) :
    ∃ s', n₁.sessions[k]? = some s' ∧ s'.received = s.received ++ a.takes k := by
  have same : s.received = s.received ++ [] := (List.append_nil _).symm
  have other {u : Update} (j : Nat) (hu : PeerSession.takes u = []) :
      ∃ s', (n.modify now j u).sessions[k]? = some s' ∧ s'.received = s.received ++ [] := by
    obtain ⟨s', hs', he⟩ : ∃ s', (n.modify now j u).sessions[k]? = some s' ∧ _ := received_modify hk
    exact ⟨s', hs', by rwa [hu, ite_self] at he⟩
  cases a
  case task op =>
    obtain rfl := Option.some.inj h
    exact ⟨s, hk, same⟩
  case attach r =>
    obtain rfl := Option.some.inj h
    exact ⟨s, (List.getElem?_append_left (List.getElem?_eq_some_iff.mp hk).choose).trans hk, same⟩
  case detach j =>
    obtain rfl := Option.some.inj h
    split
    case isTrue  => exact ⟨s, hk, same⟩
    case isFalse => exact other j rfl
  case announce j =>
    simp only [onSessions] at h
    split at h
    case isTrue =>
      obtain rfl := Option.some.inj h
      exact ⟨s, hk, same⟩
    case isFalse =>
      obtain ⟨bf, hb, h⟩ := Option.bind_eq_some_iff.mp h
      obtain rfl := Option.some.inj h
      exact other j rfl
  case dispatch j m =>
    obtain rfl := Option.some.inj h
    exact received_modify hk
  case session j u =>
    obtain rfl := Option.some.inj h
    exact received_modify hk

theorem isPlain_of_routine {τ : Task δ} (h : Routine top) (ho : o ∈ τ.schedulerOps top) :
    o.isPlain := by
  cases top
  case session op =>
    obtain rfl := List.mem_singleton.mp ho
    cases o <;> first | rfl | cases h
  case piece       => cases h
  case io | verify => cases ho
  case tick now dead =>
    obtain rfl | ⟨_, _, _, rfl⟩ | ⟨_, rfl⟩ := Task.mem_tickOps.mp ho
    all_goals rfl

-- Different sessions that are not over have different slots.
theorem Wired.slot_ne (h : n.Wired Q) (hj : n.sessions[j]? = some t) (hk : n.sessions[k]? = some s)
    (ht : t.reading ≠ .nothing) (hs : s.reading ≠ .nothing) (hne : j ≠ k) :
    t.slotId.toNat ≠ s.slotId.toNat := by
  intro he
  have hu := h.unique j k _ _ (wire_of_session hj) (wire_of_session hk) ht hs
  exact hne (hu (UInt32.toNat_inj.mp he))

-- Only the slot of its session shows what a message tells.
theorem shown_dispatch {τ : Task δ} :
    (Scheduler.run std τ.scheduler (((dispatchOp now s m).map τ.schedulerOps).getD [])).shown slot =
      if s.slotId.toNat = slot then (τ.scheduler.shown slot).map (Msg.tell · m)
      else τ.scheduler.shown slot := by
  have same (h : ∀ v, Msg.tell v m = v) : τ.scheduler.shown slot =
      if s.slotId.toNat = slot then (τ.scheduler.shown slot).map (Msg.tell · m)
      else τ.scheduler.shown slot := by
    simp only [h, Option.map_id', ite_self]
  cases m
  case haveChunk ci   => exact Scheduler.shown_onHave
  case bitfield bf    => exact Scheduler.shown_onBitfield
  case choke | unchoke =>
    exact (Scheduler.shown_run (List.forall_mem_singleton.mpr rfl)).trans (same fun _ => rfl)
  case piece index begin data =>
    refine Eq.trans ?_ (same fun _ => rfl)
    simp only [dispatchOp]
    split
    case isFalse => rfl
    case isTrue  => exact Scheduler.shown_run (List.forall_mem_singleton.mpr rfl)
  all_goals exact same fun _ => rfl

section Apply

variable [DecidableEq δ] {sha256 : List UInt8 → δ}

theorem received_of_apply (h : n.apply sha256 std now a = some n') (hk : n.sessions[k]? = some s)
    (hk' : n'.sessions[k]? = some s') : s'.received = s.received ++ a.takes k := by
  obtain ⟨n₁, h₁, h⟩ := apply_eq_some.mp h
  obtain ⟨s₁, hs₁, hr⟩ := received_onSessions h₁ hk
  obtain ⟨_, rfl⟩ | ⟨op, _, h⟩ := h
  case inl => rw [Option.some.inj (hk'.symm.trans hs₁), hr]
  case inr =>
    obtain ⟨τ, _, rfl⟩ := taskStep_eq_some.mp h
    obtain ⟨s₂, hs₂, he⟩ := callbacks_frame hs₁
    rw [Option.some.inj (hk'.symm.trans hs₂), he.received, hr]

theorem scheduler_apply (h : n.apply sha256 std now a = some n') :
    n'.task.scheduler = Scheduler.run std n.task.scheduler
      (((n.taskOp now a).map n.task.schedulerOps).getD []) := by
  obtain ⟨ho, ht⟩ | ⟨op, ho, hs⟩ := task_apply h
  case inl => rw [ho, ht]; rfl
  case inr => rw [ho, Task.scheduler_step hs]; rfl

-- The slot of a session shows what the session receives.
theorem shown_of_apply (hw : n.Wired Q) (hg : Guard op n₀ n a) (h : n.apply sha256 std now a = some n')
    (hk : n.sessions[k]? = some s) (hk' : n'.sessions[k]? = some s') (hc : s.closed = false)
    (hc' : s'.closed = false) (hv : n.task.scheduler.shown s.slotId.toNat = some v) :
    n'.task.scheduler.shown s.slotId.toNat = some (remoteBits v (a.takes k)) := by
  have hr := (hw.basic s (List.mem_of_getElem? hk)).live hc
  rw [scheduler_apply h]
  cases a
  case task top =>
    exact (Scheduler.shown_run fun _ ho => isPlain_of_routine hg.left ho).trans hv
  case attach r =>
    refine (Scheduler.shown_onPeerAdded std).trans ?_
    rw [hv]
    rfl
  case detach j =>
    simp only [taskOp]
    split
    case isTrue => exact hv
    case isFalse hd =>
      cases hj : n.sessions[j]?
      case none   => exact hv
      case some t =>
        have hne : j ≠ k := by
          rintro rfl
          obtain ⟨t', ht', hs⟩ := state_detach h hk
          obtain rfl := Option.some.inj (hk'.symm.trans ht')
          rw [(hw.basic.apply hg h s' (List.mem_of_getElem? hk')).disconnected hs] at hc'
          cases hc'
        have ht : t.reading ≠ .nothing := by
          refine (hw.basic t (List.mem_of_getElem? hj)).reading fun hs => hd ?_
          rw [isDisconnected, hj, Option.all_some, decide_eq_true_eq]
          exact hs
        refine (Scheduler.shown_onPeerRemoved std).trans ?_
        rw [if_neg (hw.slot_ne hj hk ht hr hne), hv]
        rfl
  case announce j => exact hv
  case dispatch j m =>
    have hd (t : PeerSession) (hj : n.sessions[j]? = some t) :
        (Scheduler.run std n.task.scheduler
          (((n.taskOp now (.dispatch j m)).map n.task.schedulerOps).getD [])).shown s.slotId.toNat =
          if t.slotId.toNat = s.slotId.toNat then some (Msg.tell v m) else some v := by
      rw [taskOp, hj]
      exact shown_dispatch.trans (by rw [hv, Option.map_some])
    by_cases hj : j = k
    case pos =>
      subst hj
      rw [hd s hk, if_pos rfl, Action.takes, if_pos rfl]
      rfl
    case neg =>
      rw [Action.takes, if_neg hj]
      cases ht : n.sessions[j]?
      case none   => rw [taskOp, ht]; exact hv
      case some t =>
        have hm : t.reading ≠ .nothing := hg.right.right.right t ht ▸ Reading.noConfusion
        rw [hd t ht, if_neg (hw.slot_ne ht hk hm hr hj)]
        rfl
  case session j u =>
    have ht : remoteBits v (if j = k then PeerSession.takes u else []) = v := by
      split
      case isFalse => rfl
      case isTrue hj =>
        subst hj
        have hs := (hg s hk).right
        cases u
        case receive m => obtain ⟨_, _, _, rfl⟩ := hs; rfl
        case dispatch  => cases hs
        all_goals rfl
    exact hv.trans (congrArg some ht.symm)

-- The slots show what the sessions have received.
def Recorded (n : Node δ) : Prop :=
  ∀ (k : Nat) (s : PeerSession), n.sessions[k]? = some s → s.closed = false →
    ∃ v, n.task.scheduler.shown s.slotId.toNat = some (remoteBits v s.received)

theorem Recorded.apply (h : n.Recorded) (hw : n.Wired Q) (hg : Guard op n₀ n a)
    (ha : n.apply sha256 std now a = some n') : n'.Recorded := by
  intro k s' hk' hc'
  obtain ⟨s, hk, he⟩ | ⟨r, rfl, _, rfl⟩ := session_of_apply ha hk'
  case inl =>
    have hF := he.invariant s.Follows (fun _ _ hF _ => hF.apply) .refl
    have hc := hF.closed hc'
    obtain ⟨v, hv⟩ := h k s hk hc
    refine ⟨v, ?_⟩
    rw [hF.slotId, shown_of_apply hw hg ha hk hk' hc hc' hv, received_of_apply ha hk hk', remoteBits_append]
  case inr =>
    rw [scheduler_apply ha]
    cases hv : n.task.scheduler.shown n.nextSlotId.toNat
    case some v => exact ⟨v, (Scheduler.shown_onPeerAdded std).trans (by rw [hv]; rfl)⟩
    case none   => exact ⟨_, (Scheduler.shown_onPeerAdded std).trans (by rw [hv, if_pos rfl]; rfl)⟩

end Apply
end Node
end ThinBT
