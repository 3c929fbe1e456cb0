import ThinBT.Node.Theorems.Records

namespace ThinBT

theorem Scheduler.Op.seats_of_isPlain {op : Op} (h : op.isPlain) : op.seats = false := by
  cases op
  case onPeerAdded | onPeerRemoved => cases h
  all_goals rfl

namespace Wire

variable {ws : List Wire} {u : PeerSession.Update} {k : Nat} {x : Wire}

-- The slots of the sessions that are open.
def openSlots (ws : List Wire) : List Nat :=
  (ws.filter (!·.closed)).map (·.slotId.toNat)

theorem openSlots_modify (h : u ≠ .close) :
    openSlots (ws.modify k (apply · u)) = openSlots ws :=
  List.map_filter_modify (fun _ => by rw [closed_apply h]) fun _ => by rw [slotId_apply]

theorem openSlots_close (h : (ws.map (·.slotId.toNat)).Nodup) (hk : ws[k]? = some x) :
    openSlots (ws.modify k (apply · .close)) = (openSlots ws).filter (· ≠ x.slotId.toNat) :=
  List.map_filter_modify_of_neg h hk rfl

theorem openSlots_append :
    openSlots (ws ++ [⟨slot, false, r⟩]) = openSlots ws ++ [slot.toNat] := by
  rw [openSlots, List.filter_append, List.map_append]
  rfl

theorem slotIds_modify :
    (ws.modify k (apply · u)).map (·.slotId.toNat) = ws.map (·.slotId.toNat) := by
  refine List.ext_getElem? fun j => ?_
  rw [List.getElem?_map, List.getElem?_map, List.getElem?_modify]
  cases ws[j]?
  case none => rfl
  case some y =>
    simp only [Option.map_eq_map, Option.map_some, Option.some.injEq]
    split
    case isTrue  => rw [slotId_apply]
    case isFalse => rfl

end Wire

namespace Node

variable {δ : Type} {n n' n₀ : Node δ} {now : UInt64} {k : Nat} {s : PeerSession} {a : Action}
variable {op : Op} {std : StdSort}

-- The slots of `sessions_`.
def openSlots (n : Node δ) : List Nat :=
  (n.sessions.filter (!·.closed)).map (·.slotId.toNat)

theorem openSlots_eq : n.openSlots = Wire.openSlots n.wires := by
  rw [openSlots, Wire.openSlots, wires, List.filter_map, List.map_map]
  rfl

theorem peerCount_eq : n.peerCount = (Wire.openSlots n.wires).length := by
  rw [← openSlots_eq, openSlots, List.length_map, peerCount, List.countP_eq_length_filter]

theorem length_wires : n.wires.length = n.sessions.length :=
  List.length_map ..

-- Only new sessions and sessions that leave change the slots of the scheduler.
theorem seats_of_taskOp (hg : Guard op n₀ n a) (ha : ∀ r, a ≠ .attach r) (hd : ∀ k, a ≠ .detach k)
    (ht : n.taskOp now a = some top) (ho : o ∈ n.task.schedulerOps top) : o.seats = false := by
  cases makes_of_taskOp ht
  case task   => exact Scheduler.Op.seats_of_isPlain (isPlain_of_routine hg.left ho)
  case attach => exact absurd rfl (ha _)
  case detach => exact absurd rfl (hd _)
  all_goals
    rw [List.mem_singleton.mp ho]
    rfl

-- The slots of sessions are their positions, and the scheduler has the slots of the open ones.
structure Seated (n : Node δ) : Prop where
  limit    : n.peerCount ≤ maxPeers
  next     : n.nextSlotId.toNat = n.sessions.length
  numbered : n.wires.map (·.slotId.toNat) = List.range n.wires.length
  slots    : n.task.scheduler.peerSlots.map (·.slotId) = Wire.openSlots n.wires

theorem Seated.nodup (h : n.Seated) : (n.wires.map (·.slotId.toNat)).Nodup :=
  h.numbered ▸ List.nodup_range

theorem Seated.slotId_eq (h : n.Seated) (hk : n.wires[k]? = some x) : x.slotId.toNat = k := by
  have hs : (n.wires.map (·.slotId.toNat))[k]? = some x.slotId.toNat := by
    rw [List.getElem?_map, hk, Option.map_some]
  rw [h.numbered] at hs
  obtain ⟨hl, he⟩ := List.getElem?_eq_some_iff.mp hs
  rw [← he, List.getElem_range]

theorem Seated.freshSlot (h : n.Seated) : n.FreshSlot := by
  intro x hx _ he
  obtain ⟨k, hk⟩ := List.getElem?_of_mem hx
  have hlt := (List.getElem?_eq_some_iff.mp hk).choose
  rw [length_wires, ← h.next, ← he, h.slotId_eq hk] at hlt
  exact absurd hlt (Nat.lt_irrefl k)

theorem seated_start {τ : Task δ} (h : τ.scheduler.peerSlots = []) :
    ({ task := τ } : Node δ).Seated where
  limit    := Nat.zero_le _
  next     := rfl
  numbered := rfl
  slots    := by rw [h]; rfl

theorem sessions_of_not_isDisconnected (h : n.isDisconnected k = false) :
    ∃ s, n.sessions[k]? = some s ∧ s.state ≠ .disconnected := by
  rw [isDisconnected] at h
  cases hk : n.sessions[k]?
  case none   => simp [hk] at h
  case some s => exact ⟨s, rfl, by simpa [hk] using h⟩

-- A session is only opened while there is room for it.
theorem peerCount_of_attach (hg : Guard op n₀ n (.attach r))
    (h : .attach r ∈ n₀.actions std now op) : n.peerCount < maxPeers := by
  obtain ⟨_, ho, rfl⟩ := hg
  cases op
  case connect | accept =>
    simp only [actions, openSession] at h
    split at h
    case isTrue     => cases h
    case isFalse hc => exact Nat.lt_of_not_le hc
  all_goals cases ho

section Apply

variable [DecidableEq δ] {sha256 : List UInt8 → δ}

theorem nextSlotId_apply (h : n.apply sha256 std now a = some n') :
    (∃ r, a = .attach r ∧ n'.nextSlotId = n.nextSlotId + 1) ∨
      (∀ r, a ≠ .attach r) ∧ n'.nextSlotId = n.nextSlotId := by
  obtain ⟨n₁, h₁, h⟩ := apply_eq_some.mp h
  have he : n'.nextSlotId = n₁.nextSlotId := by
    obtain ⟨_, rfl⟩ | ⟨top, _, h⟩ := h
    case inl => rfl
    case inr =>
      obtain ⟨τ, _, rfl⟩ := taskStep_eq_some.mp h
      rfl
  rw [he]
  obtain ⟨r, hr, rfl⟩ | ⟨ha, rfl | ⟨k, u, rfl⟩⟩ := onSessions_cases h₁
  case inl => exact .inl ⟨r, hr, rfl⟩
  all_goals exact .inr ⟨ha, rfl⟩

theorem apply_disconnected (hd : n.isDisconnected k)
    (h : n.apply sha256 std now (.detach k) = some n') : n' = n := by
  simpa [apply, onSessions, taskOp, hd] using h.symm

theorem wires_detach (hd : n.isDisconnected k = false)
    (h : n.apply sha256 std now (.detach k) = some n') :
    n'.wires = n.wires.modify k (·.apply .close) := by
  obtain ⟨n₁, h₁, h⟩ := apply_eq_some.mp h
  obtain rfl := Option.some.inj h₁
  rw [hd] at h
  obtain ⟨_, rfl⟩ | ⟨top, _, h⟩ := h
  case inl => exact wires_modify
  case inr =>
    obtain ⟨τ, _, rfl⟩ := taskStep_eq_some.mp h
    rw [wires, wires_callbacks]
    exact wires_modify

-- The slots of the scheduler after an action.
theorem slotIds_of_apply (hg : Guard op n₀ n a) (h : n.apply sha256 std now a = some n')
    (ha : ∀ r, a ≠ .attach r) (hd : ∀ k, a ≠ .detach k) :
    n'.task.scheduler.peerSlots.map (·.slotId) = n.task.scheduler.peerSlots.map (·.slotId) := by
  rw [scheduler_apply h]
  cases ht : n.taskOp now a
  case none     => rfl
  case some top => exact Scheduler.slotIds_run fun o => seats_of_taskOp hg ha hd ht

theorem Seated.attach (h : n.Seated) (hc : n.peerCount < maxPeers)
    (ha : n.apply sha256 std now (.attach r) = some n') (hl : n'.sessions.length < UInt32.size) :
    n'.Seated := by
  have hs := apply_attach ha
  have hlen : n'.sessions.length = n.sessions.length + 1 := by rw [hs, List.length_append]; rfl
  have hw : n'.wires = n.wires ++ [⟨n.nextSlotId, false, r⟩] := by
    rw [wires, hs, List.map_append]
    rfl
  refine ⟨?_, ?_, ?_, ?_⟩
  · rw [peerCount_eq, hw, Wire.openSlots_append, List.length_append, ← peerCount_eq]
    exact hc
  · obtain ⟨_, _, he⟩ | ⟨hn, _⟩ := nextSlotId_apply ha
    case inr => exact absurd rfl (hn r)
    case inl =>
      rw [he, UInt32.toNat_add, h.next, hlen]
      exact Nat.mod_eq_of_lt (hlen ▸ hl)
  · rw [hw, List.map_append, h.numbered, List.length_append, List.length_singleton,
      List.range_succ, length_wires, ← h.next]
    rfl
  · rw [scheduler_apply ha, hw, Wire.openSlots_append, ← h.slots]
    change ((n.task.scheduler.apply (.addPeer n.nextSlotId.toNat 0)).peerSlots.map (·.slotId)) = _
    rw [Scheduler.peerSlots_apply, List.map_append]
    rfl

theorem Seated.detach (h : n.Seated) (ha : n.apply sha256 std now (.detach k) = some n') :
    n'.Seated := by
  by_cases hd : n.isDisconnected k
  case pos => rwa [apply_disconnected hd ha]
  case neg =>
    have hd := eq_false_of_ne_true hd
    obtain ⟨s, hk, _⟩ := sessions_of_not_isDisconnected hd
    have hx := wire_of_session hk
    have hw := wires_detach hd ha
    have hlen := length_apply ha fun _ => Action.noConfusion
    refine ⟨?_, ?_, ?_, ?_⟩
    · rw [peerCount_eq, hw, Wire.openSlots_close h.nodup hx]
      exact Nat.le_trans (List.length_filter_le ..) (peerCount_eq ▸ h.limit)
    · obtain ⟨_, he, _⟩ | ⟨_, he⟩ := nextSlotId_apply ha
      case inl => cases he
      case inr => rw [he, h.next, hlen]
    · rw [hw, Wire.slotIds_modify, List.length_modify, h.numbered]
    · have ho : n.taskOp now (.detach k) = some (.session (.onPeerRemoved s.slotId.toNat)) := by
        simp [taskOp, hd, hk]
      rw [scheduler_apply ha, ho, hw, Wire.openSlots_close h.nodup hx, ← h.slots, List.filter_map]
      exact congrArg (List.map _) peerSlots_onPeerRemoved

theorem Seated.keep (h : n.Seated) (hg : Guard op n₀ n a)
    (ha : n.apply sha256 std now a = some n') (hn : ∀ r, a ≠ .attach r) (hd : ∀ k, a ≠ .detach k) :
    n'.Seated := by
  have hs := slotIds_of_apply hg ha hn hd
  have hlen := length_apply ha hn
  obtain ⟨r, he, _⟩ | ⟨_, hnext⟩ := nextSlotId_apply ha
  case inl => exact absurd he (hn r)
  have hr := rewires_apply hg ha
  generalize hw : n'.wires = ws at hr
  cases hr
  case attach => exact absurd rfl (hn _)
  case detach => exact absurd rfl (hd _)
  case modify u j hu _ =>
    refine ⟨?_, ?_, ?_, ?_⟩
    · rw [peerCount_eq, hw, Wire.openSlots_modify hu, ← peerCount_eq]
      exact h.limit
    · rw [hnext, h.next, hlen]
    · rw [hw, Wire.slotIds_modify, List.length_modify, h.numbered]
    · rw [hs, hw, Wire.openSlots_modify hu, h.slots]

theorem Seated.apply (h : n.Seated) (hg : Guard op n₀ n a)
    (hc : ∀ r, a = .attach r → n.peerCount < maxPeers) (ha : n.apply sha256 std now a = some n')
    (hl : n'.sessions.length < UInt32.size) : n'.Seated := by
  cases a
  case attach r => exact h.attach (hc r rfl) ha hl
  case detach k => exact h.detach ha
  all_goals exact h.keep hg ha (fun _ => Action.noConfusion) fun _ => Action.noConfusion

theorem length_le_apply (h : n.apply sha256 std now a = some n') :
    n.sessions.length ≤ n'.sessions.length := by
  cases a
  case attach r =>
    rw [apply_attach h, List.length_append]
    exact Nat.le_add_right ..
  all_goals exact Nat.le_of_eq (length_apply h fun _ => Action.noConfusion).symm

-- A step opens one session at most. Slots are given out again after `2 ^ 32` sessions.
theorem Seated.step {x : UInt64 × Op} (h : n.Seated) (hb : n.Basic)
    (hl : n.sessions.length + 1 < UInt32.size) (hs : n.step sha256 std x = some n') :
    n'.Seated ∧ n'.sessions.length ≤ n.sessions.length + 1 := by
  refine step_invariant (fun n₁ => n₁.Seated ∧ n₁.sessions.length ≤ n.sessions.length + 1)
    (fun n₁ a n₂ ha _ hg hn h₁ => ?_) hb ⟨h, Nat.le_succ _⟩ hs
  have hlen : n₂.sessions.length ≤ n.sessions.length + 1 := by
    cases a
    case attach r =>
      obtain ⟨_, _, rfl⟩ := hg
      rw [apply_attach hn, List.length_append]
      rfl
    all_goals exact (length_apply hn fun _ => Action.noConfusion).trans_le h₁.right
  refine ⟨h₁.left.apply hg (fun r hr => ?_) hn (hlen.trans_lt hl), hlen⟩
  subst hr
  exact peerCount_of_attach hg ha

end Apply

-- A node with the slots that `on_peer_removed` was called for.
structure Audited (δ : Type) where
  node     : Node δ
  removals : List Nat := []

namespace Audited

variable {x x' : Audited δ}

def removed : Option Task.Op → List Nat
  | some (.session (.onPeerRemoved slot)) => [slot]
  | _                                     => []

-- A session that has left `sessions_` has not become connected again when it is disconnected.
def NotRevived (x : Audited δ) : Action → Prop
  | .detach k => ∀ s ∈ x.node.sessions[k]?, s.closed → s.state = .disconnected
  | _         => True

instance : (a : Action) → Decidable (x.NotRevived a)
  | .detach k =>
    inferInstanceAs (Decidable (∀ s ∈ x.node.sessions[k]?, s.closed → s.state = .disconnected))
  | .task _ | .attach _ | .announce _ | .dispatch .. | .session .. => .isTrue trivial

-- The slots of sessions that have left are those that were removed.
structure Matched (x : Audited δ) : Prop where
  basic   : x.node.Basic
  seated  : x.node.Seated
  left    : ∀ (k : Nat) w, x.node.wires[k]? = some w → (k ∈ x.removals ↔ w.closed = true)
  bounded : ∀ slot ∈ x.removals, slot < x.node.wires.length

theorem matched_start {τ : Task δ} (h : τ.scheduler.peerSlots = []) :
    (⟨{ task := τ }, []⟩ : Audited δ).Matched where
  basic   := basic_start
  seated  := seated_start h
  left    := fun _ _ hk => by cases hk
  bounded := List.forall_mem_nil _

theorem removed_of_not_detach (hg : Guard op n₀ n a) (hd : ∀ k, a ≠ .detach k) :
    removed (n.taskOp now a) = [] := by
  cases ht : n.taskOp now a
  case none => rfl
  case some top =>
    cases makes_of_taskOp ht
    case task =>
      cases top
      case session o =>
        have hr : Routine (.session o) := hg.left
        cases o <;> first | rfl | cases hr
      all_goals rfl
    case detach => exact absurd rfl (hd _)
    all_goals rfl

theorem Matched.detach (h : x.Matched) (hd : x.node.isDisconnected k = false)
    (hw : x'.node.wires = x.node.wires.modify k (·.apply .close))
    (hr : x'.removals = x.removals ++ [k]) (hb : x'.node.Basic) (hs : x'.node.Seated) :
    x'.Matched ∧ (x'.removals.Nodup ↔ x.removals.Nodup ∧ x.NotRevived (.detach k)) := by
  obtain ⟨s, hk, hst⟩ := sessions_of_not_isDisconnected hd
  have hx := wire_of_session hk
  have hlt := (List.getElem?_eq_some_iff.mp hx).choose
  refine ⟨⟨hb, hs, fun j w hj => ?_, ?_⟩, ?_⟩
  · rw [hw, List.getElem?_modify, Option.map_eq_map, Option.map_eq_some_iff] at hj
    obtain ⟨v, hv, rfl⟩ := hj
    rw [hr, List.mem_append, List.mem_singleton, h.left j v hv]
    split
    case isTrue he  => exact iff_of_true (.inr he.symm) rfl
    case isFalse he => exact or_iff_left (Ne.symm he)
  · rw [hr, hw, List.length_modify]
    intro slot hm
    obtain hm | hm := List.mem_append.mp hm
    · exact h.bounded slot hm
    · exact List.mem_singleton.mp hm ▸ hlt
  · have hn : x.NotRevived (.detach k) ↔ k ∉ x.removals := by
      rw [h.left k _ hx]
      refine ⟨fun hn hc => hst (hn s hk hc), fun hc t ht ht' => ?_⟩
      obtain rfl := Option.some.inj (hk.symm.trans ht)
      exact absurd ht' hc
    rw [hr, ← List.concat_eq_append, List.nodup_concat, hn, and_comm]

theorem Matched.keep (h : x.Matched) (hw : x.node.Rewires a x'.node.wires)
    (hd : ∀ k, a ≠ .detach k) (hr : x'.removals = x.removals) (hb : x'.node.Basic)
    (hs : x'.node.Seated) : x'.Matched := by
  refine ⟨hb, hs, ?_, ?_⟩
  all_goals
    rw [hr]
    generalize x'.node.wires = ws at hw
    cases hw
  case refine_1.detach | refine_2.detach => exact absurd rfl (hd _)
  case refine_1.modify u j hu _ =>
    intro i w hi
    rw [List.getElem?_modify, Option.map_eq_map, Option.map_eq_some_iff] at hi
    obtain ⟨v, hv, rfl⟩ := hi
    rw [h.left i v hv]
    split
    case isTrue  => rw [Wire.closed_apply hu]
    case isFalse => rfl
  case refine_1.attach =>
    intro i w hi
    obtain hi | ⟨rfl, rfl⟩ := Wire.getElem?_append_new hi
    · exact h.left i w hi
    · exact iff_of_false (fun hm => Nat.lt_irrefl _ (h.bounded _ hm)) Bool.false_ne_true
  case refine_2.modify =>
    rw [List.length_modify]
    exact h.bounded
  case refine_2.attach =>
    rw [List.length_append]
    exact fun slot hm => Nat.lt_add_right _ (h.bounded slot hm)

theorem Matched.nodup_iff (h : x.Matched) : x.removals.Nodup ↔
    ∀ s ∈ x.node.sessions, x.removals.count s.slotId.toNat = if s.closed then 1 else 0 := by
  constructor
  · intro hn s hs
    obtain ⟨k, hk⟩ := List.getElem?_of_mem hs
    have hm : k ∈ x.removals ↔ s.closed = true := h.left k _ (wire_of_session hk)
    have hslot : s.slotId.toNat = k := h.seated.slotId_eq (wire_of_session hk)
    rw [hslot, List.Nodup.count hn]
    simp only [hm]
  · refine fun hc => List.nodup_iff_count_le_one.mpr fun slot => ?_
    by_cases hm : slot ∈ x.removals
    case neg => simp [List.count_eq_zero_of_not_mem hm]
    case pos =>
      -- It is the slot of a session.
      have hlt : slot < x.node.sessions.length := length_wires ▸ h.bounded slot hm
      have hk := List.getElem?_eq_getElem hlt
      have hcount := hc _ (List.mem_of_getElem? hk)
      have hslot : (x.node.sessions[slot]).slotId.toNat = slot := h.seated.slotId_eq (wire_of_session hk)
      rw [hslot] at hcount
      rw [hcount]
      split <;> decide

variable [DecidableEq δ] {sha256 : List UInt8 → δ}

section Steps

variable (sha256 : List UInt8 → δ) (std : StdSort)

def apply (now : UInt64) (x : Audited δ) (a : Action) : Option (Audited δ) :=
  (x.node.apply sha256 std now a).map fun n =>
    ⟨n, x.removals ++ removed (x.node.taskOp now a)⟩

def step (x : Audited δ) (y : UInt64 × Op) : Option (Audited δ) :=
  Machine.run (apply sha256 std y.1) x (x.node.actions std y.1 y.2)

-- A step disconnects no session that has become connected again after it left.
def Once (x : Audited δ) (y : UInt64 × Op) : Prop :=
  Machine.AllAt (apply sha256 std y.1) NotRevived x (x.node.actions std y.1 y.2)

instance : Decidable (x.Once sha256 std y) :=
  inferInstanceAs (Decidable (Machine.AllAt ..))

end Steps

theorem apply_eq_some : x.apply sha256 std now a = some x' ↔
    x.node.apply sha256 std now a = some x'.node ∧
      x'.removals = x.removals ++ removed (x.node.taskOp now a) := by
  rw [apply, Option.map_eq_some_iff]
  constructor
  · rintro ⟨n, hn, rfl⟩
    exact ⟨hn, rfl⟩
  · rintro ⟨hn, hr⟩
    exact ⟨x'.node, hn, by rw [← hr]⟩

theorem Matched.apply (h : x.Matched) (hg : Guard op n₀ x.node a)
    (hc : ∀ r, a = .attach r → x.node.peerCount < maxPeers)
    (ha : x.apply sha256 std now a = some x') (hl : x'.node.sessions.length < UInt32.size) :
    x'.Matched ∧ (x'.removals.Nodup ↔ x.removals.Nodup ∧ x.NotRevived a) := by
  rw [apply_eq_some] at ha
  obtain ⟨hx, hr⟩ := ha
  have hb := h.basic.apply hg hx
  have hs := h.seated.apply hg hc hx hl
  have keep (hd : ∀ k, a ≠ .detach k) (hn : x.NotRevived a) :
      x'.Matched ∧ (x'.removals.Nodup ↔ x.removals.Nodup ∧ x.NotRevived a) := by
    rw [removed_of_not_detach hg hd, List.append_nil] at hr
    exact ⟨h.keep (rewires_apply hg hx) hd hr hb hs, by rw [hr, and_iff_left hn]⟩
  cases a
  case detach k =>
    by_cases hd : x.node.isDisconnected k
    case pos =>
      have hn : x.NotRevived (.detach k) := fun s hk _ => by
        simpa [isDisconnected, Option.mem_def.mp hk] using hd
      have hr : x'.removals = x.removals := by simpa [taskOp, hd, removed] using hr
      rw [hr, and_iff_left hn]
      have he := apply_disconnected hd hx
      exact ⟨⟨hb, hs, by rw [he, hr]; exact h.left, by rw [he, hr]; exact h.bounded⟩, Iff.rfl⟩
    case neg =>
      have hd := eq_false_of_ne_true hd
      obtain ⟨s, hk, _⟩ := sessions_of_not_isDisconnected hd
      have hslot : s.slotId.toNat = k :=
        h.seated.slotId_eq (wire_of_session hk)
      have ho : x.node.taskOp now (.detach k) = some (.session (.onPeerRemoved k)) := by
        simp [taskOp, hd, hk, hslot]
      rw [ho] at hr
      exact h.detach hd (wires_detach hd hx) hr hb hs
  all_goals exact keep (fun _ => Action.noConfusion) trivial

theorem length_le_step (h : x.step sha256 std y = some x') :
    x.node.sessions.length ≤ x'.node.sessions.length := by
  refine Machine.run_invariant (x.node.sessions.length ≤ ·.node.sessions.length) ?_ Nat.le.refl h
  exact fun _ _ _ hl ha => Nat.le_trans hl (length_le_apply (apply_eq_some.mp ha).left)

theorem Matched.step (h : x.Matched) (ha : x.step sha256 std y = some x')
    (hl : x'.node.sessions.length < UInt32.size) :
    x'.Matched ∧ (x'.removals.Nodup ↔ x.removals.Nodup ∧ x.Once sha256 std y) := by
  have hg : Guarded sha256 std y.1 y.2 x.node x.node (x.node.actions std y.1 y.2) :=
    guarded_actions h.basic
  have hf (x : Audited δ) (a : Action) (x' : Audited δ) (ha : x.apply sha256 std y.1 a = some x') :
      x.node.apply sha256 std y.1 a = some x'.node :=
    (apply_eq_some.mp ha).left
  refine (Machine.AllAt.comap hf hg.and_mem).run_iff Matched (·.removals.Nodup)
    (·.node.sessions.length < UInt32.size) ?_ ?_ h ha hl
  · exact fun x a x' ha hl => Nat.lt_of_le_of_lt (length_le_apply (hf x a x' ha)) hl
  · intro x₁ a x₂ h₁ hg ha hl
    refine h₁.apply hg.left (fun r he => ?_) ha hl
    subst he
    exact peerCount_of_attach hg.left hg.right

-- The scheduler has the slots of the open sessions, and there are not too many of them. It is told
-- once about each session that leaves exactly if no session is disconnected that has become connected
-- again after it left.
theorem slots_correspond_iff {τ : Task δ} {ops : List (UInt64 × Op)}
    (hτ : τ.scheduler.peerSlots = [])
    (hr : Machine.run (Audited.step sha256 std) ⟨{ task := τ }, []⟩ ops = some x)
    (hl : x.node.sessions.length < UInt32.size) :
    x.node.peerCount ≤ maxPeers ∧ x.node.openSlots.Nodup ∧
      x.node.task.scheduler.peerSlots.map (·.slotId) = x.node.openSlots ∧
      ((∀ s ∈ x.node.sessions, x.removals.count s.slotId.toNat = if s.closed then 1 else 0) ↔
        Machine.AllAt (Audited.step sha256 std) (Once sha256 std) ⟨{ task := τ }, []⟩ ops) := by
  have hall : Machine.AllAt (Audited.step sha256 std) (fun _ _ => True)
      (⟨{ task := τ }, []⟩ : Audited δ) ops :=
    Machine.allAt_of_invariant (fun _ => True) (fun _ _ _ _ _ => trivial) trivial
      fun _ _ _ _ => trivial
  obtain ⟨hx, hn⟩ := hall.run_iff Matched (·.removals.Nodup) (·.node.sessions.length < UInt32.size)
    (fun _ _ _ hs hl => Nat.lt_of_le_of_lt (length_le_step hs) hl)
    (fun _ _ _ h _ hs hl => h.step hs hl) (matched_start hτ) hr hl
  refine ⟨hx.seated.limit, ?_, ?_, ?_⟩
  · rw [openSlots_eq]
    exact hx.seated.nodup.sublist (List.filter_sublist.map _)
  · rw [openSlots_eq, hx.seated.slots]
  · rw [← hx.nodup_iff, hn, and_iff_right List.nodup_nil]

section Runs

def seatSeed : TSeedFile Unit where
  fileSize := 7
  config   := {}
  chunks   := [⟨0, 7, ()⟩]
  countLt  := by decide

def seatStart : Audited Unit :=
  { node := { task := Task.cmdSeed .stable seatSeed [1, 2, 3, 4, 5, 6, 7] 2 1000 } }

-- One session leaves after its handshake, another one before it is connected.
def partedRun : List (UInt64 × Op) := [
  (1, .accept), (2, .receive 0 (.handshake 100) []), (3, .connect), (4, .readError 1),
  (5, .writeError 0), (6, .readError 0), (7, .accept)
]

def partedNode : Audited Unit :=
  (Machine.run (step (fun _ => ()) .stable) seatStart partedRun).get (by decide +kernel)

theorem partedNode_corresponds :
    partedNode.removals = [1, 0] ∧ partedNode.node.openSlots = [2] ∧
      partedNode.node.task.scheduler.peerSlots.map (·.slotId) = partedNode.node.openSlots ∧
      ∀ s ∈ partedNode.node.sessions,
        partedNode.removals.count s.slotId.toNat = if s.closed then 1 else 0 := by
  have hr : Machine.run (step (fun _ => ()) .stable) seatStart partedRun = some partedNode :=
    (Option.some_get _).symm
  have h := slots_correspond_iff (by decide +kernel) hr (by decide +kernel)
  exact ⟨by decide +kernel, by decide +kernel, h.right.right.left,
    h.right.right.right.mpr (by decide +kernel)⟩

-- A write fails while the handshake of the peer is there but not handled. The handshake makes the
-- session connected again, and the next read fails.
def revivedRun : List (UInt64 × Op) := [
  (1, .accept), (2, .writeError 0), (3, .receive 0 (.handshake 100) []), (4, .readError 0)
]

theorem revived_session_is_removed_twice :
    ∃ x, Machine.run (step (fun _ => ()) .stable) seatStart revivedRun = some x ∧
      x.removals = [0, 0] ∧ x.node.sessions.map (·.slotId) = [0] :=
  ⟨(Machine.run (step (fun _ => ()) .stable) seatStart revivedRun).get (by decide +kernel),
    (Option.some_get _).symm, by decide +kernel⟩

end Runs
end Audited
end Node
end ThinBT
