import ThinBT.Node.Theorems.Guard
import ThinBT.Scheduler.Theorems.Callbacks
import ThinBT.Task.Theorems.Start

namespace ThinBT

-- The part of a session that decides which slot it is for, and whether it may still use it.
structure Wire where
  slotId  : UInt32
  closed  : Bool
  reading : Reading

namespace Wire

def apply (x : Wire) : PeerSession.Update → Wire
  | .setReading r => if x.reading = .nothing then x else { x with reading := r }
  | .close        => { x with closed := true }
  | _             => x

-- The slot of a session that is open.
def Slot (ws : List Wire) (slot : Nat) : Prop :=
  ∃ x ∈ ws, x.closed = false ∧ x.slotId.toNat = slot

-- What is known about the session of a slot, where `Q` tells what is known about the sessions.
def Known (Q : Nat → Nat → Prop) (ws : List Wire) (slot c : Nat) : Prop :=
  ∀ (k : Nat) (x : Wire), ws[k]? = some x → x.reading ≠ .nothing → x.slotId.toNat = slot → Q k c

-- Sessions that are not over have different slots.
def Unique (ws : List Wire) : Prop :=
  ∀ (j k : Nat) (x y : Wire), ws[j]? = some x → ws[k]? = some y → x.reading ≠ .nothing →
    y.reading ≠ .nothing → x.slotId = y.slotId → j = k

def Fresh (ws : List Wire) (slot : UInt32) : Prop :=
  ∀ x ∈ ws, x.reading ≠ .nothing → x.slotId ≠ slot

instance : Decidable (Fresh ws slot) :=
  inferInstanceAs (Decidable (∀ x ∈ ws, x.reading ≠ .nothing → x.slotId ≠ slot))

variable {Q R : Nat → Nat → Prop} {ws : List Wire} {u : PeerSession.Update} {j k : Nat} {x y : Wire}

theorem slotId_apply : (x.apply u).slotId = x.slotId := by
  cases u
  case setReading r =>
    simp only [apply]
    split <;> rfl
  all_goals rfl

theorem closed_apply (h : u ≠ .close) : (x.apply u).closed = x.closed := by
  cases u
  case close => exact absurd rfl h
  case setReading r =>
    simp only [apply]
    split <;> rfl
  all_goals rfl

theorem getElem?_modify_apply (h : (ws.modify k (apply · u))[j]? = some y) :
    ∃ x, ws[j]? = some x ∧ y.slotId = x.slotId ∧ (y.reading ≠ .nothing → x.reading ≠ .nothing) := by
  rw [List.getElem?_modify, Option.map_eq_map, Option.map_eq_some_iff] at h
  obtain ⟨x, hx, rfl⟩ := h
  refine ⟨x, hx, ?_⟩
  split
  case isFalse => exact ⟨rfl, id⟩
  case isTrue =>
    refine ⟨slotId_apply, fun hr hn => hr ?_⟩
    cases u
    case setReading r => rwa [apply, if_pos hn]
    all_goals exact hn

theorem Unique.modify (h : Unique ws) : Unique (ws.modify k (apply · u)) := by
  intro i j x y hx hy hlx hly he
  obtain ⟨x', hx', hsx, hrx⟩ := getElem?_modify_apply hx
  obtain ⟨y', hy', hsy, hry⟩ := getElem?_modify_apply hy
  exact h i j x' y' hx' hy' (hrx hlx) (hry hly) (by rw [← hsx, he, hsy])

theorem Known.modify (h : Known Q ws slot c) : Known Q (ws.modify k (apply · u)) slot c := by
  intro j y hy hl hs
  obtain ⟨x, hx, hsx, hr⟩ := getElem?_modify_apply hy
  exact h j x hx (hr hl) (hsx ▸ hs)

theorem Slot.modify (h : Slot ws slot) (hu : u ≠ .close) : Slot (ws.modify k (apply · u)) slot := by
  obtain ⟨x, hx, hc, hs⟩ := h
  obtain ⟨j, hj⟩ := List.getElem?_of_mem hx
  refine ⟨if k = j then x.apply u else x, List.mem_of_getElem? (i := j) ?_, ?_⟩
  · rw [List.getElem?_modify, hj]
    rfl
  · split
    case isTrue  => exact ⟨(closed_apply hu).trans hc, by rw [slotId_apply, hs]⟩
    case isFalse => exact ⟨hc, hs⟩

-- Closing a session only takes away its own slot.
theorem Slot.close (h : Slot ws slot) (hk : ws[k]? = some y) (hs : slot ≠ y.slotId.toNat) :
    Slot (ws.modify k (apply · .close)) slot := by
  obtain ⟨x, hx, hc, rfl⟩ := h
  obtain ⟨j, hj⟩ := List.getElem?_of_mem hx
  have hn : k ≠ j := by
    rintro rfl
    rw [Option.some.inj (hj.symm.trans hk)] at hs
    exact hs rfl
  refine ⟨x, List.mem_of_getElem? (i := j) ?_, hc, rfl⟩
  rw [List.getElem?_modify, hj, Option.map_eq_map, Option.map_some, if_neg hn]

theorem getElem?_append_new (h : (ws ++ [y])[j]? = some x) :
    ws[j]? = some x ∨ j = ws.length ∧ x = y := by
  rw [List.getElem?_append] at h
  split at h
  case isTrue => exact .inl h
  case isFalse hj =>
    obtain ⟨hlt, he⟩ := List.getElem?_eq_some_iff.mp h
    rw [List.length_singleton] at hlt
    exact .inr ⟨by omega, by simpa using he.symm⟩

theorem Unique.append (h : Unique ws) (hf : Fresh ws y.slotId) : Unique (ws ++ [y]) := by
  intro i j x z hx hz hlx hlz he
  obtain hx | ⟨hi, rfl⟩ := getElem?_append_new hx
  all_goals obtain hz | ⟨hj, rfl⟩ := getElem?_append_new hz
  · exact h i j x z ‹_› ‹_› hlx hlz he
  · exact absurd he (hf x (List.mem_of_getElem? ‹_›) hlx)
  · exact absurd he.symm (hf z (List.mem_of_getElem? ‹_›) hlz)
  · rw [hi, hj]

theorem Known.append (h : Known Q ws slot c) (hs : y.slotId.toNat ≠ slot) :
    Known Q (ws ++ [y]) slot c := by
  intro k x hx hl he
  obtain hx | ⟨rfl, rfl⟩ := getElem?_append_new hx
  · exact h k x hx hl he
  · exact absurd he hs

end Wire

def PeerSession.wire (s : PeerSession) : Wire :=
  ⟨s.slotId, s.closed, s.reading⟩

theorem PeerSession.wire_apply {s : PeerSession} : (s.apply now u).wire = s.wire.apply u := by
  cases u
  case dispatch offsets m => cases m <;> rfl
  case setReading r =>
    by_cases hr : s.reading = .nothing
    all_goals simp [Wire.apply, wire, hr]
  all_goals first | rfl | simp [wire, Wire.apply]

-- What does not change back in a session.
structure PeerSession.Follows (s₀ s : PeerSession) : Prop where
  slotId        : s.slotId = s₀.slotId
  handshakeSent : s₀.handshakeSent = true → s.handshakeSent = true
  closed        : s.closed = false → s₀.closed = false
  reading       : s.reading ≠ .nothing → s₀.reading ≠ .nothing

theorem PeerSession.Follows.refl {s : PeerSession} : s.Follows s :=
  ⟨rfl, id, id, id⟩

theorem PeerSession.reading_apply {s : PeerSession} (h : s.reading = .nothing) :
    (s.apply now u).reading = .nothing := by
  change (s.apply now u).wire.reading = .nothing
  rw [wire_apply]
  cases u
  case setReading r => rwa [Wire.apply, if_pos (show s.wire.reading = .nothing from h)]
  all_goals exact h

theorem PeerSession.Follows.apply {s₀ s : PeerSession} (h : s₀.Follows s) :
    s₀.Follows (s.apply now u) where
  slotId        := slotId_apply.trans h.slotId
  handshakeSent := fun hs => handshakeSent_apply (h.handshakeSent hs)
  closed        := fun hc => h.closed (not_closed_of_apply hc)
  reading       := fun hr => h.reading fun hn => hr (reading_apply hn)

namespace Node

variable {δ : Type} {n n' : Node δ} {now : UInt64} {k : Nat} {s : PeerSession} {a : Action}
variable {Q R : Nat → Nat → Prop} {std : StdSort} {op : Op} {n₀ : Node δ}

def wires (n : Node δ) : List Wire :=
  n.sessions.map (·.wire)

theorem wire_of_session (hk : n.sessions[k]? = some s) : n.wires[k]? = some s.wire := by
  rw [wires, List.getElem?_map, hk, Option.map_some]

theorem wires_modify : (n.modify now k u).wires = n.wires.modify k (·.apply u) := by
  refine List.ext_getElem? fun j => ?_
  simp only [wires, modify, List.getElem?_map, List.getElem?_modify]
  cases n.sessions[j]?
  case none => rfl
  case some s =>
    simp only [Option.map_eq_map, Option.map_some, Option.some.injEq]
    split
    case isTrue  => exact PeerSession.wire_apply
    case isFalse => rfl

theorem wire_callback {s : PeerSession} : (s.apply now (update call)).wire = s.wire := by
  rw [PeerSession.wire_apply]
  cases call <;> rfl

theorem wires_callback : (callback now ss call).map (·.wire) = ss.map (·.wire) := by
  unfold callback
  split
  case h_1 =>
    rw [List.map_map]
    refine List.map_congr_left fun s _ => ?_
    rw [Function.comp_apply]
    split
    case isTrue  => rfl
    case isFalse => exact wire_callback
  case h_2 =>
    split
    case h_1 => rfl
    case h_2 =>
      refine List.ext_getElem? fun j => ?_
      rw [List.getElem?_map, List.getElem?_map, List.getElem?_modify]
      cases ss[j]?
      case none => rfl
      case some s =>
        simp only [Option.map_eq_map, Option.map_some, Option.some.injEq]
        split
        case isTrue  => exact wire_callback
        case isFalse => rfl

theorem wires_callbacks {cs : List Scheduler.Call} :
    (cs.foldl (callback now) ss).map (·.wire) = ss.map (·.wire) := by
  induction cs generalizing ss
  case nil          => rfl
  case cons c cs hi => rw [List.foldl_cons, hi, wires_callback]

-- The slots of the scheduler are those of open sessions, each session has its own slot, and the
-- scheduler only knows what is known about the sessions.
structure Wired (Q : Nat → Nat → Prop) (n : Node δ) : Prop where
  basic   : n.Basic
  indexed : n.task.Indexed
  shape   : n.task.scheduler.Shape
  unique  : Wire.Unique n.wires
  listed  : n.task.scheduler.Listed (Wire.Slot n.wires) (Wire.Known Q n.wires)

-- The next slot is not one of a session that is not over.
def FreshSlot (n : Node δ) : Prop :=
  Wire.Fresh n.wires n.nextSlotId

instance : Decidable n.FreshSlot :=
  inferInstanceAs (Decidable (Wire.Fresh ..))

-- What a message tells about the chunks of its sender, where `total` is the number of chunks.
def Tells (total : Nat) (T : Nat → Prop) : Msg → Prop
  | .haveChunk ci => ci.toNat < total → T ci.toNat
  | .bitfield bf  => ∀ c < total, (Bitfield.record bf).getD c false → T c
  | _             => True

-- An action only dispatches what is known about the peer.
def Told (Q : Nat → Nat → Prop) (n : Node δ) (a : Action) : Prop :=
  ∀ {k m s}, a = .dispatch k m → n.sessions[k]? = some s → Tells n.task.seed.chunks.length (Q k) m

theorem Wired.fresh (h : n.Wired Q) (hf : n.FreshSlot) :
    ∀ p ∈ n.task.scheduler.peerSlots, p.slotId ≠ n.nextSlotId.toNat := by
  intro p hp he
  obtain ⟨x, hx, hc, hs⟩ := h.listed.slots p hp
  obtain ⟨s, hs', rfl⟩ := List.mem_map.mp hx
  exact hf s.wire hx ((h.basic s hs').live hc) (UInt32.toNat_inj.mp (hs.trans he))

-- What is known about the session of an action that is guarded.
theorem Wired.known (h : n.Wired Q) (hk : n.sessions[k]? = some s) (hr : s.reading ≠ .nothing)
    (hq : Q k c) : Wire.Known Q n.wires s.slotId.toNat c := by
  intro j x hx hl he
  have hw := wire_of_session hk
  rwa [h.unique j k x s.wire hx hw hl hr (UInt32.toNat_inj.mp he)]

-- The chunks that a tick of the task announces.
def Announces (n : Node δ) (c : Nat) : Prop :=
  ∃ r ∈ n.task.results, r.chunkIdx = c ∧ r.passed

theorem sessionCall_of_taskOp (hg : Guard op n₀ n a) (ho : n.taskOp now a = some (.session o)) :
    Task.sessionCall o := by
  cases makes_of_taskOp ho
  case task =>
    have hr : Routine (.session o) := hg.left
    cases o <;> first | rfl | cases hr
  all_goals rfl

theorem task_of_tick (ho : n.taskOp now a = some (.tick t dead)) : a = .task (.tick t dead) := by
  cases makes_of_taskOp ho
  rfl

-- Only the tick of a task announces something to all peers.
theorem tick_of_broadcast (hg : Guard op n₀ n a) (ho : n.taskOp now a = some top)
    (hc : call ∈ n.calls std top) (ht : target call = none) :
    ∃ t dead, top = .tick t dead ∧ a = .task (.tick t dead) ∧ op = .tick dead ∧ n = n₀ ∧
      n.task.passedMsgs ≠ [] := by
  have hb : (∃ c, call = .broadcastHave c) ∨ call = .broadcastNotInterested := by
    cases call
    case broadcastHave c        => exact .inl ⟨c, rfl⟩
    case broadcastNotInterested => exact .inr rfl
    all_goals cases ht
  obtain ⟨msgs, hm⟩ := Scheduler.completions_of_broadcast hc hb
  cases top
  case session o =>
    have hs := sessionCall_of_taskOp hg ho
    rw [← List.mem_singleton.mp hm] at hs
    cases hs
  case piece       => cases List.mem_singleton.mp hm
  case io | verify => cases hm
  case tick t dead =>
    obtain rfl := task_of_tick ho
    obtain ⟨hop, hn⟩ := hg.right t dead rfl
    obtain hm | ⟨_, _, _, hm⟩ | ⟨hne, _⟩ := Task.mem_tickOps.mp hm
    case inl     => cases hm
    case inr.inl => cases hm
    case inr.inr => exact ⟨t, dead, rfl, rfl, hop, hn, hne⟩

theorem Wired.legal (h : n.Wired Q) (hg : Guard op n₀ n a) (hf : op.opens → n₀.FreshSlot)
    (ho : n.taskOp now a = some top) : n.task.Legal top := by
  cases makes_of_taskOp ho
  case task =>
    cases top
    case session o =>
      have hr : Routine (.session o) := hg.left
      cases o <;> first | exact ⟨rfl, trivial⟩ | cases hr
    all_goals trivial
  case attach r =>
    obtain ⟨_, hop, rfl⟩ := hg
    exact ⟨rfl, h.fresh (hf hop)⟩
  case piece => trivial
  all_goals exact ⟨rfl, trivial⟩

theorem informs_of_routine {τ : Task δ} (h : Routine top) (ho : o ∈ τ.schedulerOps top) :
    o.Informs S K total := by
  cases top
  case session op =>
    obtain rfl := List.mem_singleton.mp ho
    cases o <;> trivial
  case piece       => cases h
  case io | verify => cases ho
  case tick now dead =>
    obtain rfl | ⟨_, _, _, rfl⟩ | ⟨_, rfl⟩ := Task.mem_tickOps.mp ho
    all_goals trivial

-- The scheduler is only told what the messages tell.
theorem Wired.informs (h : n.Wired Q) (hg : Guard op n₀ n a) (ha : ∀ r, a ≠ .attach r)
    (ht : n.Told Q a) (hop : n.taskOp now a = some top) (ho : o ∈ n.task.schedulerOps top) :
    o.Informs (Wire.Slot n.wires) (Wire.Known Q n.wires) n.task.seed.chunks.length := by
  have reading {k : Nat} {m : Msg} {s : PeerSession} (he : a = .dispatch k m)
      (hk : n.sessions[k]? = some s) : s.reading ≠ .nothing := by
    subst he
    rw [hg.right.right.right s hk]
    exact Reading.noConfusion
  cases makes_of_taskOp hop
  case task     => exact informs_of_routine hg.left ho
  case attach r => exact absurd rfl (ha r)
  all_goals rw [List.mem_singleton.mp ho]
  case haveChunk hk => exact fun hc => h.known hk (reading rfl hk) (ht rfl hk hc)
  case bitfield hk  => exact fun c hc hb => h.known hk (reading rfl hk) (ht rfl hk c hc hb)
  all_goals trivial

theorem Wired.run (h : n.Wired Q) (hg : Guard op n₀ n a) (hf : op.opens → n₀.FreshSlot)
    (ha : ∀ r, a ≠ .attach r)
    (ht : n.Told Q a)
    (ho : n.taskOp now a = some top) :
    (Scheduler.run std n.task.scheduler (n.task.schedulerOps top)).Listed (Wire.Slot n.wires)
        (Wire.Known Q n.wires) ∧
      ∀ x ∈ n.calls std top, n.task.scheduler.Backed (Wire.Known Q n.wires) n.Announces x := by
  have hl := h.legal hg hf ho
  refine Scheduler.backed_callbacks h.shape h.listed (h.indexed.legal_schedulerOps hl) ?_ ?_
  · rw [h.indexed.totalChunks]
    exact fun o => h.informs hg ha ht ho
  · exact fun o hm c hc => (Task.passed_of_completes hl.calls hm hc).right

-- Only what is known is requested.
theorem Wired.backed (h : n.Wired Q) (hg : Guard op n₀ n a) (hf : op.opens → n₀.FreshSlot)
    (ht : n.Told Q a)
    (ho : n.taskOp now a = some top) :
    ∀ x ∈ n.calls std top, n.task.scheduler.Backed (Wire.Known Q n.wires) n.Announces x := by
  cases a
  case attach r =>
    obtain rfl := Option.some.inj ho
    exact List.forall_mem_nil _
  all_goals exact (h.run hg hf (fun _ he => by cases he) ht ho).right

-- What an action does to the wires.
inductive Rewires (n : Node δ) : Action → List Wire → Prop
  | modify {a : Action} {k : Nat} : (∀ r, a ≠ .attach r) → u ≠ .close →
    Rewires n a (n.wires.modify k (·.apply u))
  | attach : Rewires n (.attach r) (n.wires ++ [⟨n.nextSlotId, false, r⟩])
  | detach {k : Nat} {s : PeerSession} : n.sessions[k]? = some s → n.isDisconnected k = false →
    Rewires n (.detach k) (n.wires.modify k (·.apply .close))

theorem Rewires.same (h : ∀ r, a ≠ .attach r) : n.Rewires a n.wires := by
  have he : n.wires.modify 0 (·.apply .connected) = n.wires := List.modify_id ..
  exact he ▸ .modify h PeerSession.Update.noConfusion

theorem rewires (hg : Guard op n₀ n a) (h : n.onSessions now a = some n₁) : n.Rewires a n₁.wires := by
  cases a
  case task =>
    obtain rfl := Option.some.inj h
    exact .same fun _ => Action.noConfusion
  case attach r =>
    obtain rfl := Option.some.inj h
    rw [wires, addSession, List.map_append]
    exact .attach
  case detach k =>
    obtain rfl := Option.some.inj h
    split
    case isTrue => exact .same fun _ => Action.noConfusion
    case isFalse hd =>
      rw [wires_modify]
      match hk : n.sessions[k]? with
      | none   => simp [isDisconnected, hk] at hd
      | some s => exact .detach hk (eq_false_of_ne_true hd)
  case announce k =>
    simp only [onSessions] at h
    split at h
    case isTrue =>
      obtain rfl := Option.some.inj h
      exact .same fun _ => Action.noConfusion
    case isFalse =>
      obtain ⟨bf, _, h⟩ := Option.bind_eq_some_iff.mp h
      obtain rfl := Option.some.inj h
      rw [wires_modify]
      exact .modify (fun _ => Action.noConfusion) PeerSession.Update.noConfusion
  case dispatch k m =>
    obtain rfl := Option.some.inj h
    rw [wires_modify]
    exact .modify (fun _ => Action.noConfusion) PeerSession.Update.noConfusion
  case session k u =>
    obtain rfl := Option.some.inj h
    rw [wires_modify]
    match hk : n.sessions[k]? with
    | none =>
      rw [List.modify_eq_self (by simpa [wires] using List.getElem?_eq_none_iff.mp hk)]
      exact .same fun _ => Action.noConfusion
    | some s =>
      refine .modify (fun _ => Action.noConfusion) fun hu => ?_
      subst hu
      exact (hg s hk).right

theorem Rewires.unique (h : n.Rewires a ws) (hw : n.Wired Q) (hf : ∀ r, a = .attach r → n.FreshSlot) :
    Wire.Unique ws := by
  cases h
  case attach r    => exact hw.unique.append (hf r rfl)
  case modify      => exact hw.unique.modify
  case detach      => exact hw.unique.modify

theorem peerSlots_onPeerRemoved {σ : Scheduler} :
    (Scheduler.run std σ [.onPeerRemoved slot]).peerSlots = σ.peerSlots.filter (·.slotId ≠ slot) := by
  change (σ.apply (.removePeer slot)).peerSlots = _
  rw [Scheduler.peerSlots_apply]

theorem Rewires.listed (h : n.Rewires a ws) (hw : n.Wired Q) (hg : Guard op n₀ n a)
    (hf : op.opens → n₀.FreshSlot)
    (ht : n.Told Q a)
    (ho : n.taskOp now a = some top) :
    (Scheduler.run std n.task.scheduler (n.task.schedulerOps top)).Listed (Wire.Slot ws)
      (Wire.Known Q ws) := by
  cases h
  case modify u j hu ha =>
    exact (hw.run hg hf ha ht ho).left.mono (fun _ hs => hs.modify hu) fun _ _ hk => hk.modify
  case attach r =>
    obtain rfl := Option.some.inj ho
    obtain ⟨_, hop, rfl⟩ := hg
    have hn := hw.fresh (hf hop)
    have hl : n.task.scheduler.Listed (Wire.Slot (n.wires ++ [⟨n.nextSlotId, false, r⟩]))
        (Wire.Known Q (n.wires ++ [⟨n.nextSlotId, false, r⟩])) := by
      refine ⟨fun p hp => ?_, fun p hp c hc hh => ?_, fun p hp c b hb => ?_⟩
      · obtain ⟨x, hx, hs⟩ := hw.listed.slots p hp
        exact ⟨x, List.mem_append_left _ hx, hs⟩
      · exact (hw.listed.chunks p hp c hc hh).append (hn p hp).symm
      · exact (hw.listed.requests p hp c b hb).append (hn p hp).symm
    have hL : Scheduler.AllOps std Scheduler.Legal n.task.scheduler
        [.onPeerAdded n.nextSlotId.toNat 0] := ⟨hn, trivial⟩
    refine (Scheduler.backed_callbacks (H := fun _ => True) hw.shape hl hL ?_ ?_).left
    · exact List.forall_mem_singleton.mpr
        ⟨_, List.mem_append_right _ (List.mem_singleton_self _), rfl, rfl⟩
    · exact fun _ _ _ _ => trivial
  case detach k s hk hd =>
    have hl : (Scheduler.run std ..).Listed .. :=
      (hw.run hg hf (fun _ => Action.noConfusion) ht ho).left
    simp only [taskOp, hd, hk] at ho
    obtain rfl := Option.some.inj ho
    have hl' := hl.mono (fun _ => id) fun _ _ hk' => hk'.modify (k := k) (u := .close)
    refine ⟨fun p hp => ?_, hl'.chunks, hl'.requests⟩
    have hs := hl.slots p hp
    rw [Task.schedulerOps, peerSlots_onPeerRemoved, List.mem_filter, decide_eq_true_eq] at hp
    exact hs.close (wire_of_session hk) hp.right

theorem Rewires.listed_same (h : n.Rewires a ws) (hw : n.Wired Q) (ho : n.taskOp now a = none) :
    n.task.scheduler.Listed (Wire.Slot ws) (Wire.Known Q ws) := by
  cases h
  case modify u j hu ha   => exact hw.listed.mono (fun _ hs => hs.modify hu) fun _ _ hk => hk.modify
  case attach             => cases ho
  case detach k s hk hd   => simp [taskOp, hd, hk] at ho

theorem Wired.mono (h : n.Wired Q) (hq : ∀ k < n.sessions.length, ∀ c, Q k c → R k c) : n.Wired R where
  basic   := h.basic
  indexed := h.indexed
  shape   := h.shape
  unique  := h.unique
  listed  := by
    refine h.listed.mono (fun _ => id) fun slot c hk k x hx hl hs => ?_
    have hlt := (List.getElem?_eq_some_iff.mp hx).choose
    rw [wires, List.length_map] at hlt
    exact hq k hlt c (hk k x hx hl hs)

-- What is requested from a session is known about it.
theorem Wired.backed_at (h : n.Wired Q) (hg : Guard op n₀ n a) (hf : op.opens → n₀.FreshSlot)
    (ht : n.Told Q a)
    (ho : n.taskOp now a = some top) (hc : call ∈ n.calls std top) (hk : n.sessions[k]? = some s₀)
    (hb : s.Basic) (hs : s₀.Follows s) (hr : Reaches call s) :
    n.task.scheduler.Backed (fun _ => Q k) n.Announces call := by
  have hw := wire_of_session hk
  have known {slot c} (ht : target call = some slot) (hK : Wire.Known Q n.wires slot c) : Q k c :=
    hK k s₀.wire hw (hs.reading (hb.live hr.left))
      ((congrArg UInt32.toNat hs.slotId).symm.trans (hr.right slot ht))
  have hB := h.backed hg hf ht ho call hc
  cases call
  case issueRequest  => exact ⟨known rfl hB.left, hB.right⟩
  case cancelRequest => exact known rfl hB
  all_goals exact hB

section Apply

variable [DecidableEq δ] {sha256 : List UInt8 → δ}

theorem rewires_apply (hg : Guard op n₀ n a) (h : n.apply sha256 std now a = some n') :
    n.Rewires a n'.wires := by
  obtain ⟨n₁, h₁, ⟨_, rfl⟩ | ⟨top, _, h⟩⟩ := apply_eq_some.mp h
  case inl => exact rewires hg h₁
  case inr =>
    obtain ⟨τ, _, rfl⟩ := taskStep_eq_some.mp h
    rw [wires, wires_callbacks]
    exact rewires hg h₁

theorem wired_start {τ : Task δ} (h : τ.Started sha256 std) : ({ task := τ } : Node δ).Wired Q where
  basic   := basic_start
  indexed := h.indexed
  shape   := h.shape
  unique  := fun _ _ _ _ hx => by cases hx
  listed  := by
    have hp := h.peerSlots
    refine ⟨fun p hm => ?_, fun p hm => ?_, fun p hm => ?_⟩
    all_goals rw [hp] at hm; cases hm

-- An invariant of the updates that an action makes to a session.
theorem session_invariant (Inv : PeerSession → Prop) (hb : n.Basic) (hg : Guard op n₀ n a)
    (ha : n.apply sha256 std now a = some n') (hk : n.sessions[k]? = some s₀)
    (hk' : n'.sessions[k]? = some s)
    (hi : ∀ s u, s.Basic → s₀.Follows s → n.Touches std now a k s u → Inv s → Inv (s.apply now u))
    (h₀ : Inv s₀) : Inv s := by
  obtain ⟨t, ht, he⟩ := session_apply ha hk
  obtain rfl := Option.some.inj (hk'.symm.trans ht)
  have hB := hb s₀ (List.mem_of_getElem? hk)
  refine (he.invariant (fun s => s.Basic ∧ s₀.Follows s ∧ Inv s) ?_ ⟨hB, .refl, h₀⟩).right.right
  intro s u ⟨hs, hF, hI⟩ ht
  exact ⟨hs.apply (ht.proper hb hg), hF.apply, hi s u hs hF ht hI⟩

theorem Wired.apply (h : n.Wired Q) (hg : Guard op n₀ n a) (hf : op.opens → n₀.FreshSlot)
    (ht : n.Told Q a)
    (ha : n.apply sha256 std now a = some n') : n'.Wired Q := by
  have hb := h.basic.apply hg ha
  have hfa (r) (he : a = .attach r) : n.FreshSlot := by
    subst he
    exact hg.right.right ▸ hf hg.right.left
  have hr := rewires_apply hg ha
  have hu := hr.unique h hfa
  obtain ⟨ho, he⟩ | ⟨top, ho, hτ⟩ := task_apply ha
  case inl => exact ⟨hb, he ▸ h.indexed, he ▸ h.shape, hu, he ▸ hr.listed_same h ho⟩
  case inr =>
    have hσ := Task.scheduler_step hτ
    have hs : n'.task.scheduler.Shape :=
      hσ ▸ h.shape.run (h.indexed.legal_schedulerOps (h.legal hg hf ho))
    exact ⟨hb, h.indexed.step hτ, hs, hu, hσ ▸ hr.listed h hg hf ht ho⟩

end Apply
end Node
end ThinBT
