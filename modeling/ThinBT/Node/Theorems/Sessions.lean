import ThinBT.Node.State
import ThinBT.Session.Theorems.Log

namespace ThinBT

namespace PeerSession

variable {s s' : PeerSession} {now : UInt64} {P Q : PeerSession → Update → Prop} {u : Update}

@[simp]
theorem slotId_apply : (s.apply now u).slotId = s.slotId := by
  cases u
  case dispatch offsets m => cases m <;> rfl
  all_goals first | rfl | simp

-- The session goes on by updates that satisfy `P`.
def Evolves (now : UInt64) (P : PeerSession → Update → Prop) (s s' : PeerSession) : Prop :=
  ∃ us, s' = Actions.exec (apply now) s us ∧ Actions.AllAt (apply now) P s us

namespace Evolves

theorem refl : Evolves now P s s :=
  ⟨[], rfl, trivial⟩

theorem single (h : P s u) : Evolves now P s (s.apply now u) :=
  ⟨[u], rfl, h, trivial⟩

theorem trans (h₁ : Evolves now P s t) (h₂ : Evolves now P t s') : Evolves now P s s' := by
  obtain ⟨us, rfl, hu⟩ := h₁
  obtain ⟨vs, rfl, hv⟩ := h₂
  exact ⟨us ++ vs, Actions.exec_append.symm, Actions.allAt_append.mpr ⟨hu, hv⟩⟩

theorem mono (h : Evolves now P s s') (hpq : ∀ s u, P s u → Q s u) : Evolves now Q s s' := by
  obtain ⟨us, rfl, hu⟩ := h
  exact ⟨us, rfl, hu.mono hpq⟩

theorem invariant (h : Evolves now P s s') (Inv : PeerSession → Prop)
    (hp : ∀ s u, Inv s → P s u → Inv (s.apply now u)) (hs : Inv s) : Inv s' := by
  obtain ⟨us, rfl, hu⟩ := h
  exact hu.invariant hp hs

end Evolves
end PeerSession

namespace Node

open PeerSession

variable {δ : Type} {n n' : Node δ} {now : UInt64} {k : Nat} {ss : List PeerSession}

section Callbacks

-- The callback is for the session.
def Reaches (call : Scheduler.Call) (s : PeerSession) : Prop :=
  s.closed = false ∧ ∀ slot, target call = some slot → s.slotId.toNat = slot

theorem session_callback (hk : ss[k]? = some s) :
    ∃ s', (callback now ss call)[k]? = some s' ∧
      Evolves now (fun s u => Reaches call s ∧ u = update call) s s' := by
  unfold callback
  split
  case h_1 ht =>
    rw [List.getElem?_map, hk, Option.map_some]
    refine ⟨_, rfl, ?_⟩
    split
    case isTrue => exact .refl
    case isFalse hc =>
      exact .single ⟨⟨eq_false_of_ne_true hc, fun _ hs => by rw [ht] at hs; cases hs⟩, rfl⟩
  case h_2 slot ht =>
    split
    case h_1 => exact ⟨s, hk, .refl⟩
    case h_2 j hj =>
      rw [List.getElem?_modify, hk, Option.map_eq_map, Option.map_some]
      refine ⟨_, rfl, ?_⟩
      split
      case isFalse => exact .refl
      case isTrue he =>
        subst he
        refine .single ⟨?_, rfl⟩
        obtain ⟨hlt, hp, _⟩ := List.findIdx?_eq_some_iff_getElem.mp hj
        obtain ⟨_, rfl⟩ := List.getElem?_eq_some_iff.mp hk
        rw [Bool.and_eq_true, Bool.not_eq_true', decide_eq_true_eq] at hp
        exact ⟨hp.left, fun _ hs => hp.right.trans (Option.some.inj (ht.symm.trans hs))⟩

theorem length_callback : (callback now ss call).length = ss.length := by
  unfold callback
  split
  case h_1 => exact List.length_map ..
  case h_2 =>
    split
    case h_1 => rfl
    case h_2 => exact List.length_modify ..

theorem session_callbacks {cs : List Scheduler.Call} (hk : ss[k]? = some s) :
    ∃ s', (cs.foldl (callback now) ss)[k]? = some s' ∧
      Evolves now (fun s u => ∃ call ∈ cs, Reaches call s ∧ u = update call) s s' := by
  induction cs generalizing ss s
  case nil => exact ⟨s, hk, .refl⟩
  case cons c cs hi =>
    obtain ⟨t, ht, he⟩ := session_callback hk
    obtain ⟨s', hs', he'⟩ := hi ht
    refine ⟨s', hs', (he.mono fun _ _ h => ⟨c, List.mem_cons_self, h⟩).trans (he'.mono ?_)⟩
    rintro _ _ ⟨call, hc, h⟩
    exact ⟨call, List.mem_cons_of_mem _ hc, h⟩

-- A callback only sends something.
structure SameStage (s s' : PeerSession) : Prop where
  state    : s'.state = s.state
  closed   : s'.closed = s.closed
  reading  : s'.reading = s.reading
  received : s'.received = s.received
  stream   : s.stream <+: s'.stream

theorem sameStage_update {s₀ s : PeerSession} (h : SameStage s₀ s) :
    SameStage s₀ (s.apply now (update call)) := by
  have hr : (s.apply now (update call)).received = s₀.received := by
    rw [received_apply, ← h.received]
    cases call <;> exact List.append_nil _
  have hs : s₀.stream <+: (s.apply now (update call)).stream := by
    rw [stream_apply]
    exact h.stream.trans (List.prefix_append ..)
  cases call
  case notInterested => exact ⟨by simpa [update] using h.state, by simpa [update] using h.closed,
    by simpa [update] using h.reading, hr, hs⟩
  all_goals exact ⟨h.state, h.closed, h.reading, hr, hs⟩

theorem callbacks_frame {cs : List Scheduler.Call} (hk : ss[k]? = some s) :
    ∃ s', (cs.foldl (callback now) ss)[k]? = some s' ∧ SameStage s s' := by
  obtain ⟨s', hs', he⟩ := session_callbacks hk
  refine ⟨s', hs', he.invariant (SameStage s) (fun t u h hu => ?_)
    ⟨rfl, rfl, rfl, rfl, List.prefix_rfl⟩⟩
  obtain ⟨call, _, _, rfl⟩ := hu
  exact sameStage_update h

theorem length_callbacks {cs : List Scheduler.Call} :
    (cs.foldl (callback now) ss).length = ss.length := by
  induction cs generalizing ss
  case nil          => rfl
  case cons c cs hi => rw [List.foldl_cons, hi, length_callback]

end Callbacks

section Apply

variable {std : StdSort} {a : Action}

-- Everything that an action can do to the session at position `k`.
inductive Touches (std : StdSort) (now : UInt64) (n : Node δ) (a : Action) (k : Nat) :
    PeerSession → Update → Prop
  | session : n.sessions[k]? = some s → a = .session k u → Touches std now n a k s u
  | dispatch : n.sessions[k]? = some s → a = .dispatch k m →
    Touches std now n a k s (.dispatch n.chunkOffsets m)
  | announce : n.sessions[k]? = some s → a = .announce k →
    Bitfield.build n.task.initialBitfield = some bf → Touches std now n a k s (.send (.bitfield bf))
  | close : n.sessions[k]? = some s → a = .detach k → Touches std now n a k s .close
  | call : n.taskOp now a = some op → call ∈ n.calls std op → Reaches call s →
    Touches std now n a k s (update call)

theorem session_modify {P : PeerSession → Update → Prop} (hk : n.sessions[k]? = some s)
    (hp : j = k → P s u) :
    ∃ s', (n.modify now j u).sessions[k]? = some s' ∧ Evolves now P s s' := by
  rw [modify, List.getElem?_modify, hk, Option.map_eq_map, Option.map_some]
  refine ⟨_, rfl, ?_⟩
  split
  case isTrue hj => exact .single (hp hj)
  case isFalse   => exact .refl

theorem session_modify_self (hk : n.sessions[k]? = some s) :
    (n.modify now k u).sessions[k]? = some (s.apply now u) := by
  rw [modify, List.getElem?_modify, hk]
  simp

-- Only one session is modified, unless there is a new one.
theorem onSessions_cases (h : n.onSessions now a = some n₁) :
    (∃ r, a = .attach r ∧ n₁ = n.addSession r) ∨
      (∀ r, a ≠ .attach r) ∧ (n₁ = n ∨ ∃ k u, n₁ = n.modify now k u) := by
  cases a
  case attach r => exact .inl ⟨r, rfl, (Option.some.inj h).symm⟩
  all_goals refine .inr ⟨fun _ => Action.noConfusion, ?_⟩
  case task => exact .inl (Option.some.inj h).symm
  case detach k =>
    obtain rfl := Option.some.inj h
    split
    case isTrue  => exact .inl rfl
    case isFalse => exact .inr ⟨k, _, rfl⟩
  case announce k =>
    simp only [onSessions] at h
    split at h
    case isTrue  => exact .inl (Option.some.inj h).symm
    case isFalse =>
      obtain ⟨bf, _, h⟩ := Option.bind_eq_some_iff.mp h
      exact .inr ⟨k, _, (Option.some.inj h).symm⟩
  case dispatch k m => exact .inr ⟨k, _, (Option.some.inj h).symm⟩
  case session k u  => exact .inr ⟨k, u, (Option.some.inj h).symm⟩

theorem task_onSessions (h : n.onSessions now a = some n₁) : n₁.task = n.task := by
  obtain ⟨r, _, rfl⟩ | ⟨_, rfl | ⟨k, u, rfl⟩⟩ := onSessions_cases h
  all_goals rfl

theorem session_onSessions (h : n.onSessions now a = some n₁) (hk : n.sessions[k]? = some s) :
    ∃ s', n₁.sessions[k]? = some s' ∧ Evolves now (n.Touches std now a k) s s' := by
  cases a
  case task op =>
    obtain rfl := Option.some.inj h
    exact ⟨s, hk, .refl⟩
  case attach r =>
    obtain rfl := Option.some.inj h
    exact ⟨s, (List.getElem?_append_left (List.getElem?_eq_some_iff.mp hk).choose).trans hk, .refl⟩
  case detach j =>
    obtain rfl := Option.some.inj h
    split
    case isTrue  => exact ⟨s, hk, .refl⟩
    case isFalse => exact session_modify hk fun hj => .close hk (hj ▸ rfl)
  case announce j =>
    simp only [onSessions] at h
    split at h
    case isTrue =>
      obtain rfl := Option.some.inj h
      exact ⟨s, hk, .refl⟩
    case isFalse =>
      obtain ⟨bf, hb, h⟩ := Option.bind_eq_some_iff.mp h
      obtain rfl := Option.some.inj h
      exact session_modify hk fun hj => .announce hk (hj ▸ rfl) hb
  case dispatch j m =>
    obtain rfl := Option.some.inj h
    exact session_modify hk fun hj => .dispatch hk (hj ▸ rfl)
  case session j u =>
    obtain rfl := Option.some.inj h
    exact session_modify hk fun hj => .session hk (hj ▸ rfl)

theorem length_onSessions (h : n.onSessions now a = some n₁) (ha : ∀ r, a ≠ .attach r) :
    n₁.sessions.length = n.sessions.length := by
  obtain ⟨r, he, _⟩ | ⟨_, rfl | ⟨k, u, rfl⟩⟩ := onSessions_cases h
  case inl     => exact absurd he (ha r)
  case inr.inl => rfl
  case inr.inr => exact List.length_modify ..

-- The steps of the task that actions make.
inductive Makes (now : UInt64) (n : Node δ) : Action → Task.Op → Prop
  | task      : Makes now n (.task op) op
  | attach    : Makes now n (.attach r) (.session (.onPeerAdded n.nextSlotId.toNat 0))
  | detach    : n.sessions[j]? = some s → n.isDisconnected j = false →
    Makes now n (.detach j) (.session (.onPeerRemoved s.slotId.toNat))
  | choke     : n.sessions[j]? = some s →
    Makes now n (.dispatch j .choke) (.session (.onChokeChange s.slotId.toNat true))
  | unchoke   : n.sessions[j]? = some s →
    Makes now n (.dispatch j .unchoke) (.session (.onChokeChange s.slotId.toNat false))
  | haveChunk : n.sessions[j]? = some s →
    Makes now n (.dispatch j (.haveChunk c)) (.session (.onHave s.slotId.toNat c.toNat now))
  | bitfield  : n.sessions[j]? = some s → Makes now n (.dispatch j (.bitfield bf))
      (.session (.onBitfield s.slotId.toNat (Bitfield.record bf) now))
  | piece     : n.sessions[j]? = some s → (h : data.length ≤ maxMsgSize - 8) →
    Makes now n (.dispatch j (.piece index begin data))
      (.piece ⟨index, begin, s.slotId.toNat, data, h⟩ now)

theorem makes_of_taskOp (h : n.taskOp now a = some op) : n.Makes now a op := by
  cases a
  case task =>
    obtain rfl := Option.some.inj h
    exact .task
  case attach r =>
    obtain rfl := Option.some.inj h
    exact .attach
  case detach k =>
    simp only [taskOp] at h
    split at h
    case isTrue     => cases h
    case isFalse hd =>
      obtain ⟨s, hk, rfl⟩ := Option.map_eq_some_iff.mp h
      exact .detach hk (eq_false_of_ne_true hd)
  case dispatch k m =>
    obtain ⟨s, hk, h⟩ := Option.bind_eq_some_iff.mp h
    cases m <;> simp only [dispatchOp] at h
    case piece =>
      split at h
      case isFalse   => cases h
      case isTrue hl =>
        obtain rfl := Option.some.inj h
        exact .piece hk hl
    case choke     => exact Option.some.inj h ▸ .choke hk
    case unchoke   => exact Option.some.inj h ▸ .unchoke hk
    case haveChunk => exact Option.some.inj h ▸ .haveChunk hk
    case bitfield  => exact Option.some.inj h ▸ .bitfield hk
    all_goals cases h
  case announce | session => cases h

variable [DecidableEq δ] {sha256 : List UInt8 → δ}

theorem taskStep_eq_some :
    n.taskStep sha256 std now op = some n' ↔
      ∃ τ, n.task.step sha256 std op = some τ ∧
        n' = { n with task := τ, sessions := (n.calls std op).foldl (callback now) n.sessions } := by
  simp only [taskStep, Option.bind_eq_bind, Option.bind_eq_some_iff]
  exact exists_congr fun _ => and_congr_right fun _ => eq_comm.trans Option.some_inj

theorem apply_eq_some :
    n.apply sha256 std now a = some n' ↔ ∃ n₁, n.onSessions now a = some n₁ ∧
      ((n.taskOp now a = none ∧ n' = n₁) ∨
        ∃ op, n.taskOp now a = some op ∧ n₁.taskStep sha256 std now op = some n') := by
  simp only [apply, Option.bind_eq_bind, Option.bind_eq_some_iff]
  refine exists_congr fun n₁ => and_congr_right fun _ => ?_
  cases n.taskOp now a
  case none   => simp [eq_comm]
  case some _ => simp

theorem session_apply (h : n.apply sha256 std now a = some n') (hk : n.sessions[k]? = some s) :
    ∃ s', n'.sessions[k]? = some s' ∧ Evolves now (n.Touches std now a k) s s' := by
  obtain ⟨n₁, h₁, h⟩ := apply_eq_some.mp h
  obtain ⟨s₁, hs₁, he₁⟩ := session_onSessions h₁ hk
  obtain ⟨_, rfl⟩ | ⟨op, ho, h⟩ := h
  case inl => exact ⟨s₁, hs₁, he₁⟩
  case inr =>
    obtain ⟨τ, _, rfl⟩ := taskStep_eq_some.mp h
    obtain ⟨s', hs', he'⟩ := session_callbacks hs₁
    refine ⟨s', hs', he₁.trans (he'.mono ?_)⟩
    rintro _ _ ⟨call, hc, hr, rfl⟩
    rw [calls, task_onSessions h₁] at hc
    exact .call ho hc hr

theorem task_apply (h : n.apply sha256 std now a = some n') :
    (n.taskOp now a = none ∧ n'.task = n.task) ∨
      ∃ op, n.taskOp now a = some op ∧ n.task.step sha256 std op = some n'.task := by
  obtain ⟨n₁, h₁, ⟨ho, rfl⟩ | ⟨op, ho, h⟩⟩ := apply_eq_some.mp h
  case inl => exact .inl ⟨ho, task_onSessions h₁⟩
  case inr =>
    obtain ⟨τ, hτ, rfl⟩ := taskStep_eq_some.mp h
    exact .inr ⟨op, ho, task_onSessions h₁ ▸ hτ⟩

-- An action is undefined only if the bitfield is too large or the step of the task is undefined.
theorem apply_defined (hb : n.task.initialBitfield = [] ∨ (Bitfield.build n.task.initialBitfield).isSome)
    (ho : ∀ op, n.taskOp now a = some op → (n.task.step sha256 std op).isSome) :
    (n.apply sha256 std now a).isSome := by
  obtain ⟨n₁, h₁⟩ : ∃ n₁, n.onSessions now a = some n₁ := by
    cases a
    case announce k =>
      simp only [onSessions]
      split
      case isTrue => exact ⟨n, rfl⟩
      case isFalse hn =>
        obtain ⟨bf, hb⟩ := Option.isSome_iff_exists.mp (hb.resolve_left hn)
        exact ⟨_, by rw [hb]; rfl⟩
    all_goals exact ⟨_, rfl⟩
  match hop : n.taskOp now a with
  | none    => exact Option.isSome_iff_exists.mpr ⟨n₁, apply_eq_some.mpr ⟨n₁, h₁, .inl ⟨hop, rfl⟩⟩⟩
  | some op =>
    obtain ⟨τ, hτ⟩ := Option.isSome_iff_exists.mp (ho op hop)
    rw [← task_onSessions h₁] at hτ
    exact Option.isSome_iff_exists.mpr
      ⟨_, apply_eq_some.mpr ⟨n₁, h₁, .inr ⟨op, hop, taskStep_eq_some.mpr ⟨τ, hτ, rfl⟩⟩⟩⟩

theorem length_apply (h : n.apply sha256 std now a = some n') (ha : ∀ r, a ≠ .attach r) :
    n'.sessions.length = n.sessions.length := by
  obtain ⟨n₁, h₁, ⟨_, rfl⟩ | ⟨op, _, h⟩⟩ := apply_eq_some.mp h
  case inl => exact length_onSessions h₁ ha
  case inr =>
    obtain ⟨τ, _, rfl⟩ := taskStep_eq_some.mp h
    exact length_callbacks.trans (length_onSessions h₁ ha)

-- Nothing is sent when a peer is added.
theorem apply_attach (h : n.apply sha256 std now (.attach r) = some n') :
    n'.sessions = n.sessions ++ [{ slotId := n.nextSlotId, reading := r }] := by
  obtain ⟨n₁, h₁, ⟨ho, _⟩ | ⟨op, ho, h⟩⟩ := apply_eq_some.mp h
  case inl => cases ho
  case inr =>
    obtain rfl := Option.some.inj h₁
    obtain rfl := Option.some.inj ho
    obtain ⟨τ, _, rfl⟩ := taskStep_eq_some.mp h
    rfl

-- Where the sessions come from.
theorem session_of_apply (h : n.apply sha256 std now a = some n') (hk : n'.sessions[k]? = some s') :
    (∃ s, n.sessions[k]? = some s ∧ Evolves now (n.Touches std now a k) s s') ∨
      ∃ r, a = .attach r ∧ k = n.sessions.length ∧
        s' = { slotId := n.nextSlotId, reading := r } := by
  by_cases hlt : k < n.sessions.length
  case pos =>
    have hs := List.getElem?_eq_getElem hlt
    obtain ⟨t, ht, he⟩ := session_apply h hs
    obtain rfl := Option.some.inj (hk.symm.trans ht)
    exact .inl ⟨_, hs, he⟩
  case neg =>
    have hk' := (List.getElem?_eq_some_iff.mp hk).choose
    match a with
    | .attach r =>
      rw [apply_attach h] at hk hk'
      rw [List.length_append, List.length_singleton] at hk'
      obtain rfl : k = n.sessions.length := by omega
      rw [List.getElem?_append_right (Nat.le_refl _), Nat.sub_self] at hk
      exact .inr ⟨r, rfl, rfl, (Option.some.inj hk).symm⟩
    | .task _ | .detach _ | .announce _ | .dispatch .. | .session .. =>
      rw [length_apply h (fun _ he => by cases he)] at hk'
      exact absurd hk' hlt

end Apply
end Node
end ThinBT
