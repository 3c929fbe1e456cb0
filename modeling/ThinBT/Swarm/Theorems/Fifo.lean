import ThinBT.Swarm.State
import ThinBT.Node.Theorems.Traffic

namespace ThinBT.Swarm

open PeerSession

variable {δ : Type} {w w' : Swarm δ} {e d : End} {s s' t : PeerSession} {i : Nat} {n n' : Node δ}

-- The nodes at the start have no sessions.
def start (tasks : List (Task δ)) : Swarm δ :=
  { nodes := tasks.map fun τ => { task := τ } }

theorem session_eq (h : w.nodes[e.node]? = some n) : w.session e = n.sessions[e.session]? := by
  rw [session, h, Option.bind_some]

theorem session_eq_some : w.session e = some s ↔
    ∃ n, w.nodes[e.node]? = some n ∧ n.sessions[e.session]? = some s :=
  Option.bind_eq_some_iff

@[simp]
theorem nodes_reconnect : (w.reconnect n n' op).nodes = w.nodes := by
  cases op
  case connect => simp only [reconnect]; split <;> rfl
  case accept  => simp only [reconnect]; split <;> rfl
  all_goals rfl

theorem event_receive (h : w.event op = some (i, .receive k m peers)) :
    w.nextMessage ⟨i, k⟩ = some m := by
  cases op <;> simp only [event] at h
  case connect =>
    split at h
    case isTrue  => cases h
    case isFalse => cases Option.some.inj h
  case accept =>
    obtain ⟨_, _, he⟩ := Option.map_eq_some_iff.mp h
    cases he
  case deliver e peers =>
    obtain ⟨_, hm, he⟩ := Option.map_eq_some_iff.mp h
    cases he
    exact hm
  case node =>
    split at h
    case isTrue hl =>
      cases Option.some.inj h
      cases hl
    case isFalse => cases h

theorem nextMessage_eq_some : w.nextMessage e = some m ↔ ∃ d s t, w.mate e = some d ∧
    w.session e = some s ∧ w.session d = some t ∧ t.stream[s.received.length]? = some m := by
  simp only [nextMessage, Option.bind_eq_bind, Option.bind_eq_some_iff]
  constructor
  · rintro ⟨d, hd, s, hs, t, ht, hm⟩
    exact ⟨d, s, t, hd, hs, ht, hm⟩
  · rintro ⟨d, s, t, hd, hs, ht, hm⟩
    exact ⟨d, hd, s, hs, t, ht, hm⟩

-- What a step does to a session.
structure Moves (w : Swarm δ) (e : End) (s s' : PeerSession) : Prop where
  follows  : s.Follows s'
  stream   : s.stream <+: s'.stream
  received : s'.received = s.received ∨ ∃ m, w.nextMessage e = some m ∧ s'.received = s.received ++ [m]

theorem Moves.refl : w.Moves e s s :=
  ⟨.refl, List.prefix_rfl, .inl rfl⟩

-- What a step does to the connections.
inductive Relinks (w w' : Swarm δ) : Prop
  | keep : w'.mate = w.mate → w'.backlog = w.backlog → Relinks w w'
  | drop {b : Nat} : w'.mate = w.mate → w'.backlog = w.backlog.eraseIdx b → Relinks w w'
  | connect {c : End} {s : PeerSession} : w.session c = none → w'.session c = some s →
    w'.mate = w.mate → w'.backlog = w.backlog ++ [(c, j)] → Relinks w w'
  | accept {b : Nat} {c d : End} {s : PeerSession} : w.backlog[b]? = some (c, j) →
    w.session d = none → w'.session d = some s → w'.backlog = w.backlog.eraseIdx b →
    w'.mate = Function.update (Function.update w.mate c (some d)) d (some c) → Relinks w w'

-- Connections are between two sessions, and messages are received in the order in which they were sent.
structure Paired (w : Swarm δ) : Prop where
  basic   : ∀ n ∈ w.nodes, n.Basic
  symm    : ∀ {e d}, w.mate e = some d → w.mate d = some e
  live    : ∀ {e d}, w.mate e = some d → ∃ s, w.session e = some s
  waiting : ∀ x ∈ w.backlog, w.mate x.1 = none ∧ ∃ s, w.session x.1 = some s
  nodup   : (w.backlog.map Prod.fst).Nodup
  silent  : ∀ {e s}, w.mate e = none → w.session e = some s → s.received = []
  fifo    : ∀ {e d s t}, w.mate e = some d → w.session e = some s → w.session d = some t →
    s.received <+: t.stream

theorem not_mem_eraseIdx {l : List (End × Nat)} {b : Nat} (h : (l.map Prod.fst).Nodup)
    (hb : l[b]? = some (c, j)) (hx : x ∈ l.eraseIdx b) : x.1 ≠ c := by
  rintro rfl
  obtain ⟨i, hne, hi⟩ := List.mem_eraseIdx_iff_getElem?.mp hx
  have hlt := (List.getElem?_eq_some_iff.mp hi).choose
  refine hne ((List.getElem?_inj (by rwa [List.length_map]) h).mp ?_)
  rw [List.getElem?_map, List.getElem?_map, hi, hb, Option.map_some, Option.map_some]

theorem paired_start {tasks : List (Task δ)} : (start tasks).Paired where
  basic   := by
    intro n hn
    obtain ⟨τ, _, rfl⟩ := List.mem_map.mp hn
    exact Node.basic_start
  symm    := fun h => by cases h
  live    := fun h => by cases h
  waiting := List.forall_mem_nil _
  nodup   := List.nodup_nil
  silent  := by
    intro e s _ hs
    obtain ⟨n, hn, hk⟩ := session_eq_some.mp hs
    obtain ⟨τ, _, rfl⟩ := List.mem_map.mp (List.mem_of_getElem? hn)
    cases hk
  fifo    := fun h => by cases h

-- A connection stays.
theorem Paired.mate_step (h : w.Paired) (hr : w.Relinks w') (hm : w.mate e = some d) :
    w'.mate e = some d := by
  cases hr
  case keep he _        => rw [he, hm]
  case drop he _        => rw [he, hm]
  case connect _ _ he _ => rw [he, hm]
  case accept hb hd _ _ he =>
    have hc := (h.waiting _ (List.mem_of_getElem? hb)).left
    obtain ⟨s, hs⟩ := h.live hm
    rw [he, Function.update_of_ne, Function.update_of_ne, hm]
    · rintro rfl; rw [hm] at hc; cases hc
    · rintro rfl; rw [hs] at hd; cases hd

-- The step has joined a session without connection and a new session.
structure Joins (w w' : Swarm δ) (c d : End) : Prop where
  free    : w.mate c = none
  client  : ∃ s, w.session c = some s
  server  : w.session d = none
  server' : ∃ s, w'.session d = some s
  mate    : w'.mate c = some d
  mate'   : w'.mate d = some c

theorem Paired.mate_cases (h : w.Paired) (hr : w.Relinks w') (hm : w'.mate e = some d) :
    w.mate e = some d ∨ w.Joins w' e d ∨ w.Joins w' d e := by
  cases hr
  case keep he _        => exact .inl (he ▸ hm)
  case drop he _        => exact .inl (he ▸ hm)
  case connect _ _ he _ => exact .inl (he ▸ hm)
  case accept j b c d' s hb hd hd' _ he =>
    obtain ⟨hc, t, ht⟩ := h.waiting _ (List.mem_of_getElem? hb)
    have hne : c ≠ d' := by
      rintro rfl
      rw [hd] at ht
      cases ht
    have hj : w.Joins w' c d' := by
      refine ⟨hc, ⟨t, ht⟩, hd, ⟨s, hd'⟩, ?_, ?_⟩
      · rw [he, Function.update_of_ne hne, Function.update_self]
      · rw [he, Function.update_self]
    by_cases hed : e = d'
    case pos =>
      subst hed
      rw [hj.mate'] at hm
      exact .inr (.inr (Option.some.inj hm ▸ hj))
    case neg =>
      by_cases hec : e = c
      case pos =>
        subst hec
        rw [hj.mate] at hm
        exact .inr (.inl (Option.some.inj hm ▸ hj))
      case neg =>
        rw [he, Function.update_of_ne hed, Function.update_of_ne hec] at hm
        exact .inl hm

-- If nothing is on the way, everything that was sent has been received.
theorem Paired.received_eq (h : w.Paired) (hm : w.mate e = some d) (he : w.session e = some s)
    (hd : w.session d = some t) (hn : w.Delivered e) : s.received = t.stream := by
  refine (h.fifo hm he hd).eq_of_length_le ?_
  simp only [Delivered, nextMessage, hm, he, hd, Option.bind_eq_bind, Option.bind_some] at hn
  exact List.getElem?_eq_none_iff.mp hn

section Step

variable [DecidableEq δ] {sha256 : List UInt8 → δ} {std : StdSort} {x : UInt64 × Op}

-- A step of the swarm is one of a node, or nothing happens.
theorem step_cases (h : w.step sha256 std x = some w') :
    w' = w ∨ ∃ i op n n', w.event x.2 = some (i, op) ∧ w.nodes[i]? = some n ∧
      n.step sha256 std (x.1, op) = some n' ∧
      w' = { w.reconnect n n' x.2 with nodes := w.nodes.set i n' } := by
  unfold step at h
  split at h
  case h_1 => exact .inl (Option.some.inj h).symm
  case h_2 i op he =>
    split at h
    case h_1 => exact .inl (Option.some.inj h).symm
    case h_2 n hn =>
      obtain ⟨n', hs, h⟩ := Option.bind_eq_some_iff.mp h
      exact .inr ⟨i, op, n, n', he, hn, hs, (Option.some.inj h).symm⟩

-- Where the nodes of a step come from.
theorem node_step (h : w.step sha256 std x = some w') {j : Nat} (hj : w'.nodes[j]? = some n') :
    ∃ n, w.nodes[j]? = some n ∧ (n' = n ∨ ∃ op, w.event x.2 = some (j, op) ∧
      n.step sha256 std (x.1, op) = some n') := by
  obtain rfl | ⟨i, op, n, m, he, hn, hs, rfl⟩ := step_cases h
  case inl => exact ⟨n', hj, .inl rfl⟩
  case inr =>
    change (w.nodes.set i m)[j]? = _ at hj
    by_cases hij : i = j
    case pos =>
      subst hij
      rw [List.getElem?_set_self (List.getElem?_eq_some_iff.mp hn).choose] at hj
      obtain rfl := Option.some.inj hj
      exact ⟨n, hn, .inr ⟨op, he, hs⟩⟩
    case neg => exact ⟨n', by rwa [List.getElem?_set_ne hij] at hj, .inl rfl⟩

theorem node_of_step (h : w.step sha256 std x = some w') {j : Nat} (hj : w.nodes[j]? = some n) :
    ∃ n', w'.nodes[j]? = some n' := by
  obtain rfl | ⟨i, op, n₀, m, _, hn, _, rfl⟩ := step_cases h
  case inl => exact ⟨n, hj⟩
  case inr =>
    refine ⟨_, List.getElem?_eq_getElem ?_⟩
    change j < (w.nodes.set i m).length
    rw [List.length_set]
    exact (List.getElem?_eq_some_iff.mp hj).choose

theorem session_step (hb : ∀ n ∈ w.nodes, n.Basic) (h : w.step sha256 std x = some w')
    (hs : w.session e = some s) : ∃ s', w'.session e = some s' ∧ w.Moves e s s' := by
  obtain ⟨n, hn, hk⟩ := session_eq_some.mp hs
  obtain ⟨n', hn'⟩ := node_of_step h hn
  obtain ⟨_, he, hstep⟩ := node_step h hn'
  obtain rfl := Option.some.inj (hn.symm.trans he)
  rw [session_eq hn']
  obtain rfl | ⟨op, hev, hstep⟩ := hstep
  case inl => exact ⟨s, hk, .refl⟩
  case inr =>
    obtain ⟨s', hk', hx⟩ := Node.session_step (hb n (List.mem_of_getElem? hn)) hstep hk
    refine ⟨s', hk', hx.follows, hx.stream, hx.received.imp id ?_⟩
    rintro ⟨m, peers, rfl, hm⟩
    exact ⟨m, event_receive hev, hm⟩

-- Where the sessions of a step come from.
theorem session_of_step (hb : ∀ n ∈ w.nodes, n.Basic) (h : w.step sha256 std x = some w')
    (hs' : w'.session e = some s') :
    (∃ s, w.session e = some s ∧ w.Moves e s s') ∨
      (w.session e = none ∧ ∃ slot r, s' = { slotId := slot, reading := r }) := by
  match hs : w.session e with
  | some s =>
    obtain ⟨t, ht, hm⟩ := session_step hb h hs
    exact .inl ⟨s, rfl, Option.some.inj (hs'.symm.trans ht) ▸ hm⟩
  | none =>
    refine .inr ⟨rfl, ?_⟩
    obtain ⟨n', hn', hk'⟩ := session_eq_some.mp hs'
    obtain ⟨n, hn, hstep⟩ := node_step h hn'
    rw [session_eq hn] at hs
    obtain rfl | ⟨op, _, hstep⟩ := hstep
    case inl => rw [hs] at hk'; cases hk'
    case inr =>
      have hl : n.sessions.length < n'.sessions.length :=
        Nat.lt_of_le_of_lt (List.getElem?_eq_none_iff.mp hs) (List.getElem?_eq_some_iff.mp hk').choose
      have ho : op.opens = true := by
        by_contra ho
        have he := Node.length_step (hb n (List.mem_of_getElem? hn)) hstep (eq_false_of_ne_true ho)
        omega
      obtain he | ⟨r, he⟩ := Node.sessions_open hstep ho
      case inl => rw [he] at hl; exact absurd hl (Nat.lt_irrefl _)
      case inr =>
        rw [he] at hk'
        rw [List.getElem?_append_right (List.getElem?_eq_none_iff.mp hs)] at hk'
        have hm := List.mem_of_getElem? hk'
        exact ⟨_, r, List.mem_singleton.mp hm⟩

theorem relinks (h : w.step sha256 std x = some w') : w.Relinks w' := by
  obtain rfl | ⟨i, op, n, n', he, hn, hs, hw⟩ := step_cases h
  case inl => exact .keep rfl rfl
  case inr =>
    have hnone : w.session ⟨i, n.sessions.length⟩ = none := by
      rw [session_eq hn]
      exact List.getElem?_eq_none (Nat.le_refl _)
    have hsome (hl : n.sessions.length < n'.sessions.length) :
        ∃ s, w'.session ⟨i, n.sessions.length⟩ = some s := by
      have hn' : w'.nodes[i]? = some n' := by
        rw [hw, List.getElem?_set_self (List.getElem?_eq_some_iff.mp hn).choose]
      rw [session_eq hn']
      exact ⟨_, List.getElem?_eq_getElem hl⟩
    have hm : w'.mate = (w.reconnect n n' x.2).mate := by rw [hw]
    have hb : w'.backlog = (w.reconnect n n' x.2).backlog := by rw [hw]
    obtain ⟨now, op'⟩ := x
    cases op'
    case connect i' j =>
      simp only [event] at he
      split at he
      case isTrue => cases he
      case isFalse =>
        cases Option.some.inj he
        simp only [reconnect] at hm hb
        split at hm
        case isTrue hl =>
          obtain ⟨t, ht⟩ := hsome hl
          exact .connect hnone ht hm (by rw [hb, if_pos hl])
        case isFalse hl => exact .keep hm (by rw [hb, if_neg hl])
    case accept b =>
      obtain ⟨⟨c, j⟩, hc, he⟩ := Option.map_eq_some_iff.mp he
      cases he
      simp only [reconnect, hc] at hm hb
      split at hm
      case isTrue hl =>
        obtain ⟨t, ht⟩ := hsome hl
        exact .accept hc hnone ht hb hm
      case isFalse => exact .drop hm hb
    case deliver | node => exact .keep hm hb

-- The step of a node that belongs to the step satisfies `P`.
def Each (P : Node δ → UInt64 × Node.Op → Prop) (w : Swarm δ) (x : UInt64 × Op) : Prop :=
  ∀ y ∈ w.event x.2, ∀ n ∈ w.nodes[y.1]?, P n (x.1, y.2)

instance (P : Node δ → UInt64 × Node.Op → Prop) [∀ n x, Decidable (P n x)] :
    Decidable (Each P w x) :=
  inferInstanceAs (Decidable (∀ y ∈ w.event x.2, ∀ n ∈ w.nodes[y.1]?, P n (x.1, y.2)))

theorem nodes_step (Inv : Node δ → Prop) (hw : ∀ n ∈ w.nodes, Inv n)
    (hi : ∀ i op n n', w.event x.2 = some (i, op) → w.nodes[i]? = some n → Inv n →
      n.step sha256 std (x.1, op) = some n' → Inv n')
    (hs : w.step sha256 std x = some w') : ∀ n ∈ w'.nodes, Inv n := by
  intro n' hn'
  obtain ⟨j, hj⟩ := List.getElem?_of_mem hn'
  obtain ⟨n, hn, rfl | ⟨op, he, hs⟩⟩ := node_step hs hj
  case inl => exact hw n' (List.mem_of_getElem? hn)
  case inr => exact hi j op n n' he hn (hw n (List.mem_of_getElem? hn)) hs

-- An invariant of the nodes.
theorem nodes_invariant (P : Node δ → UInt64 × Node.Op → Prop) (Inv : Node δ → Prop)
    (hi : ∀ n x n', Inv n → P n x → n.step sha256 std x = some n' → Inv n')
    (hp : Machine.AllAt (step sha256 std) (Each P) w ops) (hw : ∀ n ∈ w.nodes, Inv n)
    (hr : Machine.run (step sha256 std) w ops = some w') : ∀ n ∈ w'.nodes, Inv n := by
  refine hp.invariant (fun w => ∀ n ∈ w.nodes, Inv n) (fun w x w' hw hx hs => ?_) hw hr
  exact nodes_step Inv hw (fun i op n n' he hn h => hi n _ n' h (hx _ he n hn)) hs

theorem Paired.basic_step (h : w.Paired) (hs : w.step sha256 std x = some w') :
    ∀ n ∈ w'.nodes, n.Basic :=
  nodes_step Node.Basic h.basic (fun _ _ _ _ _ _ hn hs => hn.step hs) hs

-- Nothing was received before the connection.
theorem Paired.received_eq_nil (h : w.Paired) (hs : w.step sha256 std x = some w') (hm : w.mate e = none)
    (hs' : w'.session e = some s') : s'.received = [] := by
  obtain ⟨s, he, hmv⟩ | ⟨_, _, _, rfl⟩ := session_of_step h.basic hs hs'
  case inr => rfl
  case inl =>
    obtain hr | ⟨m, hn, _⟩ := hmv.received
    case inl => rw [hr, h.silent hm he]
    case inr =>
      obtain ⟨d, _, _, hd, _⟩ := nextMessage_eq_some.mp hn
      rw [hm] at hd
      cases hd

theorem Paired.fifo_step (h : w.Paired) (hs : w.step sha256 std x = some w') (hm : w.mate e = some d)
    (hs' : w'.session e = some s') (ht' : w'.session d = some t') : s'.received <+: t'.stream := by
  obtain ⟨s, he⟩ := h.live hm
  obtain ⟨t, hd⟩ := h.live (h.symm hm)
  obtain ⟨s₁, h₁, hms⟩ := session_step h.basic hs he
  obtain ⟨t₁, h₂, hmt⟩ := session_step h.basic hs hd
  obtain rfl := Option.some.inj (hs'.symm.trans h₁)
  obtain rfl := Option.some.inj (ht'.symm.trans h₂)
  have hp := h.fifo hm he hd
  refine List.IsPrefix.trans ?_ hmt.stream
  obtain hr | ⟨m, hn, hr⟩ := hms.received
  case inl => rwa [hr]
  case inr =>
    obtain ⟨d', s₂, t₂, hd', hs₂, ht₂, hm'⟩ := nextMessage_eq_some.mp hn
    obtain rfl := Option.some.inj (hm.symm.trans hd')
    obtain rfl := Option.some.inj (he.symm.trans hs₂)
    obtain rfl := Option.some.inj (hd.symm.trans ht₂)
    rw [hr]
    obtain ⟨rest, hrest⟩ := hp
    rw [← hrest, List.getElem?_append_right (Nat.le_refl _), Nat.sub_self] at hm'
    obtain ⟨rest', rfl⟩ : ∃ rest', rest = m :: rest' := by
      cases rest
      case nil => cases hm'
      case cons y rest' =>
        obtain rfl := Option.some.inj hm'
        exact ⟨rest', rfl⟩
    exact ⟨rest', by rw [← hrest, List.append_assoc]; rfl⟩

theorem Paired.waiting_step (h : w.Paired) (hs : w.step sha256 std x = some w') (hr : w.Relinks w') :
    (w'.backlog.map Prod.fst).Nodup ∧
      ∀ x ∈ w'.backlog, w'.mate x.1 = none ∧ ∃ s, w'.session x.1 = some s := by
  have live (y : End × Nat) (hy : y ∈ w.backlog) : ∃ s, w'.session y.1 = some s := by
    obtain ⟨s, hs₁⟩ := (h.waiting y hy).right
    obtain ⟨s', hs', _⟩ := session_step h.basic hs hs₁
    exact ⟨s', hs'⟩
  cases hr
  case keep hm hb =>
    rw [hm, hb]
    exact ⟨h.nodup, fun y hy => ⟨(h.waiting y hy).left, live y hy⟩⟩
  case drop b hm hb =>
    rw [hm, hb, ← List.eraseIdx_map]
    refine ⟨h.nodup.sublist (List.eraseIdx_sublist ..), fun y hy => ?_⟩
    have hy := List.mem_of_mem_eraseIdx hy
    exact ⟨(h.waiting y hy).left, live y hy⟩
  case connect j c s hc hc' hm hb =>
    rw [hm, hb, List.map_append]
    have hne (y : End × Nat) (hy : y ∈ w.backlog) : y.1 ≠ c := by
      rintro rfl
      obtain ⟨_, hs⟩ := (h.waiting y hy).right
      rw [hc] at hs
      cases hs
    refine ⟨?_, fun y hy => ?_⟩
    · refine h.nodup.append (List.nodup_singleton _) (List.disjoint_singleton.mpr fun hmem => ?_)
      obtain ⟨y, hy, he⟩ := List.mem_map.mp hmem
      exact hne y hy he
    · cases List.mem_append.mp hy
      case inl hy => exact ⟨(h.waiting y hy).left, live y hy⟩
      case inr hy =>
        rw [List.mem_singleton.mp hy]
        refine ⟨Option.eq_none_iff_forall_ne_some.mpr fun d hd => ?_, s, hc'⟩
        obtain ⟨_, hs⟩ := h.live hd
        rw [hc] at hs
        cases hs
  case accept j b c d s hb hd hd' hbl hm =>
    rw [hbl, ← List.eraseIdx_map]
    refine ⟨h.nodup.sublist (List.eraseIdx_sublist ..), fun y hy => ?_⟩
    have hne := not_mem_eraseIdx h.nodup hb hy
    have hy := List.mem_of_mem_eraseIdx hy
    obtain ⟨hn, s, hs⟩ := h.waiting y hy
    refine ⟨?_, live y hy⟩
    rw [hm, Function.update_of_ne, Function.update_of_ne hne, hn]
    rintro rfl
    rw [hd] at hs
    cases hs

theorem Paired.step (h : w.Paired) (hs : w.step sha256 std x = some w') : w'.Paired := by
  have hr := relinks hs
  have hw := h.waiting_step hs hr
  refine ⟨h.basic_step hs, fun {e d} hm => ?_, fun {e d} hm => ?_, hw.right, hw.left, fun {e s} hm hse => ?_,
    fun {e d s t} hm hse hsd => ?_⟩
  · obtain hm | hj | hj := h.mate_cases hr hm
    case inl => exact h.mate_step hr (h.symm hm)
    case inr.inl => exact hj.mate'
    case inr.inr => exact hj.mate
  · obtain hm | hj | hj := h.mate_cases hr hm
    case inl =>
      obtain ⟨s, hse⟩ := h.live hm
      obtain ⟨s', hs', _⟩ := session_step h.basic hs hse
      exact ⟨s', hs'⟩
    case inr.inl =>
      obtain ⟨s, hse⟩ := hj.client
      obtain ⟨s', hs', _⟩ := session_step h.basic hs hse
      exact ⟨s', hs'⟩
    case inr.inr => exact hj.server'
  · refine h.received_eq_nil hs (Option.eq_none_iff_forall_ne_some.mpr fun d hd => ?_) hse
    rw [h.mate_step hr hd] at hm
    cases hm
  · obtain hm | hj | hj := h.mate_cases hr hm
    case inl     => exact h.fifo_step hs hm hse hsd
    case inr.inl => exact h.received_eq_nil hs hj.free hse ▸ List.nil_prefix
    case inr.inr =>
      refine h.received_eq_nil hs (Option.eq_none_iff_forall_ne_some.mpr fun d' hd' => ?_) hse ▸ List.nil_prefix
      obtain ⟨_, hlive⟩ := h.live hd'
      rw [hj.server] at hlive
      cases hlive

theorem paired_run (hr : Machine.run (Swarm.step sha256 std) (start tasks) ops = some w) : w.Paired :=
  Machine.run_invariant Paired (fun _ _ _ h hs => h.step hs) paired_start hr

end Step
end ThinBT.Swarm
