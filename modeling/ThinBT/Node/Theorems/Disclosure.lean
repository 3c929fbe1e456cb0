import ThinBT.Node.Theorems.Records

namespace ThinBT

section Messages

variable {count : Nat} {P R : Nat → Prop} {v : List Bool} {ms ns : List Msg}

-- The messages that tell something about the chunks of their sender.
def Msg.discloses : Msg → Bool
  | haveChunk _ | bitfield _ => true
  | _                        => false

-- Whoever receives the messages knows which of the chunks are in `P`, whatever was known before.
structure Shows (count : Nat) (P : Nat → Prop) (ms : List Msg) : Prop where
  length : ∀ v, count ≤ (remoteBits v ms).length
  bits   : ∀ v, ∀ c < count, (remoteBits v ms).getD c false ↔ P c

-- Without a bitfield, the chunks of the messages are added to those that are known.
theorem length_remoteBits (h : ∀ bf, .bitfield bf ∉ ms) : (remoteBits v ms).length = v.length := by
  induction ms generalizing v
  case nil => rfl
  case cons m ms hi =>
    rw [remoteBits, List.foldl_cons, ← remoteBits, hi fun bf hb => h bf (List.mem_cons_of_mem _ hb)]
    cases m
    case haveChunk   => exact List.length_set
    case bitfield bf => exact absurd List.mem_cons_self (h bf)
    all_goals rfl

theorem getD_remoteBits (h : ∀ bf, .bitfield bf ∉ ms) (hc : c < v.length) :
    (remoteBits v ms).getD c false ↔
      v.getD c false ∨ ∃ ci, .haveChunk ci ∈ ms ∧ ci.toNat = c := by
  induction ms generalizing v
  case nil => simp [remoteBits]
  case cons m ms hi =>
    have h' (bf) (hb : .bitfield bf ∈ ms) : False := h bf (List.mem_cons_of_mem _ hb)
    rw [remoteBits, List.foldl_cons, ← remoteBits]
    cases m
    case bitfield bf  => exact absurd List.mem_cons_self (h bf)
    case haveChunk ci =>
      have hs : (v.set ci.toNat true).getD c false = (v.getD c false || decide (ci.toNat = c)) := by
        by_cases he : ci.toNat = c
        case pos => subst he; simp [hc]
        case neg => simp [he]
      refine (hi h' (by rwa [Msg.tell, List.length_set])).trans ?_
      rw [Msg.tell, hs, Bool.or_eq_true, decide_eq_true_eq, or_assoc]
      refine or_congr_right ⟨?_, ?_⟩
      · rintro (he | ⟨cj, hm, he⟩)
        case inl => exact ⟨ci, List.mem_cons_self, he⟩
        case inr => exact ⟨cj, List.mem_cons_of_mem _ hm, he⟩
      · rintro ⟨cj, hm, he⟩
        cases List.mem_cons.mp hm
        case inl hm => cases hm; exact .inl he
        case inr hm => exact .inr ⟨cj, hm, he⟩
    all_goals
      refine (hi h' hc).trans ?_
      simp

theorem Shows.append (h : Shows count P ms) (hn : ∀ bf, .bitfield bf ∉ ns) :
    Shows count (fun c => P c ∨ ∃ ci, .haveChunk ci ∈ ns ∧ ci.toNat = c) (ms ++ ns) where
  length v := by
    rw [remoteBits_append, length_remoteBits hn]
    exact h.length v
  bits v c hc := by
    rw [remoteBits_append, getD_remoteBits hn (Nat.lt_of_lt_of_le hc (h.length v)), h.bits v c hc]

theorem Shows.congr (h : Shows count P ms) (hp : ∀ c < count, P c ↔ R c) : Shows count R ms :=
  ⟨h.length, fun v c hc => (h.bits v c hc).trans (hp c hc)⟩

theorem shows_bitfield (hb : Bitfield.build bits = some bf) (hl : bits.length + 7 < 2 ^ 32) :
    Shows bits.length (fun c => bits.getD c false) (ms ++ [.bitfield bf]) where
  length v := by
    obtain ⟨n, _, he, _⟩ := Bitfield.record_build hb hl
    rw [remoteBits_append]
    change _ ≤ (Bitfield.record bf).length
    rw [he, List.length_append]
    exact Nat.le_add_right ..
  bits v c hc := by
    rw [remoteBits_append]
    exact Bool.eq_iff_iff.mp (Bitfield.getD_record_build hb)

end Messages

namespace PeerSession

variable {s : PeerSession} {u : Update} {now : UInt64}

theorem discloses_of_sends (hp : ∀ m ∈ s.posted, m.isPiece) (hu : ∀ m, u ≠ .send m)
    (hm : m ∈ s.sends u) : m.discloses = false := by
  cases sends_of_mem hm
  case send      => exact absurd rfl (hu m)
  case posted hm =>
    have hm := hp m hm
    cases m <;> first | rfl | cases hm
  all_goals rfl

theorem state_of_apply (h : (s.apply now u).state = .connected) (hu : u ≠ .connected) :
    s.state = .connected := by
  cases u
  case dispatch offsets m => cases m <;> exact h
  case connected          => exact absurd rfl hu
  case close              => cases h
  all_goals first | exact h | simpa using h

end PeerSession

namespace Node

open PeerSession

variable {δ : Type} {n n' n₀ : Node δ} {now : UInt64} {k : Nat} {s s' : PeerSession} {a : Action}
variable {op : Op} {std : StdSort}

-- The bitfield that is sent after a handshake is right.
def Current (n : Node δ) : Prop :=
  n.task.seed.chunks.length + 7 < 2 ^ 32 ∧
    ∀ c < n.task.seed.chunks.length, n.task.initialBitfield.getD c false = n.task.scheduler.closed c

-- No chunk that is complete has failed a verification.
def Reliable (n : Node δ) : Prop :=
  ∀ r ∈ n.task.results, r.passed = false → n.task.scheduler.closed r.chunkIdx = false

-- When the chunks of the node are made known to its peers.
def Discloses (n : Node δ) (x : UInt64 × Op) : Prop :=
  (x.2.opens → n.FreshSlot) ∧ (x.2.greets → n.Current) ∧ (x.2.ticks.isSome → n.Reliable)

instance : Decidable n.Current :=
  inferInstanceAs (Decidable (_ ∧ ∀ c < n.task.seed.chunks.length, _))

instance : Decidable n.Reliable :=
  inferInstanceAs (Decidable (∀ r ∈ n.task.results, _))

instance {x : UInt64 × Op} : Decidable (n.Discloses x) :=
  inferInstanceAs (Decidable (_ ∧ _ ∧ _))

-- The peers of a node know its chunks, and the node knows what its peers have told.
structure Disclosed (n : Node δ) : Prop where
  wired     : n.Wired fun _ _ => True
  recorded  : n.Recorded
  initial   : n.task.initialBitfield.length = n.task.seed.chunks.length
  posted    : ∀ s ∈ n.sessions, ∀ m ∈ s.posted, m.isPiece
  announced : ∀ s ∈ n.sessions, s.closed = false → s.state = .connected →
    n.task.initialBitfield = [] ∨ ∃ bf, .bitfield bf ∈ s.stream
  shows     : ∀ s ∈ n.sessions, s.closed = false → (∃ bf, .bitfield bf ∈ s.stream) →
    Shows n.task.seed.chunks.length (n.task.scheduler.closed ·) s.stream

-- Only the bitfield and the end of a verification disclose chunks.
theorem Touches.discloses (h : n.Touches std now a k s u) (hg : Guard op n₀ n a)
    (hp : ∀ m ∈ s.posted, m.isPiece) (hm : m ∈ s.sends u) (hd : m.discloses) :
    (∃ bf, a = .announce k ∧ Bitfield.build n.task.initialBitfield = some bf ∧ m = .bitfield bf) ∨
      ∃ t dead c, a = .task (.tick t dead) ∧ .broadcastHave c ∈ n.calls std (.tick t dead) ∧
        m = .haveChunk (.ofNat c) := by
  have silent {u : Update} (hm : m ∈ s.sends u) (hu : ∀ m, u ≠ .send m) : False := by
    rw [discloses_of_sends hp hu hm] at hd
    cases hd
  cases h
  case session hk ha =>
    subst ha
    have hs := (hg s hk).right
    cases u
    case send m' =>
      obtain ⟨⟨_, _, rfl⟩, _⟩ := hs
      rw [List.mem_singleton.mp hm] at hd
      cases hd
    all_goals exact (silent hm fun _ => Update.noConfusion).elim
  case dispatch => exact (silent hm fun _ => Update.noConfusion).elim
  case close    => exact (silent hm fun _ => Update.noConfusion).elim
  case announce ha hb _ =>
    exact .inl ⟨_, ha, hb, List.mem_singleton.mp hm⟩
  case call top call ho hc hr =>
    cases call
    case broadcastHave c =>
      obtain ⟨t, dead, rfl, rfl, _⟩ := tick_of_broadcast hg ho hc rfl
      exact .inr ⟨t, dead, c, rfl, hc, List.mem_singleton.mp hm⟩
    case cancelRequest | broadcastNotInterested =>
      rw [List.mem_singleton.mp hm] at hd
      cases hd
    all_goals exact (silent hm fun _ => Update.noConfusion).elim

theorem told_true : n.Told (fun _ _ => True) a := by
  intro k m s _ _
  cases m <;> simp [Tells]

-- A session that is open receives every broadcast.
theorem mem_stream_callbacks {cs : List Scheduler.Call} (hk : ss[k]? = some s) (hs : s.closed = false)
    (hc : call ∈ cs) (ht : target call = none) (hm : ∀ t : PeerSession, t.sends (update call) = [m]) :
    ∃ s' ms, (cs.foldl (callback now) ss)[k]? = some s' ∧ s'.stream = s.stream ++ ms ∧ m ∈ ms := by
  obtain ⟨pre, post, rfl⟩ := List.append_of_mem hc
  rw [List.foldl_append, List.foldl_cons]
  obtain ⟨s₁, h₁, e₁⟩ : ∃ s₁, (pre.foldl (callback now) ss)[k]? = some s₁ ∧ SameStage s s₁ :=
    callbacks_frame hk
  have ho : ¬s₁.closed = true := by rw [e₁.closed, hs]; exact Bool.false_ne_true
  have h₂ : (callback now (pre.foldl (callback now) ss) call)[k]? =
      some (s₁.apply now (update call)) := by
    simp only [callback, ht, List.getElem?_map, h₁, Option.map_some, if_neg ho]
  obtain ⟨s', h', e'⟩ := callbacks_frame h₂
  obtain ⟨ms, hms⟩ := e₁.stream
  obtain ⟨ns, hns⟩ := e'.stream
  refine ⟨s', ms ++ m :: ns, h', ?_, by simp⟩
  rw [← hns, stream_apply, if_neg ho, hm, ← hms]
  simp

theorem Announces.lt (h : n.Announces c) (hi : n.task.Indexed) : c < n.task.seed.chunks.length := by
  obtain ⟨r, hr, rfl, _⟩ := h
  exact hi.results r hr

theorem Announces.toNat (h : n.Announces c) (hi : n.task.Indexed) : (UInt32.ofNat c).toNat = c :=
  UInt32.toNat_ofNat_of_lt' (Nat.lt_trans (h.lt hi) n.task.seed.countLt)

-- A tick only discloses chunks that have passed their verification.
theorem Disclosed.disclosed_of_tick (h : n.Disclosed) (hg : Guard op n₀ n (.task (.tick t dead)))
    (hf : op.opens → n₀.FreshSlot) (hs : s ∈ n.sessions)
    (he : Evolves now (n.Touches std now (.task (.tick t dead)) k) s s') :
    ∃ ms, s'.stream = s.stream ++ ms ∧
      ∀ m ∈ ms, m.discloses → ∃ c, n.Announces c ∧ m = .haveChunk (.ofNat c) := by
  refine (he.invariant (fun t => (∀ m ∈ t.posted, m.isPiece) ∧ ∃ ms, t.stream = s.stream ++ ms ∧
    ∀ m ∈ ms, m.discloses → ∃ c, n.Announces c ∧ m = .haveChunk (.ofNat c)) ?_
    ⟨h.posted s hs, [], (List.append_nil _).symm, List.forall_mem_nil _⟩).right
  intro r u ⟨hp, ms, hms, hd⟩ htouch
  refine ⟨posted_pieces_apply hp, ms ++ if r.closed then [] else r.sends u, ?_, fun m hm hm' => ?_⟩
  · rw [stream_apply, hms, List.append_assoc]
  · cases List.mem_append.mp hm
    case inl hm => exact hd m hm hm'
    case inr hm =>
      split at hm
      case isTrue => cases hm
      case isFalse =>
        obtain ⟨_, ha, _⟩ | ⟨_, _, c, ha, hb, rfl⟩ := htouch.discloses hg hp hm hm'
        case inl => cases ha
        case inr =>
          cases ha
          have ho : n.taskOp now (.task (.tick t dead)) = some (.tick t dead) := rfl
          exact ⟨c, h.wired.backed hg hf told_true ho _ hb, rfl⟩

section Apply

variable [DecidableEq δ] {sha256 : List UInt8 → δ}

theorem closed_of_apply (h : n.Wired Q) (hg : Guard op n₀ n a) (hf : op.opens → n₀.FreshSlot)
    (hr : (∃ t dead, a = .task (.tick t dead)) → n.Reliable) (ha : n.apply sha256 std now a = some n')
    (hc : c < n.task.seed.chunks.length) :
    n'.task.scheduler.closed c ↔ n.task.scheduler.closed c ∨
      (∃ t dead, a = .task (.tick t dead)) ∧ n.Announces c := by
  obtain ⟨ho, ht⟩ | ⟨top, ho, hs⟩ := task_apply ha
  case inl =>
    rw [ht, iff_self_or]
    rintro ⟨⟨t, dead, rfl⟩, _⟩
    cases ho
  case inr =>
    have htick : (∃ t dead, top = .tick t dead) ↔ ∃ t dead, a = .task (.tick t dead) := by
      constructor
      · rintro ⟨t, dead, rfl⟩
        exact ⟨t, dead, task_of_tick ho⟩
      · rintro ⟨t, dead, rfl⟩
        exact ⟨t, dead, (Option.some.inj ho).symm⟩
    rw [h.indexed.closed_step (h.legal hg hf ho).calls hs hc fun ht => hr (htick.mp ht), htick]
    rfl

theorem Disclosed.announced_apply (h : n.Disclosed) (hg : Guard op n₀ n a)
    (ha : n.apply sha256 std now a = some n') (hs : s' ∈ n'.sessions) (hc : s'.closed = false)
    (hst : s'.state = .connected) :
    n.task.initialBitfield = [] ∨ ∃ bf, .bitfield bf ∈ s'.stream := by
  obtain ⟨k, hk'⟩ := List.getElem?_of_mem hs
  obtain ⟨s, hk, he⟩ | ⟨r, _, _, rfl⟩ := session_of_apply ha hk'
  case inr => cases hst
  case inl =>
    refine he.invariant (fun t => t.closed = false → t.state = .connected →
      n.task.initialBitfield = [] ∨ ∃ bf, .bitfield bf ∈ t.stream) (fun t u hi htouch hc hst => ?_)
      (h.announced s (List.mem_of_getElem? hk)) hc hst
    have ho := not_closed_of_apply hc
    have hold : n.task.initialBitfield = [] ∨ ∃ bf, .bitfield bf ∈ t.stream := by
      by_cases hu : u = .connected
      case neg => exact hi ho (state_of_apply hst hu)
      case pos =>
        cases htouch
        case session hk ha =>
          subst ha hu
          exact ((hg t hk).right : _ ∨ _ ∨ _).resolve_left (by simp [ho])
        case call call _ _ _ => cases call <;> cases hu
        all_goals cases hu
    refine hold.imp id fun ⟨bf, hb⟩ => ⟨bf, ?_⟩
    rw [stream_apply]
    exact List.mem_append_left _ hb

-- An action that completes no chunk.
theorem Disclosed.shows_of_not_tick (h : n.Disclosed) (hg : Guard op n₀ n a)
    (hcur : a = .announce k → n.Current) (hn : ∀ t dead, a ≠ .task (.tick t dead))
    (ha : n.apply sha256 std now a = some n') (hk : n.sessions[k]? = some s)
    (hk' : n'.sessions[k]? = some s') (hc : s'.closed = false) (hb : ∃ bf, .bitfield bf ∈ s'.stream) :
    Shows n.task.seed.chunks.length (n.task.scheduler.closed ·) s'.stream := by
  obtain ⟨t, ht, he⟩ := session_apply ha hk
  obtain rfl := Option.some.inj (hk'.symm.trans ht)
  refine (he.invariant (fun t => (∀ m ∈ t.posted, m.isPiece) ∧ (t.closed = false →
    (∃ bf, .bitfield bf ∈ t.stream) → Shows n.task.seed.chunks.length (n.task.scheduler.closed ·) t.stream))
    ?_ ⟨h.posted s (List.mem_of_getElem? hk), h.shows s (List.mem_of_getElem? hk)⟩).right hc hb
  intro t u ⟨hp, hi⟩ htouch
  refine ⟨posted_pieces_apply hp, fun hc hb => ?_⟩
  have hc := not_closed_of_apply hc
  rw [stream_apply, if_neg (by simp [hc])] at hb ⊢
  by_cases hk : a = .announce k
  case pos =>
    subst hk
    cases htouch
    case announce bf hbuild _ =>
      obtain ⟨hl, he⟩ := hcur rfl
      refine (h.initial ▸ shows_bitfield hbuild (h.initial ▸ hl)).congr fun c hc => ?_
      rw [he c hc]
    case call ho _ _ => cases ho
    all_goals contradiction
  case neg =>
    have hd (m) (hm : m ∈ t.sends u) : m.discloses = false := by
      refine eq_false_of_ne_true fun hd => ?_
      obtain ⟨_, ha, _⟩ | ⟨t, dead, _, ha, _⟩ := htouch.discloses hg hp hm hd
      case inl => exact hk ha
      case inr => exact hn t dead ha
    have hnb (bf) (hm : .bitfield bf ∈ t.sends u) : False := by cases hd _ hm
    obtain ⟨bf, hb⟩ := hb
    have hb := (List.mem_append.mp hb).resolve_right (hnb bf)
    refine ((hi hc ⟨bf, hb⟩).append hnb).congr fun c _ => or_iff_left ?_
    rintro ⟨ci, hm, _⟩
    cases hd _ hm

-- What a tick sends tells exactly which chunks have passed their verification.
theorem Disclosed.sent_tick (h : n.Disclosed) (hg : Guard op n₀ n (.task (.tick t dead)))
    (hf : op.opens → n₀.FreshSlot) (ha : n.apply sha256 std now (.task (.tick t dead)) = some n')
    (hk : n.sessions[k]? = some s) (hk' : n'.sessions[k]? = some s') (hc : s.closed = false) :
    ∃ ms, s'.stream = s.stream ++ ms ∧ (∀ bf, .bitfield bf ∉ ms) ∧
      ∀ c, (∃ ci, .haveChunk ci ∈ ms ∧ ci.toNat = c) ↔ n.Announces c := by
  obtain ⟨t', ht', he⟩ := session_apply ha hk
  obtain rfl := Option.some.inj (hk'.symm.trans ht')
  obtain ⟨ms, hms, hd⟩ := h.disclosed_of_tick hg hf (List.mem_of_getElem? hk) he
  refine ⟨ms, hms, fun bf hb => ?_, fun c => ⟨?_, fun hA => ⟨.ofNat c, ?_, hA.toNat h.wired.indexed⟩⟩⟩
  · obtain ⟨_, _, he⟩ := hd _ hb rfl
    cases he
  · rintro ⟨ci, hm, rfl⟩
    obtain ⟨c, hA, he⟩ := hd _ hm rfl
    cases he
    rwa [hA.toNat h.wired.indexed]
  · obtain ⟨r, hr, rfl, hp⟩ := hA
    have hm : ⟨r.chunkIdx, r.winningPeerSlot⟩ ∈ n.task.passedMsgs :=
      Task.mem_passedMsgs.mpr ⟨r, hr, hp, rfl⟩
    have hcall : .broadcastHave r.chunkIdx ∈ n.calls std (.tick t dead) :=
      Scheduler.broadcastHave_mem (Task.mem_tickOps.mpr (.inr (.inr ⟨List.ne_nil_of_mem hm, rfl⟩))) hm
    obtain ⟨n₁, h₁, ⟨ho, _⟩ | ⟨top, ho, hs⟩⟩ := apply_eq_some.mp ha
    case inl => cases ho
    case inr =>
      obtain rfl := Option.some.inj h₁
      obtain rfl := Option.some.inj ho
      obtain ⟨τ, _, rfl⟩ := taskStep_eq_some.mp hs
      obtain ⟨s'', ms', hs'', hms', hm'⟩ := mem_stream_callbacks hk hc hcall rfl fun _ => rfl
      obtain rfl := Option.some.inj (hk'.symm.trans hs'')
      rwa [List.append_cancel_left (hms.symm.trans hms')]

theorem Disclosed.shows_apply (h : n.Disclosed) (hg : Guard op n₀ n a)
    (hf : op.opens → n₀.FreshSlot) (hcur : op.greets → n.Current)
    (hr : (∃ t dead, a = .task (.tick t dead)) → n.Reliable)
    (ha : n.apply sha256 std now a = some n') (hs : s' ∈ n'.sessions) (hc' : s'.closed = false)
    (hb : ∃ bf, .bitfield bf ∈ s'.stream) :
    Shows n.task.seed.chunks.length (n'.task.scheduler.closed ·) s'.stream := by
  have hcl (c) := closed_of_apply (c := c) h.wired hg hf hr ha
  obtain ⟨k, hk'⟩ := List.getElem?_of_mem hs
  obtain ⟨s, hk, he⟩ | ⟨r, _, _, rfl⟩ := session_of_apply ha hk'
  case inr =>
    obtain ⟨bf, hb⟩ := hb
    cases hb
  case inl =>
    by_cases ht : ∃ t dead, a = .task (.tick t dead)
    case neg =>
      have hcur' (he : a = .announce k) : n.Current := by
        subst he
        exact hcur hg.left
      refine (h.shows_of_not_tick hg hcur' (fun t dead he => ht ⟨t, dead, he⟩) ha hk hk' hc' hb).congr ?_
      exact fun c hc => ((hcl c hc).trans (or_iff_left fun h => ht h.left)).symm
    case pos =>
      obtain ⟨t, dead, rfl⟩ := ht
      have hF := he.invariant s.Follows (fun _ _ hF _ => hF.apply) .refl
      have hc := hF.closed hc'
      obtain ⟨ms, hms, hn, hA⟩ := h.sent_tick hg hf ha hk hk' hc
      rw [hms] at hb ⊢
      obtain ⟨bf, hb⟩ := hb
      have hb := (List.mem_append.mp hb).resolve_right (hn bf)
      refine ((h.shows s (List.mem_of_getElem? hk) hc ⟨bf, hb⟩).append hn).congr fun c hlt => ?_
      rw [hA, hcl c hlt]
      exact or_congr_right (and_iff_right ⟨t, dead, rfl⟩).symm

theorem constants_apply (h : n.apply sha256 std now a = some n') :
    n'.task.seed = n.task.seed ∧ n'.task.initialBitfield = n.task.initialBitfield := by
  obtain ⟨_, ht⟩ | ⟨top, _, hs⟩ := task_apply h
  case inl => rw [ht]; exact ⟨rfl, rfl⟩
  case inr => exact ⟨Task.seed_step hs, Task.initialBitfield_step hs⟩

-- Handshakes complete no chunks.
theorem Current.apply (h : n.Current) (hw : n.Wired Q) (hg : Guard op n₀ n a)
    (hf : op.opens → n₀.FreshSlot) (ho : op.greets) (ha : n.apply sha256 std now a = some n') :
    n'.Current := by
  have hn : ¬∃ t dead, a = .task (.tick t dead) := by
    rintro ⟨t, dead, rfl⟩
    rw [(hg.right t dead rfl).left] at ho
    cases ho
  obtain ⟨hseed, hbf⟩ := constants_apply ha
  rw [Current, hseed, hbf]
  refine ⟨h.left, fun c hc => (h.right c hc).trans (Bool.eq_iff_iff.mpr ?_)⟩
  have hcl := closed_of_apply hw hg hf (fun ht => absurd ht hn) ha hc
  exact (hcl.trans (or_iff_left fun h => hn h.left)).symm

theorem Disclosed.apply (h : n.Disclosed) (hg : Guard op n₀ n a) (hf : op.opens → n₀.FreshSlot)
    (hcur : op.greets → n.Current) (hr : (∃ t dead, a = .task (.tick t dead)) → n.Reliable)
    (ha : n.apply sha256 std now a = some n') : n'.Disclosed := by
  obtain ⟨hseed, hbf⟩ := constants_apply ha
  refine ⟨h.wired.apply hg hf told_true ha, h.recorded.apply h.wired hg ha, ?_, fun s' hs' => ?_, ?_, ?_⟩
  · rw [hseed, hbf, h.initial]
  · obtain ⟨k, hk'⟩ := List.getElem?_of_mem hs'
    obtain ⟨s, hk, he⟩ | ⟨r, _, _, rfl⟩ := session_of_apply ha hk'
    case inr => exact List.forall_mem_nil _
    case inl =>
      exact he.invariant (fun t => ∀ m ∈ t.posted, m.isPiece) (fun _ _ h _ => posted_pieces_apply h)
        (h.posted s (List.mem_of_getElem? hk))
  · rw [hbf]
    exact fun s' hs' hc' hst => h.announced_apply hg ha hs' hc' hst
  · rw [hseed]
    exact fun s' hs' hc' hb => h.shows_apply hg hf hcur hr ha hs' hc' hb

theorem Disclosed.step {x : UInt64 × Op} (h : n.Disclosed) (hx : n.Discloses x)
    (hs : n.step sha256 std x = some n') : n'.Disclosed := by
  refine (step_invariant (fun n₁ => n₁.Disclosed ∧ (x.2.greets → n₁.Current)) ?_ h.wired.basic
    ⟨h, hx.right.left⟩ hs).left
  intro n₁ a n₂ _ _ hg ha ⟨h₁, hcur⟩
  have hr : (∃ t dead, a = .task (.tick t dead)) → n₁.Reliable := by
    rintro ⟨t, dead, rfl⟩
    obtain ⟨ho, rfl⟩ := hg.right t dead rfl
    exact hx.right.right (by rw [ho]; rfl)
  exact ⟨h₁.apply hg hx.left hcur hr ha, fun ho => (hcur ho).apply h₁.wired hg hx.left ho ha⟩

theorem disclosed_start {τ : Task δ} (h : τ.Started sha256 std) :
    ({ task := τ } : Node δ).Disclosed where
  wired     := wired_start h
  recorded  := fun _ _ hk => by cases hk
  initial   := h.initialBitfield
  posted    := List.forall_mem_nil _
  announced := List.forall_mem_nil _
  shows     := List.forall_mem_nil _

end Apply
end Node
end ThinBT
