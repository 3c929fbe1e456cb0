import ThinBT.Session.PeerSession

namespace ThinBT

def Msg.isPiece : Msg → Bool
  | piece .. => true
  | _        => false

namespace PeerSession

variable {s : PeerSession} {now : UInt64} {u : Update}

section Fields

-- The updates that depend on the state of the session, as updates of its fields.
@[simp]
theorem apply_sendInterested :
    s.apply now .sendInterested = { s with
      amInterested := true
      log := s.log ++ if s.amInterested || s.closed then [] else [(now, .sent .interested)] } := by
  obtain ⟨_, _, amInterested, _, _, _, _, closed, _⟩ := s
  cases amInterested <;> cases closed <;> simp [apply, sendInterested, send]

@[simp]
theorem apply_sendNotInterested :
    s.apply now .sendNotInterested = { s with
      amInterested := false
      log := s.log ++ if s.amInterested && !s.closed then [(now, .sent .notInterested)] else [] } := by
  obtain ⟨_, _, amInterested, _, _, _, _, closed, _⟩ := s
  cases amInterested <;> cases closed <;> simp [apply, sendNotInterested, send]

@[simp]
theorem apply_setReading :
    s.apply now (.setReading r) = { s with
      reading := if s.reading = .nothing then .nothing else r } := by
  simp only [apply]
  split
  case isTrue h  => rw [← h]
  case isFalse h => rfl

@[simp]
theorem apply_finishRead :
    s.apply now (.finishRead k data) = { s with
      reads  := s.reads.eraseIdx k
      posted := if s.closed then s.posted
        else s.posted ++ ((s.reads[k]?).bind (·.reply data)).toList } := by
  simp only [apply, finishRead]
  split
  case h_1 h =>
    rw [h, List.eraseIdx_of_length_le (List.getElem?_eq_none_iff.mp h)]
    simp
  case h_2 j h => simp [h]

@[simp]
theorem apply_runPosted :
    s.apply now .runPosted = { s with
      posted := s.posted.tail
      log    := s.log ++ if s.closed then [] else (s.posted.take 1).map fun m => (now, .sent m) } := by
  obtain ⟨_, _, _, _, _, _, _, closed, _, _, _, _, _, _, _, posted, _⟩ := s
  cases posted <;> cases closed <;> simp [apply, runPosted, send]

end Fields

-- The messages that an update writes to an open socket.
def sends (s : PeerSession) : Update → List Msg
  | .send m               => [m]
  | .sendHandshake speed  => [.handshake speed]
  | .sendInterested       => if s.amInterested then [] else [.interested]
  | .sendNotInterested    => if s.amInterested then [.notInterested] else []
  | .issueRequest c b len => [.request (.ofNat c) (.ofNat b) (.ofNat len)]
  | .choke choking        => [if choking then .choke else .unchoke]
  | .runPosted            => s.posted.take 1
  | .requestTimedOut c b  => [.cancel (.ofNat c) (.ofNat b)]
  | _                     => []

-- What is known about a message that an update sends.
inductive Sends (s : PeerSession) : Update → Msg → Prop
  | send {m : Msg} : Sends s (.send m) m
  | handshake {speed : Nat} : Sends s (.sendHandshake speed) (.handshake speed)
  | interested : Sends s .sendInterested .interested
  | notInterested : s.amInterested = true → Sends s .sendNotInterested .notInterested
  | request {c b len : Nat} :
    Sends s (.issueRequest c b len) (.request (.ofNat c) (.ofNat b) (.ofNat len))
  | choke : Sends s (.choke true) .choke
  | unchoke : Sends s (.choke false) .unchoke
  | posted {m : Msg} : m ∈ s.posted → Sends s .runPosted m
  | cancel {c b : Nat} : Sends s (.requestTimedOut c b) (.cancel (.ofNat c) (.ofNat b))

theorem sends_of_mem (h : m ∈ s.sends u) : s.Sends u m := by
  cases u
  case sendInterested =>
    simp only [sends] at h
    split at h
    case isTrue  => cases h
    case isFalse => rw [List.mem_singleton.mp h]; exact .interested
  case sendNotInterested =>
    simp only [sends] at h
    split at h
    case isTrue hi => rw [List.mem_singleton.mp h]; exact .notInterested hi
    case isFalse   => cases h
  case send            => rw [List.mem_singleton.mp h]; exact .send
  case sendHandshake   => rw [List.mem_singleton.mp h]; exact .handshake
  case issueRequest    => rw [List.mem_singleton.mp h]; exact .request
  case requestTimedOut => rw [List.mem_singleton.mp h]; exact .cancel
  case choke choking   =>
    rw [List.mem_singleton.mp h]
    cases choking
    case true  => exact .choke
    case false => exact .unchoke
  case runPosted => exact .posted (List.mem_of_mem_take h)
  all_goals cases h

-- The messages that an update takes from the socket.
def takes : Update → List Msg
  | .receive m | .dispatch _ m => [m]
  | _                          => []

def traffic (now : UInt64) (s : PeerSession) (u : Update) : List (UInt64 × Traffic) :=
  (takes u).map (fun m => (now, .received m)) ++
    if s.closed then [] else (s.sends u).map fun m => (now, .sent m)

theorem log_apply : (s.apply now u).log = s.log ++ s.traffic now u := by
  have hs (t : PeerSession) (m : Msg) :
      (t.send now m).log = t.log ++ if t.closed then [] else [(now, .sent m)] := by
    simp only [send]
    split <;> simp
  cases u
  case dispatch offsets m => cases m <;> exact congrArg (s.log ++ ·) (by simp [traffic, takes, sends])
  case receive m          => exact congrArg (s.log ++ ·) (by simp [traffic, takes, sends])
  case sendInterested | sendNotInterested =>
    cases hi : s.amInterested <;> cases hc : s.closed <;> simp [traffic, takes, sends, hi, hc]
  case send | sendHandshake | issueRequest | choke | requestTimedOut => exact hs ..
  case connected | close | setPipelineCap => simp [apply, traffic, takes, sends]
  all_goals simp [traffic, takes, sends]

theorem stream_apply : (s.apply now u).stream = s.stream ++ if s.closed then [] else s.sends u := by
  rw [stream, log_apply, List.filterMap_append, traffic, List.filterMap_append, List.filterMap_map]
  congr 1
  split
  case isTrue  => simp
  case isFalse => simp [List.filterMap_map]

theorem received_apply : (s.apply now u).received = s.received ++ takes u := by
  rw [received, log_apply, List.filterMap_append, traffic, List.filterMap_append, List.filterMap_map]
  congr 1
  split
  case isTrue  => simp
  case isFalse => simp [List.filterMap_map]

-- Nothing is written to a closed socket.
theorem stream_apply_of_closed (h : s.closed = true) : (s.apply now u).stream = s.stream := by
  rw [stream_apply, if_pos h, List.append_nil]

-- The messages that are posted to the session are answers of the pool.
theorem posted_apply (h : m ∈ (s.apply now u).posted) :
    m ∈ s.posted ∨ ∃ k data j, u = .finishRead k data ∧ s.reads[k]? = some j ∧ j.reply data = some m := by
  cases u
  case dispatch offsets m => cases m <;> exact .inl h
  case finishRead k data =>
    rw [apply_finishRead] at h
    change m ∈ (if s.closed then _ else _) at h
    split at h
    case isTrue => exact .inl h
    case isFalse =>
      cases List.mem_append.mp h
      case inl h => exact .inl h
      case inr h =>
        obtain ⟨j, hj, hr⟩ := Option.bind_eq_some_iff.mp (Option.mem_toList.mp h)
        exact .inr ⟨k, data, j, rfl, hj, hr⟩
  case runPosted =>
    rw [apply_runPosted] at h
    exact .inl (List.mem_of_mem_tail h)
  all_goals first | exact .inl h | (simp at h; exact .inl h)

-- The reads of a session are for requests.
theorem reads_apply (h : j ∈ (s.apply now u).reads) :
    j ∈ s.reads ∨ ∃ offsets index begin length, u = .dispatch offsets (.request index begin length) ∧
      s.handleRequestMsg offsets index begin length = some j := by
  cases u
  case dispatch offsets m =>
    cases m
    case request index begin length =>
      cases List.mem_append.mp h
      case inl h => exact .inl h
      case inr h => exact .inr ⟨offsets, index, begin, length, rfl, Option.mem_toList.mp h⟩
    all_goals exact .inl h
  case finishRead k data =>
    rw [apply_finishRead] at h
    exact .inl (List.mem_of_mem_eraseIdx h)
  all_goals first | exact .inl h | (simp at h; exact .inl h)

section Forall

variable {P : Msg → Prop} {R : ReadJob → Prop}

theorem forall_stream_apply (h : ∀ m ∈ s.stream, P m) (hs : ∀ m ∈ s.sends u, P m) :
    ∀ m ∈ (s.apply now u).stream, P m := by
  intro m hm
  rw [stream_apply] at hm
  cases List.mem_append.mp hm
  case inl hm => exact h m hm
  case inr hm =>
    split at hm
    case isTrue  => cases hm
    case isFalse => exact hs m hm

theorem forall_posted_apply (h : ∀ m ∈ s.posted, P m)
    (hp : ∀ k data j, u = .finishRead k data → s.reads[k]? = some j → P (.piece j.index j.begin data)) :
    ∀ m ∈ (s.apply now u).posted, P m := by
  intro m hm
  obtain hm | ⟨k, data, j, rfl, hj, hr⟩ := posted_apply hm
  case inl => exact h m hm
  case inr =>
    unfold ReadJob.reply at hr
    split at hr
    case isTrue  => cases hr
    case isFalse => exact Option.some.inj hr ▸ hp k data j rfl hj

theorem forall_reads_apply (h : ∀ j ∈ s.reads, R j)
    (hr : ∀ offsets index begin length j, u = .dispatch offsets (.request index begin length) →
      s.handleRequestMsg offsets index begin length = some j → R j) :
    ∀ j ∈ (s.apply now u).reads, R j := by
  intro j hj
  obtain hj | ⟨offsets, index, begin, length, hu, hj⟩ := reads_apply hj
  case inl => exact h j hj
  case inr => exact hr offsets index begin length j hu hj

end Forall

theorem posted_pieces_apply (h : ∀ m ∈ s.posted, m.isPiece) :
    ∀ m ∈ (s.apply now u).posted, m.isPiece :=
  forall_posted_apply h fun _ _ _ _ _ => rfl

end PeerSession
end ThinBT
