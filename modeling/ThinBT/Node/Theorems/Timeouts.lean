import ThinBT.Node.Theorems.Guard
import ThinBT.Session.Theorems.Log

namespace ThinBT

-- The request of a sub-block is answered or made again.
def Traffic.renews (index begin : UInt32) : Traffic → Bool
  | .received (.piece i b _) => i = index && b = begin
  | .sent (.request i b _)   => i = index && b = begin
  | _                        => false

-- A request is not too old, or it was followed by its piece or made again.
def timely (now : UInt64) (x : UInt64 × Traffic) (log : List (UInt64 × Traffic)) : Bool :=
  match x.2 with
  | .sent (.request index begin _) =>
    now.toNat - x.1.toNat < requestTimeoutMs || log.any (·.2.renews index begin)
  | _ => true

-- No request is overdue.
def punctual (now : UInt64) : List (UInt64 × Traffic) → Bool
  | []       => true
  | x :: log => timely now x log && punctual now log

-- The last request of a sub-block was made at the given time, and it was not answered.
def Awaits (log : List (UInt64 × Traffic)) (c b : Nat) (t : UInt64) : Prop :=
  ∃ before index begin len after, index.toNat = c ∧ begin.toNat = b ∧
    log = before ++ (t, .sent (.request index begin len)) :: after ∧
    ∀ x ∈ after, x.2.renews index begin = false

theorem Awaits.append (h : Awaits log c b t)
    (hx : ∀ x ∈ xs, ∀ index begin, index.toNat = c → begin.toNat = b → x.2.renews index begin = false) :
    Awaits (log ++ xs) c b t := by
  obtain ⟨before, index, begin, len, after, hc, hb, rfl, ha⟩ := h
  refine ⟨before, index, begin, len, after ++ xs, hc, hb, by simp, fun x hm => ?_⟩
  cases List.mem_append.mp hm
  case inl hm => exact ha x hm
  case inr hm => exact hx x hm index begin hc hb

theorem Awaits.lt (h : Awaits log c b t) (hp : punctual now log) :
    now.toNat - t.toNat < requestTimeoutMs := by
  obtain ⟨before, index, begin, len, after, _, _, rfl, ha⟩ := h
  induction before
  case nil =>
    have ht := (Bool.and_eq_true_iff.mp hp).left
    simp only [timely, Bool.or_eq_true, decide_eq_true_eq] at ht
    refine ht.resolve_right fun hn => ?_
    obtain ⟨x, hx, hr⟩ := List.any_eq_true.mp hn
    rw [ha x hx] at hr
    cases hr
  case cons y before hi => exact hi (Bool.and_eq_true_iff.mp hp).right

def Msg.isRequest : Msg → Bool
  | request .. => true
  | _          => false

namespace PeerSession

variable {s : PeerSession} {u : Update} {now : UInt64}

-- No request of the session has timed out, and those that it waits for were made.
structure Patient (s : PeerSession) : Prop where
  timeouts : s.consecutiveTimeouts = 0
  posted   : ∀ m ∈ s.posted, m.isPiece
  times    : ∀ c b t, s.pendingTimes.find? (toLex (c, b)) = some t → Awaits s.log c b t

def Prompt (s : PeerSession) : Update → Prop
  | .issueRequest ..    => s.closed = false
  | .requestTimedOut .. => False
  | .receive m          => ∃ speed, m = .handshake speed
  | .send m             => m.isRequest = false
  | _                   => True

theorem not_renews_of_traffic (ht : ∀ m ∈ takes u, m.isPiece = false)
    (hs : ∀ m ∈ s.sends u, m.isRequest = false) (hx : x ∈ s.traffic now u) :
    x.2.renews index begin = false := by
  cases List.mem_append.mp hx
  case inl hx =>
    obtain ⟨m, hm, rfl⟩ := List.mem_map.mp hx
    have hm := ht m hm
    cases m <;> first | rfl | cases hm
  case inr hx =>
    split at hx
    case isTrue => cases hx
    case isFalse =>
      obtain ⟨m, hm, rfl⟩ := List.mem_map.mp hx
      have hm := hs m hm
      cases m <;> first | rfl | cases hm

theorem Patient.apply (h : s.Patient) (hu : s.Prompt u) : (s.apply now u).Patient := by
  have hp : ∀ m ∈ (s.apply now u).posted, m.isPiece := posted_pieces_apply h.posted
  -- The update has nothing to do with requests and pieces.
  have quiet (he : (s.apply now u).pendingTimes = s.pendingTimes ∧
        (s.apply now u).consecutiveTimeouts = s.consecutiveTimeouts)
      (ht : ∀ m ∈ takes u, m.isPiece = false) (hs : ∀ m ∈ s.sends u, m.isRequest = false) :
      (s.apply now u).Patient := by
    refine ⟨he.right.trans h.timeouts, hp, fun c b t hf => ?_⟩
    rw [log_apply]
    exact (h.times c b t (he.left ▸ hf)).append fun x hx _ _ _ _ => not_renews_of_traffic ht hs hx
  have key {i j : UInt32} {c b : Nat} {index begin : UInt32} (hn : toLex (i.toNat, j.toNat) ≠ toLex (c, b))
      (hc : index.toNat = c) (hb : begin.toNat = b) : (decide (i = index) && decide (j = begin)) = false := by
    rw [← hc, ← hb] at hn
    simp only [Bool.and_eq_false_iff, decide_eq_false_iff_not]
    by_contra hne
    simp only [not_or, not_not] at hne
    exact hn (by rw [hne.left, hne.right])
  cases u
  case receive m =>
    obtain ⟨speed, rfl⟩ := hu
    exact quiet ⟨rfl, rfl⟩ (List.forall_mem_singleton.mpr rfl) (List.forall_mem_nil _)
  case dispatch offsets m =>
    cases m
    case piece i j data =>
      refine ⟨rfl, hp, fun c b t hf => ?_⟩
      change (s.pendingTimes.erase (toLex (i.toNat, j.toNat))).find? _ = _ at hf
      rw [SortedMap.find?_erase] at hf
      split at hf
      case isTrue => cases hf
      case isFalse hn =>
        refine (h.times c b t hf).append fun x hx index begin hc hb => ?_
        rw [List.mem_singleton.mp hx]
        exact key hn hc hb
    all_goals exact quiet ⟨rfl, rfl⟩ (List.forall_mem_singleton.mpr rfl) (List.forall_mem_nil _)
  case send m => exact quiet ⟨rfl, rfl⟩ (List.forall_mem_nil _) (List.forall_mem_singleton.mpr hu)
  case sendHandshake =>
    exact quiet ⟨rfl, rfl⟩ (List.forall_mem_nil _) (List.forall_mem_singleton.mpr rfl)
  case sendInterested =>
    refine quiet ?_ (List.forall_mem_nil _) fun m hm => ?_
    · simp only [PeerSession.apply, sendInterested]
      split <;> exact ⟨rfl, rfl⟩
    · simp only [sends] at hm
      split at hm
      case isTrue  => cases hm
      case isFalse => rw [List.mem_singleton.mp hm]; rfl
  case sendNotInterested =>
    refine quiet ?_ (List.forall_mem_nil _) fun m hm => ?_
    · simp only [PeerSession.apply, sendNotInterested]
      split <;> exact ⟨rfl, rfl⟩
    · simp only [sends] at hm
      split at hm
      case isTrue  => rw [List.mem_singleton.mp hm]; rfl
      case isFalse => cases hm
  case issueRequest c' b' len =>
    refine ⟨h.timeouts, hp, fun c b t hf => ?_⟩
    have hl : (s.apply now (.issueRequest c' b' len)).log =
        s.log ++ [(now, .sent (.request (.ofNat c') (.ofNat b') (.ofNat len)))] := by
      rw [log_apply, traffic, if_neg (by simp [show s.closed = false from hu])]
      rfl
    rw [hl]
    change (s.pendingTimes.upsert _ now).find? _ = _ at hf
    rw [SortedMap.find?_upsert] at hf
    split at hf
    case isTrue he =>
      obtain rfl := Option.some.inj hf
      obtain ⟨hc, hb⟩ := Prod.mk.inj (toLex_inj.mp he)
      exact ⟨s.log, _, _, _, [], hc, hb, rfl, List.forall_mem_nil _⟩
    case isFalse hn =>
      refine (h.times c b t hf).append fun x hx index begin hc hb => ?_
      rw [List.mem_singleton.mp hx]
      exact key hn hc hb
  case setReading r =>
    refine quiet ?_ (List.forall_mem_nil _) (List.forall_mem_nil _)
    simp only [PeerSession.apply]
    split <;> exact ⟨rfl, rfl⟩
  case choke choking =>
    refine quiet ⟨rfl, rfl⟩ (List.forall_mem_nil _) (List.forall_mem_singleton.mpr ?_)
    cases choking <;> rfl
  case finishRead k data =>
    refine quiet ?_ (List.forall_mem_nil _) (List.forall_mem_nil _)
    simp only [PeerSession.apply, finishRead]
    split <;> exact ⟨rfl, rfl⟩
  case runPosted =>
    refine quiet ?_ (List.forall_mem_nil _) fun m hm => ?_
    · simp only [PeerSession.apply, runPosted]
      split <;> exact ⟨rfl, rfl⟩
    · have hm := h.posted m (List.mem_of_mem_take hm)
      cases m <;> first | rfl | cases hm
  case requestTimedOut => cases hu
  case connected | close | setPipelineCap =>
    exact quiet ⟨rfl, rfl⟩ (List.forall_mem_nil _) (List.forall_mem_nil _)

theorem Patient.timedOut (h : s.Patient) (hp : punctual now s.log) : Node.timedOut now s = [] := by
  rw [Node.timedOut, List.map_eq_nil_iff, List.filter_eq_nil_iff]
  intro e he
  have hf : s.pendingTimes.find? (toLex ((ofLex e.1).1, (ofLex e.1).2)) = some e.2 :=
    SortedMap.find?_eq_some.mpr he
  have hlt := (h.times _ _ _ hf).lt hp
  simpa using hlt

end PeerSession

namespace Node

open PeerSession

variable {δ : Type} {n n' n₀ : Node δ} {now : UInt64} {k : Nat} {s : PeerSession} {a : Action}
variable {op : Op} {std : StdSort}

theorem timedOut_of_mem (h : .session k (.requestTimedOut c b) ∈ n.actions std now op) :
    ∃ fast rtt s, op = .evalTick k fast rtt ∧ n.sessions[k]? = some s ∧ (c, b) ∈ timedOut now s := by
  have onSession {f : PeerSession → List Action} {j : Nat} {x : Action} (h : x ∈ n.onSession j f) :
      ∃ s, n.sessions[j]? = some s ∧ x ∈ f s := by
    unfold Node.onSession at h
    split at h
    case h_1      => cases h
    case h_2 s hk => exact ⟨s, hk, h⟩
  cases op <;> simp only [actions] at h
  case evalTick j fast rtt =>
    obtain ⟨s, hk, h⟩ := onSession h
    unfold evalTick at h
    split at h
    case isTrue => cases h
    case isFalse =>
      obtain h | h := List.mem_append.mp h
      case inl =>
        obtain ⟨x, hx, h⟩ := List.mem_flatMap.mp h
        simp only [List.mem_cons, Action.session.injEq, Update.requestTimedOut.injEq, List.not_mem_nil,
          reduceCtorEq, or_false] at h
        obtain ⟨rfl, rfl, rfl⟩ := h
        exact ⟨fast, rtt, s, rfl, hk, hx⟩
      case inr => split at h <;> simp at h
  case established j =>
    obtain ⟨s, _, h⟩ := onSession h
    unfold established at h
    split at h <;> simp [readNext] at h
  case receive j m peers =>
    obtain ⟨s, _, h⟩ := onSession h
    unfold receive at h
    cases m <;> simp [handleHandshake, sendHandshakeIfNeeded, hangUp, readNext, answer, interestIf] at h <;> grind
  case readError j =>
    obtain ⟨s, _, h⟩ := onSession h
    unfold readError at h
    split at h <;> simp [hangUp] at h
  case read j i =>
    obtain ⟨s, _, h⟩ := onSession h
    simp [read] at h
  case connect | accept =>
    unfold openSession at h
    split at h <;> simp at h
  case tickPex delta => split at h <;> simp at h
  all_goals simp at h

-- Requests only time out when the session is evaluated.
theorem prompt (hg : Guard op n₀ n a) (hn : ∀ c b, a ≠ .session k (.requestTimedOut c b))
    (ht : n.Touches std now a k s u) : s.Prompt u := by
  cases ht
  case session hk ha =>
    subst ha
    have hs := (hg s hk).right
    cases u
    case receive m => exact hs.right.right
    case send m =>
      obtain ⟨⟨_, _, rfl⟩, _⟩ := hs
      rfl
    case requestTimedOut c b => exact absurd rfl (hn c b)
    case issueRequest        => cases hs
    all_goals trivial
  case call call _ _ hr =>
    cases call
    case issueRequest => exact hr.left
    all_goals trivial
  case announce => rfl
  all_goals trivial

def Op.evaluates : Op → Option Nat
  | .evalTick k _ _ => some k
  | _               => none

-- Every request of the session that is too old when it is evaluated was answered or made again.
def PunctualAt (k : Nat) (n : Node δ) (x : UInt64 × Op) : Prop :=
  x.2.evaluates = some k → ∀ s ∈ n.sessions[k]?, punctual x.1 s.log

instance {x : UInt64 × Op} : Decidable (n.PunctualAt k x) :=
  inferInstanceAs (Decidable (x.2.evaluates = some k → ∀ s ∈ n.sessions[k]?, punctual x.1 s.log))

def PatientAt (k : Nat) (n : Node δ) : Prop :=
  ∀ s, n.sessions[k]? = some s → s.Patient

section Apply

variable [DecidableEq δ] {sha256 : List UInt8 → δ}

theorem PatientAt.apply (h : n.PatientAt k) (hg : Guard op n₀ n a)
    (hn : ∀ c b, a ≠ .session k (.requestTimedOut c b)) (ha : n.apply sha256 std now a = some n') :
    n'.PatientAt k := by
  intro s' hk'
  obtain ⟨s, hk, he⟩ | ⟨r, rfl, _, rfl⟩ := session_of_apply ha hk'
  case inl => exact he.invariant Patient (fun _ _ hs ht => hs.apply (prompt hg hn ht)) (h s hk)
  case inr => exact ⟨rfl, List.forall_mem_nil _, fun _ _ _ hf => by cases hf⟩

theorem PatientAt.step (h : n.PatientAt k) (hb : n.Basic) (hx : n.PunctualAt k x)
    (hs : n.step sha256 std x = some n') : n'.PatientAt k := by
  refine step_invariant (PatientAt k) (fun n₁ a n₂ hm _ hg ha h₁ => h₁.apply hg ?_ ha) hb h hs
  rintro c b rfl
  obtain ⟨now, op⟩ := x
  obtain ⟨fast, rtt, s, rfl, hk, ht⟩ := timedOut_of_mem hm
  rw [(h s hk).timedOut (hx rfl s hk)] at ht
  cases ht

-- A session whose requests are answered in time has no timeouts.
theorem punctual_session_never_times_out {τ : Task δ}
    (hp : Machine.AllAt (step sha256 std) (PunctualAt k) { task := τ } ops)
    (hr : Machine.run (step sha256 std) { task := τ } ops = some n) (hk : n.sessions[k]? = some s) :
    s.consecutiveTimeouts = 0 ∧
    ∀ now fast rtt, punctual now s.log → ∀ a ∈ n.actions std now (.evalTick k fast rtt),
      (∀ c b, a ≠ .session k (.requestTimedOut c b)) ∧
      (∀ c b, a ≠ .task (.session (.onSubblockTimeout c b))) ∧ a ≠ .detach k := by
  have h : n.Basic ∧ n.PatientAt k := by
    refine hp.invariant (fun n => n.Basic ∧ n.PatientAt k) (fun _ _ _ h hx hs => ?_) ?_ hr
    · exact ⟨h.left.step hs, h.right.step h.left hx hs⟩
    · exact ⟨basic_start, fun _ hk => by cases hk⟩
  have hs := h.right s hk
  refine ⟨hs.timeouts, fun now fast rtt hn a ha => ?_⟩
  simp only [actions, onSession, hk, evalTick, hs.timedOut hn, hs.timeouts] at ha
  split at ha
  case isTrue => cases ha
  case isFalse =>
    rw [List.flatMap_nil, List.nil_append, if_neg (by decide)] at ha
    simp only [List.mem_cons, List.not_mem_nil, or_false] at ha
    obtain rfl | rfl := ha
    all_goals simp

end Apply

section Runs

def quarterSeed : TSeedFile Unit where
  fileSize := 4
  config   := {}
  chunks   := [⟨0, 1, ()⟩, ⟨1, 1, ()⟩, ⟨2, 1, ()⟩, ⟨3, 1, ()⟩]
  countLt  := by decide

def quarterNode : Node Unit :=
  { task := (Task.cmdAdd (fun _ => ()) .stable quarterSeed none 4 1000 [0, 1, 2, 3]).get
      (by decide +kernel) }

-- All chunks are requested from the first peer.
def quarterRequests : List (UInt64 × Op) := [
  (1, .connect), (2, .established 0), (3, .receive 0 (.handshake 1000) []),
  (4, .receive 0 (.bitfield [0xF0]) []), (5, .receive 0 .unchoke []), (10, .tick false)
]

def answeredRun : List (UInt64 × Op) := quarterRequests ++ [
  (20, .receive 0 (.piece 0 0 [1]) []), (21, .receive 0 (.piece 1 0 [2]) []),
  (22, .receive 0 (.piece 2 0 [3]) []), (23, .receive 0 (.piece 3 0 [4]) []),
  (4000, .evalTick 0 true 0)
]

def answeredNode : Node Unit :=
  (Machine.run (step (fun _ => ()) .stable) quarterNode answeredRun).get (by decide +kernel)

def answeredSession : PeerSession :=
  (answeredNode.sessions[0]?).get (by decide +kernel)

theorem answeredSession_has_no_timeouts :
    punctual 9000 answeredSession.log ∧ answeredSession.state = .connected ∧
      answeredSession.consecutiveTimeouts = 0 ∧
      ∀ now fast rtt, punctual now answeredSession.log →
        ∀ a ∈ answeredNode.actions .stable now (.evalTick 0 fast rtt),
          (∀ c b, a ≠ .session 0 (.requestTimedOut c b)) ∧
          (∀ c b, a ≠ .task (.session (.onSubblockTimeout c b))) ∧ a ≠ .detach 0 := by
  have hr : Machine.run (step (fun _ => ()) .stable) quarterNode answeredRun = some answeredNode :=
    (Option.some_get _).symm
  exact ⟨by decide +kernel, by decide +kernel,
    punctual_session_never_times_out (by decide +kernel) hr (Option.some_get _).symm⟩

-- Three of the requests are moved to a second peer and cancelled, and the last one is answered.
def rebalancedRun : List (UInt64 × Op) := quarterRequests ++ [
  (11, .connect), (12, .established 1), (13, .receive 1 (.handshake 100) []),
  (20, .receive 1 (.bitfield [0xE0]) []), (30, .receive 0 (.piece 3 0 [4]) [])
]

def rebalancedNode : Node Unit :=
  (Machine.run (step (fun _ => ()) .stable) quarterNode rebalancedRun).get (by decide +kernel)

-- The first peer is dropped although it has nothing left to answer.
theorem cancelled_requests_time_out :
    Machine.run (step (fun _ => ()) .stable) quarterNode rebalancedRun = some rebalancedNode ∧
      (rebalancedNode.sessions[0]?).map (fun s => s.log.drop 6) = some [
        (10, .sent (.request 0 0 16384)), (10, .sent (.request 1 0 16384)),
        (10, .sent (.request 2 0 16384)), (10, .sent (.request 3 0 16384)),
        (20, .sent (.cancel 0 0)), (20, .sent (.cancel 1 0)), (20, .sent (.cancel 2 0)),
        (30, .received (.piece 3 0 [4]))] ∧
      ∃ n, rebalancedNode.step (fun _ => ()) .stable (4000, .evalTick 0 true 0) = some n ∧
        (n.sessions[0]?).map (fun s => (s.state, s.consecutiveTimeouts)) = some (.disconnected, 3) :=
  ⟨(Option.some_get _).symm, by decide +kernel,
    (rebalancedNode.step (fun _ => ()) .stable (4000, .evalTick 0 true 0)).get (by decide +kernel),
    (Option.some_get _).symm, by decide +kernel⟩

end Runs
end Node
end ThinBT
