import ThinBT.Tracker.Server

namespace ThinBT.TrackerServer

-- The call neither announces the endpoint again nor finds its entry stale.
def Keeps (hash : String) (p : TrackerPeerEntry) : Int × Op → Prop
  | (_, .announce h ip port _)      => ¬(h = hash ∧ (ip, port) = p.endpoint)
  | (now, .cleanupStale timeoutSec) => p.stale now timeoutSec = false

-- The entry is from the latest announce of its endpoint, and no later cleanup has found it stale.
def Current (hash : String) (p : TrackerPeerEntry) (calls : List (Int × Op)) : Prop :=
  ∃ before after speed,
    calls = before ++ (p.lastAnnounce, .announce hash p.ip p.port speed) :: after ∧
    p.flags = flagsOf speed ∧ ∀ x ∈ after, Keeps hash p x

-- The list has the other endpoints of the swarm, each once and those with gigabit first.
structure Answers (s : TrackerServer) (hash ip : String) (port : UInt16)
    (result : List TrackerPeerEntry) : Prop where
  mem          : ∀ p, p ∈ result ↔ p ∈ s.swarms hash ∧ p.endpoint ≠ (ip, port)
  once         : (result.map (·.endpoint)).Nodup
  gigabitFirst : result.Pairwise fun p q => q.gigabit → p.gigabit

variable {std : FlagSort} {s : TrackerServer} {calls : List (Int × Op)} {p : TrackerPeerEntry}
variable {hash infoHash : String}

theorem current_concat : Current hash p (calls ++ [x]) ↔
    (∃ speed, x = (p.lastAnnounce, .announce hash p.ip p.port speed) ∧ p.flags = flagsOf speed) ∨
      Current hash p calls ∧ Keeps hash p x := by
  constructor
  · rintro ⟨before, after, speed, he, hf, hk⟩
    obtain rfl | ⟨after', y, rfl⟩ := List.eq_nil_or_concat after
    case inl =>
      obtain ⟨_, hx⟩ := List.append_inj' he rfl
      exact .inl ⟨speed, (List.cons.inj hx).left, hf⟩
    case inr =>
      rw [List.concat_eq_append, ← List.cons_append, ← List.append_assoc] at he
      obtain ⟨hc, hy⟩ := List.append_inj' he rfl
      obtain rfl := (List.cons.inj hy).left
      have ⟨hk', hx⟩ := List.forall_mem_append.mp (List.concat_eq_append ▸ hk)
      exact .inr ⟨⟨before, after', speed, hc, hf, hk'⟩, hx x List.mem_cons_self⟩
  · rintro (⟨speed, rfl, hf⟩ | ⟨⟨before, after, speed, rfl, hf, hk⟩, hx⟩)
    case inl => exact ⟨calls, [], speed, rfl, hf, List.forall_mem_nil _⟩
    case inr =>
      refine ⟨before, after ++ [x], speed, by simp, hf, ?_⟩
      exact List.forall_mem_append.mpr ⟨hk, List.forall_mem_singleton.mpr hx⟩

-- A swarm has one entry for each endpoint, and it has the entries that are current.
structure Holds (calls : List (Int × Op)) (s : TrackerServer) : Prop where
  nodup : ∀ hash, ((s.swarms hash).map (·.endpoint)).Nodup
  mem   : ∀ hash p, p ∈ s.swarms hash ↔ Current hash p calls

theorem swarms_announce_of_ne (h : hash ≠ infoHash) :
    (s.announce std now infoHash ip port speed).1.swarms hash = s.swarms hash :=
  Function.update_of_ne h ..

theorem swarms_announce : (s.announce std now infoHash ip port speed).1.swarms infoHash =
    (s.swarms infoHash).upsert (·.endpoint) ⟨ip, port, flagsOf speed, now⟩ :=
  Function.update_self ..

theorem Holds.announce (h : Holds calls s) :
    Holds (calls ++ [(now, .announce infoHash ip port speed)])
      (s.announce std now infoHash ip port speed).1 := by
  constructor
  · intro hash
    by_cases he : hash = infoHash
    case pos =>
      subst he
      rw [swarms_announce]
      exact List.nodup_map_upsert (h.nodup hash)
    case neg =>
      rw [swarms_announce_of_ne he]
      exact h.nodup hash
  · intro hash p
    rw [current_concat, ← h.mem]
    by_cases he : hash = infoHash
    case pos =>
      subst he
      rw [swarms_announce, List.mem_upsert (h.nodup hash)]
      refine or_congr ⟨?_, ?_⟩ (and_congr_right fun _ => ?_)
      · rintro rfl
        exact ⟨speed, rfl, rfl⟩
      · rintro ⟨speed', hx, hf⟩
        cases hx
        cases p
        cases hf
        rfl
      · rw [Keeps, and_iff_right rfl, eq_comm]
        rfl
    case neg =>
      rw [swarms_announce_of_ne he]
      constructor
      · exact fun hp => .inr ⟨hp, fun hk => he hk.left.symm⟩
      · rintro (⟨speed', hx, _⟩ | ⟨hp, _⟩)
        case inl => cases hx; exact absurd rfl he
        case inr => exact hp

theorem Holds.cleanupStale (h : Holds calls s) :
    Holds (calls ++ [(now, .cleanupStale timeoutSec)]) (s.cleanupStale now timeoutSec) := by
  constructor
  · exact fun hash => (h.nodup hash).sublist (List.filter_sublist.map _)
  · intro hash p
    rw [current_concat, ← h.mem, TrackerServer.cleanupStale, List.mem_filter, Bool.not_eq_true']
    refine (or_iff_right ?_).symm
    rintro ⟨_, hx, _⟩
    cases hx

theorem holds_run : Holds calls (run std calls) := by
  induction calls using List.reverseRecOn
  case nil =>
    refine ⟨fun _ => .nil, fun hash p => iff_of_false List.not_mem_nil ?_⟩
    rintro ⟨before, after, _, he, _⟩
    simp at he
  case append_singleton calls x hi =>
    rw [run, Actions.exec_append, ← run]
    obtain ⟨now, op⟩ := x
    cases op
    case announce     => exact hi.announce
    case cleanupStale => exact hi.cleanupStale

theorem gigabit_of_le {p q : TrackerPeerEntry} (hp : p.flags = flagsOf speed)
    (hq : q.flags = flagsOf speed') (h : q.flags ≤ p.flags) (hg : q.gigabit) : p.gigabit := by
  rw [hp, hq] at h
  rw [TrackerPeerEntry.gigabit, hq] at hg
  rw [TrackerPeerEntry.gigabit, hp]
  unfold flagsOf at h hg ⊢
  split at hg
  case isFalse => cases hg
  case isTrue hs =>
    rw [if_pos hs] at h
    split at h
    case isTrue hs'  => rw [if_pos hs']; rfl
    case isFalse     => exact absurd h (by decide)

theorem endpoint_ne_iff {ip : String} {port : UInt16} :
    p.endpoint ≠ (ip, port) ↔ p.ip ≠ ip ∨ p.port ≠ port := by
  rw [Ne, TrackerPeerEntry.endpoint, Prod.mk.injEq, not_and_or]

theorem Holds.answers (h : Holds calls s) :
    s.Answers hash ip port (s.announce std now hash ip port speed).2 := by
  have ha : Holds _ (s.announce std now hash ip port speed).1 := h.announce
  have hp : (s.announce std now hash ip port speed).2.Perm
      (((s.announce std now hash ip port speed).1.swarms hash).filter
        fun p => p.ip ≠ ip || p.port ≠ port) := by
    rw [swarms_announce]
    exact std.perm _
  have mem (p : TrackerPeerEntry) : p ∈ (s.announce std now hash ip port speed).2 ↔
      p ∈ s.swarms hash ∧ p.endpoint ≠ (ip, port) := by
    rw [hp.mem_iff, List.mem_filter, swarms_announce, List.mem_upsert (h.nodup hash),
      Bool.or_eq_true_iff, decide_eq_true_iff, decide_eq_true_iff, ← endpoint_ne_iff]
    constructor
    · rintro ⟨rfl | hp, he⟩
      case inl => exact absurd rfl he
      case inr => exact ⟨hp.left, he⟩
    · exact fun hp => ⟨.inr hp, hp.right⟩
  refine ⟨mem, ?_, ?_⟩
  · exact (hp.map _).nodup_iff.mpr ((ha.nodup hash).sublist (List.filter_sublist.map _))
  · refine (std.sorted _).imp_of_mem fun {p q} hp hq hle => ?_
    obtain ⟨_, _, speed, _, hf, _⟩ := (h.mem hash p).mp ((mem p).mp hp).left
    obtain ⟨_, _, speed', _, hf', _⟩ := (h.mem hash q).mp ((mem q).mp hq).left
    exact gigabit_of_le hf hf' hle

-- After any calls, a swarm has one entry for each endpoint whose latest announce no later cleanup has
-- found stale, with the flags and the time of that announce. An announce returns the others and does
-- not change other swarms.
theorem tracker_membership (std : FlagSort) (calls : List (Int × Op)) :
    (∀ hash, (((run std calls).swarms hash).map (·.endpoint)).Nodup) ∧
    (∀ hash p, p ∈ (run std calls).swarms hash ↔ Current hash p calls) ∧
    (∀ now hash ip port speed,
      (run std calls).Answers hash ip port
        ((run std calls).announce std now hash ip port speed).2 ∧
      ∀ other ≠ hash, ((run std calls).announce std now hash ip port speed).1.swarms other =
        (run std calls).swarms other) := by
  have h : Holds calls (run std calls) := holds_run
  refine ⟨h.nodup, h.mem, fun now hash ip port speed => ⟨h.answers, fun other hn => ?_⟩⟩
  exact swarms_announce_of_ne hn

end ThinBT.TrackerServer
