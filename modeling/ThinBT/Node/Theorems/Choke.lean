import ThinBT.Node.Choke
import ThinBT.Util.Machine

namespace ThinBT

namespace Choke

variable {eligible : (Nat → Bool) → Nat → Bool} {choked : Nat → Bool} {l : List Nat} {ks : List Nat}

-- The number of sessions of the list that are not choked.
def unchoked (l : List Nat) (choked : Nat → Bool) : Nat :=
  l.countP (!choked ·)

theorem unchoked_update (h : l.Nodup) :
    unchoked l (Function.update choked k false) ≤ unchoked l choked + 1 := by
  have hc : l.count k ≤ 1 := List.nodup_iff_count_le_one.mp h k
  refine Nat.le_trans ?_ (Nat.add_le_add_left hc _)
  clear h hc
  unfold unchoked
  induction l
  case nil => exact Nat.le_refl _
  case cons j l hi =>
    rw [List.countP_cons, List.countP_cons, List.count_cons]
    by_cases hj : j = k
    case pos =>
      subst hj
      simp only [Function.update_self, Bool.not_false, if_true, beq_self_eq_true]
      omega
    case neg =>
      rw [Function.update_of_ne hj]
      omega

theorem unchoked_fill (h : l.Nodup) :
    unchoked l (fill eligible left ks choked) ≤ unchoked l choked + left := by
  induction ks generalizing left choked
  case nil => cases left <;> exact Nat.le_add_right ..
  case cons k ks hi =>
    cases left
    case zero => exact Nat.le_refl _
    case succ left =>
      rw [fill]
      split
      case isTrue =>
        have h₁ : unchoked l (fill eligible left ks (Function.update choked k false)) ≤ _ := hi
        have h₂ : unchoked l (Function.update choked k false) ≤ _ := unchoked_update h
        omega
      case isFalse => exact hi

theorem unchoked_foldl (h : l.Nodup) :
    unchoked l (ks.foldl (fun choked k => Function.update choked k false) choked) ≤
      unchoked l choked + ks.length := by
  induction ks generalizing choked
  case nil => exact Nat.le_refl _
  case cons k ks hi =>
    have h₂ : unchoked l (Function.update choked k false) ≤ _ := unchoked_update h
    rw [List.foldl_cons, List.length_cons]
    exact hi.trans (by omega)

-- If the condition does not depend on the flags, then the first sessions that meet it are unchoked.
theorem fill_eq {p : Nat → Bool} :
    fill (fun _ => p) left ks choked k = (choked k && !decide (k ∈ (ks.filter p).take left)) := by
  induction ks generalizing left choked
  case nil => cases left <;> simp [fill]
  case cons j ks hi =>
    cases left
    case zero => simp [fill]
    case succ left =>
      rw [fill, List.filter_cons]
      cases hp : p j
      case false => exact hi
      case true =>
        rw [if_pos rfl, if_pos rfl, hi, List.take_succ_cons]
        by_cases hk : k = j
        case pos => subst hk; simp
        case neg => simp [hk]

theorem update_of_not (h : choked k = false) (j : Nat) :
    Function.update choked j false k = false := by
  by_cases hk : k = j
  case pos => rw [hk, Function.update_self]
  case neg => rwa [Function.update_of_ne hk]

-- A session that is not choked stays so.
theorem fill_of_not (h : choked k = false) : fill eligible left ks choked k = false := by
  induction ks generalizing left choked
  case nil => cases left <;> exact h
  case cons j ks hi =>
    cases left
    case zero => exact h
    case succ left =>
      rw [fill]
      split
      case isTrue  => exact hi (update_of_not h j)
      case isFalse => exact hi h

theorem foldl_of_not (h : choked k = false) :
    ks.foldl (fun choked j => Function.update choked j false) choked k = false := by
  induction ks generalizing choked
  case nil          => exact h
  case cons j ks hi => exact hi (update_of_not h j)

-- The slots do not wrap around.
theorem toNat_slots (idle : UInt32) : (slots idle).toNat = min (4 + idle.toNat / 10 * 2) 20 := by
  have hn : (4 + idle / 10 * 2).toNat = 4 + idle.toNat / 10 * 2 := by
    have := idle.toNat_lt
    rw [UInt32.toNat_add, UInt32.toNat_mul, UInt32.toNat_div]
    change (4 + idle.toNat / 10 * 2 % 2 ^ 32) % 2 ^ 32 = _
    omega
  change (if 4 + idle / 10 * 2 ≤ 20 then 4 + idle / 10 * 2 else 20 : UInt32).toNat = _
  split
  case isTrue h =>
    rw [UInt32.le_iff_toNat_le, hn] at h
    exact hn.trans (Nat.min_eq_left h).symm
  case isFalse h =>
    rw [UInt32.le_iff_toNat_le, hn] at h
    exact (Nat.min_eq_right (Nat.le_of_not_le h)).symm

-- The quotas use up the slots.
theorem quotas_add {m : UInt32} (h : m.toNat ≤ 20) :
    (titForTat m).toNat + (optimistic m).toNat + (antiStarvation m).toNat = m.toNat := by
  have h₁ : (titForTat m).toNat = m.toNat * 50 / 100 := by
    rw [titForTat, UInt32.toNat_div, UInt32.toNat_mul]
    change m.toNat * 50 % 2 ^ 32 / 100 = _
    omega
  have h₂ : (optimistic m).toNat = m.toNat * 25 / 100 := by
    rw [optimistic, UInt32.toNat_div, UInt32.toNat_mul]
    change m.toNat * 25 % 2 ^ 32 / 100 = _
    omega
  rw [antiStarvation, UInt32.toNat_sub, UInt32.toNat_sub, h₁, h₂]
  omega

end Choke

namespace Node

open Choke

variable {δ : Type} {n n' : Node δ} {localSpeedMbps : UInt32} {rates : Nat → PeerRates}
variable {o : Orders rates n.openSessions} {k : Nat} {ks : List Nat} {u : Nat → PeerSession.Update}

theorem mem_openSessions : k ∈ n.openSessions ↔ ∃ s, n.sessions[k]? = some s ∧ s.closed = false := by
  rw [openSessions, List.mem_findIdxs_iff_exists_getElem_pos]
  constructor
  · rintro ⟨hk, hc⟩
    exact ⟨_, List.getElem?_eq_getElem hk, by simpa using hc⟩
  · rintro ⟨s, hs, hc⟩
    obtain ⟨hk, rfl⟩ := List.getElem?_eq_some_iff.mp hs
    exact ⟨hk, by simpa using hc⟩

-- The passes unchoke no more sessions than there are slots.
theorem unchoked_le : unchoked n.openSessions (n.antiStarvationPass localSpeedMbps rates o) ≤
    (n.chokeSlots localSpeedMbps rates).toNat := by
  have hn : n.openSessions.Nodup := List.nodup_findIdxs
  have hs : (n.chokeSlots localSpeedMbps rates).toNat ≤ 20 := by
    rw [chokeSlots, toNat_slots]
    exact Nat.min_le_right ..
  have h₀ : unchoked n.openSessions (fun _ => true) = 0 := by simp [unchoked]
  have h₁ : unchoked n.openSessions (n.ratePass localSpeedMbps rates o) ≤ _ := unchoked_fill hn
  have h₂ : unchoked n.openSessions (n.optimisticPass localSpeedMbps rates o) ≤ _ :=
    unchoked_foldl hn
  have h₃ : unchoked n.openSessions (n.antiStarvationPass localSpeedMbps rates o) ≤ _ :=
    unchoked_fill hn
  have hl : (o.shuffled.take (min (optimistic (n.chokeSlots localSpeedMbps rates))
      (.ofNat o.shuffled.length)).toNat).length ≤
      (optimistic (n.chokeSlots localSpeedMbps rates)).toNat := by
    rw [List.length_take]
    exact (Nat.min_le_left ..).trans (UInt32.le_iff_toNat_le.mp Std.min_le_left)
  have hq := quotas_add hs
  omega

-- The first pass prefers higher rates.
theorem ratePass_spec (hk : n.ratePass localSpeedMbps rates o k = false) :
    n.isPeerInterested k ∧ ∀ j ∈ n.openSessions, n.isPeerInterested j →
      (rates k).downloadRateKbps < (rates j).downloadRateKbps →
      n.ratePass localSpeedMbps rates o j = false := by
  have hr (k : Nat) : n.ratePass localSpeedMbps rates o k = !decide (k ∈
      (o.sorted.filter n.isPeerInterested).take
        (titForTat (n.chokeSlots localSpeedMbps rates)).toNat) := by
    rw [ratePass, fill_eq, Bool.true_and]
  simp only [hr, Bool.not_eq_false', decide_eq_true_eq] at hk ⊢
  refine ⟨(List.mem_filter.mp (List.mem_of_mem_take hk)).right, fun j hj hi hlt => ?_⟩
  have hm : j ∈ o.sorted.filter n.isPeerInterested :=
    List.mem_filter.mpr ⟨o.sorted_perm.mem_iff.mpr hj, hi⟩
  have hp := o.descending.filter n.isPeerInterested
  rw [← List.take_append_drop (titForTat (n.chokeSlots localSpeedMbps rates)).toNat
    (o.sorted.filter n.isPeerInterested), List.pairwise_append] at hp
  rw [← List.take_append_drop (titForTat (n.chokeSlots localSpeedMbps rates)).toNat
    (o.sorted.filter n.isPeerInterested)] at hm
  cases List.mem_append.mp hm
  case inl hm => exact hm
  case inr hm => exact absurd (hp.right.right k hk j hm) (UInt32.not_le.mpr hlt)

theorem session_foldl_modify (hn : ks.Nodup) :
    (ks.foldl (fun n k => n.modify now k (u k)) n).sessions[k]? =
      (n.sessions[k]?).map fun s => if k ∈ ks then s.apply now (u k) else s := by
  induction ks generalizing n
  case nil => simp
  case cons j ks hi =>
    obtain ⟨hj, hn⟩ := List.nodup_cons.mp hn
    rw [List.foldl_cons, hi hn, modify, List.getElem?_modify]
    by_cases hk : k = j
    case pos =>
      subst hk
      cases n.sessions[k]? <;> simp [hj]
    case neg =>
      cases n.sessions[k]? <;> simp [hk, Ne.symm hk]

-- The number of sessions that are open and not choked.
def unchokedCount (n : Node δ) : Nat :=
  n.sessions.countP fun s => !s.closed && !s.chokingPeer

-- If the open sessions get these flags, then there are as many unchoked sessions as flags.
theorem unchokedCount_le {choked : Nat → Bool}
    (h : ∀ k : Nat, n'.sessions[k]? = (n.sessions[k]?).map fun s : PeerSession =>
      if s.closed then s else s.apply now (.choke (choked k))) :
    n'.unchokedCount ≤ unchoked n.openSessions choked := by
  rw [unchokedCount, ← List.length_findIdxs (s := 0), unchoked, List.countP_eq_length_filter]
  refine (List.subperm_of_subset List.nodup_findIdxs fun k hk => ?_).length_le
  obtain ⟨hl, hp⟩ := List.mem_findIdxs_iff_exists_getElem_pos.mp hk
  have hs := List.getElem?_eq_getElem hl
  rw [h, Option.map_eq_some_iff] at hs
  obtain ⟨s, hs, he⟩ := hs
  rw [← he] at hp
  split at hp
  case isTrue hc => simp [hc] at hp
  case isFalse hc =>
    refine List.mem_filter.mpr ⟨mem_openSessions.mpr ⟨s, hs, eq_false_of_ne_true hc⟩, ?_⟩
    exact (Bool.and_eq_true_iff.mp hp).right

section Step

variable [DecidableEq δ] {sha256 : List UInt8 → δ} {std : StdSort} {now : UInt64}

theorem run_sessions : Machine.run (apply sha256 std now) n (ks.map fun k => .session k (u k)) =
    some (ks.foldl (fun n k => n.modify now k (u k)) n) := by
  induction ks generalizing n
  case nil          => rfl
  case cons k ks hi => exact hi

variable (sha256 std now o) in
-- Every open session gets its flag and the message for it.
theorem step_tickChoke :
    ∃ n', n.step sha256 std (now, n.tickChoke localSpeedMbps rates o) = some n' ∧
      ∀ k : Nat, n'.sessions[k]? = (n.sessions[k]?).map fun s : PeerSession =>
        if s.closed then s
        else s.apply now (.choke (n.antiStarvationPass localSpeedMbps rates o k)) := by
  have hn : n.openSessions.Nodup := List.nodup_findIdxs
  refine ⟨_, run_sessions, fun k => ?_⟩
  rw [session_foldl_modify hn]
  cases hs : n.sessions[k]?
  case none => rfl
  case some s =>
    have hk := (List.getElem?_eq_some_iff.mp hs).choose
    rw [Option.map_some, Option.map_some]
    congr 1
    cases hc : s.closed
    case true =>
      refine if_neg fun hm => ?_
      obtain ⟨t, ht, hf⟩ := mem_openSessions.mp hm
      obtain rfl := Option.some.inj (hs.symm.trans ht)
      rw [hc] at hf
      cases hf
    case false =>
      rw [if_pos (mem_openSessions.mpr ⟨s, hs, hc⟩), List.getD_eq_getElem?_getD, List.getElem?_map,
        List.getElem?_range hk, Option.map_some, Option.getD_some]
      rfl

-- `tick_choke` unchokes no more sessions than it has slots. Its first pass unchokes interested
-- sessions, those with higher rates first, and every session is told its flag once.
theorem tickChoke_within_slots (n : Node δ) (localSpeedMbps : UInt32) (rates : Nat → PeerRates)
    (o : Orders rates n.openSessions) :
    (n.chokeSlots localSpeedMbps rates).toNat = min (4 + (idleSpeed localSpeedMbps
      (n.openSessions.map fun k => (rates k).uploadRateKbps)).toNat / 10 * 2) 20 ∧
    (∀ k, n.ratePass localSpeedMbps rates o k = false →
      n.isPeerInterested k ∧ ∀ j ∈ n.openSessions, n.isPeerInterested j →
        (rates k).downloadRateKbps < (rates j).downloadRateKbps →
        n.ratePass localSpeedMbps rates o j = false) ∧
    ∃ n', n.step sha256 std (now, n.tickChoke localSpeedMbps rates o) = some n' ∧
      n'.unchokedCount ≤ (n.chokeSlots localSpeedMbps rates).toNat ∧
      ∀ {k : Nat} {s}, n.sessions[k]? = some s → ∃ s', n'.sessions[k]? = some s' ∧
        (s.closed → s' = s) ∧
        (s.closed = false →
          s'.stream = s.stream ++ [if s'.chokingPeer then .choke else .unchoke] ∧
          (n.ratePass localSpeedMbps rates o k = false → s'.chokingPeer = false)) := by
  obtain ⟨n', hs, hk⟩ := step_tickChoke o sha256 std now
  refine ⟨toNat_slots _, fun k => ratePass_spec, n', hs, (unchokedCount_le hk).trans unchoked_le, ?_⟩
  intro k s hs
  rw [hk, hs, Option.map_some]
  refine ⟨_, rfl, fun hc => if_pos hc, fun hc => ?_⟩
  rw [hc]
  exact ⟨PeerSession.stream_send hc, fun hr => fill_of_not (foldl_of_not hr)⟩

end Step

end Node

end ThinBT
