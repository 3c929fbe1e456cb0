import ThinBT.Scheduler.Theorems.Pipeline
import ThinBT.Scheduler.Theorems.WorkConserving
import Mathlib.Data.Int.Init

namespace ThinBT.Scheduler

variable {σ τ : Scheduler} {std : StdSort} {f : Nat → Scheduler → List Action} {as : List Action}

-- No request is pending, and no sub-block is on its way.
def Silent (σ : Scheduler) : Prop :=
  ∀ p ∈ σ.peerSlots, p.pendingRequests = 0 ∧ p.activeTotal = 0

instance : Decidable σ.Silent :=
  inferInstanceAs (Decidable (∀ p ∈ σ.peerSlots, p.pendingRequests = 0 ∧ p.activeTotal = 0))

theorem Silent.not_mem_begins (h : σ.Silent) (hp : p ∈ σ.peerSlots) : b ∉ p.begins c := by
  intro hb
  have ht := PeerSlot.activeTotal_untrack_of_mem hb
  rw [(h p hp).right] at ht
  exact Nat.succ_ne_zero _ ht

theorem forEach_eq_nil (h : ∀ x, f x σ = []) : forEach f xs σ = [] := by
  induction xs
  case nil          => rfl
  case cons x xs hi => rw [forEach, h, List.nil_append]; exact hi

section Rebalancing

theorem Silent.rebalanceSources_eq_nil (h : σ.Silent) : rebalanceSources i c now js σ = [] := by
  induction js <;> simp only [rebalanceSources]
  case cons j js hi =>
    split
    case h_2 => rfl
    case h_1 peer source _ hj =>
      split
      case isTrue  => exact hi
      case isFalse =>
        split
        case h_1 => exact hi
        case h_2 b hb =>
          exact absurd (SortedSet.mem_of_first? hb) (h.not_mem_begins (List.mem_of_getElem? hj))

theorem Silent.rebalanceChunks_eq_nil (h : σ.Silent) : rebalanceChunks i now cs σ = [] := by
  induction cs <;> simp only [rebalanceChunks]
  case cons c cs hi =>
    split
    case h_1 => rfl
    case h_2 =>
      split
      case isTrue  => rfl
      case isFalse =>
        split
        case isTrue  => exact hi
        case isFalse =>
          rw [h.rebalanceSources_eq_nil]
          exact hi

theorem Silent.rebalanceAll_eq_nil (h : σ.Silent) : rebalanceAll now σ = [] := by
  refine forEach_eq_nil fun i => ?_
  simp only [rebalanceSeedRequestsForPeer, rebalanceLoop, h.rebalanceChunks_eq_nil]
  split
  case h_1 => rfl
  case h_2 => simp

end Rebalancing

section Refill

-- A refill after which nothing is pending has not sent a request.
theorem AllAssigning.begins_of_idle (h : σ.AllAssigning as)
    (hz : ∀ p ∈ (σ.exec as).peerSlots, p.pendingRequests = 0) :
    ∀ a ∈ as, ∃ c, a = .beginDownload c := by
  induction as generalizing σ
  case nil => exact List.forall_mem_nil _
  case cons a as hi =>
    obtain ⟨ha, has⟩ := Actions.allAt_cons.mp h
    refine List.forall_mem_cons.mpr ⟨?_, hi has hz⟩
    cases a
    case beginDownload c => exact ⟨c, rfl⟩
    case assign i c s now =>
      obtain ⟨_, _, _, p, hp, _⟩ := ha
      have hp' : (σ.apply (.assign i c s now)).peerSlots[i]? =
          some (p.track c (s * subBlockSize)) := by
        rw [peerSlots_apply, List.getElem?_mapIdx, hp]
        simp [onPeer]
      obtain ⟨q, hq, hl⟩ := (AllAssigning.loads has).peer hp'
      have hle := hl.pending
      have hq : q.pendingRequests = 0 := hz q (List.mem_of_getElem? hq)
      rw [hq, PeerSlot.pendingRequests_track] at hle
      exact absurd hle (Nat.not_succ_le_zero _)
    all_goals cases ha

theorem exists_chunkStates (h : ∀ a ∈ as, ∃ c, a = .beginDownload c) :
    ∃ states, σ.exec as = { σ with chunkStates := states } := by
  induction as generalizing σ
  case nil => exact ⟨σ.chunkStates, rfl⟩
  case cons a as hi =>
    obtain ⟨⟨c, rfl⟩, has⟩ := List.forall_mem_cons.mp h
    exact hi has

-- What is done before and after an element is visited.
theorem exists_append_of_visit (h : (τ, x) ∈ visits f xs σ) :
    ∃ before after, forEach f xs σ = before ++ f x τ ++ after ∧ τ = σ.exec before := by
  induction xs generalizing σ
  case nil => cases h
  case cons y ys hi =>
    obtain h | h := List.mem_cons.mp h
    case inl =>
      cases h
      exact ⟨[], _, rfl, rfl⟩
    case inr =>
      obtain ⟨before, after, hb, rfl⟩ := hi h
      refine ⟨f y σ ++ before, after, ?_, (Actions.exec_append ..).symm⟩
      rw [forEach, hb, List.append_assoc, List.append_assoc, List.append_assoc]

end Refill

section Best

variable {p : PeerSlot}

theorem intMin_lt_score (h : p.pendingRequests = 0) : intMin < σ.score p := by
  have hlt : p.rttUs.toInt32.toInt.tdiv 2000 < 2 ^ 31 := by
    have hab : (p.rttUs.toInt32.toInt.tdiv 2000).natAbs = p.rttUs.toInt32.toInt.natAbs / 2000 :=
      Int.natAbs_tdiv ..
    have hlt := p.rttUs.toInt32.toInt_lt
    have hle := p.rttUs.toInt32.le_toInt
    omega
  rw [score, h, intMin]
  split <;> omega

-- The best peer so far is the one with which the loop started or one that it has met.
theorem foldl_better (σ : Scheduler) (c : Nat) (ps : List PeerSlot) (best : Best) :
    (ps.foldl (σ.better c) best = best ∨
      ∃ q ∈ ps, q.eligible c ∧ (ps.foldl (σ.better c) best).slot = q.slotId) ∧
    best.score ≤ (ps.foldl (σ.better c) best).score ∧
    ∀ q ∈ ps, q.eligible c → σ.score q ≤ (ps.foldl (σ.better c) best).score := by
  induction ps generalizing best
  case nil => exact ⟨.inl rfl, Int.le_refl _, List.forall_mem_nil _⟩
  case cons p ps hi =>
    rw [List.foldl_cons]
    obtain ⟨hslot, hle, hall⟩ := hi (σ.better c best p)
    have hp : (p.eligible c ∧ (σ.better c best p).slot = p.slotId ∨ σ.better c best p = best) ∧
        best.score ≤ (σ.better c best p).score ∧
        (p.eligible c → σ.score p ≤ (σ.better c best p).score) := by
      unfold better
      by_cases he : p.eligible c
      case neg => rw [if_pos he]; exact ⟨.inr rfl, Int.le_refl _, fun h => absurd h he⟩
      case pos =>
        rw [if_neg (not_not.mpr he)]
        split
        case isTrue h =>
          refine ⟨.inl ⟨he, rfl⟩, ?_, fun _ => Int.le_refl _⟩
          change best.score ≤ σ.score p
          omega
        case isFalse h => exact ⟨.inr rfl, Int.le_refl _, fun _ => by omega⟩
    obtain ⟨hnew, hb, hscore⟩ := hp
    refine ⟨?_, hb.trans hle, List.forall_mem_cons.mpr ⟨fun he => (hscore he).trans hle, hall⟩⟩
    obtain hsame | ⟨q, hq, he, hs⟩ := hslot
    case inr => exact .inr ⟨q, List.mem_cons_of_mem _ hq, he, hs⟩
    case inl =>
      rw [hsame]
      obtain ⟨he, hs⟩ | h := hnew
      case inl => exact .inr ⟨p, List.mem_cons_self, he, hs⟩
      case inr => exact .inl h

-- There is a best peer for each chunk that a peer can be asked for.
theorem Silent.exists_best (h : σ.Silent) (hp : p ∈ σ.peerSlots) (he : p.eligible c) :
    ∃ (i : Nat) (q : PeerSlot), σ.peerSlots[i]? = some q ∧ q.eligible c ∧
      σ.selectBestPeer c = some q.slotId := by
  obtain ⟨hslot, _, hall⟩ := foldl_better σ c σ.peerSlots {}
  have hlt := (intMin_lt_score (h p hp).left).trans_le (hall p hp he)
  obtain hn | ⟨q, hq, he, hs⟩ := hslot
  case inl =>
    rw [hn] at hlt
    exact absurd hlt (Int.lt_irrefl _)
  case inr =>
    obtain ⟨i, hi⟩ := List.getElem?_of_mem hq
    refine ⟨i, q, hi, he, ?_⟩
    rw [selectBestPeer, if_neg hlt.ne', hs]

end Best

-- The next tick sends a request if nothing is pending and a peer can be asked for a sub-block that
-- nobody was asked for.
theorem Silent.exists_pending (hq : σ.Silent) (hσ : σ.CachesOpen) (ht : σ.Tables)
    (hd : σ.phase ≠ .done) (hcap : ∀ p ∈ σ.peerSlots, 0 < p.pipelineCap) (hc : ¬σ.closed c)
    (hs : s < σ.subTotal c) (hr : ¬σ.subReq c s) (hp : p ∈ σ.peerSlots) (he : p.eligible c) :
    ∃ q ∈ (next std σ (.tick now)).peerSlots, 0 < q.pendingRequests := by
  by_contra hn
  have hz : ∀ q ∈ (σ.exec (scheduleAll now σ)).peerSlots, q.pendingRequests = 0 := by
    have hl : ((σ.exec (rebalanceAll now σ)).exec _).Loads (next std σ (.tick now)) := loads_tick hd
    rw [hq.rebalanceAll_eq_nil] at hl
    intro q hm
    obtain ⟨k, hk⟩ := List.getElem?_of_mem hm
    obtain ⟨q', hk', hqq⟩ := hl.peer hk
    refine Nat.eq_zero_of_not_pos fun hpos => hn ⟨q', List.mem_of_getElem? hk', ?_⟩
    exact Nat.lt_of_lt_of_le hpos hqq.pending
  have hb := (assigning_scheduleAll now).begins_of_idle hz
  obtain ⟨i, q, hi, hqe, hbest⟩ := hq.exists_best hp he
  have hl : σ.Loads (σ.exec (scheduleAll now σ)) := (assigning_scheduleAll now).loads
  -- The best peer stays idle, so it must have refused the chunk.
  have hidle : (σ.exec (scheduleAll now σ)).Idle i c := by
    obtain ⟨states, hx⟩ := exists_chunkStates (σ := σ) hb
    refine ⟨by rwa [hl.closed], ⟨s, by rwa [hl.subTotal], ?_⟩, q, ?_, hqe, ?_⟩
    · rw [hx]; exact hr
    · rw [hx]; exact hi
    · rw [hl.effectiveCap .refl, (hq q (List.mem_of_getElem? hi)).left, effectiveCap]
      have hpos := hcap q (List.mem_of_getElem? hi)
      split <;> omega
  obtain ⟨τ, hv, hcτ, htτ, hlτ⟩ := exists_visit (fun _ _ => assigning_tryScheduleForPeer) hσ ht
    (List.mem_range.mpr (List.getElem?_eq_some_iff.mp hi).choose)
  obtain ⟨υ, ⟨p', cs, ds, hp', hcs, rfl, _⟩, hne⟩ := refuses_of_idle hcτ htτ hlτ hidle
  obtain ⟨before, after, hA, rfl⟩ := exists_append_of_visit hv
  -- It was asked in a state in which it was the best peer.
  have hsub : ∀ a ∈ before ++ scheduleLoop i now ((σ.exec before).effectiveCap p') cs (σ.exec before),
      ∃ c, a = .beginDownload c := by
    intro a ha
    refine hb a ?_
    rw [scheduleAll, hA, tryScheduleForPeer_eq hp', hcs, scheduleLoop_append]
    obtain ha | ha := List.mem_append.mp ha
    all_goals simp [ha]
  obtain ⟨states, hx⟩ := exists_chunkStates (σ := σ) hsub
  have hx : (σ.exec before).exec (scheduleLoop i now _ cs _) = { σ with chunkStates := states } :=
    (Actions.exec_append ..).symm.trans hx
  rw [hx] at hne
  refine hne ?_
  rw [slotIdAt, hi]
  exact hbest

end ThinBT.Scheduler
