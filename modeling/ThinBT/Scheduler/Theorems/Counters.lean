import ThinBT.Scheduler.Theorems.Runs

namespace ThinBT.Scheduler

variable {σ τ υ : Scheduler} {std : StdSort}

-- The number of true entries of `chunk_sub_req_[c]` and `chunk_sub_done_[c]`.
def reqFlags (σ : Scheduler) (c : Nat) : Nat :=
  σ.chunkSubReq.rowCount c

def doneFlags (σ : Scheduler) (c : Nat) : Nat :=
  σ.chunkSubDone.rowCount c

def subDoneCount (σ : Scheduler) (c : Nat) : Nat :=
  σ.chunkSubDoneCount.getD c 0

section Done

structure DoneCounted (σ : Scheduler) : Prop where
  length : σ.chunkSubDoneCount.length = σ.chunkSubDone.length
  exact  : σ.subDoneCount c = σ.doneFlags c

theorem DoneCounted.markDone (h : σ.DoneCounted) : (σ.markDone c s).DoneCounted := by
  unfold Scheduler.markDone
  split
  case isFalse => exact h
  case isTrue hs =>
    refine ⟨by simp [List.setEntry, h.length], fun {c'} => ?_⟩
    have hd := h.exact (c := c')
    have hl : s < σ.chunkSubDone.rowLength c' → c' < σ.chunkSubDoneCount.length := fun hl =>
      h.length ▸ List.lt_length_of_lt_rowLength hl
    simp only [subDoneCount, doneFlags, List.getD_modify, List.rowCount_setEntry_true] at hd ⊢
    by_cases hc : c = c'
    case pos =>
      subst hc
      rw [if_pos ⟨rfl, hl hs.left⟩, if_pos ⟨rfl, hs.left, eq_false_of_ne_true hs.right⟩, hd]
    case neg => simpa [hc] using hd

theorem DoneCounted.apply (h : σ.DoneCounted) : (σ.apply a).DoneCounted := by
  cases a
  case arrive => exact ⟨h.markDone.length, h.markDone.exact⟩
  case removePeer slot =>
    have ⟨_, _, _, _, _, hr⟩ := σ.released_eq slot
    simp only [Scheduler.apply, removePeer_eq, hr]
    exact ⟨h.length, h.exact⟩
  case redundant => rw [redundant_eq]; exact ⟨h.length, h.exact⟩
  case timeout   => simp only [Scheduler.apply]; split <;> exact ⟨h.length, h.exact⟩
  case complete  =>
    simp only [Scheduler.apply, sendCancelForChunk]; split <;> exact ⟨h.length, h.exact⟩
  case verifyFailed d =>
    refine ⟨by simp [Scheduler.apply, h.length], fun {c} => ?_⟩
    have hd := h.exact (c := c)
    simp only [subDoneCount, doneFlags, Scheduler.apply, List.rowCount_modify_map,
      List.getD_eq_getElem?_getD, List.getElem?_set] at hd ⊢
    by_cases hc : d = c
    case pos => by_cases hl : c < σ.chunkSubDoneCount.length <;> simp [hc, hl]
    case neg => simp [hc, hd]
  all_goals exact ⟨h.length, h.exact⟩

end Done

section Requests

-- Requests are taken back, and the counter of each chunk goes down with its flags.
structure Releases (σ τ : Scheduler) : Prop where
  rows   : τ.chunkSubReq.rowLength c = σ.chunkSubReq.rowLength c
  counts : τ.chunkSubReqCount.length = σ.chunkSubReqCount.length
  tally  : ∃ n, σ.reqFlags c = τ.reqFlags c + n ∧ τ.subReqCount c = σ.subReqCount c - n

namespace Releases

theorem refl : Releases σ σ :=
  ⟨rfl, rfl, 0, rfl, rfl⟩

theorem trans (h : Releases σ τ) (h' : Releases τ υ) : Releases σ υ := by
  refine ⟨h'.rows.trans h.rows, h'.counts.trans h.counts, ?_⟩
  intro c
  obtain ⟨n, hf, hc⟩ := h.tally (c := c)
  obtain ⟨m, hf', hc'⟩ := h'.tally (c := c)
  exact ⟨m + n, by omega, by omega⟩

theorem clearRequested (h : σ.subReq c s) : Releases σ (σ.clearRequested c s) := by
  refine ⟨List.rowLength_setEntry, List.length_modify _ _ _, fun {d} => ?_⟩
  have hf := List.rowCount_setEntry_false (t := σ.chunkSubReq) (i := c) (j := s) (k := d)
  by_cases hd : c = d
  case pos =>
    subst hd
    refine ⟨1, ?_, ?_⟩
    · rw [if_pos ⟨rfl, h⟩] at hf
      exact hf.symm
    · simp only [subReqCount, Scheduler.clearRequested, List.getD_modify, true_and]
      split
      case isTrue     => rfl
      case isFalse hl => simp [List.getElem?_eq_none (Nat.not_lt.mp hl)]
  case neg =>
    refine ⟨0, ?_, ?_⟩
    · rw [if_neg fun he => hd he.left] at hf
      exact hf.symm
    · simp only [subReqCount, Scheduler.clearRequested, List.getD_modify, hd, false_and, if_false,
        Nat.sub_zero]

theorem clearReqTime (h : Releases σ τ) : Releases σ (τ.clearReqTime c s) :=
  ⟨h.rows, h.counts, h.tally⟩

theorem release : Releases σ (Scheduler.release c σ b) := by
  unfold Scheduler.release
  split
  case isTrue h => exact (clearRequested h).clearReqTime
  case isFalse  => exact refl

theorem releaseChunk : Releases σ (Scheduler.releaseChunk σ e) := by
  have h : Releases σ (e.2.elems.foldl (Scheduler.release e.1) σ) := by
    generalize e.2.elems = bs
    induction bs generalizing σ
    case nil          => exact refl
    case cons b bs hi => exact release.trans hi
  simp only [Scheduler.releaseChunk]
  split
  case isTrue  => exact ⟨h.rows, h.counts, h.tally⟩
  case isFalse => exact h

theorem released : Releases σ (σ.released slot) := by
  unfold Scheduler.released
  split
  case h_1     => exact refl
  case h_2 p _ =>
    have hw : Releases σ (σ.withdraw p) := ⟨rfl, rfl, 0, rfl, rfl⟩
    refine hw.trans ?_
    generalize σ.withdraw p = σ
    generalize p.activeSubBlocks.entries = es
    induction es generalizing σ
    case nil          => exact refl
    case cons e es hi => exact releaseChunk.trans (hi _)

theorem removePeer : Releases σ (σ.apply (.removePeer slot)) := by
  simp only [apply, removePeer_eq]
  exact ⟨released.rows, released.counts, released.tally⟩

theorem timeout : Releases σ (σ.apply (.timeout c b)) := by
  simp only [apply]
  split
  case isTrue h => exact (clearRequested h).clearReqTime
  case isFalse  => exact refl.clearReqTime

end Releases

theorem rowLength_subReq_apply :
    (σ.apply a).chunkSubReq.rowLength c = σ.chunkSubReq.rowLength c := by
  cases a
  case removePeer    => exact Releases.removePeer.rows
  case timeout       => exact Releases.timeout.rows
  case assign | move => exact List.rowLength_setEntry
  case verifyFailed  => exact List.rowLength_modify_map
  case redundant     => rw [redundant_eq]
  case arrive        => simp only [apply, markDone]; split <;> rfl
  case complete      => simp only [apply, sendCancelForChunk]; split <;> rfl
  all_goals rfl

theorem length_chunkSubReqCount_apply :
    (σ.apply a).chunkSubReqCount.length = σ.chunkSubReqCount.length := by
  cases a
  case removePeer                  => exact Releases.removePeer.counts
  case timeout                     => exact Releases.timeout.counts
  case assign                      => exact List.length_modify ..
  case verifyFailed | markComplete => exact List.length_set
  case redundant                   => rw [redundant_eq]
  case arrive                      => simp only [apply, markDone]; split <;> rfl
  case complete                    => exact List.length_set
  all_goals rfl

theorem reqFlags_apply :
    (σ.apply a).reqFlags c =
      match a with
      | .assign _ c' s _ =>
        σ.reqFlags c +
          if c' = c ∧ s < σ.chunkSubReq.rowLength c ∧ σ.subReq c s = false then 1 else 0
      | .move _ _ c' b _ =>
        σ.reqFlags c +
          if c' = c ∧ b / subBlockSize < σ.chunkSubReq.rowLength c ∧
            σ.subReq c (b / subBlockSize) = false then 1 else 0
      | .verifyFailed c' => if c' = c then 0 else σ.reqFlags c
      | .timeout c' b    => (σ.apply (.timeout c' b)).reqFlags c
      | .removePeer slot => (σ.apply (.removePeer slot)).reqFlags c
      | _                => σ.reqFlags c := by
  cases a
  case assign | move => exact List.rowCount_setEntry_true
  case verifyFailed  => exact List.rowCount_modify_map
  case redundant     => rw [redundant_eq]; rfl
  case arrive        => simp only [apply, markDone]; split <;> rfl
  case complete      => simp only [apply, sendCancelForChunk]; split <;> rfl
  all_goals rfl

theorem getD_set_zero {l : List Nat} : (l.set d 0).getD c 0 = if d = c then 0 else l.getD c 0 := by
  simp only [List.getD_eq_getElem?_getD, List.getElem?_set]
  by_cases hc : d = c
  case pos => by_cases hl : c < l.length <;> simp [hc, hl]
  case neg => simp [hc]

theorem subReqCount_apply :
    (σ.apply a).subReqCount c =
      match a with
      | .assign _ c' _ _ =>
        if c' = c ∧ c < σ.chunkSubReqCount.length then σ.subReqCount c + 1 else σ.subReqCount c
      | .verifyFailed c' | .complete c' _ | .markComplete c' =>
        if c' = c then 0 else σ.subReqCount c
      | .timeout c' b    => (σ.apply (.timeout c' b)).subReqCount c
      | .removePeer slot => (σ.apply (.removePeer slot)).subReqCount c
      | _                => σ.subReqCount c := by
  cases a
  case assign                                 => exact List.getD_modify
  case verifyFailed | complete | markComplete => exact getD_set_zero
  case redundant                              => rw [redundant_eq]; rfl
  case arrive                                 => simp only [apply, markDone]; split <;> rfl
  all_goals rfl

-- The counters of requests may lag behind their flags.
structure Tables (σ : Scheduler) : Prop where
  blocks : σ.Blocks
  reqRow : c < σ.totalChunks → σ.chunkSubReq.rowLength c = σ.subTotal c
  counts : σ.chunkSubReqCount.length = σ.totalChunks
  le     : ¬σ.closed c → σ.subReqCount c ≤ σ.reqFlags c

def Tallied (σ : Scheduler) : Prop :=
  ∀ c, ¬σ.closed c → σ.subReqCount c = σ.reqFlags c

-- A request that is moved is one that is still marked as such.
def Requested (σ : Scheduler) : Action → Prop
  | .move _ _ c b _ => σ.subReq c (b / subBlockSize)
  | _               => True

-- A chunk that is open after an action was open before or is reset by it.
theorem GuardOrAdd.not_closed_of_apply (hg : σ.GuardOrAdd a) (hc : ¬(σ.apply a).closed c) :
    ¬σ.closed c ∨ a = .verifyFailed c := by
  by_contra hn
  have ⟨hn, ha⟩ := not_or.mp hn
  exact hc (hg.closed_apply ha (not_not.mp hn))

theorem Traffic.closed_apply (hg : σ.Traffic a) : (σ.apply a).closed c = σ.closed c := by
  rw [Scheduler.closed_apply]
  cases a
  case complete | markComplete | verifyFailed => cases hg
  case beginDownload d =>
    dsimp only
    split
    case isTrue he => exact (eq_false_of_ne_true (he.left ▸ hg)).symm
    case isFalse   => rfl
  all_goals rfl

namespace Tables

theorem tally_assign (h : σ.Tables) (hg : σ.Guard (.assign i d s now)) :
    ∃ n, (σ.apply (.assign i d s now)).reqFlags c = σ.reqFlags c + n ∧
      (σ.apply (.assign i d s now)).subReqCount c = σ.subReqCount c + n := by
  rw [reqFlags_apply, subReqCount_apply]
  have ⟨ho, hr, hs, _⟩ := hg
  have hl := lt_totalChunks_of_not_closed ho
  by_cases hd : d = c
  case pos =>
    subst hd
    refine ⟨1, ?_, ?_⟩
    · simp [h.reqRow hl, hs, eq_false_of_ne_true hr]
    · simp [h.counts, hl]
  case neg => exact ⟨0, by simp [hd], by simp [hd]⟩

theorem reqFlags_move (h : σ.Tables) (hg : σ.Guard (.move j i d b now)) :
    (σ.apply (.move j i d b now)).reqFlags c =
      σ.reqFlags c + if d = c ∧ σ.subReq d (b / subBlockSize) = false then 1 else 0 := by
  rw [reqFlags_apply]
  have ⟨_, _, _, _, q, _, hq, _, _, hb⟩ := hg
  obtain ⟨s, rfl, hl, hs⟩ := h.blocks.beginExists (List.mem_of_getElem? hq) hb
  by_cases hd : d = c
  case pos =>
    subst hd
    simp [mul_subBlockSize_div, h.reqRow hl, hs]
  case neg => simp [hd]

-- What requests nothing resets the chunk or takes requests back.
theorem tally_of_not_isRequest (hg : σ.GuardOrAdd a) (ha : a.isRequest = false)
    (hc : ¬(σ.apply a).closed c) :
    ((σ.apply a).reqFlags c = 0 ∧ (σ.apply a).subReqCount c = 0) ∨
      ¬σ.closed c ∧ ∃ n, σ.reqFlags c = (σ.apply a).reqFlags c + n ∧
        (σ.apply a).subReqCount c = σ.subReqCount c - n := by
  obtain ho | rfl := hg.not_closed_of_apply hc
  case inr => exact .inl ⟨reqFlags_apply.trans (if_pos rfl), subReqCount_apply.trans (if_pos rfl)⟩
  case inl =>
    by_cases hv : a = .verifyFailed c
    case pos =>
      subst hv
      exact .inl ⟨reqFlags_apply.trans (if_pos rfl), subReqCount_apply.trans (if_pos rfl)⟩
    case neg =>
      refine .inr ⟨ho, ?_⟩
      cases a
      case assign | move | redundant => cases ha
      case removePeer                => exact Releases.removePeer.tally
      case timeout                   => exact Releases.timeout.tally
      case verifyFailed d =>
        have hd : d ≠ c := fun he => hv (by rw [he])
        exact ⟨0, by rw [reqFlags_apply]; simp [hd], by rw [subReqCount_apply]; simp [hd]⟩
      case complete d _ | markComplete d =>
        have hd : d ≠ c := fun he => hc (by rw [closed_apply]; simp [he])
        exact ⟨0, by rw [reqFlags_apply]; simp, by rw [subReqCount_apply]; simp [hd]⟩
      all_goals exact ⟨0, by rw [reqFlags_apply]; simp, by rw [subReqCount_apply]; simp⟩

theorem le_apply (h : σ.Tables) (hg : σ.GuardOrAdd a) (hc : ¬(σ.apply a).closed c) :
    (σ.apply a).subReqCount c ≤ (σ.apply a).reqFlags c := by
  cases ha : a.isRequest
  case false =>
    obtain ⟨hf, hn⟩ | ⟨ho, n, hf, hn⟩ := tally_of_not_isRequest hg ha hc
    case inl => omega
    case inr => have := h.le ho; omega
  case true =>
    cases a
    case assign =>
      rw [closed_apply] at hc
      have := h.le hc
      have ⟨n, hf, hn⟩ := h.tally_assign (c := c) (hg.guard (by simp))
      omega
    case move =>
      rw [closed_apply] at hc
      rw [h.reqFlags_move (hg.guard (by simp)), subReqCount_apply]
      exact (h.le hc).trans (Nat.le_add_right ..)
    case redundant =>
      rw [closed_apply] at hc
      rw [reqFlags_apply, subReqCount_apply]
      exact h.le hc
    all_goals cases ha

theorem apply (h : σ.Tables) (hg : σ.GuardOrAdd a) : (σ.apply a).Tables where
  blocks := h.blocks.apply hg
  reqRow := fun hc => by
    rw [rowLength_subReq_apply, subTotal_apply]
    exact h.reqRow (totalChunks_apply ▸ hc)
  counts := by rw [length_chunkSubReqCount_apply, totalChunks_apply, h.counts]
  le     := h.le_apply hg

theorem tallied_apply (hg : σ.GuardOrAdd a) (ha : a.isRequest = false) (ht : σ.Tallied) :
    (σ.apply a).Tallied := by
  intro c hc
  obtain ⟨hf, hn⟩ | ⟨ho, n, hf, hn⟩ := tally_of_not_isRequest hg ha hc
  case inl => omega
  case inr => have := ht c ho; omega

theorem tally_traffic (h : σ.Tables) (hg : σ.Traffic a) (ha : a.isMove = false) :
    ∃ n, (σ.apply a).reqFlags c = σ.reqFlags c + n ∧
      (σ.apply a).subReqCount c = σ.subReqCount c + n := by
  cases a
  case assign => exact h.tally_assign hg
  case verifyFailed | removePeer | timeout | complete | markComplete => cases hg
  case move => cases ha
  all_goals exact ⟨0, reqFlags_apply, subReqCount_apply⟩

-- A message or a tick cannot make up for a request that is moved without being counted.
theorem tallied_apply_iff (h : σ.Tables) (hg : σ.Traffic a) :
    (σ.apply a).Tallied ↔ σ.Tallied ∧ σ.Requested a := by
  cases ha : a.isMove
  case false =>
    have hr : σ.Requested a := by
      cases a
      case move => cases ha
      all_goals trivial
    refine (forall_congr' fun c => ?_).trans (and_iff_left hr).symm
    rw [hg.closed_apply]
    refine imp_congr_right fun _ => ?_
    obtain ⟨n, hf, hn⟩ := h.tally_traffic (c := c) hg ha
    omega
  case true =>
    cases a
    case move j i d b now =>
      have hf {c} := h.reqFlags_move (c := c) hg.guard
      have hn {c} : (σ.apply (.move j i d b now)).subReqCount c = σ.subReqCount c :=
        subReqCount_apply
      constructor
      · intro ht
        refine ⟨fun c hc => ?_, ?_⟩
        · have := ht c (by rwa [closed_apply])
          have := h.le hc
          rw [hf, hn] at *
          omega
        · by_contra hr
          have := ht d (by rw [closed_apply]; exact hg.right.left)
          have := h.le hg.right.left
          rw [hf, hn, if_pos ⟨rfl, eq_false_of_ne_true hr⟩] at *
          omega
      · rintro ⟨ht, hr⟩ c hc
        rw [closed_apply] at hc
        rw [hf, hn, if_neg fun he => Bool.false_ne_true (he.right.symm.trans hr)]
        exact ht c hc
    all_goals cases ha

theorem next (h : σ.Tables) (hr : σ.InRange op) : (Scheduler.next std σ op).Tables :=
  hr.allGuardOrAdd.invariant (fun _ _ => apply) h

end Tables

end Requests

section Runs

variable {ops : List Op}

theorem rowCount_assignRows {counts : List Nat} :
    (assignRows (.replicate n []) counts false).rowCount c = 0 := by
  rw [List.rowCount, getD_assignRows, List.count_replicate]
  rfl

theorem subReqCount_start : (start total speed sizes).subReqCount c = 0 :=
  List.getElem?_getD_replicate_default_eq ..

theorem reqFlags_start : (start total speed sizes).reqFlags c = 0 :=
  rowCount_assignRows

theorem doneCounted_start : (start total speed sizes).DoneCounted where
  length := by simp [start, setChunkSizes, init, assignRows]
  exact  := fun {c} => by
    have hd : (start total speed sizes).subDoneCount c = 0 :=
      List.getElem?_getD_replicate_default_eq ..
    exact hd.trans rowCount_assignRows.symm

theorem tables_start : (start total speed sizes).Tables where
  blocks := shape_start.blocks
  reqRow := fun {c} hc => by
    have hl : c < total.toNat := by
      simpa [totalChunks, start, setChunkSizes, init] using hc
    simp only [List.rowLength, start, setChunkSizes, init, getD_assignRows, List.length_replicate,
      if_pos hl]
    rfl
  counts := by simp [totalChunks, start, setChunkSizes, init]
  le     := fun _ => subReqCount_start ▸ Nat.zero_le _

-- The cached counters of an open chunk are the numbers of its flags.
def CountersExact (σ : Scheduler) : Prop :=
  ∀ c, ¬σ.closed c → σ.subReqCount c = σ.reqFlags c ∧ σ.subDoneCount c = σ.doneFlags c

-- Every request that the operation moves to another peer is still marked as requested.
def MovesRequested (std : StdSort) (σ : Scheduler) (op : Op) : Prop :=
  Actions.AllAt apply Requested σ (actions std op σ)

theorem DoneCounted.countersExact_iff (h : σ.DoneCounted) : σ.CountersExact ↔ σ.Tallied :=
  forall_congr' fun _ => imp_congr_right fun _ => and_iff_left h.exact

theorem traffic_actions (h : op.isTraffic) : σ.AllTraffic (actions std op σ) := by
  cases op
  case onBitfield     => exact reaction_onBitfield.traffic
  case onHave         => exact reaction_onHave.traffic
  case decPeerPending => exact reaction_decPeerPending.traffic
  case tick           => exact traffic_tick
  all_goals cases h

theorem Tables.tallied_next_iff (h : σ.Tables) (hr : σ.InRange op) (ht : σ.Tallied) :
    (Scheduler.next std σ op).Tallied ↔ MovesRequested std σ op := by
  cases ho : op.isTraffic
  case true =>
    have step (σ : Scheduler) (a) (h : σ.Tables) (hg : σ.Traffic a) :
        (σ.apply a).Tables ∧ ((σ.apply a).Tallied ↔ σ.Tallied ∧ σ.Requested a) :=
      ⟨h.apply (.inl hg.guard), h.tallied_apply_iff hg⟩
    exact ((traffic_actions ho).exec_iff step h).trans (and_iff_right ht)
  case false =>
    have hn : Actions.AllAt Scheduler.apply (fun _ a => a.isRequest = false) σ (actions std op σ) :=
      Actions.allAt_of_forall fun a ha _ => isRequest_of_mem ho ha
    refine iff_of_true ?_ (hn.mono fun _ a ha => ?_)
    · exact (hr.allGuardOrAdd.and hn).invariant (fun _ _ ht hg => tallied_apply hg.left hg.right ht) ht
    · cases a
      case move => cases ha
      all_goals trivial

-- The counter of requests misses exactly the moves of sub-blocks whose request has timed out.
theorem counters_exact_iff (hr : AllOps std InRange (start total speed sizes) ops) :
    (∀ before, before <+: ops → (run std (start total speed sizes) before).CountersExact) ↔
      AllOps std (MovesRequested std) (start total speed sizes) ops := by
  have done (before : List Op) : (run std (start total speed sizes) before).DoneCounted := by
    rw [← exec_history]
    exact (Actions.allAt_of_forall (P := fun _ _ => True) fun _ _ _ => trivial).invariant
      (fun _ _ h _ => h.apply) doneCounted_start
  simp only [(done _).countersExact_iff]
  refine hr.forall_prefix_iff (fun _ _ => Tables.next) (fun _ _ => Tables.tallied_next_iff)
    tables_start ?_
  exact fun _ _ => subReqCount_start.trans reqFlags_start.symm

theorem sharedChunk_counters :
    (∀ before, before <+: sharedChunk →
      (run .stable (start 2 1000 [65536, 100]) before).CountersExact) ↔
      AllOps .stable (MovesRequested .stable) (start 2 1000 [65536, 100]) sharedChunk :=
  counters_exact_iff ((by decide +kernel : AllOps .stable Legal _ _).mono fun _ _ => .inl)

-- The request of the first peer times out. It is moved to the second peer and marked again, but not
-- counted again.
def movedAfterTimeout : List Op := [
  .onPeerAdded 1 1000, .onBitfield 1 [true, true] 5, .onChokeChange 1 false, .tick 10,
  .onSubblockTimeout 0 0, .onPeerAdded 2 1000, .onBitfield 2 [true, false] 20
]

theorem movedAfterTimeout_not_countersExact :
    AllOps .stable InRange (start 2 1000 [16384, 100]) movedAfterTimeout ∧
      ¬(run .stable (start 2 1000 [16384, 100]) movedAfterTimeout).CountersExact := by
  refine ⟨(by decide +kernel : AllOps .stable Legal _ _).mono fun _ _ => .inl, fun h => ?_⟩
  have hn : (run .stable (start 2 1000 [16384, 100]) movedAfterTimeout).subReqCount 0 ≠
      (run .stable (start 2 1000 [16384, 100]) movedAfterTimeout).reqFlags 0 := by
    decide +kernel
  exact hn (h 0 (by decide +kernel)).left

end Runs

end ThinBT.Scheduler
