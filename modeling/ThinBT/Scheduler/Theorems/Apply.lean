import ThinBT.Scheduler.Theorems.PeerSlot
import ThinBT.Scheduler.Operations

namespace ThinBT.Scheduler

variable {σ : Scheduler}

-- A sub-block that is marked as done stays so, and the given one is marked if it exists.
theorem subDone_markDone :
    (σ.markDone c s).subDone c' s' =
      (σ.subDone c' s' || decide ((c = c' ∧ s = s') ∧ s' < σ.chunkSubDone.rowLength c')) := by
  unfold markDone subDone
  split
  case isTrue h =>
    simp only [List.entry_setEntry]
    split
    case isTrue he  => simp [he]
    case isFalse he => simp [he]
  case isFalse h =>
    by_cases he : (c = c' ∧ s = s') ∧ s' < σ.chunkSubDone.rowLength c'
    case pos =>
      obtain ⟨⟨rfl, rfl⟩, hs⟩ := he
      have hd : σ.chunkSubDone.entry false c s = true := by
        simpa [subDone, hs] using h
      simp [hd]
    case neg => simp [he]

theorem rowLength_markDone :
    (σ.markDone c s).chunkSubDone.rowLength c' = σ.chunkSubDone.rowLength c' := by
  unfold markDone
  split
  case isTrue  => exact List.rowLength_setEntry
  case isFalse => rfl

theorem subReq_clearRequested :
    (σ.clearRequested c s).subReq c' s' =
      if (c = c' ∧ s = s') ∧ s' < σ.chunkSubReq.rowLength c' then false else σ.subReq c' s' :=
  List.entry_setEntry

theorem closed_iff : σ.closed c ↔ σ.chunkStates[c]? = none ∨ σ.chunkStates[c]? = some .complete := by
  simp only [closed, List.getD_eq_getElem?_getD, decide_eq_true_eq]
  cases σ.chunkStates[c]? <;> simp

theorem lt_totalChunks_of_not_closed (h : ¬σ.closed c) : c < σ.totalChunks := by
  by_contra hc
  exact h (closed_iff.mpr (.inl (List.getElem?_eq_none (Nat.not_lt.mp hc))))

theorem closed_of_set {τ : Scheduler} (h : τ.chunkStates = σ.chunkStates.set c st) :
    τ.closed c' = if c = c' ∧ c' < σ.totalChunks then decide (st = .complete) else σ.closed c' := by
  simp only [closed, h, List.getD_eq_getElem?_getD, List.getElem?_set, totalChunks]
  by_cases hc : c = c'
  case pos =>
    subst hc
    by_cases hl : c < σ.chunkStates.length <;> simp [hl]
  case neg => simp [hc]

section Release

theorem release_eq : ∃ req time count, release c σ b =
    { σ with chunkSubReq := req, chunkSubReqTime := time, chunkSubReqCount := count } := by
  unfold release
  split
  case isTrue  => exact ⟨_, _, _, rfl⟩
  case isFalse => exact ⟨_, _, _, rfl⟩

theorem subReq_release :
    (release c σ b).subReq c' s' =
      (σ.subReq c' s' && !decide (c = c' ∧ b / subBlockSize = s')) := by
  unfold release
  split
  case isTrue h =>
    rw [show ((σ.clearRequested c _).clearReqTime c _).subReq = (σ.clearRequested c _).subReq from rfl,
      subReq_clearRequested]
    by_cases he : c = c' ∧ b / subBlockSize = s'
    case pos =>
      obtain ⟨rfl, rfl⟩ := he
      have := List.lt_rowLength_of_entry_ne (t := σ.chunkSubReq) (d := false) (by simpa [subReq] using h)
      simp [this]
    case neg => simp [he]
  case isFalse h =>
    by_cases he : c = c' ∧ b / subBlockSize = s'
    case pos => obtain ⟨rfl, rfl⟩ := he; simpa using h
    case neg => simp [he]

theorem foldl_release_eq (bs : List Nat) : ∃ req time count, bs.foldl (release c) σ =
    { σ with chunkSubReq := req, chunkSubReqTime := time, chunkSubReqCount := count } := by
  induction bs generalizing σ
  case nil => exact ⟨_, _, _, rfl⟩
  case cons b bs hi =>
    have ⟨_, _, _, h⟩ := release_eq (σ := σ) (c := c) (b := b)
    have ⟨_, _, _, h'⟩ := hi (σ := release c σ b)
    rw [List.foldl_cons, h', h]
    exact ⟨_, _, _, rfl⟩

theorem subReq_foldl_release (bs : List Nat) (c' s' : Nat) :
    (bs.foldl (release c) σ).subReq c' s' =
      (σ.subReq c' s' && !decide (c = c' ∧ ∃ b ∈ bs, b / subBlockSize = s')) := by
  induction bs generalizing σ
  case nil => simp
  case cons b bs hi =>
    rw [List.foldl_cons, hi, subReq_release, Bool.and_assoc]
    congr 1
    by_cases hc : c = c' <;> by_cases hb : b / subBlockSize = s' <;> simp [hc, hb]

theorem releaseChunk_eq : ∃ states req time count, releaseChunk σ e =
    { σ with
      chunkStates := states, chunkSubReq := req, chunkSubReqTime := time,
      chunkSubReqCount := count } := by
  unfold releaseChunk
  have ⟨_, _, _, h⟩ := foldl_release_eq (σ := σ) (c := e.1) e.2.elems
  simp only [h]
  split <;> exact ⟨_, _, _, _, rfl⟩

theorem subReq_releaseChunk :
    (releaseChunk σ e).subReq c' s' =
      (σ.subReq c' s' && !decide (e.1 = c' ∧ ∃ b ∈ e.2.elems, b / subBlockSize = s')) := by
  unfold releaseChunk
  have h := subReq_foldl_release (σ := σ) (c := e.1) e.2.elems c' s'
  dsimp only
  split <;> exact h

theorem closed_releaseChunk : (releaseChunk σ e).closed c = σ.closed c := by
  unfold releaseChunk
  have ⟨_, _, _, h⟩ := foldl_release_eq (σ := σ) (c := e.1) e.2.elems
  simp only [h]
  split
  case isTrue hc =>
    rw [closed_of_set (σ := σ) rfl]
    split
    case isTrue he => rw [← he.left]; simpa [closed] using hc.left
    case isFalse   => rfl
  case isFalse => rfl

theorem totalChunks_releaseChunk : (releaseChunk σ e).totalChunks = σ.totalChunks := by
  unfold releaseChunk
  have ⟨_, _, _, h⟩ := foldl_release_eq (σ := σ) (c := e.1) e.2.elems
  simp only [h]
  split
  case isTrue  => exact List.length_set
  case isFalse => rfl

theorem foldl_releaseChunk_eq (es : List (Nat × SortedSet Nat)) :
    ∃ states req time count, es.foldl releaseChunk σ =
      { σ with
        chunkStates := states, chunkSubReq := req, chunkSubReqTime := time,
        chunkSubReqCount := count } := by
  induction es generalizing σ
  case nil => exact ⟨_, _, _, _, rfl⟩
  case cons e es hi =>
    have ⟨_, _, _, _, h⟩ := releaseChunk_eq (σ := σ) (e := e)
    have ⟨_, _, _, _, h'⟩ := hi (σ := releaseChunk σ e)
    rw [List.foldl_cons, h', h]
    exact ⟨_, _, _, _, rfl⟩

theorem subReq_foldl_releaseChunk {es : List (Nat × SortedSet Nat)} :
    (es.foldl releaseChunk σ).subReq c s =
      (σ.subReq c s && !decide (∃ e ∈ es, e.1 = c ∧ ∃ b ∈ e.2.elems, b / subBlockSize = s)) := by
  induction es generalizing σ
  case nil => simp
  case cons e es hi =>
    rw [List.foldl_cons, hi, subReq_releaseChunk, Bool.and_assoc]
    congr 1
    simp only [List.mem_cons, exists_eq_or_imp, Bool.decide_or, Bool.not_or]

theorem closed_foldl_releaseChunk {es : List (Nat × SortedSet Nat)} :
    (es.foldl releaseChunk σ).closed c = σ.closed c := by
  induction es generalizing σ
  case nil => rfl
  case cons e es hi => rw [List.foldl_cons, hi, closed_releaseChunk]

theorem totalChunks_foldl_releaseChunk {es : List (Nat × SortedSet Nat)} :
    (es.foldl releaseChunk σ).totalChunks = σ.totalChunks := by
  induction es generalizing σ
  case nil => rfl
  case cons e es hi => rw [List.foldl_cons, hi, totalChunks_releaseChunk]

-- The state in which `on_peer_removed` has released the requests of the peer.
def released (σ : Scheduler) (slot : Nat) : Scheduler :=
  match σ.peerSlots.find? (·.slotId = slot) with
  | none   => σ
  | some p => p.activeSubBlocks.entries.foldl releaseChunk (σ.withdraw p)

theorem removePeer_eq :
    σ.removePeer slot =
      { σ.released slot with peerSlots := (σ.released slot).peerSlots.filter (·.slotId ≠ slot) } := by
  unfold removePeer released
  rfl

theorem released_eq (slot : Nat) :
    ∃ avail states req time count, σ.released slot =
      { σ with
        availability := avail, chunkStates := states, chunkSubReq := req, chunkSubReqTime := time,
        chunkSubReqCount := count } := by
  unfold released
  split
  case h_1 => exact ⟨_, _, _, _, _, rfl⟩
  case h_2 p _ =>
    have ⟨_, _, _, _, h⟩ := foldl_releaseChunk_eq (σ := σ.withdraw p) p.activeSubBlocks.entries
    rw [h]
    exact ⟨_, _, _, _, _, rfl⟩

@[simp]
theorem peerSlots_released : (σ.released slot).peerSlots = σ.peerSlots := by
  have ⟨_, _, _, _, _, h⟩ := released_eq (σ := σ) slot
  rw [h]

theorem closed_released : (σ.released slot).closed c = σ.closed c := by
  unfold released
  split
  case h_1 => rfl
  case h_2 => exact closed_foldl_releaseChunk

theorem totalChunks_released : (σ.released slot).totalChunks = σ.totalChunks := by
  unfold released
  split
  case h_1 => rfl
  case h_2 => exact totalChunks_foldl_releaseChunk

-- A request that survives the removal of a peer is not owned by that peer.
theorem subReq_released (h : (σ.released slot).subReq c s) :
    σ.subReq c s ∧
      ∀ p, σ.peerSlots.find? (·.slotId = slot) = some p → s * subBlockSize ∉ p.begins c := by
  unfold released at h
  split at h
  case h_1 hn => exact ⟨h, fun p hp => by rw [hn] at hp; cases hp⟩
  case h_2 p hp =>
    rw [subReq_foldl_releaseChunk, Bool.and_eq_true, Bool.not_eq_true', decide_eq_false_iff_not] at h
    refine ⟨h.left, ?_⟩
    intro q hq hb
    rw [hp] at hq
    cases hq
    refine h.right ⟨_, PeerSlot.mem_entries_of_mem_begins hb, rfl, _, hb, ?_⟩
    exact Nat.mul_div_cancel _ (by decide)

end Release

section Peers

-- The slot that `on_peer_added` appends.
def newPeer (σ : Scheduler) (slot speed : Nat) : PeerSlot where
  slotId            := slot
  linkSpeedReported := speed
  linkSpeedMbps     := speed
  remoteBitfield    := .replicate σ.availability.length false

-- What an action does to the peer at position `k`, unless it adds or removes peers.
def onPeer (σ : Scheduler) : Action → Nat → PeerSlot → PeerSlot
  | .setSpeed i speed => fun k p =>
    if k = i then { p with linkSpeedReported := speed, linkSpeedMbps := speed } else p
  | .setChoking i choking => fun k p =>
    if k = i then { p with amChoking := choking } else p
  | .setEval i cap timeouts rtt => fun k p =>
    if k = i then { p with pipelineCap := cap, consecutiveTimeouts := timeouts, rttUs := rtt } else p
  | .setBitfield i bf => fun k p =>
    if k = i then { p with remoteBitfield := bf } else p
  | .recordHave i c => fun k p =>
    if k = i then { p with remoteBitfield := p.remoteBitfield.set c true } else p
  | .arrive i c b => fun k p =>
    if k = i then p.decPending.untrack c b else p
  | .assign i c s _ => fun k p =>
    if k = i then p.track c (s * subBlockSize) else p
  | .dropDone j c b => fun k p =>
    if k = j then p.drop c b else p
  | .move j i c b _ => fun k p =>
    if k = i then (if k = j then p.decPending.untrack c b else p).track c b
    else if k = j then p.decPending.untrack c b else p
  | .redundant c s is => fun k =>
    (·.track c (s * subBlockSize))^[is.count k]
  | .complete c winner => fun _ p =>
    if σ.cancelIssuer then p.cancelChunk c winner else p
  | _ => fun _ p => p

theorem modify_eq_mapIdx {l : List PeerSlot} {f : PeerSlot → PeerSlot} :
    l.modify i f = l.mapIdx fun k p => if k = i then f p else p := by
  apply List.ext_getElem? fun k => ?_
  rw [List.getElem?_modify, List.getElem?_mapIdx, Option.map_eq_map]
  simp only [eq_comm]

theorem mapIdx_const {l : List PeerSlot} {f : PeerSlot → PeerSlot} :
    l.mapIdx (fun _ p => f p) = l.map f := by
  apply List.ext_getElem? fun k => ?_
  rw [List.getElem?_mapIdx, List.getElem?_map]

theorem mapIdx_snd {l : List PeerSlot} : l.mapIdx (fun _ p => p) = l :=
  mapIdx_const.trans (List.map_id' l)

theorem foldl_modify_eq_mapIdx {l : List PeerSlot} {f : PeerSlot → PeerSlot} {is : List Nat} :
    is.foldl (fun l i => l.modify i f) l = l.mapIdx fun k p => f^[is.count k] p := by
  induction is generalizing l
  case nil => simp [mapIdx_snd]
  case cons i is hi =>
    rw [List.foldl_cons, hi, modify_eq_mapIdx, List.mapIdx_mapIdx]
    congr 1
    funext k p
    by_cases hk : k = i
    case pos => simp [hk]
    case neg => simp [hk, Ne.symm hk]

theorem redundant_eq {is : List Nat} :
    σ.apply (.redundant c s is) =
      { σ with peerSlots :=
          is.foldl (fun l i => l.modify i (·.track c (s * subBlockSize))) σ.peerSlots } := by
  simp only [apply]
  induction is generalizing σ
  case nil => rfl
  case cons i is hi => rw [List.foldl_cons, hi]; rfl

@[simp]
theorem peerSlots_markDone : (σ.markDone c s).peerSlots = σ.peerSlots := by
  unfold markDone; split <;> rfl

-- Removing a peer releases its requests and filters it out. All other actions keep the positions
-- of the present peers.
theorem peerSlots_apply :
    (σ.apply a).peerSlots =
      match a with
      | .addPeer slot speed => σ.peerSlots ++ [σ.newPeer slot speed]
      | .removePeer slot    => σ.peerSlots.filter (·.slotId ≠ slot)
      | a                   => σ.peerSlots.mapIdx (σ.onPeer a) := by
  cases a
  case redundant  => exact (congrArg peerSlots redundant_eq).trans foldl_modify_eq_mapIdx
  case removePeer => exact congrArg (List.filter _) peerSlots_released
  case complete =>
    simp only [apply, onPeer, sendCancelForChunk]
    cases σ.cancelIssuer
    case true  => exact mapIdx_const.symm
    case false => exact mapIdx_snd.symm
  case timeout =>
    simp only [apply, onPeer, mapIdx_snd]
    split <;> rfl
  all_goals
    simp only [apply, onPeer, mapIdx_snd, modifyPeer, modify_eq_mapIdx, markRequested,
      List.mapIdx_mapIdx, peerSlots_markDone]
    try rfl

end Peers

section Chunks

theorem closed_or :
    (if c' = c ∧ c < σ.totalChunks then decide (ChunkState.complete = .complete)
      else σ.closed c) = (σ.closed c || decide (c' = c)) := by
  by_cases hc : c' = c
  case pos =>
    by_cases hl : c < σ.totalChunks
    case pos => simp [hc, hl]
    case neg => simp [hl, show σ.closed c from by_contra fun h => hl (lt_totalChunks_of_not_closed h)]
  case neg => simp [hc]

@[simp]
theorem totalChunks_apply : (σ.apply a).totalChunks = σ.totalChunks := by
  cases a
  case removePeer => exact totalChunks_released
  case redundant  => rw [redundant_eq]; rfl
  case arrive     => simp only [apply, markDone]; split <;> rfl
  case timeout    => simp only [apply]; split <;> rfl
  case complete   => simp only [apply, sendCancelForChunk]; split <;> exact List.length_set
  case beginDownload | verifyFailed | markComplete => exact List.length_set
  all_goals rfl

@[simp]
theorem subTotal_apply : (σ.apply a).subTotal = σ.subTotal := by
  cases a
  case removePeer slot =>
    have ⟨_, _, _, _, _, h⟩ := σ.released_eq slot
    simp only [apply, removePeer_eq, h]; rfl
  case redundant => rw [redundant_eq]; rfl
  case arrive    => simp only [apply, markDone]; split <;> rfl
  case timeout   => simp only [apply]; split <;> rfl
  case complete  => simp only [apply, sendCancelForChunk]; split <;> rfl
  all_goals rfl

-- A piece marks its sub-block as done, and only a failed verification unmarks sub-blocks.
theorem subDone_apply :
    (σ.apply a).subDone c s =
      match a with
      | .arrive _ c' b    =>
        σ.subDone c s ||
          decide ((c' = c ∧ b / subBlockSize = s) ∧ s < σ.chunkSubDone.rowLength c)
      | .verifyFailed c'  => σ.subDone c s && c ≠ c'
      | _                 => σ.subDone c s := by
  cases a
  case arrive => exact subDone_markDone
  case removePeer slot =>
    have ⟨_, _, _, _, _, h⟩ := σ.released_eq slot
    simp only [apply, removePeer_eq, h]; rfl
  case redundant => rw [redundant_eq]; rfl
  case timeout   => simp only [apply]; split <;> rfl
  case complete  => simp only [apply, sendCancelForChunk]; split <;> rfl
  case verifyFailed => exact List.entry_clear
  all_goals rfl

theorem rowLength_subDone_apply :
    (σ.apply a).chunkSubDone.rowLength c = σ.chunkSubDone.rowLength c := by
  cases a
  case arrive => exact rowLength_markDone
  case removePeer slot =>
    have ⟨_, _, _, _, _, h⟩ := σ.released_eq slot
    simp only [apply, removePeer_eq, h]
  case redundant    => rw [redundant_eq]
  case timeout      => simp only [apply]; split <;> rfl
  case complete     => simp only [apply, sendCancelForChunk]; split <;> rfl
  case verifyFailed => exact List.rowLength_modify_map
  all_goals rfl

-- Completing a chunk closes it. Starting its download or failing its verification opens it.
theorem closed_apply :
    (σ.apply a).closed c =
      match a with
      | .complete c' _ | .markComplete c'      => σ.closed c || decide (c' = c)
      | .beginDownload c' | .verifyFailed c'   =>
        if c' = c ∧ c < σ.totalChunks then false else σ.closed c
      | _                                      => σ.closed c := by
  cases a
  case removePeer   => exact closed_released
  case redundant    => rw [redundant_eq]; rfl
  case arrive       => simp only [apply, markDone]; split <;> rfl
  case timeout      => simp only [apply]; split <;> rfl
  case markComplete => exact (closed_of_set rfl).trans closed_or
  case complete =>
    refine (closed_of_set ?_).trans closed_or
    simp only [apply, sendCancelForChunk]
    split <;> rfl
  case beginDownload c' => exact closed_of_set (τ := σ.apply (.beginDownload c')) rfl
  case verifyFailed c'  => exact closed_of_set (τ := σ.apply (.verifyFailed c')) rfl
  all_goals rfl

theorem activeChunks_apply :
    (σ.apply a).activeChunks =
      match a with
      | .shuffle order                  => order
      | .complete c _ | .markComplete c => σ.activeChunks.swapRemove c
      | .verifyFailed c                 =>
        if c ∈ σ.activeChunks then σ.activeChunks else σ.activeChunks ++ [c]
      | _                               => σ.activeChunks := by
  cases a
  case removePeer slot =>
    have ⟨_, _, _, _, _, h⟩ := σ.released_eq slot
    simp only [apply, removePeer_eq, h]
  case redundant => rw [redundant_eq]
  case arrive    => simp only [apply, markDone]; split <;> rfl
  case timeout   => simp only [apply]; split <;> rfl
  case complete  => simp only [apply, sendCancelForChunk]; split <;> rfl
  all_goals rfl

theorem subReq_setEntry {τ : Scheduler} (h : τ.chunkSubReq = σ.chunkSubReq.setEntry c' s' true) :
    τ.subReq c s =
      (σ.subReq c s || decide ((c' = c ∧ s' = s) ∧ s < σ.chunkSubReq.rowLength c)) := by
  simp only [subReq, h, List.entry_setEntry]
  split
  case isTrue he  => simp [he]
  case isFalse he => simp [he]

theorem subReq_apply :
    (σ.apply a).subReq c s =
      match a with
      | .assign _ c' s' _ =>
        σ.subReq c s || decide ((c' = c ∧ s' = s) ∧ s < σ.chunkSubReq.rowLength c)
      | .move _ _ c' b _  =>
        σ.subReq c s ||
          decide ((c' = c ∧ b / subBlockSize = s) ∧ s < σ.chunkSubReq.rowLength c)
      | .verifyFailed c'  => σ.subReq c s && c ≠ c'
      | .timeout c' b     => σ.subReq c s && !decide (c' = c ∧ b / subBlockSize = s)
      | .removePeer slot  => (σ.released slot).subReq c s
      | _                 => σ.subReq c s := by
  cases a
  case assign    => exact subReq_setEntry rfl
  case move      => exact subReq_setEntry rfl
  case redundant => rw [redundant_eq]; rfl
  case arrive    => simp only [apply, markDone]; split <;> rfl
  case complete  => simp only [apply, sendCancelForChunk]; split <;> rfl
  case timeout c' b =>
    refine Eq.trans ?_ (subReq_release (σ := σ))
    simp only [apply, release]
    split <;> rfl
  case verifyFailed => exact List.entry_clear
  all_goals rfl

end Chunks

end ThinBT.Scheduler
