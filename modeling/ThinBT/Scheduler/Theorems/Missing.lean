import ThinBT.Scheduler.Theorems.Runs

namespace ThinBT.Scheduler

variable {σ : Scheduler}

-- The number of chunks whose state is not `COMPLETE`.
def openCount (σ : Scheduler) : Nat :=
  σ.chunkStates.countP (· ≠ .complete)

theorem openCount_eq_range : σ.openCount = (List.range σ.totalChunks).countP (!σ.closed ·) := by
  have h : σ.chunkStates = (List.range σ.totalChunks).map (σ.chunkStates.getD · .complete) := by
    apply List.ext_getElem (by simp [totalChunks])
    intro i h _
    simp [List.getElem?_eq_getElem h]
  unfold openCount
  rw [h, List.countP_map]
  refine List.countP_congr fun c _ => ?_
  simp [closed]

theorem openCount_congr {τ : Scheduler} (ht : τ.totalChunks = σ.totalChunks)
    (hc : ∀ c, τ.closed c = σ.closed c) : τ.openCount = σ.openCount := by
  rw [openCount_eq_range, openCount_eq_range, ht]
  exact List.countP_congr fun c _ => by rw [hc]

theorem openCount_pos (h : ¬σ.closed c) : 0 < σ.openCount := by
  rw [openCount_eq_range]
  refine List.countP_pos_iff.mpr ⟨c, ?_, by simpa using h⟩
  exact List.mem_range.mpr (lt_totalChunks_of_not_closed h)

theorem openCount_close {τ : Scheduler} (h : ¬σ.closed c)
    (hs : τ.chunkStates = σ.chunkStates.set c .complete) : τ.openCount + 1 = σ.openCount := by
  have hl := lt_totalChunks_of_not_closed h
  have ho := openCount_pos h
  have hn : σ.chunkStates[c] ≠ .complete := by
    simpa [closed, List.getElem?_eq_getElem hl] using h
  unfold openCount at ho ⊢
  rw [hs, List.countP_set hl, if_pos (by simpa using hn), if_neg (by simp)]
  exact Nat.sub_add_cancel ho

-- An action that keeps the counter exact.
def Exact (σ : Scheduler) : Action → Prop
  | .beginDownload c => ¬σ.closed c
  | .complete c _    => ¬σ.closed c
  | .verifyFailed c  => ¬σ.closed c
  | .markComplete c  => σ.chunkStates[c]? = some .missing
  | _                => True

structure Counted (σ : Scheduler) : Prop where
  missing : σ.missingCount.toNat = σ.openCount
  done    : σ.phase = .done → σ.openCount = 0

theorem Counted.of_eq {τ : Scheduler} (h : σ.Counted) (hm : τ.missingCount = σ.missingCount)
    (hp : τ.phase = σ.phase) (ho : τ.openCount = σ.openCount) : τ.Counted where
  missing := by rw [hm, ho, h.missing]
  done    := by rw [hp, ho]; exact h.done

theorem Counted.close {τ : Scheduler} (h : σ.Counted) (hc : ¬σ.closed c)
    (hm : τ.missingCount = σ.missingCount - 1) (hp : τ.phase = σ.phase)
    (hs : τ.chunkStates = σ.chunkStates.set c .complete) : τ.Counted where
  missing := by
    have ho := openCount_close hc hs
    rw [hm, UInt32.toNat_sub_of_le, h.missing]
    · simp only [UInt32.toNat_one]
      omega
    · rw [UInt32.le_iff_toNat_le, h.missing, UInt32.toNat_one]
      omega
  done hd := by
    have ho := openCount_close hc hs
    have hz := h.done (hp ▸ hd)
    omega

theorem Counted.settlePhase (h : σ.Counted) : σ.settlePhase.Counted where
  missing := h.missing
  done hd := by
    simp only [Scheduler.settlePhase] at hd
    split at hd
    case isTrue hz =>
      have hm := h.missing
      rw [hz] at hm
      exact hm.symm
    case isFalse =>
      split at hd
      case isTrue  => cases hd
      case isFalse => exact h.done hd

-- Only settling changes the phase, and only completing a chunk changes the count.
structure Keeps (σ : Scheduler) (a : Action) (τ : Scheduler) : Prop where
  phase        : (∀ b, a ≠ .settle b) → τ.phase = σ.phase
  missingCount : (∀ c w, a ≠ .complete c w) → (∀ c, a ≠ .markComplete c) →
    τ.missingCount = σ.missingCount

theorem keeps_of_eq {τ : Scheduler} (hp : τ.phase = σ.phase)
    (hm : τ.missingCount = σ.missingCount) : Keeps σ a τ :=
  ⟨fun _ => hp, fun _ _ => hm⟩

theorem keeps_apply : Keeps σ a (σ.apply a) := by
  cases a
  case settle b       => exact ⟨fun h => absurd rfl (h b), fun _ _ => rfl⟩
  case markComplete c => exact ⟨fun _ => rfl, fun _ h => absurd rfl (h c)⟩
  case complete c w   =>
    refine ⟨fun _ => ?_, fun h => absurd rfl (h c w)⟩
    simp only [apply, sendCancelForChunk]
    split <;> rfl
  case removePeer slot =>
    obtain ⟨_, _, _, _, _, he⟩ := σ.released_eq slot
    simp only [apply, removePeer_eq, he]
    exact keeps_of_eq rfl rfl
  case redundant => rw [redundant_eq]; exact keeps_of_eq rfl rfl
  case arrive    => simp only [apply, markDone]; split <;> exact keeps_of_eq rfl rfl
  case timeout   => simp only [apply]; split <;> exact keeps_of_eq rfl rfl
  all_goals exact keeps_of_eq rfl rfl

theorem Counted.apply (h : σ.Counted) (he : σ.Exact a) : (σ.apply a).Counted := by
  cases a
  case settle => exact h.settlePhase
  case complete c w =>
    refine h.close he ?_ (keeps_apply.phase (by simp)) ?_
    all_goals simp only [Scheduler.apply, sendCancelForChunk]; split <;> rfl
  case markComplete c =>
    have hs : σ.chunkStates.getD c .complete = .missing := by
      rw [List.getD_eq_getElem?_getD, he, Option.getD_some]
    refine h.close (c := c) ?_ ?_ rfl rfl
    · rw [closed, hs]; decide
    · simp only [Scheduler.apply, hs, if_true]
  all_goals
    refine h.of_eq (keeps_apply.missingCount (by simp) (by simp)) (keeps_apply.phase (by simp)) ?_
    refine openCount_congr totalChunks_apply fun c => closed_apply.trans ?_
  case beginDownload c' | verifyFailed c' =>
    dsimp only
    split
    case isTrue hc => rw [← hc.left]; exact (Bool.eq_false_of_not_eq_true he).symm
    case isFalse   => rfl
  all_goals rfl

-- An operation that keeps the counter exact: completed and failed chunks were not complete before,
-- no chunk is completed twice, and `mark_all_complete` only meets missing or complete chunks.
def Fits (σ : Scheduler) : Op → Prop
  | .processCompletions msgs =>
    (msgs.map (·.chunkIdx)).Nodup ∧ ∀ m ∈ msgs, ¬σ.closed m.chunkIdx
  | .onVerifyFailed c        => ¬σ.closed c
  | .markAllComplete bf      =>
    ∀ c < σ.totalChunks, bf.getD c false → ¬σ.closed c → σ.chunkStates[c]? = some .missing
  | _                        => True

instance : (op : Op) → Decidable (Fits σ op)
  | .processCompletions msgs =>
    inferInstanceAs (Decidable ((msgs.map (·.chunkIdx)).Nodup ∧ ∀ m ∈ msgs, ¬σ.closed m.chunkIdx))
  | .onVerifyFailed c        => inferInstanceAs (Decidable (¬σ.closed c))
  | .markAllComplete bf      => inferInstanceAs (Decidable (∀ c < σ.totalChunks,
      bf.getD c false → ¬σ.closed c → σ.chunkStates[c]? = some .missing))
  | .setCancelIssuer | .setNotInterestedIssuer | .onBitfield .. | .onHave .. | .onPeerSpeed ..
  | .onPeerRemoved _ | .onChokeChange .. | .evalTick .. | .decPeerPending .. | .tick _
  | .onSubblockTimeout .. | .onPeerAdded .. | .randomizePieceOrder _ => .isTrue trivial

theorem Traffic.exact (h : σ.Traffic a) : σ.Exact a := by
  cases a <;> trivial

abbrev AllExact (σ : Scheduler) : List Action → Prop :=
  Actions.AllAt apply Exact σ

theorem exact_processCompletions (hn : (msgs.map (·.chunkIdx)).Nodup)
    (hc : ∀ m ∈ msgs, ¬σ.closed m.chunkIdx) (σ' : Scheduler) :
    σ.AllExact (processCompletions msgs σ') := by
  refine Actions.allAt_append.mpr ⟨?_, trivial, trivial⟩
  refine Actions.allAt_of_pairwise (List.pairwise_map.mpr ?_) (List.forall_mem_map.mpr hc)
  refine (List.pairwise_map.mp hn).imp ?_
  intro m m' hne σ (ho : ¬σ.closed m'.chunkIdx) hc'
  rw [closed_apply] at hc'
  exact (Bool.or_eq_true_iff.mp hc').elim ho fun he => hne (of_decide_eq_true he)

theorem exact_markComplete {cs : List Nat} (h : ∀ c ∈ cs, σ.chunkStates[c]? = some .missing)
    (hn : cs.Nodup) : σ.AllExact (cs.map .markComplete ++ [.settle false]) := by
  refine Actions.allAt_append.mpr ⟨?_, trivial, trivial⟩
  refine Actions.allAt_of_pairwise (List.pairwise_map.mpr (hn.imp ?_)) (List.forall_mem_map.mpr h)
  exact fun hne σ ho => (List.getElem?_set_ne hne).trans ho

theorem exact_markAllComplete (h : σ.Fits (.markAllComplete bf)) :
    σ.AllExact (markAllComplete bf σ) := by
  refine exact_markComplete ?_ (List.nodup_range.filter _)
  intro c hc
  have ⟨hr, hf⟩ := List.mem_filter.mp hc
  simp only [Bool.and_eq_true, Bool.not_eq_true'] at hf
  exact h c (List.mem_range.mp hr) hf.left (by simp [hf.right])

theorem exact_actions {std : StdSort} (hf : σ.Fits op) :
    σ.AllExact (actions std op σ) := by
  cases op
  case processCompletions => exact exact_processCompletions hf.left hf.right σ
  case markAllComplete    => exact exact_markAllComplete hf
  case onVerifyFailed     => exact ⟨hf, trivial⟩
  case onBitfield         => exact reaction_onBitfield.traffic.mono fun _ _ => Traffic.exact
  case onHave             => exact reaction_onHave.traffic.mono fun _ _ => Traffic.exact
  case decPeerPending     => exact reaction_decPeerPending.traffic.mono fun _ _ => Traffic.exact
  case tick               => exact traffic_tick.mono fun _ _ => Traffic.exact
  case onSubblockTimeout  =>
    simp only [actions, onSubblockTimeout]
    split <;> simp [Exact]
  case onPeerSpeed | onChokeChange | evalTick =>
    simp only [actions, onSlot]
    cases σ.peerSlot _ <;> simp [Exact]
  all_goals exact ⟨trivial, trivial⟩

theorem Counted.run {std : StdSort} (h : σ.Counted) (hf : AllOps std Fits σ ops) :
    (run std σ ops).Counted :=
  Actions.invariant_of_run (fun _ _ => Counted.apply) (fun _ _ _ => exact_actions) h hf

theorem counted_start : (start total speed sizes).Counted where
  missing := by
    simp only [start, setChunkSizes, init, openCount, List.countP_replicate]
    rfl
  done h := by cases h

-- As long as all operations fit, the counter is exact and the phase is only done at the end.
theorem missing_count_exact {std : StdSort} (hf : AllOps std Fits (start total speed sizes) ops) :
    (run std (start total speed sizes) ops).missingCount.toNat =
        (run std (start total speed sizes) ops).openCount ∧
      ((run std (start total speed sizes) ops).phase = .done →
        ∀ st ∈ (run std (start total speed sizes) ops).chunkStates, st = .complete) := by
  have h : (run std (start total speed sizes) ops).Counted :=
    Actions.invariant_of_run (fun _ _ => Counted.apply) (fun _ _ _ => exact_actions) counted_start hf
  refine ⟨h.missing, fun hd st hs => ?_⟩
  have hz := List.countP_eq_zero.mp (h.done hd) st hs
  simpa using hz

-- A download with a failed verification that ends in the done phase.
def retriedDownload : List Op := [
  .onPeerAdded 1 1000, .onBitfield 1 [true, true] 5, .onChokeChange 1 false, .tick 10,
  .decPeerPending 1 0 0 12, .processCompletions [⟨0, 1⟩], .onVerifyFailed 1,
  .tick 20, .decPeerPending 1 1 0 30, .processCompletions [⟨1, 1⟩]
]

theorem retriedDownload_missing_count :
    (run .stable (start 2 1000 [16384, 100]) retriedDownload).missingCount.toNat =
        (run .stable (start 2 1000 [16384, 100]) retriedDownload).openCount ∧
      ((run .stable (start 2 1000 [16384, 100]) retriedDownload).phase = .done →
        ∀ st ∈ (run .stable (start 2 1000 [16384, 100]) retriedDownload).chunkStates,
          st = .complete) :=
  missing_count_exact (by decide +kernel)

-- A completion that is reported twice is counted twice. The download ends without its second chunk.
theorem duplicate_completion_ends_download :
    (run .stable (start 2 1000 [16384, 100]) [.processCompletions [⟨0, 1⟩, ⟨0, 2⟩]]).missingCount = 0 ∧
      (run .stable (start 2 1000 [16384, 100])
        [.processCompletions [⟨0, 1⟩, ⟨0, 2⟩]]).openCount = 1 ∧
      (run .stable (start 2 1000 [16384, 100])
        [.processCompletions [⟨0, 1⟩, ⟨0, 2⟩]]).phase = .done := by
  decide +kernel

end ThinBT.Scheduler
